import LevelDb.Proof.Writers
import Mathlib.Data.List.Perm.Basic

/-!
# Concurrent writes are made one after the other

Writers queue, a leader writes a group of batches, memtables are switched and flushed in between.
In the order in which they return, the batches have consecutive numbers and each is whole in its
families' memtables: what the memtables of a family hold up to the last number is what the batches
leave one at a time (`linearizable`). A write that has returned comes before any that starts later.

A group whose records are in the memtables and that is not closed yet is beyond the last number, so
no reader sees part of it. `Serial` carries this through the steps; it says of each memtable whose it
is (`owner`), which the state does not after a flush.
-/

namespace LevelDb.Clients

variable {K V : Type}

/-! ## Groups -/

theorem buildBatchGroup_append {seq : Nat} {xs ys : List (Writer K V)} :
    buildBatchGroup seq (xs ++ ys) =
      buildBatchGroup seq xs ++ buildBatchGroup (seq + (xs.map (·.batch.length)).sum) ys := by
  induction xs generalizing seq with
  | nil => simp [buildBatchGroup]
  | cons x xs ih => simp [buildBatchGroup, ih, Nat.add_assoc]

theorem sequence_numbered {writer seq : Nat} {batch : List (Nat × Record K V)} {item : Item K V}
    (h : item ∈ numbered writer seq batch) :
    seq ≤ item.sequence ∧ item.sequence < seq + batch.length := by
  induction batch generalizing seq with
  | nil => cases h
  | cons c batch ih =>
    rw [List.length_cons]
    obtain rfl | h := List.mem_cons.1 h
    · exact ⟨Nat.le_refl _, Nat.lt_add_of_pos_right (Nat.succ_pos _)⟩
    · have := ih h
      omega

/-- The numbers of a group are those of its records in sequence. -/
theorem sequence_buildBatchGroup {seq : Nat} {ws : List (Writer K V)} {item : Item K V}
    (h : item ∈ buildBatchGroup seq ws) :
    seq ≤ item.sequence ∧ item.sequence < seq + (ws.map (·.batch.length)).sum := by
  induction ws generalizing seq with
  | nil => cases h
  | cons w ws ih =>
    rw [List.map_cons, List.sum_cons]
    obtain h | h := List.mem_append.1 h
    · have := sequence_numbered h
      omega
    · have := ih h
      omega

theorem mem_batch_of_numbered {writer seq : Nat} {batch : List (Nat × Record K V)}
    {item : Item K V} (h : item ∈ numbered writer seq batch) : ∃ r ∈ batch, r.1 = item.family := by
  induction batch generalizing seq with
  | nil => cases h
  | cons c batch ih =>
    obtain rfl | h := List.mem_cons.1 h
    · exact ⟨c, List.mem_cons_self, rfl⟩
    · obtain ⟨r, hr, heq⟩ := ih h
      exact ⟨r, List.mem_cons_of_mem c hr, heq⟩

theorem mem_batch_of_group {seq : Nat} {ws : List (Writer K V)} {item : Item K V}
    (h : item ∈ buildBatchGroup seq ws) : ∃ w ∈ ws, ∃ r ∈ w.batch, r.1 = item.family := by
  induction ws generalizing seq with
  | nil => cases h
  | cons c ws ih =>
    obtain h | h := List.mem_append.1 h
    · exact ⟨c, List.mem_cons_self, mem_batch_of_numbered h⟩
    · obtain ⟨w, hw, hr⟩ := ih h
      exact ⟨w, List.mem_cons_of_mem c hw, hr⟩

/-- **An insert** appends to each memtable the records of the families it is captured for. -/
theorem insertInto_eq {mems : Nat → Option MemRef} {contents : MemRef → List (Applied K V)}
    {items : List (Item K V)} {m : MemRef} :
    insertInto mems contents items m =
      contents m ++ (items.filter fun item => mems item.family = some m).map (·.toApplied) := by
  induction items generalizing contents with
  | nil => simp [insertInto]
  | cons c items ih =>
    rw [insertInto]
    cases hfamily : mems c.family with
    | none => simp [ih, hfamily]
    | some m' =>
      by_cases hm : m' = m
      · subst hm
        simp [ih, hfamily]
      · simp [ih, hfamily, hm, Function.update_of_ne (Ne.symm hm)]

namespace State

variable {s s' : State K V} {owner : MemRef → Nat} {family : Nat} {m : MemRef}

/-! ## The memtables of a family -/

theorem mem_tables : m ∈ s.tables owner family ↔ m.id < s.nextMem ∧ owner m = family := by
  simp only [tables, List.mem_filter, List.mem_map, List.mem_range, decide_eq_true_eq]
  constructor
  · rintro ⟨⟨i, hi, rfl⟩, howner⟩
    exact ⟨hi, howner⟩
  · intro h
    exact ⟨⟨m.id, h.1, rfl⟩, h.2⟩

/-- A new memtable comes last. -/
theorem tables_succ (hnext : s'.nextMem = s.nextMem + 1) (new : Nat) :
    s'.tables (Function.update owner ⟨s.nextMem⟩ new) family =
      s.tables owner family ++ if new = family then [⟨s.nextMem⟩] else [] := by
  unfold tables
  rw [hnext, List.range_succ, List.map_append, List.filter_append]
  congr 1
  · refine List.filter_congr fun m hm => ?_
    obtain ⟨i, hi, rfl⟩ := List.mem_map.1 hm
    have hne : (⟨i⟩ : MemRef) ≠ ⟨s.nextMem⟩ := by
      simpa using (List.mem_range.1 hi).ne
    rw [Function.update_of_ne hne]
  · by_cases hnew : new = family <;> simp [hnew]

/-- The memtable is the newest of its family. -/
def Newest (s : State K V) (owner : MemRef → Nat) (family : Nat) (m : MemRef) : Prop :=
  m ∈ s.tables owner family ∧ ∀ m' ∈ s.tables owner family, m'.id ≤ m.id

/-- The newest memtable is the last one. -/
theorem Newest.concat (h : s.Newest owner family m) :
    ∃ older, s.tables owner family = older ++ [m] ∧ m ∉ older := by
  obtain ⟨hm, hlast⟩ := h
  obtain ⟨hlt, howner⟩ := mem_tables.1 hm
  obtain ⟨k, hk⟩ : ∃ k, s.nextMem = m.id + 1 + k := ⟨s.nextMem - (m.id + 1), by omega⟩
  refine ⟨((List.range m.id).map MemRef.mk).filter fun m => owner m = family, ?_, ?_⟩
  · unfold tables
    rw [hk, List.range_add, List.range_succ, List.map_append, List.map_append, List.filter_append,
      List.filter_append]
    have hrest : (((List.range k).map (m.id + 1 + ·)).map MemRef.mk).filter
        (fun m => decide (owner m = family)) = [] := by
      refine List.filter_eq_nil_iff.2 fun m' hm' => ?_
      simp only [List.mem_map, List.mem_range] at hm'
      obtain ⟨-, ⟨i, hi, rfl⟩, rfl⟩ := hm'
      rw [decide_eq_true_iff]
      intro hfamily
      have hle : m.id + 1 + i ≤ m.id := hlast ⟨_⟩ (mem_tables.2 ⟨by simp [hk]; omega, hfamily⟩)
      omega
    rw [hrest, List.append_nil]
    congr 1
    simp [howner]
  · intro hin
    simp only [List.mem_filter, List.mem_map, List.mem_range] at hin
    obtain ⟨⟨i, hi, rfl⟩, -⟩ := hin
    exact absurd hi (Nat.lt_irrefl _)

/-! ## What a step keeps -/

/-- The writers whose records are in: those that returned, and the group once it has inserted. -/
def written (s : State K V) : List (Writer K V) :=
  s.committed ++ s.group.elim [] fun g => if g.inserted then g.writers else []

/-- The memtables hold the batches that were written, one after the other. -/
structure Serial (s : State K V) (owner : MemRef → Nat) : Prop where
  last : s.lastSequence = (s.committed.map (·.batch.length)).sum
  next : ∀ g, s.group = some g → g.sequence = s.lastSequence + 1
  owned : ∀ (family : Nat) (slot : Slot), s.families[family]? = some slot → ∀ m ∈ slot.pins,
    m ∈ s.tables owner family
  newest : ∀ (family : Nat) (slot : Slot) m, s.families[family]? = some slot → slot.mem = some m →
    s.Newest owner family m
  captured : ∀ g, s.group = some g → g.inserted = false → ∀ family m, g.mems family = some m →
    s.Newest owner family m
  known : ∀ m, m.id < s.nextMem → owner m < s.families.length
  unused : ∀ m, s.nextMem ≤ m.id → s.contents m = []
  held : ∀ family, (s.tables owner family).flatMap s.contents = serially s.written family

/-- Steps that insert nothing and take no new memtable. -/
theorem Serial.congr (h : s.Serial owner) (hreturned : s'.committed = s.committed)
    (hgroup : s'.group = s.group) (hlast : s'.lastSequence = s.lastSequence)
    (hcontents : s'.contents = s.contents) (hnext : s'.nextMem = s.nextMem)
    (hlength : s.families.length ≤ s'.families.length)
    (hfamilies : ∀ (family : Nat) (slot' : Slot), s'.families[family]? = some slot' →
      ∃ slot : Slot, s.families[family]? = some slot ∧
        (∀ m, slot'.mem = some m → slot.mem = some m) ∧ ∀ m ∈ slot'.pins, m ∈ slot.pins) :
    s'.Serial owner := by
  have htables : ∀ family, s'.tables owner family = s.tables owner family := by
    intro family
    simp only [tables, hnext]
  have hnewest : ∀ {family m}, s.Newest owner family m → s'.Newest owner family m := by
    intro family m hm
    rw [Newest, htables]
    exact hm
  constructor
  · rw [hlast, hreturned, h.last]
  · rw [hgroup, hlast]
    exact h.next
  · intro family slot' hslot' m hm
    obtain ⟨slot, hslot, -, hpins⟩ := hfamilies family slot' hslot'
    rw [htables]
    exact h.owned family slot hslot m (hpins m hm)
  · intro family slot' m hslot' hm
    obtain ⟨slot, hslot, hmem, -⟩ := hfamilies family slot' hslot'
    exact hnewest (h.newest family slot m hslot (hmem m hm))
  · intro g hg hinserted family m hm
    rw [hgroup] at hg
    exact hnewest (h.captured g hg hinserted family m hm)
  · intro m hm
    rw [hnext] at hm
    exact (h.known m hm).trans_le hlength
  · rw [hcontents, hnext]
    exact h.unused
  · intro family
    rw [htables, hcontents, h.held, written, written, hreturned, hgroup]

/-- A family takes a new memtable, or a new family its first. -/
theorem Serial.born (h : s.Serial owner) (new : Nat) (hreturned : s'.committed = s.committed)
    (hgroup : s'.group = s.group) (hlast : s'.lastSequence = s.lastSequence)
    (hcontents : s'.contents = s.contents) (hnext : s'.nextMem = s.nextMem + 1)
    (hlength : s.families.length ≤ s'.families.length) (hnew : new < s'.families.length)
    (hmems : ∀ g, s.group = some g → g.inserted = false → g.mems new = none)
    (hother : ∀ family, family ≠ new → s'.families[family]? = s.families[family]?)
    (hslot : ∀ slot' : Slot, s'.families[new]? = some slot' → slot'.mem = some ⟨s.nextMem⟩ ∧
      ∀ m ∈ slot'.pins, m = ⟨s.nextMem⟩ ∨ m ∈ s.tables owner new) :
    s'.Serial (Function.update owner ⟨s.nextMem⟩ new) := by
  have htables : ∀ family, s'.tables (Function.update owner ⟨s.nextMem⟩ new) family =
      s.tables owner family ++ if new = family then [⟨s.nextMem⟩] else [] :=
    fun _ => tables_succ hnext new
  have hmono : ∀ {family m}, m ∈ s.tables owner family →
      m ∈ s'.tables (Function.update owner ⟨s.nextMem⟩ new) family := by
    intro family m hm
    rw [htables]
    exact List.mem_append_left _ hm
  have hnewest : ∀ {family m}, family ≠ new → s.Newest owner family m →
      s'.Newest (Function.update owner ⟨s.nextMem⟩ new) family m := by
    intro family m hne hm
    rw [Newest, htables, if_neg (Ne.symm hne), List.append_nil]
    exact hm
  constructor
  · rw [hlast, hreturned, h.last]
  · rw [hgroup, hlast]
    exact h.next
  · intro family slot' hslot' m hm
    by_cases hfamily : family = new
    · subst hfamily
      obtain rfl | hm := (hslot slot' hslot').2 m hm
      · simp [htables]
      · exact hmono hm
    · rw [hother family hfamily] at hslot'
      exact hmono (h.owned family slot' hslot' m hm)
  · intro family slot' m hslot' hm
    by_cases hfamily : family = new
    · subst hfamily
      rw [(hslot slot' hslot').1] at hm
      obtain rfl := Option.some.inj hm
      refine ⟨by simp [htables], fun m' hm' => ?_⟩
      have := (mem_tables.1 hm').1
      rw [hnext] at this
      exact Nat.le_of_lt_succ this
    · rw [hother family hfamily] at hslot'
      exact hnewest hfamily (h.newest family slot' m hslot' hm)
  · intro g hg hinserted family m hm
    rw [hgroup] at hg
    refine hnewest ?_ (h.captured g hg hinserted family m hm)
    rintro rfl
    rw [hmems g hg hinserted] at hm
    cases hm
  · intro m hm
    by_cases heq : m = ⟨s.nextMem⟩
    · rw [heq, Function.update_self]
      exact hnew
    · have hne : m.id ≠ s.nextMem := fun hid => heq (by cases m; simp_all)
      rw [Function.update_of_ne heq]
      exact (h.known m (by omega)).trans_le hlength
  · intro m hm
    rw [hcontents]
    exact h.unused m (by omega)
  · intro family
    have hempty : s.contents ⟨s.nextMem⟩ = [] := h.unused _ (Nat.le_refl _)
    have hsame : s'.written = s.written := by rw [written, written, hreturned, hgroup]
    rw [htables, hcontents, List.flatMap_append, h.held, hsame]
    by_cases hfamily : new = family <;> simp [hfamily, hempty]

theorem serially_append {xs ys : List (Writer K V)} :
    serially (xs ++ ys) family = serially xs family ++
      ((buildBatchGroup ((xs.map (·.batch.length)).sum + 1) ys).filter
        fun item => item.family = family).map (·.toApplied) := by
  rw [serially, buildBatchGroup_append, List.filter_append, List.map_append, Nat.add_comm 1]
  rfl

/-- **The group's records** go to the newest memtables of their families. -/
theorem Serial.held_insert (h : s.Serial owner) {g : Group K V} (hg : s.group = some g)
    (hinserted : g.inserted = false)
    (hmems : ∀ w ∈ g.writers, ∀ r ∈ w.batch, (g.mems r.1).isSome) (family : Nat) :
    (s.tables owner family).flatMap
        (insertInto g.mems s.contents (buildBatchGroup g.sequence g.writers)) =
      (s.tables owner family).flatMap s.contents ++
        ((buildBatchGroup g.sequence g.writers).filter
          fun item => item.family = family).map (·.toApplied) := by
  -- a memtable that is not captured for the family gets nothing
  have hother : ∀ m ∈ s.tables owner family, g.mems family ≠ some m →
      insertInto g.mems s.contents (buildBatchGroup g.sequence g.writers) m = s.contents m := by
    intro m hm hne
    have hnone : (buildBatchGroup g.sequence g.writers).filter
        (fun item => decide (g.mems item.family = some m)) = [] := by
      refine List.filter_eq_nil_iff.2 fun item _ hmem => ?_
      have hmem' : g.mems item.family = some m := by simpa using hmem
      have howner := (mem_tables.1 (h.captured g hg hinserted _ _ hmem').1).2
      rw [(mem_tables.1 hm).2] at howner
      exact hne (howner ▸ hmem')
    rw [insertInto_eq, hnone, List.map_nil, List.append_nil]
  cases hfamily : g.mems family with
  | none =>
    have hnone : (buildBatchGroup g.sequence g.writers).filter
        (fun item => decide (item.family = family)) = [] := by
      refine List.filter_eq_nil_iff.2 fun item hitem hmem => ?_
      obtain ⟨w, hw, r, hr, heq⟩ := mem_batch_of_group hitem
      have hsome := hmems w hw r hr
      rw [heq, of_decide_eq_true hmem, hfamily] at hsome
      cases hsome
    rw [hnone, List.map_nil, List.append_nil]
    exact List.flatMap_congr fun m hm => hother m hm (by simp [hfamily])
  | some m =>
    have hnewest := h.captured g hg hinserted family m hfamily
    obtain ⟨older, htables, hnot⟩ := hnewest.concat
    have hfilter : (buildBatchGroup g.sequence g.writers).filter
        (fun item => decide (g.mems item.family = some m)) =
        (buildBatchGroup g.sequence g.writers).filter fun item => decide (item.family = family) := by
      refine List.filter_congr fun item _ => ?_
      rw [Bool.eq_iff_iff, decide_eq_true_iff, decide_eq_true_iff]
      constructor
      · intro hmem
        have howner := (mem_tables.1 (h.captured g hg hinserted _ _ hmem).1).2
        rw [← howner, (mem_tables.1 hnewest.1).2]
      · intro hitem
        rw [hitem, hfamily]
    have hsame : older.flatMap (insertInto g.mems s.contents
        (buildBatchGroup g.sequence g.writers)) = older.flatMap s.contents := by
      refine List.flatMap_congr fun m' hm' => hother m' ?_ ?_
      · rw [htables]
        exact List.mem_append_left _ hm'
      · intro heq
        rw [hfamily] at heq
        obtain rfl := Option.some.inj heq
        exact hnot hm'
    rw [htables, List.flatMap_append, List.flatMap_append, hsame, List.append_assoc]
    simp only [List.flatMap_cons, List.flatMap_nil, List.append_nil]
    rw [insertInto_eq, hfilter]

theorem Serial.insert (h : s.Serial owner) {g : Group K V} (hg : s.group = some g)
    (hinserted : g.inserted = false)
    (hmems : ∀ w ∈ g.writers, ∀ r ∈ w.batch, (g.mems r.1).isSome) :
    State.Serial { s with
      group := some { g with inserted := true }
      contents := insertInto g.mems s.contents (buildBatchGroup g.sequence g.writers) } owner := by
  refine ⟨h.last, fun g' hg' => ?_, h.owned, h.newest, fun g' hg' hfalse => ?_, h.known,
    fun m hm => ?_, fun family => ?_⟩
  · cases hg'
    exact h.next g hg
  · cases hg'
    cases hfalse
  · have hnone : (buildBatchGroup g.sequence g.writers).filter
        (fun item => decide (g.mems item.family = some m)) = [] := by
      refine List.filter_eq_nil_iff.2 fun item _ hmem => ?_
      have hcaptured := h.captured g hg hinserted item.family m (by simpa using hmem)
      exact absurd (mem_tables.1 hcaptured.1).1 (Nat.not_lt.2 hm)
    show insertInto _ _ _ m = []
    rw [insertInto_eq, h.unused m hm, hnone]
    rfl
  · have hold : s.written = s.committed := by simp [written, hg, hinserted]
    have hnew : State.written { s with
        group := some { g with inserted := true }
        contents := insertInto g.mems s.contents (buildBatchGroup g.sequence g.writers) } =
        s.committed ++ g.writers := rfl
    rw [hnew, serially_append, ← h.last, ← h.next g hg, ← hold, ← h.held]
    exact h.held_insert hg hinserted hmems family

/-- **The group returns** in its order. -/
theorem Serial.close (h : s.Serial owner) {g : Group K V} (hg : s.group = some g)
    (hinserted : g.inserted = true) :
    State.Serial { s with
      group := none
      lastSequence := s.lastSequence + (g.writers.map (·.batch.length)).sum
      returned := s.returned ++ g.writers.map fun w => ⟨w, .ok, some g.mems⟩ } owner := by
  have hcommitted : State.committed { s with
      group := none
      lastSequence := s.lastSequence + (g.writers.map (·.batch.length)).sum
      returned := s.returned ++ g.writers.map fun w => ⟨w, .ok, some g.mems⟩ } =
      s.committed ++ g.writers := by
    simp [committed, List.filter_map, Function.comp_def]
  refine ⟨?_, fun g' hg' => ?_, h.owned, h.newest, fun g' hg' => ?_, h.known, h.unused,
    fun family => ?_⟩
  · rw [hcommitted, List.map_append, List.sum_append, ← h.last]
  · cases hg'
  · cases hg'
  · have hwritten : s.written = s.committed ++ g.writers := by simp [written, hg, hinserted]
    rw [written, hcommitted, Option.elim_none, List.append_nil, ← hwritten, ← h.held]
    rfl

/-- **A step keeps the batches in sequence.** -/
theorem Serial.step (h : s.Serial owner) (hk : s.Kept) {a : Action K V}
    (hstep : s.step a = some s') : ∃ owner', s'.Serial owner' := by
  cases stepped_of_step hstep with
  | createColumnFamily name hasMergeOperator =>
    refine ⟨_, h.born s.families.length rfl rfl rfl rfl rfl (by simp) (by simp) ?_ ?_ ?_⟩
    · intro g hg hinserted
      refine Option.eq_none_iff_forall_ne_some.2 fun m hm => ?_
      obtain ⟨hlt, howner⟩ := mem_tables.1 (h.captured g hg hinserted _ m hm).1
      exact absurd (h.known m hlt) (by omega)
    · intro family hne
      by_cases hlt : family < s.families.length
      · exact List.getElem?_append_left hlt
      · have hle : s.families.length + 1 ≤ family := by omega
        exact (List.getElem?_eq_none (by simpa using hle)).trans
          (List.getElem?_eq_none (by omega)).symm
    · intro slot hslot
      rw [List.getElem?_concat_length] at hslot
      obtain rfl := Option.some.inj hslot
      exact ⟨rfl, by simp [Slot.pins]⟩
  | @refused batch status hcheck =>
    refine ⟨owner, h.congr ?_ rfl rfl rfl rfl (Nat.le_refl _) fun _ slot hslot =>
      ⟨slot, hslot, fun _ hm => hm, fun _ hm => hm⟩⟩
    simp [committed, check_ne_ok hcheck]
  | @switchMemTable family slot hslot hgroup himm =>
    obtain ⟨hget, -⟩ := live?_eq_some.1 hslot
    have hlt := (List.getElem?_eq_some_iff.1 hget).1
    refine ⟨_, h.born family rfl rfl rfl rfl rfl (by simp) (by simpa using hlt) ?_ ?_ ?_⟩
    · intro g hg
      rw [hgroup] at hg
      cases hg
    · intro family' hne
      exact List.getElem?_set_ne (Ne.symm hne)
    · intro slot' hslot'
      rw [List.getElem?_set_self hlt] at hslot'
      obtain rfl := Option.some.inj hslot'
      refine ⟨rfl, fun m hm => ?_⟩
      simp only [Slot.pins, Option.toList_some, List.singleton_append, List.mem_cons,
        Option.mem_toList] at hm
      refine hm.imp id fun hm => h.owned family slot hget m ?_
      simp [Slot.pins, hm]
  | @compactMemTable family slot hslot =>
    obtain ⟨hget, -⟩ := live?_eq_some.1 hslot
    refine ⟨owner, h.congr rfl rfl rfl rfl rfl (by simp) fun family' slot' hslot' => ?_⟩
    by_cases heq : family = family'
    · subst heq
      rw [List.getElem?_set_self (List.getElem?_eq_some_iff.1 hget).1] at hslot'
      obtain rfl := Option.some.inj hslot'
      refine ⟨slot, hget, fun _ hm => hm, fun m hm => ?_⟩
      simp only [Slot.pins, Option.toList_none, List.append_nil] at hm
      exact List.mem_append_left _ hm
    · rw [List.getElem?_set_ne heq] at hslot'
      exact ⟨slot', hslot', fun _ hm => hm, fun _ hm => hm⟩
  | capture hgroup =>
    refine ⟨owner, h.last, fun g hg => ?_, h.owned, h.newest, fun g hg _ family m hm => ?_,
      h.known, h.unused, fun family => ?_⟩
    · cases hg
      rfl
    · cases hg
      obtain ⟨slot, hslot, hmem⟩ := Option.bind_eq_some_iff.1 hm
      exact h.newest family slot m (live?_eq_some.1 hslot).1 hmem
    · have hsame : s.written = s.committed := by simp [written, hgroup]
      refine (h.held family).trans ?_
      rw [hsame]
      simp [written, committed]
  | @insert g hg hinserted => exact ⟨owner, h.insert hg hinserted (hk.captured g hg)⟩
  | @close g hg hinserted => exact ⟨owner, h.close hg hinserted⟩
  | @drop i family slot hfamily hget =>
    refine ⟨owner, h.congr rfl rfl rfl rfl rfl (by simp) fun family' slot' hslot' => ?_⟩
    by_cases heq : family = family'
    · subst heq
      rw [List.getElem?_set_self (List.getElem?_eq_some_iff.1 hget).1] at hslot'
      obtain rfl := Option.some.inj hslot'
      exact ⟨slot, hget, by simp, by simp [Slot.pins]⟩
    · rw [List.getElem?_set_ne heq] at hslot'
      exact ⟨slot', hslot', fun _ hm => hm, fun _ hm => hm⟩
  | _ =>
    exact ⟨owner, h.congr rfl rfl rfl rfl rfl (Nat.le_refl _) fun _ slot hslot =>
      ⟨slot, hslot, fun _ hm => hm, fun _ hm => hm⟩⟩

/-! ## Each write once -/

/-- A write is in one place: checked, queued, in the group, or returned. -/
structure Once (s : State K V) : Prop where
  nodup : ((s.underway ++ s.committed).map (·.id)).Nodup
  lt : ∀ w ∈ s.underway ++ s.committed, w.id < s.nextWriter

theorem Once.of_perm (h : s.Once)
    (hperm : (s'.underway ++ s'.committed).Perm (s.underway ++ s.committed))
    (hnext : s.nextWriter ≤ s'.nextWriter) : s'.Once where
  nodup := (hperm.map (·.id)).nodup_iff.2 h.nodup
  lt w hw := (h.lt w (hperm.mem_iff.1 hw)).trans_le hnext

theorem Once.step (h : s.Once) {a : Action K V} (hstep : s.step a = some s') : s'.Once := by
  cases stepped_of_step hstep with
  | @refused batch status hcheck =>
    refine h.of_perm (.of_eq ?_) (Nat.le_succ _)
    simp [underway, committed, check_ne_ok hcheck]
  | @checked batch hcheck =>
    have hperm : (State.underway { s with
        nextWriter := s.nextWriter + 1, checked := s.checked ++ [⟨s.nextWriter, batch⟩] } ++
          s.committed).Perm (⟨s.nextWriter, batch⟩ :: (s.underway ++ s.committed)) := by
      simp only [underway, List.append_assoc, List.singleton_append]
      exact List.perm_middle
    constructor
    · refine (hperm.map (·.id)).nodup_iff.2 (List.nodup_cons.2 ⟨fun hin => ?_, h.nodup⟩)
      obtain ⟨w, hw, heq⟩ := List.mem_map.1 hin
      exact absurd heq (h.lt w hw).ne
    · intro w hw
      obtain rfl | hw := List.mem_cons.1 (hperm.mem_iff.1 hw)
      · exact Nat.lt_succ_self _
      · exact (h.lt w hw).trans (Nat.lt_succ_self _)
  | @enqueue i w hi =>
    refine h.of_perm (.append_right _ ?_) (Nat.le_refl _)
    obtain ⟨hlt, rfl⟩ := List.getElem?_eq_some_iff.1 hi
    simp only [underway, List.append_assoc]
    have hsplit : (s.checked[i] :: s.checked.eraseIdx i).Perm s.checked :=
      List.getElem_cons_eraseIdx_perm hlt
    refine .trans ?_ (hsplit.append_right _)
    rw [List.cons_append, ← List.append_assoc, ← List.append_assoc]
    exact List.perm_middle
  | @capture n hgroup =>
    refine h.of_perm (.append_right _ ?_) (Nat.le_refl _)
    simp only [underway, hgroup, Option.elim_none, Option.elim_some, List.append_nil,
      List.append_assoc]
    refine .append_left _ (List.perm_append_comm.trans (.of_eq ?_))
    exact List.take_append_drop n s.queue
  | @insert g hg hinserted =>
    refine h.of_perm (.of_eq ?_) (Nat.le_refl _)
    simp [underway, committed, hg]
  | @close g hg hinserted =>
    refine h.of_perm ?_ (Nat.le_refl _)
    have hcommitted : State.committed { s with
        group := none
        lastSequence := s.lastSequence + (g.writers.map (·.batch.length)).sum
        returned := s.returned ++ g.writers.map fun w => ⟨w, .ok, some g.mems⟩ } =
        s.committed ++ g.writers := by
      simp [committed, List.filter_map, Function.comp_def]
    rw [hcommitted]
    simp only [underway, hg, Option.elim_none, Option.elim_some, List.append_nil,
      List.append_assoc]
    exact (List.perm_append_comm.append_left _).append_left _
  | _ => exact h.of_perm (.refl _) (Nat.le_refl _)

theorem committed_step {a : Action K V} (hstep : s.step a = some s') :
    s.committed <+: s'.committed := by
  cases stepped_of_step hstep with
  | refused _ => exact ((List.prefix_append _ _).filter _).map _
  | close _ _ => exact ((List.prefix_append _ _).filter _).map _
  | _ => exact List.prefix_rfl

theorem serial_initial (hasMergeOperator : Bool) :
    (initial hasMergeOperator : State K V).Serial fun _ => 0 := by
  have hslot : ∀ (family : Nat) (slot : Slot),
      (initial hasMergeOperator : State K V).families[family]? = some slot →
      family = 0 ∧ slot = ⟨"default", false, some ⟨0⟩, none, hasMergeOperator⟩ := by
    intro family slot hget
    rw [initial, List.getElem?_singleton] at hget
    simpa [eq_comm] using hget
  have htables : (initial hasMergeOperator : State K V).tables (fun _ => 0) 0 = [⟨0⟩] := rfl
  refine ⟨rfl, fun g hg => ?_, fun family slot hget m hm => ?_, fun family slot m hget hm => ?_,
    fun g hg => ?_, fun m _ => Nat.one_pos, fun _ _ => rfl, fun family => ?_⟩
  · cases hg
  · obtain ⟨rfl, rfl⟩ := hslot family slot hget
    simpa [Slot.pins, htables] using hm
  · obtain ⟨rfl, rfl⟩ := hslot family slot hget
    obtain rfl := Option.some.inj hm
    simp [Newest, htables]
  · cases hg
  · simp [initial, written, committed, serially, buildBatchGroup]

/-- Up to the last number, the memtables hold the batches that returned. -/
theorem Serial.visible (h : s.Serial owner) (family : Nat) :
    ((s.tables owner family).flatMap s.contents).filter (fun a => a.sequence ≤ s.lastSequence) =
      serially s.committed family := by
  have hcommitted : (serially s.committed family).filter
      (fun a => a.sequence ≤ s.lastSequence) = serially s.committed family := by
    refine List.filter_eq_self.2 fun a ha => ?_
    obtain ⟨item, hitem, rfl⟩ := List.mem_map.1 ha
    have := (sequence_buildBatchGroup (List.mem_of_mem_filter hitem)).2
    rw [← h.last] at this
    rw [decide_eq_true_iff]
    omega
  -- a group that is not closed has higher numbers
  have hgroup : (((buildBatchGroup ((s.committed.map (·.batch.length)).sum + 1)
      (s.group.elim [] fun g => if g.inserted then g.writers else [])).filter
        fun item => item.family = family).map (·.toApplied)).filter
          (fun a => a.sequence ≤ s.lastSequence) = [] := by
    refine List.filter_eq_nil_iff.2 fun a ha => ?_
    obtain ⟨item, hitem, rfl⟩ := List.mem_map.1 ha
    have := (sequence_buildBatchGroup (List.mem_of_mem_filter hitem)).1
    rw [← h.last] at this
    rw [decide_eq_true_iff]
    omega
  rw [h.held, written, serially_append, List.filter_append, hcommitted, hgroup, List.append_nil]

end State

variable {s s' : State K V}

theorem serial_of_reachableBy (h : (system K V).ReachableBy State.DropsIdle s) :
    ∃ owner, s.Serial owner := by
  induction h with
  | init hinit =>
    obtain ⟨hasMergeOperator, rfl⟩ := hinit
    exact ⟨_, State.serial_initial hasMergeOperator⟩
  | step a hr hok hstep ih =>
    obtain ⟨owner, hserial⟩ := ih
    exact hserial.step (kept_of_reachableBy (hr.mono fun _ _ hok => hok.2)) hstep

theorem once_of_reachable (h : (system K V).Reachable s) : s.Once := by
  refine h.invariant ?_ fun _ _ _ hs hstep => hs.step hstep
  intro s hs
  obtain ⟨hasMergeOperator, rfl⟩ := hs
  exact ⟨List.nodup_nil, by simp [State.initial, State.underway, State.committed]⟩

/-- **Writes are made one at a time, in the order in which they return**, where no family is dropped
that a batch or an iterator under way is about. That order only grows, so a write that has returned (in
`s`) comes before all that start later; no write is in it twice; and up to the last number, which is
what a new reader sees, the memtables that a family has had hold what the batches leave when each is
made alone. -/
theorem linearizable (h : (system K V).ReachableBy State.DropsIdle s)
    (hsteps : (system K V).StepsBy State.DropsIdle s s') :
    s.committed <+: s'.committed ∧ (∀ w ∈ s.committed, w.id < s.nextWriter) ∧
      (s'.committed.map (·.id)).Nodup ∧
      ∃ owner : MemRef → Nat,
        (∀ (family : Nat) (slot : Slot), s'.families[family]? = some slot →
          ∀ m ∈ slot.pins, m ∈ s'.tables owner family) ∧
        ∀ family, ((s'.tables owner family).flatMap s'.contents).filter
          (fun a => a.sequence ≤ s'.lastSequence) = State.serially s'.committed family := by
  have h' := h.steps hsteps
  obtain ⟨owner, hserial⟩ := serial_of_reachableBy h'
  have hbefore : s.committed <+: s'.committed :=
    hsteps.invariant (P := fun t => s.committed <+: t.committed) List.prefix_rfl
      fun _ _ _ ht _ hstep => ht.trans (State.committed_step hstep)
  have hnodup := (once_of_reachable h'.reachable).nodup
  rw [List.map_append] at hnodup
  exact ⟨hbefore, fun w hw => (once_of_reachable h.reachable).lt w (List.mem_append_right _ hw),
    hnodup.of_append_right, owner, hserial.owned, hserial.visible⟩

/-- A group of two writers, the one that started later first. -/
def groupRun : List (Action (Fin 3) Nat) :=
  [.createColumnFamily "a" false, .write [(0, .put 0 10), (1, .put 1 11)], .write [(0, .put 1 12)],
    .enqueue 1, .enqueue 0, .capture 2, .insert, .close]

/-- A third write goes to a new memtable; the first memtable is flushed. -/
def flushRun : List (Action (Fin 3) Nat) :=
  [.write [(0, .delete 0)], .enqueue 0, .switchMemTable 0, .capture 1, .insert, .compactMemTable 0,
    .close, .get 0]

theorem linearizable_flushRun :
    ∃ s s', (system (Fin 3) Nat).runBy State.DropsIdle (.initial false) groupRun = some s ∧
      (system (Fin 3) Nat).runBy State.DropsIdle s flushRun = some s' ∧
      s.committed.map (·.id) = [1, 0] ∧ s'.committed.map (·.id) = [1, 0, 2] ∧
      s.committed <+: s'.committed ∧ (∀ w ∈ s.committed, w.id < s.nextWriter) ∧
      (s'.committed.map (·.id)).Nodup ∧
      ∃ owner : MemRef → Nat,
        (∀ (family : Nat) (slot : Slot), s'.families[family]? = some slot →
          ∀ m ∈ slot.pins, m ∈ s'.tables owner family) ∧
        ∀ family, ((s'.tables owner family).flatMap s'.contents).filter
          (fun a => a.sequence ≤ s'.lastSequence) = State.serially s'.committed family := by
  have hrun : ((system (Fin 3) Nat).runBy State.DropsIdle (.initial false) groupRun).any (fun s =>
      s.committed.map (·.id) = [1, 0] ∧ ((system (Fin 3) Nat).runBy State.DropsIdle s flushRun).any
        (fun s' => s'.committed.map (·.id) = [1, 0, 2]) = true) = true := by decide
  obtain ⟨s, hs, hboth⟩ := (Option.any_eq_true _ _).1 hrun
  obtain ⟨hids, hrun'⟩ := of_decide_eq_true hboth
  obtain ⟨s', hs', hids'⟩ := (Option.any_eq_true _ _).1 hrun'
  have hinit : (system (Fin 3) Nat).ReachableBy State.DropsIdle (.initial false) :=
    .init ⟨false, rfl⟩
  exact ⟨s, s', hs, hs', hids, of_decide_eq_true hids',
    linearizable (hinit.runBy hs) (.runBy hs')⟩

end LevelDb.Clients
