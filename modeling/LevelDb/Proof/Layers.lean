import LevelDb.Db.Contents

/-!
# The layers of a well-formed family

`layerOf` numbers the files by the layers they are in (`layers_layerOf`), and a tombstone in the
view of a read is in the layer it is tagged with (`mem_tagged`). What `Version::Get` is called back
with for a key has all the key's visible entries, in the order of the layers
(`overlapping_visible`). Entries of different numbers (`Layer.Distinct`) have one order
(`Layer.Distinct.sorted_eq`).
-/

namespace LevelDb

open Fragments

variable {K V : Type} [LinearOrder K]

/-! ## Entries of a key in a table -/

theorem lt_lookupKey {a : InternalKey K} {k : K} {snapshot : Nat} :
    a < lookupKey k snapshot ↔ a.userKey < k ∨ a.userKey = k ∧ snapshot < a.sequence := by
  rw [InternalKey.lt_iff]
  have ht := a.type.code_le
  have hseek : ValueType.rangeDeletion.code = 3 := rfl
  simp only [lookupKey, InternalKey.tag, kValueTypeForSeek, hseek]
  constructor
  · rintro (h | ⟨h, h'⟩)
    · exact .inl h
    · exact .inr ⟨h, by omega⟩
  · rintro (h | ⟨h, h'⟩)
    · exact .inl h
    · exact .inr ⟨h, by omega⟩

theorem userKey_le {a b : InternalKey K} (h : a ≤ b) : a.userKey ≤ b.userKey := by
  rcases h.lt_or_eq with h | h
  · rcases InternalKey.lt_iff.1 h with h | h
    · exact h.le
    · exact h.1.le
  · rw [h]

/-- Of one user key, what comes first in internal order is newer. -/
theorem sequence_le {a b : InternalKey K} (h : a ≤ b) (hk : a.userKey = b.userKey) :
    b.sequence ≤ a.sequence := by
  rcases h.lt_or_eq with h | h
  · rcases InternalKey.lt_iff.1 h with h | h
    · exact absurd h (by simp [hk])
    · have ha := a.type.code_le
      have hb := b.type.code_le
      have := h.2
      simp only [InternalKey.tag] at this
      omega
  · rw [h]

/-- The entries of a table a lookup is fed: those of the key up to the snapshot. -/
theorem Table.seek_visible (t : Table K V) (k : K) (snapshot : Nat) :
    ((t.seek (lookupKey k snapshot)).takeWhile fun e => e.key.userKey = k) =
      t.entries.filter fun e => Visible k snapshot e := by
  have hdrop : t.seek (lookupKey k snapshot) =
      t.entries.filter fun e => !decide (e.key < lookupKey k snapshot) := by
    refine dropWhile_eq_filter _ (t.sorted.imp fun hab hb => ?_)
    exact decide_eq_true (hab.trans_lt (of_decide_eq_true hb))
  rw [hdrop, takeWhile_eq_filter, List.filter_filter]
  · refine List.filter_congr fun e _ => ?_
    by_cases hk : e.key.userKey = k
    · rw [Bool.eq_iff_iff]
      simp [Visible, hk, lt_lookupKey]
    · simp [Visible, hk]
  · refine (t.sorted.filter _).imp_of_mem fun ha _ hab hb => ?_
    have hge := not_lt.1 (by simpa using (List.mem_filter.1 ha).2)
    exact decide_eq_true (le_antisymm ((userKey_le hab).trans (of_decide_eq_true hb).le)
      (userKey_le hge))

/-! ## The numbering of the layers -/

/-- In a list sorted downwards without repetition, an element's place is the number of those
above it. -/
theorem getElem?_countP {α : Type} (f : α → Nat) {l : List α}
    (hl : l.Pairwise fun a b => f b < f a) {a : α} (ha : a ∈ l) :
    l[l.countP fun b => f a < f b]? = some a := by
  induction l with
  | nil => cases ha
  | cons b l ih =>
    rw [List.pairwise_cons] at hl
    rcases List.mem_cons.1 ha with rfl | ha
    · have : l.countP (fun b => decide (f a < f b)) = 0 :=
        List.countP_eq_zero.2 fun c hc => by simpa using (hl.1 c hc).le
      simp [this]
    · rw [List.countP_cons_of_pos (by simpa using hl.1 a ha)]
      simpa using ih hl.2 ha

theorem byNumber_total : Std.Total fun f g : FileMetaData K V => g.number ≤ f.number :=
  ⟨fun f g => Nat.le_total g.number f.number⟩

theorem byNumber_trans : IsTrans (FileMetaData K V) fun f g => g.number ≤ f.number :=
  ⟨fun _ _ _ h h' => Nat.le_trans h' h⟩

namespace Version

variable {v : Version K V}

theorem mem_newestFirst {f : FileMetaData K V} : f ∈ v.newestFirst ↔ f ∈ v.files 0 :=
  List.mem_insertionSort _

theorem newestFirst_sorted (hn : (v.files 0).Pairwise fun f g => f.number ≠ g.number) :
    v.newestFirst.Pairwise fun f g => g.number < f.number := by
  have := byNumber_total (K := K) (V := V)
  have := byNumber_trans (K := K) (V := V)
  have hle := List.pairwise_insertionSort (fun f g : FileMetaData K V => g.number ≤ f.number)
    (v.files 0)
  have hne : v.newestFirst.Pairwise fun f g => f.number ≠ g.number :=
    (List.perm_insertionSort _ _).symm.pairwise hn fun h h' => h h'.symm
  exact (hle.and hne).imp fun h => by omega

theorem layers_level {level : Nat} (h0 : 0 < level) (hlevel : level < kNumLevels) :
    v.layers[(v.files 0).length + level - 1]? =
      some (Layer.concat ((v.files level).map (·.layer))) := by
  have hlen : (v.newestFirst.map (·.layer)).length = (v.files 0).length := by
    simp [newestFirst]
  rw [layers, List.getElem?_append_right (by omega), hlen, List.getElem?_map,
    List.getElem?_range' (by unfold kNumLevels at *; omega)]
  simp only [Option.map_some]
  have : 1 + 1 * ((v.files 0).length + level - 1 - (v.files 0).length) = level := by omega
  rw [this]

theorem layers_zero (hn : (v.files 0).Pairwise fun f g => f.number ≠ g.number)
    {f : FileMetaData K V} (hf : f ∈ v.files 0) :
    v.layers[(v.files 0).countP fun g => f.number < g.number]? = some f.layer := by
  have hget := getElem?_countP (·.number) (newestFirst_sorted hn) (mem_newestFirst.2 hf)
  have hcount := (List.perm_insertionSort (fun f g : FileMetaData K V => g.number ≤ f.number)
    (v.files 0)).countP_eq fun g => decide (f.number < g.number)
  rw [newestFirst, hcount] at hget
  rw [layers, List.getElem?_append_left]
  · rw [List.getElem?_map, newestFirst, hget]
    rfl
  · rw [List.length_map]
    exact (List.getElem?_eq_some_iff.1 hget).1

end Version

namespace ColumnFamily

variable {cf : ColumnFamily K V}

/-- **`LayerOf`** is the place of a file's layer. -/
theorem layers_layerOf (hn : (cf.current.files 0).Pairwise fun f g => f.number ≠ g.number)
    {level : Nat} (hlevel : level < kNumLevels) {f : FileMetaData K V}
    (hf : f ∈ cf.current.files level) :
    ∃ l, cf.layers[cf.current.layerOf level f]? = some l ∧
      f.table.entries ⊆ l.entries ∧ f.tombstones ⊆ l.tombstones := by
  unfold Version.layerOf
  split
  · rename_i h0
    refine ⟨Layer.concat ((cf.current.files level).map (·.layer)), ?_, ?_, ?_⟩
    · have : kFirstTableLayer + (cf.current.files 0).length + level - 1 =
          ((cf.current.files 0).length + level - 1) + 1 + 1 := by
        unfold kFirstTableLayer
        omega
      rw [this, layers, List.getElem?_cons_succ, List.getElem?_cons_succ]
      exact Version.layers_level h0 hlevel
    · intro e he
      simp only [Layer.concat, List.mem_flatMap, List.mem_map]
      exact ⟨_, ⟨f, hf, rfl⟩, he⟩
    · intro t ht
      simp only [Layer.concat, List.mem_flatMap, List.mem_map]
      exact ⟨_, ⟨f, hf, rfl⟩, ht⟩
  · rename_i h0
    obtain rfl : level = 0 := by omega
    refine ⟨f.layer, ?_, fun _ h => h, fun _ h => h⟩
    rw [Nat.add_comm, layers]
    exact Version.layers_zero hn hf

/-- The tombstones a read of the family consults, each with its layer. -/
def tagged (cf : ColumnFamily K V) : List (RangeTombstone K) :=
  cf.mem.getRangeTombstones 0 kLayerMem ++
    (cf.imm.elim [] fun m => m.getRangeTombstones 0 kLayerImm) ++ cf.current.getRangeTombstones

/-- The view of a read sees the tagged tombstones; there is no view when there are none. -/
theorem rangeDels_spec (cf : ColumnFamily K V) :
    (∀ v, cf.rangeDels = some v → v.Sees cf.tagged) ∧ (cf.rangeDels = none → cf.tagged = []) := by
  have hnone : cf.current.hasRangeDels = false → cf.current.getRangeTombstones = [] := by
    intro h
    refine List.flatMap_eq_nil_iff.2 fun level hl => List.flatMap_eq_nil_iff.2 fun f hf => ?_
    have := List.any_eq_false.1 h level hl
    have := List.any_eq_false.1 (by simpa using this) f hf
    rw [if_neg this]
  have hindex : ∀ ix, (if cf.current.hasRangeDels then
      some (RangeDelIndex.ofTombstones cf.current.getRangeTombstones) else none) = ix →
      ix = some (.ofTombstones cf.current.getRangeTombstones) ∨
        ix = none ∧ cf.current.getRangeTombstones = [] := by
    rintro ix rfl
    cases h : cf.current.hasRangeDels with
    | true => exact .inl rfl
    | false => exact .inr ⟨rfl, hnone h⟩
  unfold rangeDels
  generalize hix : (if cf.current.hasRangeDels then
    some (RangeDelIndex.ofTombstones cf.current.getRangeTombstones) else none) = ix
  simp only
  constructor
  · intro v hv
    split at hv
    · cases hv
    · cases hv
      exact ⟨cf.current.getRangeTombstones, rfl, hindex ix hix⟩
  · intro hv
    split at hv
    · rename_i h
      have hmem : cf.mem.rangeDels = [] := List.length_eq_zero_iff.1 h.1
      have himm : (cf.imm.elim [] fun m => m.getRangeTombstones 0 kLayerImm) = [] := by
        cases hi : cf.imm with
        | none => rfl
        | some m =>
          have hm := h.2.1
          rw [hi] at hm
          have hm := List.length_eq_zero_iff.1 (of_decide_eq_true hm : m.rangeDels.length = 0)
          simp [MemTable.getRangeTombstones, hm]
      have htables : cf.current.getRangeTombstones = [] := by
        rcases hindex ix hix with hc | ⟨-, h⟩
        · simp [hc] at h
        · exact h
      rw [tagged, himm, htables]
      simp [MemTable.getRangeTombstones, hmem]
    · cases hv

/-- What the view says of a key, whether there is a view or not. -/
theorem lt_covering (cf : ColumnFamily K V) {k : K} {snapshot layer s : Nat} :
    s < cf.rangeDels.elim 0 (·.maxCovering k snapshot layer) ↔
      ∃ t ∈ cf.tagged, t.Covers k ∧ t.seq ≤ snapshot ∧ t.layer < layer ∧ s < t.seq := by
  obtain ⟨hsome, hnone⟩ := cf.rangeDels_spec
  cases h : cf.rangeDels with
  | none => simp [hnone h]
  | some v => exact RangeDelView.lt_maxCovering (hsome v h)

/-- A tagged tombstone is in the layer of its tag. -/
theorem mem_tagged (hn : (cf.current.files 0).Pairwise fun f g => f.number ≠ g.number)
    {t : RangeTombstone K} (ht : t ∈ cf.tagged) :
    ∃ l, cf.layers[t.layer]? = some l ∧ ∃ u ∈ l.tombstones, t = { u with layer := t.layer } := by
  unfold tagged at ht
  rcases List.mem_append.1 ht with ht | ht
  · rcases List.mem_append.1 ht with ht | ht
    · obtain ⟨u, hu, rfl⟩ := List.mem_map.1 ht
      exact ⟨cf.mem.layer, rfl, u, by simpa using hu, rfl⟩
    · cases hi : cf.imm with
      | none => simp [hi] at ht
      | some m =>
        simp only [hi, Option.elim_some] at ht
        obtain ⟨u, hu, rfl⟩ := List.mem_map.1 ht
        exact ⟨m.layer, by simp [layers, kLayerImm, hi], u, by simpa using hu, rfl⟩
  · obtain ⟨level, hlevel, ht⟩ := List.mem_flatMap.1 ht
    obtain ⟨f, hf, ht⟩ := List.mem_flatMap.1 ht
    split at ht
    · obtain ⟨u, hu, rfl⟩ := List.mem_map.1 ht
      obtain ⟨l, hl, -, hsub⟩ := layers_layerOf hn (List.mem_range.1 hlevel) hf
      exact ⟨l, hl, u, hsub hu, rfl⟩
    · cases ht

/-- A tombstone of the family is tagged. -/
theorem tagged_of_mem {t : RangeTombstone K} (ht : t ∈ cf.contents.tombstones) :
    ∃ layer, { t with layer } ∈ cf.tagged ∧ layer < kFirstTableLayer +
      (cf.current.files 0).length + kNumLevels := by
  obtain ⟨l, hl, ht⟩ := List.mem_flatMap.1 ht
  unfold tagged
  have hfile : ∀ level < kNumLevels, ∀ f ∈ cf.current.files level, t ∈ f.tombstones →
      ∃ layer, { t with layer } ∈ cf.current.getRangeTombstones ∧ layer < kFirstTableLayer +
        (cf.current.files 0).length + kNumLevels := by
    intro level hlevel f hf ht
    refine ⟨cf.current.layerOf level f, List.mem_flatMap.2 ⟨level, List.mem_range.2 hlevel,
      List.mem_flatMap.2 ⟨f, hf, ?_⟩⟩, ?_⟩
    · rw [if_pos (by simpa [FileMetaData.hasRangeDels] using List.ne_nil_of_mem ht)]
      exact List.mem_map.2 ⟨t, ht, rfl⟩
    · have hcount := (cf.current.files 0).countP_le_length
        (p := fun g => decide (f.number < g.number))
      unfold Version.layerOf kNumLevels at *
      split <;> omega
  have hfiles : ∀ level < kNumLevels, ∀ f ∈ cf.current.files level, t ∈ f.tombstones →
      ∃ layer, { t with layer } ∈ cf.mem.getRangeTombstones 0 kLayerMem ++
        (cf.imm.elim [] fun m => m.getRangeTombstones 0 kLayerImm) ++
          cf.current.getRangeTombstones ∧ layer < kFirstTableLayer +
            (cf.current.files 0).length + kNumLevels := by
    intro level hlevel f hf ht
    obtain ⟨layer, hin, hlt⟩ := hfile level hlevel f hf ht
    exact ⟨layer, List.mem_append_right _ hin, hlt⟩
  simp only [layers, List.mem_cons, Version.layers, List.mem_append, List.mem_map] at hl
  rcases hl with rfl | rfl | ⟨f, hf, rfl⟩ | ⟨level, hlevel, rfl⟩
  · refine ⟨kLayerMem, ?_, by unfold kLayerMem kFirstTableLayer; omega⟩
    simp only [List.mem_append]
    exact .inl (.inl (List.mem_map.2 ⟨t, by simpa using ht, rfl⟩))
  · cases hi : cf.imm with
    | none => simp [hi] at ht
    | some m =>
      simp only [hi, Option.elim_some] at ht
      refine ⟨kLayerImm, ?_, by unfold kLayerImm kFirstTableLayer kNumLevels; omega⟩
      simp only [List.mem_append]
      exact .inl (.inr (List.mem_map.2 ⟨t, by simpa using ht, rfl⟩))
  · exact hfiles 0 (by decide) f (Version.mem_newestFirst.1 hf) ht
  · simp only [Layer.concat, List.mem_flatMap, List.mem_map] at ht
    obtain ⟨_, ⟨f, hf, rfl⟩, ht⟩ := ht
    rw [List.mem_range'] at hlevel
    obtain ⟨i, hi, rfl⟩ := hlevel
    exact hfiles _ (by unfold kNumLevels at *; omega) f hf ht

end ColumnFamily
/-! ## The entries of a key in one order -/

namespace Layer

variable {l l' : Layer K V} {k : K} {snapshot : Nat}

/-- No two entries of a key have one sequence number. -/
def Distinct (l : Layer K V) : Prop :=
  l.entries.Pairwise fun a b => a.key.userKey = b.key.userKey → a.key.sequence ≠ b.key.sequence

omit [LinearOrder K] in
theorem Distinct.perm (h : l.Distinct) (hp : l.entries.Perm l'.entries) : l'.Distinct :=
  hp.pairwise h fun hab hk hs => hab hk.symm hs.symm

/-- What a reader sees of a key is sorted in one way. -/
theorem Distinct.sorted_eq (h : l.Distinct) (hp : l.entries.Perm l'.entries) :
    (l.entries.filter fun e => Visible k snapshot e).insertionSort
        (fun a b => b.key.sequence ≤ a.key.sequence) =
      (l'.entries.filter fun e => Visible k snapshot e).insertionSort
        fun a b => b.key.sequence ≤ a.key.sequence := by
  have : Std.Total fun a b : Entry K V => b.key.sequence ≤ a.key.sequence :=
    ⟨fun a b => Nat.le_total _ _⟩
  have : IsTrans (Entry K V) fun a b => b.key.sequence ≤ a.key.sequence :=
    ⟨fun _ _ _ h h' => Nat.le_trans h' h⟩
  have hperm := ((List.perm_insertionSort (fun a b : Entry K V =>
    b.key.sequence ≤ a.key.sequence) _).trans (hp.filter fun e => decide (Visible k snapshot e))).trans
      (List.perm_insertionSort (fun a b : Entry K V => b.key.sequence ≤ a.key.sequence) _).symm
  refine hperm.eq_of_pairwise (fun a b ha hb hab hba => ?_) (List.pairwise_insertionSort _ _)
    (List.pairwise_insertionSort _ _)
  rw [List.mem_insertionSort, List.mem_filter, decide_eq_true_iff] at ha hb
  by_contra hne
  have : Std.Symm fun a b : Entry K V =>
      a.key.userKey = b.key.userKey → a.key.sequence ≠ b.key.sequence :=
    ⟨fun _ _ h hk hs => h hk.symm hs.symm⟩
  exact h.forall ha.1 (hp.mem_iff.2 hb.1) hne (ha.2.1.trans hb.2.1.symm) (Nat.le_antisymm hba hab)

end Layer

end LevelDb
