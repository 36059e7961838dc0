import LevelDb.Db.Files

/-!
# No table that is needed is deleted

A table is needed (`State.Needed`) if a version has it that someone may read, or if it is on its way
into one: built, listed in an edit, or an output of a compaction. `Safe` says that such tables are in
their directory, and that neither the files to delete nor the table under construction is one. The
pinned versions and `pendingOutputs` protect what `RemoveObsoleteFiles` finds; what comes between a
table and its version while neither does is the background thread, which then deletes nothing.
-/

namespace LevelDb.Files

namespace State

variable {s s' : State} {f n : Nat}

@[simp] theorem dirs_set_self (s : State) (f : Nat) (d : Dir) : (s.set f d).dirs f = d :=
  Function.update_self ..

theorem dirs_set_of_ne {g : Nat} (h : g ≠ f) (s : State) (d : Dir) :
    (s.set f d).dirs g = s.dirs g := Function.update_of_ne h ..

theorem dirs_set (s : State) (f : Nat) (d : Dir) (g : Nat) :
    (s.set f d).dirs g = if g = f then d else s.dirs g := by
  by_cases h : g = f
  · rw [if_pos h, h, dirs_set_self]
  · rw [if_neg h, dirs_set_of_ne h]

theorem tables_set {g : Nat} {d : Dir} (h : d.tables = (s.dirs f).tables) :
    ((s.set f d).dirs g).tables = (s.dirs g).tables := by
  rw [dirs_set]
  split
  · rename_i hg
    rw [h, hg]
  · rfl

theorem idle_iff : s.idle = true ↔
    s.building = none ∧ s.logging = none ∧ s.filesToDelete = [] := by
  simp [idle, and_assoc]

theorem mem_builtFor : n ∈ s.builtFor f ↔ (f, n) ∈ s.built := by
  simp only [builtFor, List.mem_map, List.mem_filter, decide_eq_true_eq]
  constructor
  · rintro ⟨⟨g, m⟩, ⟨hin, rfl⟩, rfl⟩
    exact hin
  · intro hin
    exact ⟨(f, n), ⟨hin, rfl⟩, rfl⟩

/-! ## The tables that are needed -/

/-- A version has the table, or is about to. -/
inductive Needed (s : State) (f n : Nat) : Prop
  | version {v : List Nat} : v ∈ s.versions f → n ∈ v → s.Needed f n
  | built : (f, n) ∈ s.built → s.Needed f n
  | logging {l : Logging} : s.logging = some l → l.family = f → n ∈ l.edit.newFiles → s.Needed f n
  | output {c : CompactionState} : s.compaction = some c → c.family = f → c.ok = true →
      c.installed = false → n ∈ c.outputs → s.Needed f n

theorem Needed.current (h : n ∈ (s.dirs f).current) : s.Needed f n :=
  .version List.mem_cons_self h

theorem Needed.manifest (h : n ∈ (s.dirs f).manifest) : s.Needed f n :=
  .version (List.mem_cons_of_mem _ List.mem_cons_self) h

theorem Needed.base (h : n ∈ s.base f) : s.Needed f n :=
  .version (List.mem_cons_of_mem _ (List.mem_cons_of_mem _ List.mem_cons_self)) h

theorem Needed.pinned {v : List Nat} (hv : v ∈ (s.dirs f).pinned) (h : n ∈ v) : s.Needed f n :=
  .version (List.mem_cons_of_mem _ (List.mem_cons_of_mem _ (List.mem_cons_of_mem _ hv))) h

theorem mem_base : n ∈ s.base f ↔ ∃ c, s.compaction = some c ∧ c.family = f ∧ n ∈ c.base := by
  unfold base
  cases s.compaction with
  | none => simp
  | some c => by_cases hf : c.family = f <;> simp [hf]

/-- The same, place by place. -/
theorem needed_iff : s.Needed f n ↔
    n ∈ (s.dirs f).current ∨ n ∈ (s.dirs f).manifest ∨ (∃ v ∈ (s.dirs f).pinned, n ∈ v) ∨
      (∃ c, s.compaction = some c ∧ c.family = f ∧
        (n ∈ c.base ∨ c.ok = true ∧ c.installed = false ∧ n ∈ c.outputs)) ∨
      (f, n) ∈ s.built ∨ ∃ l, s.logging = some l ∧ l.family = f ∧ n ∈ l.edit.newFiles := by
  constructor
  · intro h
    cases h with
    | version hv hin =>
      simp only [versions, List.mem_cons] at hv
      obtain rfl | rfl | rfl | hv := hv
      · simp [hin]
      · simp [hin]
      · obtain ⟨c, hc, hf, hin⟩ := mem_base.1 hin
        simp [hc, hf, hin]
      · exact .inr (.inr (.inl ⟨_, hv, hin⟩))
    | built hin => simp [hin]
    | logging hl hf hin => simp [hl, hf, hin]
    | output hc hf hok hinstalled hin => simp [hc, hf, hok, hinstalled, hin]
  · rintro (h | h | ⟨v, hv, h⟩ | ⟨c, hc, hf, h | ⟨hok, hinstalled, h⟩⟩ | h | ⟨l, hl, hf, h⟩)
    · exact .current h
    · exact .manifest h
    · exact .pinned hv h
    · exact .base (mem_base.2 ⟨c, hc, hf, h⟩)
    · exact .output hc hf hok hinstalled h
    · exact .built h
    · exact .logging hl hf h

/-- What the manifest has when it has the edit under way. -/
def logged (s : State) (f : Nat) : List Nat :=
  match s.logging with
  | some l => if l.recorded ∧ l.family = f then l.edit.apply (s.dirs f).current else (s.dirs f).current
  | none => (s.dirs f).current

/-- The tables needed are there, and nothing that is under way takes one away. -/
structure Safe (s : State) : Prop where
  held : ∀ {f n}, s.Needed f n → n ∈ (s.dirs f).tables ∧ n < (s.dirs f).nextFileNumber
  fresh : ∀ t, s.building = some t → t.2 ∈ (s.dirs t.1).tables ∧
    t.2 < (s.dirs t.1).nextFileNumber ∧ ¬ s.Needed t.1 t.2
  deleting : ∀ t ∈ s.filesToDelete, ¬ s.Needed t.1 t.2
  alone : s.filesToDelete ≠ [] → s.building = none ∧ s.logging = none ∧ s.built = []
  apart : s.building.isSome → s.logging = none
  pending : ∀ c, s.compaction = some c → c.ok = true → c.installed = false → ∀ n ∈ c.outputs,
    n ∈ (s.dirs c.family).pendingOutputs
  manifest : ∀ f, (∀ n ∈ (s.dirs f).manifest, n < (s.dirs f).manifestNext) ∧
    (s.dirs f).manifestNext ≤ (s.dirs f).nextFileNumber
  synced : s.bgError = false → ∀ f, (s.dirs f).manifest = s.logged f

/-- Steps after which no more tables are needed, and none is gone. -/
theorem Safe.held_congr (h : s.Safe) (hneeded : ∀ {f n}, s'.Needed f n → s.Needed f n)
    (htables : ∀ f, ∀ n ∈ (s.dirs f).tables, n ∈ (s'.dirs f).tables)
    (hnext : ∀ f, (s.dirs f).nextFileNumber ≤ (s'.dirs f).nextFileNumber) {f n : Nat}
    (hn : s'.Needed f n) : n ∈ (s'.dirs f).tables ∧ n < (s'.dirs f).nextFileNumber := by
  obtain ⟨hmem, hlt⟩ := h.held (hneeded hn)
  exact ⟨htables f n hmem, Nat.lt_of_lt_of_le hlt (hnext f)⟩

/-- A new number is not that of a table anyone needs. -/
theorem Safe.not_needed_next (h : s.Safe) (f : Nat) : ¬ s.Needed f (s.dirs f).nextFileNumber :=
  fun hn => Nat.lt_irrefl _ (h.held hn).2

/-! ## The steps -/

/-- Steps of readers, and those that take a number: only what is pinned changes, and that to current
versions. -/
theorem Safe.pin (h : s.Safe) (family next : Nat) (pinned : List (List Nat))
    (hnext : (s.dirs family).nextFileNumber ≤ next)
    (hpinned : ∀ v ∈ pinned, v ∈ (s.dirs family).pinned ∨ v = (s.dirs family).current) :
    (s.set family { s.dirs family with nextFileNumber := next, pinned }).Safe := by
  have hneeded : ∀ {f n}, (s.set family { s.dirs family with
      nextFileNumber := next, pinned }).Needed f n → s.Needed f n := by
    intro f n hn
    rw [needed_iff] at hn ⊢
    simp only [dirs_set] at hn
    grind [set]
  constructor
  · intro f n hn
    refine h.held_congr hneeded (fun f n hin => ?_) (fun f => ?_) hn
    · simp only [dirs_set]
      grind
    · simp only [dirs_set]
      grind
  · intro t ht
    obtain ⟨hmem, hlt, hnot⟩ := h.fresh t ht
    refine ⟨?_, ?_, fun hn => hnot (hneeded hn)⟩
    · simp only [dirs_set]
      grind
    · simp only [dirs_set]
      grind
  · exact fun t ht hn => h.deleting t ht (hneeded hn)
  · exact h.alone
  · exact h.apart
  · intro c hc hok hinstalled n hn
    have := h.pending c hc hok hinstalled n hn
    simp only [dirs_set]
    grind
  · intro f
    have := h.manifest f
    simp only [dirs_set]
    grind
  · intro hb f
    have := h.synced hb f
    simp only [dirs_set, logged] at this ⊢
    grind [set]

/-- Steps with which the background thread begins something: the manifests and the current versions
stay, and no table goes. -/
theorem Safe.begins (h : s.Safe) (hidle : s.idle = true)
    (hheld : ∀ {f n}, s'.Needed f n → s.Needed f n ∨
      n ∈ (s'.dirs f).tables ∧ n < (s'.dirs f).nextFileNumber)
    (hdirs : ∀ f, (s'.dirs f).manifest = (s.dirs f).manifest ∧
      (s'.dirs f).manifestNext = (s.dirs f).manifestNext ∧
      (s'.dirs f).current = (s.dirs f).current ∧
      (∀ n ∈ (s.dirs f).tables, n ∈ (s'.dirs f).tables) ∧
      (s.dirs f).nextFileNumber ≤ (s'.dirs f).nextFileNumber)
    (hlogging : ∀ l, s'.logging = some l → l.recorded = false)
    (hfiles : s'.filesToDelete = []) (herror : s'.bgError = s.bgError)
    (hfresh : ∀ t, s'.building = some t → t.2 ∈ (s'.dirs t.1).tables ∧
      t.2 < (s'.dirs t.1).nextFileNumber ∧ ¬ s'.Needed t.1 t.2)
    (hapart : s'.building.isSome → s'.logging = none)
    (hpending : ∀ c, s'.compaction = some c → c.ok = true → c.installed = false →
      ∀ n ∈ c.outputs, n ∈ (s'.dirs c.family).pendingOutputs) : s'.Safe where
  held {f n} hn := by
    obtain ⟨-, -, -, htables, hnext⟩ := hdirs f
    obtain hn | hn := hheld hn
    · obtain ⟨hmem, hlt⟩ := h.held hn
      exact ⟨htables n hmem, Nat.lt_of_lt_of_le hlt hnext⟩
    · exact hn
  fresh := hfresh
  deleting t ht := by simp [hfiles] at ht
  alone hne := absurd hfiles hne
  apart := hapart
  pending := hpending
  manifest f := by
    obtain ⟨hmanifest, hmanifestNext, -, -, hnext⟩ := hdirs f
    rw [hmanifest, hmanifestNext]
    exact ⟨(h.manifest f).1, Nat.le_trans (h.manifest f).2 hnext⟩
  synced hb f := by
    obtain ⟨hmanifest, -, hcurrent, -, -⟩ := hdirs f
    have hnone := (idle_iff.1 hidle).2.1
    have hlogged : s'.logged f = (s'.dirs f).current := by
      unfold logged
      split
      · rename_i l hl
        simp [hlogging l hl]
      · rfl
    rw [hlogged, hmanifest, hcurrent, h.synced (herror ▸ hb) f, logged, hnone]

theorem Safe.startTable (h : s.Safe) {family : Nat}
    (hstep : s.step (.startTable family) = some s') : s'.Safe := by
  simp only [State.step, Option.ite_none_right_eq_some, Option.some.injEq] at hstep
  obtain ⟨hidle, rfl⟩ := hstep
  obtain ⟨-, hlogging, hfiles⟩ := idle_iff.1 hidle
  have hnew := h.not_needed_next family
  refine h.begins hidle (fun hn => .inl ?_) (fun f => ?_) ?_ hfiles rfl ?_ (fun _ => hlogging) ?_
  · rw [needed_iff] at hn ⊢
    simp only [dirs_set] at hn
    grind [set]
  · simp only [dirs_set]
    grind
  · simp [set, hlogging]
  · simp only [needed_iff, dirs_set] at hnew ⊢
    grind [set]
  · have hpending := h.pending
    simp only [dirs_set]
    grind [set]

/-- A table that is built is needed from then on; one that is not is nobody's. -/
theorem Safe.finishTable (h : s.Safe) {ok : Bool}
    (hstep : s.step (.finishTable ok) = some s') : s'.Safe := by
  obtain ⟨t, ht, rfl⟩ := Option.map_eq_some_iff.1 hstep
  have hlogging : s.logging = none := h.apart (by simp [ht])
  have hfiles : s.filesToDelete = [] := by
    by_contra hne
    simp [(h.alone hne).1] at ht
  obtain ⟨hmem, hlt, hnot⟩ := h.fresh t ht
  have hheld := @h.held
  have hpending := h.pending
  have hmanifest := h.manifest
  have hsynced := h.synced
  simp only [needed_iff, logged] at hnot hheld hsynced
  cases ok
  · simp only [Bool.false_eq_true, if_false]
    constructor
    · intro f n hn
      rw [needed_iff] at hn
      simp only [dirs_set] at hn ⊢
      grind [set]
    · simp
    · simp [set, hfiles]
    · simp [set, hfiles]
    · simp
    · simp only [dirs_set]
      grind [set]
    · simp only [dirs_set]
      grind
    · simp only [dirs_set, logged]
      grind [set]
  · simp only [if_true]
    constructor
    · intro f n hn
      rw [needed_iff] at hn
      simp only [dirs_set] at hn ⊢
      grind [set]
    · simp
    · simp [set, hfiles]
    · simp [set, hfiles]
    · simp
    · simp only [dirs_set]
      grind [set]
    · simp only [dirs_set]
      grind
    · simp only [dirs_set, logged]
      grind [set]

theorem Safe.logTables (h : s.Safe) {family : Nat}
    (hstep : s.step (.logTables family) = some s') : s'.Safe := by
  simp only [State.step, Option.ite_none_right_eq_some, Option.some.injEq] at hstep
  obtain ⟨hidle, rfl⟩ := hstep
  obtain ⟨hbuilding, -, hfiles⟩ := idle_iff.1 hidle
  refine h.begins hidle (fun hn => .inl ?_) (by simp) (by simp) hfiles rfl ?_ ?_ h.pending
  · rw [needed_iff] at hn ⊢
    simp only [Option.some.injEq] at hn
    grind [mem_builtFor]
  · simp [hbuilding]
  · simp [hbuilding]

theorem Safe.logMove (h : s.Safe) {family number : Nat}
    (hstep : s.step (.logMove family number) = some s') : s'.Safe := by
  simp only [State.step, Option.ite_none_right_eq_some, Option.some.injEq] at hstep
  obtain ⟨⟨hidle, hcurrent⟩, rfl⟩ := hstep
  obtain ⟨hbuilding, -, hfiles⟩ := idle_iff.1 hidle
  refine h.begins hidle (fun hn => .inl ?_) (by simp) (by simp) hfiles rfl ?_ ?_ h.pending
  · rw [needed_iff] at hn ⊢
    simp only [Option.some.injEq] at hn
    grind
  · simp [hbuilding]
  · simp [hbuilding]

/-- The outputs are in the edit from then on. -/
theorem Safe.logCompaction (h : s.Safe) (hstep : s.step .logCompaction = some s') : s'.Safe := by
  obtain ⟨c, hc, hstep⟩ := Option.bind_eq_some_iff.1 hstep
  simp only [Option.ite_none_right_eq_some, Option.some.injEq] at hstep
  obtain ⟨⟨hidle, hok, hinstalled⟩, rfl⟩ := hstep
  obtain ⟨hbuilding, -, hfiles⟩ := idle_iff.1 hidle
  refine h.begins hidle (fun hn => .inl ?_) (by simp) (by simp) hfiles rfl ?_ ?_ ?_
  · rw [needed_iff] at hn ⊢
    simp only [Option.some.injEq] at hn
    grind
  · simp [hbuilding]
  · simp [hbuilding]
  · grind

theorem Safe.startCompaction (h : s.Safe) {family : Nat} {inputs : List Nat}
    (hstep : s.step (.startCompaction family inputs) = some s') : s'.Safe := by
  simp only [State.step, Option.ite_none_right_eq_some, Option.some.injEq] at hstep
  obtain ⟨⟨hidle, -, -⟩, rfl⟩ := hstep
  obtain ⟨hbuilding, hlogging, hfiles⟩ := idle_iff.1 hidle
  refine h.begins hidle (fun hn => .inl ?_) (by simp) (by simp [hlogging]) hfiles rfl ?_ ?_ ?_
  · rw [needed_iff] at hn ⊢
    simp only [Option.some.injEq] at hn
    grind
  · simp [hbuilding]
  · simp [hbuilding]
  · grind

/-- An output is pending and needed as soon as there is one. -/
theorem Safe.openCompactionOutputFile (h : s.Safe) {ok : Bool}
    (hstep : s.step (.openCompactionOutputFile ok) = some s') : s'.Safe := by
  obtain ⟨c, hc, hstep⟩ := Option.bind_eq_some_iff.1 hstep
  simp only [Option.ite_none_right_eq_some, Option.some.injEq] at hstep
  obtain ⟨⟨hidle, hinstalled⟩, rfl⟩ := hstep
  obtain ⟨hbuilding, hlogging, hfiles⟩ := idle_iff.1 hidle
  refine h.begins hidle (fun hn => ?_) (fun f => ?_) ?_ hfiles rfl ?_ ?_ ?_
  · rw [needed_iff] at hn ⊢
    simp only [dirs_set, Option.some.injEq] at hn ⊢
    grind [set]
  · simp only [dirs_set]
    grind
  · simp [set, hlogging]
  · simp [set, hbuilding]
  · simp [set, hbuilding]
  · have hpending := h.pending
    simp only [dirs_set]
    grind

theorem Safe.cleanupCompaction (h : s.Safe) (hstep : s.step .cleanupCompaction = some s') :
    s'.Safe := by
  obtain ⟨c, hc, hstep⟩ := Option.bind_eq_some_iff.1 hstep
  simp only [Option.ite_none_right_eq_some, Option.some.injEq] at hstep
  obtain ⟨hidle, rfl⟩ := hstep
  obtain ⟨hbuilding, hlogging, hfiles⟩ := idle_iff.1 hidle
  refine h.begins hidle (fun hn => .inl ?_) (fun f => ?_) ?_ hfiles rfl ?_ ?_ ?_
  · rw [needed_iff] at hn ⊢
    simp only [dirs_set] at hn
    grind [set]
  · simp only [dirs_set]
    grind
  · simp [set, hlogging]
  · simp [set, hbuilding]
  · simp [set, hbuilding]
  · simp

/-- While an edit is under way nothing else is. -/
theorem Safe.quiet (h : s.Safe) {l : Logging} (hl : s.logging = some l) :
    s.building = none ∧ s.filesToDelete = [] := by
  constructor
  · by_contra hne
    have := h.apart (Option.isSome_iff_ne_none.2 hne)
    simp [hl] at this
  · by_contra hne
    have := (h.alone hne).2.1
    simp [hl] at this

/-- The manifest gets the edit: its tables are needed already. -/
theorem Safe.recorded (h : s.Safe) {l : Logging} (hl : s.logging = some l) {logging : Option Logging}
    {bgError : Bool} (hlogging : ∀ l', logging = some l' → l' = { l with recorded := true })
    (hsynced : bgError = false → s.bgError = false ∧ l.recorded = false ∧ logging.isSome) :
    State.Safe { s.recorded l with logging, bgError } := by
  obtain ⟨hbuilding, hfiles⟩ := h.quiet hl
  have hnew : ∀ n ∈ l.edit.newFiles, s.Needed l.family n := fun n hn => .logging hl rfl hn
  have hneeded : ∀ {f n}, Needed { s.recorded l with logging, bgError } f n → s.Needed f n := by
    intro f n hn
    have hin := hnew n
    rw [needed_iff] at hn hin ⊢
    simp only [State.recorded, dirs_set, VersionEdit.apply] at hn
    grind [set]
  constructor
  · intro f n hn
    obtain ⟨hmem, hlt⟩ := h.held (hneeded hn)
    simp only [State.recorded, dirs_set]
    grind
  · simp [State.recorded, set, hbuilding]
  · simp [State.recorded, set, hfiles]
  · simp [State.recorded, set, hfiles]
  · simp [State.recorded, set, hbuilding]
  · have hpending := h.pending
    simp only [State.recorded, dirs_set]
    grind [set]
  · intro f
    have hmanifest := h.manifest f
    have hheld : ∀ n ∈ l.edit.newFiles, n < (s.dirs l.family).nextFileNumber :=
      fun n hn => (h.held (hnew n hn)).2
    simp only [State.recorded, dirs_set, VersionEdit.apply]
    grind
  · intro hb f
    obtain ⟨hs, hnot, hsome⟩ := hsynced hb
    obtain ⟨l', hl'⟩ := Option.isSome_iff_exists.1 hsome
    have hsame := h.synced hs f
    simp only [logged, hl, hnot] at hsame
    simp only [State.recorded, dirs_set, logged, hl', hlogging l' hl']
    grind

/-- Or it does not. -/
theorem Safe.unrecorded (h : s.Safe) {l : Logging} (hl : s.logging = some l)
    {logging : Option Logging} {bgError : Bool}
    (hlogging : ∀ l', logging = some l' → l' = { l with recorded := true })
    (hsynced : bgError = true) : State.Safe { s with logging, bgError } := by
  obtain ⟨hbuilding, hfiles⟩ := h.quiet hl
  have hneeded : ∀ {f n}, Needed { s with logging, bgError } f n → s.Needed f n := by
    intro f n hn
    rw [needed_iff] at hn ⊢
    grind
  refine ⟨fun hn => h.held (hneeded hn), by simp [hbuilding], by simp [hfiles], by simp [hfiles],
    by simp [hbuilding], h.pending, h.manifest, by simp [hsynced]⟩

/-- **The edit gets into the manifest** before its version is installed. -/
theorem Safe.record (h : s.Safe) {readable : Bool}
    (hstep : s.step (.record readable) = some s') : s'.Safe := by
  obtain ⟨l, hl, hstep⟩ := Option.bind_eq_some_iff.1 hstep
  simp only [Option.ite_none_left_eq_some, Option.some.injEq, not_or, Bool.not_eq_true] at hstep
  obtain ⟨⟨hnot, herror⟩, rfl⟩ := hstep
  cases readable
  · exact h.unrecorded hl (by simp) (by simpa using herror)
  · exact h.recorded hl (by simp) fun hb => ⟨hb, hnot, rfl⟩

/-- **After an error** it may be there, and its version never installed. -/
theorem Safe.fail (h : s.Safe) {recorded : Bool}
    (hstep : s.step (.fail recorded) = some s') : s'.Safe := by
  obtain ⟨l, hl, hstep⟩ := Option.bind_eq_some_iff.1 hstep
  simp only [Option.ite_none_left_eq_some, Option.some.injEq] at hstep
  obtain ⟨-, rfl⟩ := hstep
  cases recorded
  · exact h.unrecorded hl (by simp) rfl
  · exact h.recorded hl (by simp) (by simp)

theorem Safe.install (h : s.Safe) (hstep : s.step .install = some s') : s'.Safe := by
  obtain ⟨l, hl, hstep⟩ := Option.bind_eq_some_iff.1 hstep
  simp only [Option.ite_none_right_eq_some, Option.some.injEq] at hstep
  obtain ⟨hrecorded, rfl⟩ := hstep
  obtain ⟨hbuilding, hfiles⟩ := h.quiet hl
  have hnew : ∀ n ∈ l.edit.newFiles, s.Needed l.family n := fun n hn => .logging hl rfl hn
  have hneeded : ∀ {f n}, Needed { s.set l.family { s.dirs l.family with
      current := l.edit.apply (s.dirs l.family).current } with logging := none } f n →
      s.Needed f n := by
    intro f n hn
    have hin := hnew n
    rw [needed_iff] at hn hin ⊢
    simp only [dirs_set, VersionEdit.apply] at hn
    grind [set]
  constructor
  · intro f n hn
    obtain ⟨hmem, hlt⟩ := h.held (hneeded hn)
    simp only [dirs_set]
    grind
  · simp [set, hbuilding]
  · simp [set, hfiles]
  · simp [set, hfiles]
  · simp [set, hbuilding]
  · have hpending := h.pending
    simp only [dirs_set]
    grind [set]
  · intro f
    have hmanifest := h.manifest f
    simp only [dirs_set]
    grind
  · intro hb f
    have hsame := h.synced hb f
    simp only [logged, hl, hrecorded] at hsame
    simp only [dirs_set, logged]
    grind

/-- **What is listed to be deleted** nobody needs: the outputs under way are pending, the versions
that are held are live, and the manifest has the current one. -/
theorem Safe.removeObsoleteFiles (h : s.Safe) (hstep : s.step .removeObsoleteFiles = some s') :
    s'.Safe := by
  simp only [State.step, Option.ite_none_right_eq_some, Option.some.injEq] at hstep
  obtain ⟨⟨hidle, hbuilt, herror⟩, rfl⟩ := hstep
  obtain ⟨hbuilding, hlogging, -⟩ := idle_iff.1 hidle
  have hneeded : ∀ {f n}, Needed { s with
      filesToDelete := s.cfs.flatMap fun family => (s.obsolete family).map (family, ·) } f n →
      s.Needed f n := fun hn => by
    rw [needed_iff] at hn ⊢
    exact hn
  refine ⟨fun hn => h.held (hneeded hn), by simp [hbuilding], fun t ht hn => ?_,
    fun _ => ⟨hbuilding, hlogging, hbuilt⟩, by simp [hbuilding], h.pending, h.manifest, h.synced⟩
  obtain ⟨family, -, hin⟩ := List.mem_flatMap.1 ht
  obtain ⟨n, hobsolete, rfl⟩ := List.mem_map.1 hin
  have hnot := of_decide_eq_true (List.mem_filter.1 hobsolete).2
  simp only [Dir.addLiveFiles, List.mem_append, List.mem_flatten, mem_base, not_or] at hnot
  obtain ⟨⟨⟨hpending, hcurrent⟩, hpinned⟩, hbase⟩ := hnot
  have hsame : (s.dirs family).manifest = (s.dirs family).current := by
    rw [h.synced herror family, logged, hlogging]
  obtain hn | hn | ⟨v, hv, hn⟩ | ⟨c, hc, hf, hn | ⟨hok, hinstalled, hn⟩⟩ | hn | ⟨l, hl, -⟩ :=
    needed_iff.1 (hneeded hn)
  · exact hcurrent hn
  · exact hcurrent (hsame ▸ hn)
  · exact hpinned ⟨v, hv, hn⟩
  · exact hbase ⟨c, hc, hf, hn⟩
  · obtain rfl : c.family = family := hf
    exact hpending (h.pending c hc hok hinstalled n hn)
  · simp [hbuilt] at hn
  · simp [hlogging] at hl

theorem Safe.removeFile (h : s.Safe) (hstep : s.step .removeFile = some s') : s'.Safe := by
  simp only [State.step] at hstep
  split at hstep
  · cases hstep
  · rename_i family m rest hfiles
    cases hstep
    obtain ⟨hbuilding, hlogging, hbuilt⟩ := h.alone (by simp [hfiles])
    have hneeded : ∀ {f n}, Needed { s.set family { s.dirs family with
        tables := (s.dirs family).tables.filter (· ≠ m) } with filesToDelete := rest } f n →
        s.Needed f n := by
      intro f n hn
      rw [needed_iff] at hn ⊢
      simp only [dirs_set] at hn
      grind [set]
    have hgone : ¬ s.Needed family m := h.deleting (family, m) (by simp [hfiles])
    constructor
    · intro f n hn
      obtain ⟨hmem, hlt⟩ := h.held (hneeded hn)
      have hne : ¬ (f = family ∧ n = m) := by
        rintro ⟨rfl, rfl⟩
        exact hgone (hneeded hn)
      simp only [dirs_set]
      grind
    · simp [set, hbuilding]
    · exact fun t ht hn => h.deleting t (by simp [hfiles, ht]) (hneeded hn)
    · exact fun _ => ⟨hbuilding, hlogging, hbuilt⟩
    · simp [set, hbuilding]
    · have hpending := h.pending
      simp only [dirs_set]
      grind [set]
    · intro f
      have hmanifest := h.manifest f
      simp only [dirs_set]
      grind
    · intro hb f
      have hsame := h.synced hb f
      simp only [dirs_set, logged] at hsame ⊢
      grind [set]

theorem Safe.reopen (h : s.Safe) (hstep : s.step .reopen = some s') : s'.Safe := by
  obtain rfl := Option.some.inj hstep
  constructor
  · intro f n hn
    have hin : n ∈ (s.dirs f).manifest := by
      rw [needed_iff] at hn
      simpa using hn
    exact ⟨(h.held (.manifest hin)).1, (h.manifest f).1 n hin⟩
  · simp
  · simp
  · simp
  · simp
  · simp
  · exact fun f => ⟨(h.manifest f).1, Nat.le_refl _⟩
  · intro _ f
    rfl

theorem Safe.step (h : s.Safe) {a : Action} (hstep : s.step a = some s') : s'.Safe := by
  cases a with
  | createColumnFamily family =>
    obtain rfl := Option.some.inj hstep
    have hneeded : ∀ {f n}, Needed { s with cfs := s.cfs ++ [family] } f n → s.Needed f n :=
      fun hn => by
        rw [needed_iff] at hn ⊢
        exact hn
    exact ⟨fun hn => h.held (hneeded hn), fun t ht => ⟨(h.fresh t ht).1, (h.fresh t ht).2.1,
      fun hn => (h.fresh t ht).2.2 (hneeded hn)⟩, fun t ht hn => h.deleting t ht (hneeded hn),
      h.alone, h.apart, h.pending, h.manifest, h.synced⟩
  | ref family =>
    obtain rfl := Option.some.inj hstep
    exact h.pin family _ _ (Nat.le_refl _) (by simp)
  | unref family i =>
    obtain rfl := Option.some.inj hstep
    exact h.pin family _ _ (Nat.le_refl _) fun v hv => .inl (List.mem_of_mem_eraseIdx hv)
  | newFileNumber family =>
    obtain rfl := Option.some.inj hstep
    exact h.pin family _ _ (Nat.le_succ _) fun v hv => .inl hv
  | startTable family => exact h.startTable hstep
  | finishTable ok => exact h.finishTable hstep
  | logTables family => exact h.logTables hstep
  | logMove family number => exact h.logMove hstep
  | logCompaction => exact h.logCompaction hstep
  | record readable => exact h.record hstep
  | fail recorded => exact h.fail hstep
  | install => exact h.install hstep
  | startCompaction family inputs => exact h.startCompaction hstep
  | openCompactionOutputFile ok => exact h.openCompactionOutputFile hstep
  | cleanupCompaction => exact h.cleanupCompaction hstep
  | removeObsoleteFiles => exact h.removeObsoleteFiles hstep
  | removeFile => exact h.removeFile hstep
  | reopen => exact h.reopen hstep

end State

variable {s : State}

theorem safe_of_reachable (h : system.Reachable s) : s.Safe := by
  refine h.invariant ?_ fun _ _ _ hs hstep => hs.step hstep
  rintro s rfl
  constructor
  · intro f n hn
    rw [State.needed_iff] at hn
    simp at hn
  all_goals simp [State.logged]

/-- **No table is deleted or written over that someone may read**: in every state, the tables of the
versions that are current, pinned by a reader, held by a compaction, or in a manifest, whatever part
of it can be read, are in their directory, and no new table gets the number of one. -/
theorem versions_held (h : system.Reachable s) (f : Nat) :
    ∀ v ∈ s.versions f, ∀ n ∈ v, n ∈ (s.dirs f).tables ∧ n < (s.dirs f).nextFileNumber :=
  fun _ hv _ hn => (safe_of_reachable h).held (.version hv hn)

/-- The steps that may come while files are being deleted. -/
def Action.WhileDeleting : Action → Prop
  | .removeFile | .createColumnFamily _ | .ref _ | .unref _ _ | .newFileNumber _ => True
  | _ => False

/-- **What is listed is deleted, and no more**: when the deleting is over, whatever readers did
meanwhile, a family's directory has those of its tables that a version had or that were pending. -/
theorem tables_of_removed {s₁ s₂ : State} (hlist : s.step .removeObsoleteFiles = some s₁)
    (hsteps : system.StepsBy (fun _ a => a.WhileDeleting) s₁ s₂) (hdone : s₂.filesToDelete = [])
    {f : Nat} (hf : f ∈ s.cfs) :
    (s₂.dirs f).tables = (s.dirs f).tables.filter fun n =>
      n ∈ (s.dirs f).addLiveFiles (s.base f) (s.dirs f).pendingOutputs := by
  simp only [State.step, Option.ite_none_right_eq_some, Option.some.injEq] at hlist
  obtain ⟨-, rfl⟩ := hlist
  have hlisted : ∀ n ∈ (s.dirs f).tables, (f, n) ∈ (s.cfs.flatMap fun family =>
      (s.obsolete family).map (family, ·)) ↔
      n ∉ (s.dirs f).addLiveFiles (s.base f) (s.dirs f).pendingOutputs := by
    intro n hn
    simp [State.obsolete, hf, hn]
  -- what is not to be deleted stays the same
  have hkept : (s₂.dirs f).tables.filter (fun n => (f, n) ∉ s₂.filesToDelete) =
      (s.dirs f).tables.filter fun n =>
        n ∈ (s.dirs f).addLiveFiles (s.base f) (s.dirs f).pendingOutputs := by
    refine hsteps.invariant (P := fun t => (t.dirs f).tables.filter
      (fun n => (f, n) ∉ t.filesToDelete) = _) ?_ ?_
    · refine List.filter_congr fun n hn => ?_
      rw [Bool.eq_iff_iff, decide_eq_true_iff, decide_eq_true_iff, hlisted n hn, not_not]
    · intro t a t' ht hok hstep
      rw [← ht]
      cases a with
      | removeFile =>
        simp only [system, State.step] at hstep
        split at hstep
        · cases hstep
        · rename_i family m rest hfiles
          cases hstep
          simp only [State.dirs_set, hfiles]
          by_cases hfamily : f = family
          · subst hfamily
            simp [List.filter_filter, Bool.and_comm]
          · simp [hfamily]
      | createColumnFamily family =>
        obtain rfl := Option.some.inj hstep
        rfl
      | ref family =>
        obtain rfl := Option.some.inj hstep
        exact congrArg _ (State.tables_set rfl)
      | unref family i =>
        obtain rfl := Option.some.inj hstep
        exact congrArg _ (State.tables_set rfl)
      | newFileNumber family =>
        obtain rfl := Option.some.inj hstep
        exact congrArg _ (State.tables_set rfl)
      | _ => exact absurd hok (by simp [Action.WhileDeleting])
  rw [← hkept, hdone]
  exact (List.filter_eq_self.2 (by simp)).symm

/-- A flush in the middle of a compaction, with a reader of the version before. -/
def flushRun : List Action :=
  [.startTable 0, .finishTable true, .logTables 0, .record true, .install, .ref 0,
    .startCompaction 0 [2], .openCompactionOutputFile true, .startTable 0, .finishTable true,
    .logTables 0, .record true, .install, .removeObsoleteFiles, .logCompaction, .record true, .install,
    .cleanupCompaction, .removeObsoleteFiles]

theorem versions_held_flushRun : ∃ s, system.run {} flushRun = some s ∧
    s.versions 0 = [[4, 3], [4, 3], [], [2]] ∧
    ∀ v ∈ s.versions 0, ∀ n ∈ v, n ∈ (s.dirs 0).tables ∧ n < (s.dirs 0).nextFileNumber := by
  have hrun : (system.run {} flushRun).any
      (fun s => s.versions 0 = [[4, 3], [4, 3], [], [2]]) = true := by decide
  obtain ⟨s, hs, hversions⟩ := (Option.any_eq_true _ _).1 hrun
  exact ⟨s, hs, of_decide_eq_true hversions,
    versions_held (Transition.System.Reachable.run (.init rfl) hs) 0⟩

end LevelDb.Files
