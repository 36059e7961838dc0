import LevelDb.Db.PickCompaction
import LevelDb.Proof.Ages
import LevelDb.Proof.Finalize
import Mathlib.Data.DFinsupp.WellFounded

/-!
# What is picked, and that picking ends

* `pickCompaction_spec`: `PickCompaction` and `SetupOtherInputs` choose inputs that are closed under
  overlap on level 0, have the boundary file of their largest key, and come with exactly the files
  of the next level that overlap their range; so the model of a family lets it pick them
  (`Family.isSome_pick`).
* `CompactsTo.fileCounts_lt`: installed or moved, they leave the levels above alone and make their
  own level smaller, so the numbers of files by level go down in lexicographic order.
* `rdFileToCompact_eq_none`: compactions for range tombstones therefore come to an end.
-/

namespace LevelDb

variable {K V : Type} [LinearOrder K]

/-! ## Ranges -/

theorem foldl_min_le {α β : Type} [LinearOrder β] (key : α → β) :
    ∀ (l : List α) (b : β), l.foldl (fun m a => min m (key a)) b ≤ b ∧
      (∀ a ∈ l, l.foldl (fun m a => min m (key a)) b ≤ key a) ∧
      (l.foldl (fun m a => min m (key a)) b = b ∨
        ∃ a ∈ l, l.foldl (fun m a => min m (key a)) b = key a)
  | [], b => by simp
  | a :: l, b => by
    obtain ⟨h1, h2, h3⟩ := foldl_min_le key l (min b (key a))
    rw [List.foldl_cons]
    refine ⟨h1.trans (min_le_left _ _), fun c hc => ?_, ?_⟩
    · rcases List.mem_cons.1 hc with rfl | hc
      · exact h1.trans (min_le_right _ _)
      · exact h2 c hc
    · rcases h3 with h | ⟨c, hc, h⟩
      · rcases min_choice b (key a) with h' | h'
        · exact .inl (h.trans h')
        · exact .inr ⟨a, List.mem_cons_self, h.trans h'⟩
      · exact .inr ⟨c, List.mem_cons_of_mem a hc, h⟩

/-- **The range of files** is around them, and each end is one of a file. -/
structure IsRange (files : List (FileMetaData K V)) (smallest largest : InternalKey K) : Prop where
  smallest_le : ∀ f ∈ files, smallest ≤ f.smallest
  le_largest : ∀ f ∈ files, f.largest ≤ largest
  smallest_mem : ∃ f ∈ files, smallest = f.smallest
  largest_mem : ∃ f ∈ files, largest = f.largest

theorem isRange_getRange {files : List (FileMetaData K V)} {smallest largest : InternalKey K}
    (h : getRange files = some (smallest, largest)) : IsRange files smallest largest := by
  cases files with
  | nil => cases h
  | cons f files =>
    cases h
    obtain ⟨h1, h2, h3⟩ := foldl_min_le (·.smallest) files f.smallest
    obtain ⟨h4, h5, h6⟩ := foldl_min_le (β := (InternalKey K)ᵒᵈ) (·.largest) files f.largest
    refine ⟨?_, ?_, ?_, ?_⟩
    · exact List.forall_mem_cons.2 ⟨h1, h2⟩
    · exact List.forall_mem_cons.2 ⟨h4, h5⟩
    · rcases h3 with h | ⟨g, hg, h⟩
      · exact ⟨f, List.mem_cons_self, h⟩
      · exact ⟨g, List.mem_cons_of_mem f hg, h⟩
    · rcases h6 with h | ⟨g, hg, h⟩
      · exact ⟨f, List.mem_cons_self, h⟩
      · exact ⟨g, List.mem_cons_of_mem f hg, h⟩

theorem exists_getRange {files : List (FileMetaData K V)} (h : files ≠ []) :
    ∃ smallest largest, getRange files = some (smallest, largest) := by
  cases files with
  | nil => exact absurd rfl h
  | cons f files => exact ⟨_, _, rfl⟩

theorem IsRange.overlapsHull {files : List (FileMetaData K V)} {smallest largest : InternalKey K}
    (h : IsRange files smallest largest) (g : FileMetaData K V) :
    OverlapsHull files g ↔ g.Overlaps smallest.userKey largest.userKey := by
  constructor
  · rintro ⟨⟨a, ha, hle⟩, b, hb, hle'⟩
    exact ⟨(userKey_le (h.smallest_le a ha)).trans hle, hle'.trans (userKey_le (h.le_largest b hb))⟩
  · rintro ⟨hlo, hhi⟩
    obtain ⟨a, ha, hsmall⟩ := h.smallest_mem
    obtain ⟨b, hb, hlarge⟩ := h.largest_mem
    exact ⟨⟨a, ha, hsmall ▸ hlo⟩, b, hb, hlarge ▸ hhi⟩

/-! ## Overlapping files -/

namespace Version

variable (v : Version K V)

theorem scanLevel0_inr {files inputs result : List (FileMetaData K V)} {lo hi : K}
    (h : scanLevel0 lo hi files inputs = .inr result) :
    result = inputs ++ files.filter (·.Overlaps lo hi) ∧
      ∀ f ∈ files, f.Overlaps lo hi → lo ≤ f.smallest.userKey ∧ f.largest.userKey ≤ hi := by
  induction files generalizing inputs with
  | nil =>
    cases h
    simp
  | cons f files ih =>
    simp only [scanLevel0] at h
    split_ifs at h with hover hlo hhi
    · obtain ⟨heq, hin⟩ := ih h
      refine ⟨by simp [heq, hover], List.forall_mem_cons.2 ⟨fun _ => ?_, hin⟩⟩
      exact ⟨not_lt.1 hlo, not_lt.1 hhi⟩
    · obtain ⟨heq, hin⟩ := ih h
      exact ⟨by simp [heq, hover], List.forall_mem_cons.2 ⟨fun h => absurd h hover, hin⟩⟩

/-- What `GetOverlappingInputs` of level 0 ends with: the files that overlap a range around the
given one that none of them reaches beyond. -/
theorem getOverlappingInputs0_spec (lo hi : K) :
    ∃ lo' hi', lo' ≤ lo ∧ hi ≤ hi' ∧
      v.getOverlappingInputs0 lo hi = (v.files 0).filter (·.Overlaps lo' hi') ∧
      ∀ f ∈ v.getOverlappingInputs0 lo hi,
        lo' ≤ f.smallest.userKey ∧ f.largest.userKey ≤ hi' := by
  induction lo, hi using Version.getOverlappingInputs0.induct v with
  | case1 lo hi inputs h =>
    obtain ⟨heq, hin⟩ := scanLevel0_inr h
    have hresult : v.getOverlappingInputs0 lo hi = (v.files 0).filter (·.Overlaps lo hi) := by
      rw [getOverlappingInputs0, h]
      simpa using heq
    refine ⟨lo, hi, le_rfl, le_rfl, hresult, fun f hf => ?_⟩
    rw [hresult, List.mem_filter] at hf
    exact hin f hf.1 (of_decide_eq_true hf.2)
  | case2 lo hi lo' hi' h ih =>
    have hresult : v.getOverlappingInputs0 lo hi = v.getOverlappingInputs0 lo' hi' := by
      rw [getOverlappingInputs0, h]
    obtain ⟨lo'', hi'', hlo, hhi, heq, hin⟩ := ih
    rw [hresult]
    obtain ⟨f, -, ⟨hlt, rfl, rfl⟩ | ⟨hlt, rfl, rfl⟩⟩ := scanLevel0_inl h
    · exact ⟨lo'', hi'', hlo.trans hlt.le, hhi, heq, hin⟩
    · exact ⟨lo'', hi'', hlo, hlt.le.trans hhi, heq, hin⟩

/-- On level 0, all the files that overlap the range of these files are among them. -/
def ClosedAt (level : Nat) (files : List (FileMetaData K V)) : Prop :=
  level = 0 → ∀ f ∈ v.files 0, OverlapsHull files f → f ∈ files

theorem mem_overlappingInputs {level : Nat} {lo hi : K} {f : FileMetaData K V}
    (h : f ∈ v.overlappingInputs level lo hi) : f ∈ v.files level := by
  unfold overlappingInputs at h
  split at h
  · rename_i hlevel
    subst hlevel
    obtain ⟨lo', hi', -, -, heq, -⟩ := v.getOverlappingInputs0_spec lo hi
    rw [heq] at h
    exact (List.mem_filter.1 h).1
  · unfold getOverlappingInputs at h
    split at h
    · exact (List.mem_filter.1 h).1
    · simp at h

theorem closedAt_overlappingInputs (level : Nat) (lo hi : K) :
    v.ClosedAt level (v.overlappingInputs level lo hi) := by
  rintro rfl f hf ⟨⟨a, ha, hle⟩, b, hb, hle'⟩
  rw [overlappingInputs, if_pos rfl] at ha hb ⊢
  obtain ⟨lo', hi', -, -, heq, hin⟩ := v.getOverlappingInputs0_spec lo hi
  rw [heq]
  refine List.mem_filter.2 ⟨hf, decide_eq_true ⟨?_, ?_⟩⟩
  · exact (hin a ha).1.trans hle
  · exact hle'.trans (hin b hb).2

/-- Below level 0 the overlapping files are just these. -/
theorem mem_overlappingInputs_succ {level : Nat} (hlevel : level + 1 < kNumLevels) {lo hi : K}
    {f : FileMetaData K V} : f ∈ v.overlappingInputs (level + 1) lo hi ↔
      f ∈ v.files (level + 1) ∧ f.Overlaps lo hi := by
  rw [overlappingInputs, if_neg (Nat.succ_ne_zero level), getOverlappingInputs, if_pos hlevel,
    List.mem_filter, decide_eq_true_eq]

/-! ## Boundary files -/

end Version

theorem mem_boundaryFiles {levelFiles : List (FileMetaData K V)} {largestKey : InternalKey K}
    {f : FileMetaData K V} (h : f ∈ boundaryFiles levelFiles largestKey) :
    f ∈ levelFiles ∧ largestKey < f.smallest := by
  induction largestKey using boundaryFiles.induct levelFiles with
  | case1 largestKey hnone =>
    rw [boundaryFiles, hnone] at h
    simp at h
  | case2 largestKey g hsome ih =>
    rw [boundaryFiles, hsome] at h
    obtain ⟨hg, hlt, -⟩ := findSmallestBoundaryFile_eq_some hsome
    rcases List.mem_cons.1 h with rfl | h
    · exact ⟨hg, hlt⟩
    · obtain ⟨hf, hlt'⟩ := ih h
      exact ⟨hf, hlt.trans (g.smallest_le_largest.trans_lt hlt')⟩

theorem findSmallestBoundaryFile_eq_none {levelFiles : List (FileMetaData K V)}
    {largestKey : InternalKey K} (h : findSmallestBoundaryFile levelFiles largestKey = none)
    {g : FileMetaData K V} (hg : g ∈ levelFiles) (hlt : largestKey < g.smallest) :
    largestKey.userKey < g.smallest.userKey := by
  refine (userKey_le hlt.le).lt_of_ne fun heq => ?_
  have hmem : g ∈ levelFiles.filter fun f =>
      largestKey < f.smallest ∧ f.smallest.userKey = largestKey.userKey :=
    List.mem_filter.2 ⟨hg, decide_eq_true ⟨hlt, heq.symm⟩⟩
  rw [List.argmin_eq_none.1 h] at hmem
  simp at hmem

/-- The loop ends when no file goes on with the last user key: a file past all that were added
starts at a larger one. -/
theorem boundaryFiles_end {levelFiles : List (FileMetaData K V)} {largestKey : InternalKey K}
    {g : FileMetaData K V} (hg : g ∈ levelFiles) (hlt : largestKey < g.smallest)
    (hall : ∀ f ∈ boundaryFiles levelFiles largestKey, f.largest < g.smallest) :
    largestKey.userKey < g.smallest.userKey ∧
      ∀ f ∈ boundaryFiles levelFiles largestKey, f.largest.userKey < g.smallest.userKey := by
  induction largestKey using boundaryFiles.induct levelFiles with
  | case1 largestKey hnone =>
    rw [boundaryFiles, hnone]
    exact ⟨findSmallestBoundaryFile_eq_none hnone hg hlt, by simp⟩
  | case2 largestKey f hsome ih =>
    rw [boundaryFiles, hsome] at hall ⊢
    obtain ⟨-, -, heq⟩ := findSmallestBoundaryFile_eq_some hsome
    obtain ⟨hf, hrest⟩ := List.forall_mem_cons.1 hall
    obtain ⟨hlast, hbefore⟩ := ih hf hrest
    refine ⟨?_, List.forall_mem_cons.2 ⟨hlast, hbefore⟩⟩
    rw [← heq]
    exact (userKey_le f.smallest_le_largest).trans_lt hlast

/-- **After `AddBoundaryInputs`** no file of the level goes on with the largest key. -/
theorem not_boundary_addBoundaryInputs {levelFiles files : List (FileMetaData K V)}
    {g : FileMetaData K V} (hg : g ∈ levelFiles) :
    ¬ Boundary (addBoundaryInputs levelFiles files) g := by
  rintro ⟨⟨f, hf, heq⟩, hall⟩
  rcases files.eq_nil_or_concat with rfl | ⟨_, _, hne⟩
  · simp [addBoundaryInputs, getRange] at hf
  obtain ⟨smallest, largest, hrange⟩ := exists_getRange (show files ≠ [] by simp [hne])
  have hr := isRange_getRange hrange
  simp only [addBoundaryInputs, hrange, List.mem_append] at hf hall
  obtain ⟨a, ha, hlargest⟩ := hr.largest_mem
  obtain ⟨hlt, hlts⟩ := boundaryFiles_end hg (hlargest ▸ hall a (.inl ha)) fun f hf => hall f (.inr hf)
  rcases hf with hf | hf
  · have := (userKey_le (hr.le_largest f hf)).trans_lt hlt
    exact absurd heq this.ne'
  · exact absurd heq (hlts f hf).ne'

/-- On level 0 there are no boundary files left to add. -/
theorem addBoundaryInputs_eq {v : Version K V} {files : List (FileMetaData K V)}
    (hclosed : v.ClosedAt 0 files) : addBoundaryInputs (v.files 0) files = files := by
  unfold addBoundaryInputs
  split
  · rfl
  · rename_i smallest largest hrange
    have hr := isRange_getRange hrange
    rw [boundaryFiles]
    split
    · simp
    · rename_i g hsome
      exfalso
      obtain ⟨hg, hlt, heq⟩ := findSmallestBoundaryFile_eq_some hsome
      -- it overlaps the range, so it is among the files and ends within the range
      have hmem : g ∈ files := by
        refine hclosed rfl g hg ((hr.overlapsHull g).2 ⟨?_, heq.le⟩)
        obtain ⟨a, ha, hlargest⟩ := hr.largest_mem
        have h1 := userKey_le (hr.smallest_le a ha)
        have h2 := userKey_le a.smallest_le_largest
        have h3 := userKey_le g.smallest_le_largest
        rw [heq, hlargest] at h3
        exact h1.trans (h2.trans h3)
      have hend := hr.le_largest g hmem
      exact absurd (hlt.trans_le g.smallest_le_largest) (not_lt.2 hend)

theorem mem_addBoundaryInputs {v : Version K V} {level : Nat} {files : List (FileMetaData K V)}
    (h : ∀ f ∈ files, f ∈ v.files level) :
    ∀ f ∈ addBoundaryInputs (v.files level) files, f ∈ v.files level := by
  intro f hf
  unfold addBoundaryInputs at hf
  split at hf
  · exact h f hf
  · rcases List.mem_append.1 hf with hf | hf
    · exact h f hf
    · exact (mem_boundaryFiles hf).1

theorem addBoundaryInputs_ne_nil {levelFiles files : List (FileMetaData K V)} (h : files ≠ []) :
    addBoundaryInputs levelFiles files ≠ [] := by
  unfold addBoundaryInputs
  split
  · exact h
  · simp [h]

theorem Version.ClosedAt.addBoundaryInputs {v : Version K V} {level : Nat}
    {files : List (FileMetaData K V)} (h : v.ClosedAt level files) :
    v.ClosedAt level (addBoundaryInputs (v.files level) files) := by
  rintro rfl
  rw [addBoundaryInputs_eq h]
  exact h rfl

/-! ## The inputs -/

/-- **What is picked**: files of a level, on level 0 with all that overlap them, and with the files
of the next level that overlap them. -/
structure PickedCompaction.Chosen (c : PickedCompaction K V) (v : Version K V) : Prop where
  level_lt : c.level + 1 < kNumLevels
  nonempty : c.inputs0 ≠ []
  mem0 : ∀ f ∈ c.inputs0, f ∈ v.files c.level
  closed : v.ClosedAt c.level c.inputs0
  boundary : ∀ g ∈ v.files c.level, ¬ Boundary c.inputs0 g
  mem1 : ∀ g, g ∈ c.inputs1 ↔ g ∈ v.files (c.level + 1) ∧ OverlapsHull c.inputs0 g

namespace Version

variable {v : Version K V} {level : Nat} {inputs0 inputs1 : List (FileMetaData K V)}

theorem inputsBelow_spec (hlevel : level + 1 < kNumLevels) {largest : InternalKey K}
    (h : v.inputsBelow level inputs0 = some (inputs1, largest)) (g : FileMetaData K V) :
    g ∈ inputs1 ↔ g ∈ v.files (level + 1) ∧ OverlapsHull inputs0 g := by
  obtain ⟨⟨smallest, largest'⟩, hrange, heq⟩ := Option.map_eq_some_iff.1 h
  cases heq
  rw [(isRange_getRange hrange).overlapsHull g, mem_overlappingInputs_succ v hlevel]

theorem exists_inputsBelow (v : Version K V) (level : Nat) (h : inputs0 ≠ []) :
    ∃ inputs1 largest, v.inputsBelow level inputs0 = some (inputs1, largest) := by
  obtain ⟨smallest, largest, hrange⟩ := exists_getRange h
  exact ⟨_, _, by rw [inputsBelow, hrange]; rfl⟩

theorem exists_withGrandparents (v : Version K V) (level : Nat) (h : inputs0 ≠ [])
    (inputs1 : List (FileMetaData K V)) (pointer : InternalKey K) :
    ∃ c, v.withGrandparents level inputs0 inputs1 pointer = some c ∧ c.level = level ∧
      c.inputs0 = inputs0 ∧ c.inputs1 = inputs1 := by
  obtain ⟨smallest, largest, hrange⟩ := exists_getRange (show inputs0 ++ inputs1 ≠ [] by simp [h])
  rw [withGrandparents, hrange]
  exact ⟨_, rfl, rfl, rfl, rfl⟩

theorem expandedInputs_spec (hlevel : level + 1 < kNumLevels) {opts : Options K V}
    {expanded0 expanded1 : List (FileMetaData K V)} {largest : InternalKey K}
    (h : v.expandedInputs opts level inputs0 inputs1 = some (expanded0, expanded1, largest)) :
    expanded0 ≠ [] ∧ (∀ f ∈ expanded0, f ∈ v.files level) ∧ v.ClosedAt level expanded0 ∧
      (∀ g ∈ v.files level, ¬ Boundary expanded0 g) ∧
      ∀ g, g ∈ expanded1 ↔ g ∈ v.files (level + 1) ∧ OverlapsHull expanded0 g := by
  obtain ⟨⟨allStart, allLimit⟩, -, h⟩ := Option.bind_eq_some_iff.1 h
  obtain ⟨_, hguard, h⟩ := Option.bind_eq_some_iff.1 h
  obtain ⟨⟨expanded1', largest'⟩, hbelow, h⟩ := Option.bind_eq_some_iff.1 h
  obtain ⟨-, -, h⟩ := Option.bind_eq_some_iff.1 h
  cases h
  have hlonger := ((Option.guard_eq_some' _).1 hguard).1
  refine ⟨?_, ?_, ?_, ?_, inputsBelow_spec hlevel hbelow⟩
  · rintro hnil
    simp [hnil] at hlonger
  · exact mem_addBoundaryInputs fun f hf => v.mem_overlappingInputs hf
  · exact (v.closedAt_overlappingInputs level _ _).addBoundaryInputs
  · exact fun g hg => not_boundary_addBoundaryInputs hg

/-- **`SetupOtherInputs`** succeeds on files of a level, and completes them. -/
theorem setupOtherInputs_spec (hlevel : level + 1 < kNumLevels) (hne : inputs0 ≠ [])
    (hmem : ∀ f ∈ inputs0, f ∈ v.files level) (hclosed : v.ClosedAt level inputs0)
    (opts : Options K V) :
    ∃ c, v.setupOtherInputs opts level inputs0 = some c ∧ c.level = level ∧ c.Chosen v := by
  have hne' : addBoundaryInputs (v.files level) inputs0 ≠ [] := addBoundaryInputs_ne_nil hne
  obtain ⟨inputs1, largest, hbelow⟩ := exists_inputsBelow v level hne'
  obtain ⟨c, hc, rfl, hc0, hc1⟩ := exists_withGrandparents v level hne' inputs1 largest
  have hplain : c.Chosen v := by
    refine ⟨hlevel, hc0 ▸ hne', ?_, ?_, ?_, ?_⟩
    · rw [hc0]
      exact mem_addBoundaryInputs hmem
    · rw [hc0]
      exact hclosed.addBoundaryInputs
    · rw [hc0]
      exact fun g hg => not_boundary_addBoundaryInputs hg
    · rw [hc0, hc1]
      exact inputsBelow_spec hlevel hbelow
  unfold setupOtherInputs
  simp only [hbelow, Option.bind_eq_bind, Option.bind_some]
  split
  · exact ⟨c, hc, rfl, hplain⟩
  · split
    · rename_i expanded0 expanded1 newLimit hexpanded
      obtain ⟨h1, h2, h3, h4, h5⟩ := expandedInputs_spec hlevel hexpanded
      obtain ⟨d, hd, hlevel', hd0, hd1⟩ :=
        exists_withGrandparents v c.level h1 expanded1 newLimit
      refine ⟨d, hd, hlevel', ⟨hlevel' ▸ hlevel, hd0 ▸ h1, ?_, ?_, ?_, ?_⟩⟩
      · rw [hd0, hlevel']
        exact h2
      · rw [hd0, hlevel']
        exact h3
      · rw [hd0, hlevel']
        exact h4
      · rw [hd0, hd1, hlevel']
        exact h5
    · exact ⟨c, hc, rfl, hplain⟩

/-- **`PickCompaction`** from a file of a level above the last. -/
theorem pickCompaction_spec (opts : Options K V) {compactPointer : Nat → Option (InternalKey K)}
    {triggers : Triggers K V} {f : FileMetaData K V}
    (hstart : v.startFile compactPointer triggers = some (level, f))
    (hlevel : level + 1 < kNumLevels) (hf : f ∈ v.files level) :
    ∃ c, v.pickCompaction opts compactPointer triggers = some c ∧ c.level = level ∧
      c.Chosen v := by
  rw [pickCompaction, hstart, Option.bind_some]
  by_cases hzero : level = 0
  · subst hzero
    obtain ⟨lo, hi, hlo, hhi, heq, -⟩ :=
      v.getOverlappingInputs0_spec f.smallest.userKey f.largest.userKey
    have hclosed := v.closedAt_overlappingInputs 0 f.smallest.userKey f.largest.userKey
    rw [overlappingInputs, if_pos rfl] at hclosed
    have hbounds := userKey_le f.smallest_le_largest
    have hpicked : f ∈ v.getOverlappingInputs0 f.smallest.userKey f.largest.userKey := by
      rw [heq]
      exact List.mem_filter.2 ⟨hf, decide_eq_true ⟨hlo.trans hbounds, hbounds.trans hhi⟩⟩
    refine setupOtherInputs_spec hlevel (List.ne_nil_of_mem hpicked) (fun g hg => ?_) hclosed opts
    rw [heq] at hg
    exact (List.mem_filter.1 hg).1
  · simp only [hzero, if_false]
    refine setupOtherInputs_spec hlevel (by simp) (by simpa using hf) ?_ opts
    exact fun h => absurd h hzero

end Version

/-- The files picked by the numbers of files are these. -/
theorem mem_pick_map {v : Version K V} {level : Nat} {files : List (FileMetaData K V)}
    (hunique : ∀ f ∈ v.files level, ∀ g ∈ v.files level, f.number = g.number → f = g)
    (hmem : ∀ f ∈ files, f ∈ v.files level) (f : FileMetaData K V) :
    f ∈ v.pick level (files.map (·.number)) ↔ f ∈ files := by
  rw [Version.mem_pick]
  constructor
  · rintro ⟨hf, hnumber⟩
    obtain ⟨g, hg, heq⟩ := List.mem_map.1 hnumber
    rw [← hunique g (hmem g hg) f hf heq]
    exact hg
  · exact fun hf => ⟨hmem f hf, List.mem_map_of_mem hf⟩

/-- **What is picked is what the model of a family lets it pick.** -/
theorem PickedCompaction.Chosen.picked {c : PickedCompaction K V} {v : Version K V}
    (h : c.Chosen v)
    (hunique : ∀ level, ∀ f ∈ v.files level, ∀ g ∈ v.files level, f.number = g.number → f = g) :
    Picked v c.level (c.inputs0.map (·.number)) (c.inputs1.map (·.number)) := by
  have hpick0 := mem_pick_map (hunique c.level) h.mem0
  have hpick1 := mem_pick_map (hunique (c.level + 1)) fun f hf => ((h.mem1 f).1 hf).1
  have hhull : ∀ g, OverlapsHull (v.pick c.level (c.inputs0.map (·.number))) g ↔
      OverlapsHull c.inputs0 g := by
    intro g
    simp only [OverlapsHull, hpick0]
  refine ⟨h.level_lt, ?_, ?_, ?_, ?_, ?_⟩
  · obtain ⟨f, hf⟩ := List.exists_mem_of_ne_nil _ h.nonempty
    exact List.ne_nil_of_mem ((hpick0 f).2 hf)
  · intro hlevel f hf hover
    exact List.mem_map_of_mem (h.closed hlevel f hf ((hhull f).1 hover))
  · intro g hg hboundary
    refine absurd ?_ (h.boundary g hg)
    simpa only [Boundary, hpick0] using hboundary
  · intro g hg hover
    exact List.mem_map_of_mem ((h.mem1 g).2 ⟨hg, (hhull g).1 hover⟩)
  · intro g hg
    exact (hhull g).2 ((h.mem1 g).1 ((hpick1 g).1 hg)).2

/-- **In every run of a family** that has no compaction under way, what is picked may be picked. -/
theorem Family.isSome_pick [Inhabited V] {opts : Options K V} {s : Family K V}
    (h : (Family.system opts).Reachable s) (hrunning : s.running = none) {c : PickedCompaction K V}
    (hc : c.Chosen s.current) (snapshots : List Nat) :
    (Family.step opts s (.pick c.level (c.inputs0.map (·.number)) (c.inputs1.map (·.number))
      snapshots)).isSome = true := by
  have hordered := (Family.inv_of_reachable h).ordered
  have hpicked := hc.picked fun level f hf g hg heq => (hordered.unique level level f g hf hg heq).2
  simp [Family.step, hrunning, hpicked]

/-! ## The files go down -/

/-- The numbers of files by level, the uppermost level first. -/
def Version.fileCounts (v : Version K V) : Lex (Fin kNumLevels → Nat) :=
  toLex fun level => (v.files level).length

theorem Version.length_apply (v : Version K V) (edit : VersionEdit K V) (level : Nat) :
    ((v.apply edit).files level).length =
      ((v.files level).filter fun f => (level, f.number) ∉ edit.deletedFiles).length +
        (edit.newFiles.filter fun n => n.1 = level).length := by
  simp [Version.apply]

/-- An edit that takes files of a level away, adds only to the next, and leaves the levels above
alone. -/
structure VersionEdit.Lowers (edit : VersionEdit K V) (v : Version K V) (level : Nat) : Prop where
  level_lt : level < kNumLevels
  removed : ∃ f ∈ v.files level, (level, f.number) ∈ edit.deletedFiles
  deleted : ∀ d ∈ edit.deletedFiles, level ≤ d.1
  added : ∀ n ∈ edit.newFiles, n.1 = level + 1

/-- **Such an edit** makes the numbers of files smaller, as its level is the first that changes. -/
theorem VersionEdit.Lowers.fileCounts_lt {edit : VersionEdit K V} {v : Version K V} {level : Nat}
    (h : edit.Lowers v level) : (v.apply edit).fileCounts < v.fileCounts := by
  have hnew : ∀ l ≤ level, edit.newFiles.filter (fun n => n.1 = l) = [] := by
    intro l hl
    refine List.filter_eq_nil_iff.2 fun n hn => ?_
    have := h.added n hn
    simp only [decide_eq_true_eq]
    omega
  refine ⟨⟨level, h.level_lt⟩, fun l hl => ?_, ?_⟩
  · have hl : (l : Nat) < level := hl
    show ((v.apply edit).files l).length = (v.files l).length
    rw [Version.length_apply, hnew l hl.le, List.filter_eq_self.2]
    · simp
    · intro f _
      refine decide_eq_true fun hin => ?_
      have := h.deleted _ hin
      simp only at this
      omega
  · show ((v.apply edit).files level).length < (v.files level).length
    obtain ⟨f, hf, hdeleted⟩ := h.removed
    rw [Version.length_apply, hnew level le_rfl, List.length_nil, Nat.add_zero]
    exact List.length_filter_lt_length_iff_exists.2 ⟨f, hf, by simpa using hdeleted⟩

/-- **What `BackgroundCompaction` applies**, moving a file or installing the outputs. -/
theorem PickedCompaction.Chosen.lowers {c : PickedCompaction K V} {v : Version K V}
    (h : c.Chosen v) {opts : Options K V} {snapshots : List Nat} {lastSequence : Nat}
    {o : Outcomes K V} {edit : VersionEdit K V}
    (hedit : c.edit opts v snapshots lastSequence o = some edit) : edit.Lowers v c.level := by
  obtain ⟨f, hf⟩ := List.exists_mem_of_ne_nil _ h.nonempty
  have hlevel : c.level < kNumLevels := Nat.lt_of_succ_lt h.level_lt
  unfold PickedCompaction.edit at hedit
  split at hedit
  · cases hedit
    refine ⟨hlevel, ⟨f, h.mem0 f hf, List.mem_map_of_mem hf⟩, fun d hd => ?_, fun n hn => ?_⟩
    · obtain ⟨g, -, rfl⟩ := List.mem_map.1 hd
      exact le_rfl
    · obtain ⟨g, -, rfl⟩ := List.mem_map.1 hn
      rfl
  · obtain ⟨outputs, -, rfl⟩ := Option.map_eq_some_iff.1 hedit
    refine ⟨hlevel, ⟨f, h.mem0 f hf, List.mem_append_left _ (List.mem_map_of_mem hf)⟩,
      fun d hd => ?_, fun n hn => ?_⟩
    · rcases List.mem_append.1 hd with hd | hd
      · obtain ⟨g, -, rfl⟩ := List.mem_map.1 hd
        exact le_rfl
      · obtain ⟨g, -, rfl⟩ := List.mem_map.1 hd
        exact Nat.le_succ c.level
    · obtain ⟨g, -, rfl⟩ := List.mem_map.1 hn
      rfl

namespace Version

variable {v v' : Version K V} {opts : Options K V} {snapshots : List Nat} {lastSequence : Nat}

/-- **One compaction**, whatever asked for it, from a file above the last level. -/
theorem CompactsTo.fileCounts_lt {triggers : Triggers K V}
    (h : CompactsTo opts snapshots lastSequence triggers v v')
    (hstart : ∀ compactPointer level f, v.startFile compactPointer triggers = some (level, f) →
      level + 1 < kNumLevels ∧ f ∈ v.files level) : v'.fileCounts < v.fileCounts := by
  obtain ⟨compactPointer, c, o, edit, hpick, hedit, rfl⟩ := h
  obtain ⟨⟨level, f⟩, hfile, -⟩ := Option.bind_eq_some_iff.1 hpick
  obtain ⟨hlevel, hf⟩ := hstart compactPointer level f hfile
  obtain ⟨c', hpick', -, hchosen⟩ := pickCompaction_spec opts hfile hlevel hf
  rw [hpick] at hpick'
  cases hpick'
  exact (hchosen.lowers hedit).fileCounts_lt

/-- **Compactions for range tombstones come to an end**: where each version that asks for one is
compacted to the next, some version asks for none, whatever the snapshots keep. -/
theorem rdFileToCompact_eq_none (opts : Options K V) (snapshots : List Nat) (lastSequence : Nat)
    {read : Nat → FileMetaData K V → Option (List (RangeTombstone K))} {run : Nat → Version K V}
    (hrun : ∀ n, (run n).rdFileToCompact (read n) ≠ none →
      CompactsTo opts snapshots lastSequence
        { rdFileToCompact := (run n).rdFileToCompact (read n) } (run n) (run (n + 1))) :
    ∃ n, (run n).rdFileToCompact (read n) = none := by
  -- otherwise the numbers of files descend for ever
  by_contra hnever
  push Not at hnever
  obtain ⟨n, hn⟩ := WellFounded.not_rel_apply_succ (r := (· < ·)) fun n => (run n).fileCounts
  refine hn ((hrun n (hnever n)).fileCounts_lt fun compactPointer level f hstart => ?_)
  have hnoted : (run n).Noted (read n) (level, f) := (run n).noted (by simpa [startFile] using hstart)
  exact ⟨hnoted.level_lt, hnoted.mem⟩

/-- The range deleted twice, on the last level but one, above its keys. -/
def twiceAboveLast : Version Nat Nat where
  files
    | 5 => [deletedTwice]
    | 6 => [underneath]
    | _ => []

/-- A snapshot keeps the tombstones and what is under them; after one merge they are on the last
level and no longer ask for a compaction. -/
theorem rdFileToCompact_eq_none_twiceAboveLast :
    twiceAboveLast.rdFileToCompact (fun f => some f.tombstones) = some (5, deletedTwice) ∧
      ∃ run : Nat → Version Nat Nat, run 0 = twiceAboveLast ∧
        ∃ n, (run n).rdFileToCompact (fun f => some f.tombstones) = none := by
  have hnoted : twiceAboveLast.rdFileToCompact (fun f => some f.tombstones) =
      some (5, deletedTwice) := rfl
  have hruns : ((twiceAboveLast.pickCompaction ⟨none, 2 ^ 21⟩ (fun _ => none)
      { rdFileToCompact := some (5, deletedTwice) }).bind fun c => c.edit ⟨none, 2 ^ 21⟩
        twiceAboveLast [9] 11 ⟨fun _ => false, fun _ => false, 8, fun _ => 500⟩).isSome = true := by
    decide +kernel
  obtain ⟨edit, hedit⟩ := Option.isSome_iff_exists.1 hruns
  obtain ⟨c, hpick, hedit⟩ := Option.bind_eq_some_iff.1 hedit
  have hstart : twiceAboveLast.startFile (fun _ => none)
      { rdFileToCompact := some (5, deletedTwice) } = some (5, deletedTwice) := rfl
  obtain ⟨c', hpick', hlevel, hchosen⟩ := pickCompaction_spec ⟨none, 2 ^ 21⟩ hstart (by decide)
    (by simp [twiceAboveLast])
  rw [hpick'] at hpick
  cases hpick
  have hlowers := hchosen.lowers hedit
  rw [hlevel] at hlowers
  -- the one file above the last level is gone, and nothing is added there
  have hgone : (twiceAboveLast.apply edit).rdFileToCompact (fun f => some f.tombstones) = none := by
    by_contra hsome
    obtain ⟨⟨level, f⟩, hsome⟩ := Option.ne_none_iff_exists'.1 hsome
    have hf := (noted _ hsome).mem
    have hupper := (noted _ hsome).level_lt
    rcases mem_apply.1 hf with ⟨hf, hnot⟩ | hf
    · obtain ⟨g, hg, hremoved⟩ := hlowers.removed
      by_cases hfive : level = 5
      · subst hfive
        simp only [twiceAboveLast, List.mem_singleton] at hf hg
        rw [hf, ← hg] at hnot
        exact hnot hremoved
      · have hsix : level ≠ 6 := by
          rintro rfl
          exact absurd hupper (Nat.lt_irrefl 7)
        simp [twiceAboveLast] at hf
    · have := hlowers.added _ hf
      simp only at this hupper
      unfold kNumLevels at hupper
      omega
  refine ⟨hnoted, fun n => Nat.casesOn n twiceAboveLast fun _ => twiceAboveLast.apply edit, rfl, ?_⟩
  refine rdFileToCompact_eq_none ⟨none, 2 ^ 21⟩ [9] 11 fun n hn => ?_
  cases n with
  | zero =>
    show CompactsTo ⟨none, 2 ^ 21⟩ [9] 11
      { rdFileToCompact := twiceAboveLast.rdFileToCompact fun f => some f.tombstones }
      twiceAboveLast (twiceAboveLast.apply edit)
    rw [hnoted]
    exact ⟨_, c, _, edit, hpick', hedit, rfl⟩
  | succ n => exact absurd hgone hn

end Version
end LevelDb
