import LevelDb.Db.Levels
import Mathlib.Data.List.MinMax

/-!
# Choosing a compaction (`db/version_set.cc`)

When a version is made, `Finalize` estimates for each file with range tombstones how much data they
hide in the levels below, and notes the file that hides most. `PickCompaction` takes a level that
is too large, else a file that was searched in vain too often, else the noted file, and
`SetupOtherInputs` completes its inputs. `BackgroundCompaction` moves or merges them one level down.
-/

namespace LevelDb

variable {K V : Type} [LinearOrder K]

/-- Fewer satisfy the stronger condition, if one element tells the two apart. -/
theorem countP_lt_countP {α : Type} {p q : α → Bool} {l : List α} (h : ∀ a ∈ l, p a → q a) {a : α}
    (ha : a ∈ l) (hp : p a = false) (hq : q a = true) : l.countP p < l.countP q := by
  induction l with
  | nil => simp at ha
  | cons b l ih =>
    have hle := List.countP_mono_left fun x hx => h x (List.mem_cons_of_mem _ hx)
    have hb := h b (by simp)
    simp only [List.countP_cons]
    rcases List.mem_cons.1 ha with rfl | ha
    · simp only [hp, hq, if_true, Bool.false_eq_true, if_false]
      omega
    · have := ih (fun x hx => h x (List.mem_cons_of_mem _ hx)) ha
      by_cases hpb : p b = true
      · simp only [hpb, hb hpb, if_true]
        omega
      · simp only [hpb, Bool.false_eq_true, if_false]
        omega

/-! ## The data that tombstones hide -/

/-- What a deeper file counts for a tombstone: in full inside it, by half where it only overlaps. -/
def RangeTombstone.hides (t : RangeTombstone K) (g : FileMetaData K V) : Nat :=
  if g.largest.userKey < t.beginKey ∨ t.endKey ≤ g.smallest.userKey then 0
  else if t.beginKey ≤ g.smallest.userKey ∧ g.largest.userKey < t.endKey then g.fileSize
  else g.fileSize / 2

namespace Version

/-- The files of the levels below this one. -/
def deeperFiles (v : Version K V) (level : Nat) : List (FileMetaData K V) :=
  (List.range' (level + 1) (kNumLevels - (level + 1))).flatMap v.files

/-- `covered` in `Finalize`: a sum over the tombstones of a file and the files below it. -/
def covered (v : Version K V) (level : Nat) (tombstones : List (RangeTombstone K)) : Nat :=
  (tombstones.map fun t => ((v.deeperFiles level).map t.hides).sum).sum

end Version

/-- What must be hidden for the file to be compacted. -/
def FileMetaData.hiddenThreshold (f : FileMetaData K V) : Nat := max (2 ^ 20) (2 * f.fileSize)

namespace Version

/-- One turn of the loop of `Finalize` over the files; `read` is what the table cache answers. -/
def noteFile (v : Version K V) (read : FileMetaData K V → Option (List (RangeTombstone K)))
    (best : Nat × Option (Nat × FileMetaData K V)) (c : Nat × FileMetaData K V) :
    Nat × Option (Nat × FileMetaData K V) :=
  if c.2.hasRangeDels then
    match read c.2 with
    | none => best
    | some tombstones =>
      let covered := v.covered c.1 tombstones
      if c.2.hiddenThreshold ≤ covered ∧ best.1 < covered then (covered, some c) else best
  else best

/-- The files that have levels below them, with their levels. -/
def upperFiles (v : Version K V) : List (Nat × FileMetaData K V) :=
  (List.range (kNumLevels - 1)).flatMap fun level => (v.files level).map (level, ·)

/-- `rd_file_to_compact_level_` and `rd_file_to_compact_` after `Finalize`. -/
def rdFileToCompact (v : Version K V)
    (read : FileMetaData K V → Option (List (RangeTombstone K))) : Option (Nat × FileMetaData K V) :=
  (v.upperFiles.foldl (v.noteFile read) (0, none)).2

/-! ## Overlapping files -/

/-- A pass of `GetOverlappingInputs` over level 0: the files that overlap the range or, when one of
them reaches beyond it, the range to start over with. -/
def scanLevel0 (lo hi : K) :
    List (FileMetaData K V) → List (FileMetaData K V) → (K × K) ⊕ List (FileMetaData K V)
  | [], inputs => .inr inputs
  | f :: files, inputs =>
    if f.Overlaps lo hi then
      if f.smallest.userKey < lo then .inl (f.smallest.userKey, hi)
      else if hi < f.largest.userKey then .inl (lo, f.largest.userKey)
      else scanLevel0 lo hi files (inputs ++ [f])
    else scanLevel0 lo hi files inputs

/-- The ends of these files that are beyond the range. -/
def endsBeyond (files : List (FileMetaData K V)) (lo hi : K) : Nat :=
  (files.countP fun f => f.smallest.userKey < lo) + files.countP fun f => hi < f.largest.userKey

theorem scanLevel0_inl {files inputs : List (FileMetaData K V)} {lo hi lo' hi' : K}
    (h : scanLevel0 lo hi files inputs = .inl (lo', hi')) :
    ∃ f ∈ files, (f.smallest.userKey < lo ∧ lo' = f.smallest.userKey ∧ hi' = hi) ∨
      (hi < f.largest.userKey ∧ lo' = lo ∧ hi' = f.largest.userKey) := by
  induction files generalizing inputs with
  | nil => cases h
  | cons f files ih =>
    simp only [scanLevel0] at h
    split_ifs at h with hover hlo hhi
    · cases h
      exact ⟨f, by simp, .inl ⟨hlo, rfl, rfl⟩⟩
    · cases h
      exact ⟨f, by simp, .inr ⟨hhi, rfl, rfl⟩⟩
    · obtain ⟨g, hg, h⟩ := ih h
      exact ⟨g, List.mem_cons_of_mem _ hg, h⟩
    · obtain ⟨g, hg, h⟩ := ih h
      exact ⟨g, List.mem_cons_of_mem _ hg, h⟩

/-- Starting over, fewer ends are beyond the range. -/
theorem endsBeyond_lt {files : List (FileMetaData K V)} {lo hi lo' hi' : K}
    (h : scanLevel0 lo hi files [] = .inl (lo', hi')) :
    endsBeyond files lo' hi' < endsBeyond files lo hi := by
  unfold endsBeyond
  obtain ⟨f, hf, ⟨hlt, rfl, rfl⟩ | ⟨hlt, rfl, rfl⟩⟩ := scanLevel0_inl h
  · apply Nat.add_lt_add_right
    apply countP_lt_countP _ hf
    · simp
    · simpa using hlt
    · intro g _ hg
      simp only [decide_eq_true_eq] at hg ⊢
      exact hg.trans hlt
  · apply Nat.add_lt_add_left
    apply countP_lt_countP _ hf
    · simp
    · simpa using hlt
    · intro g _ hg
      simp only [decide_eq_true_eq] at hg ⊢
      exact hlt.trans hg

/-- `GetOverlappingInputs` of level 0, whose files may overlap each other. -/
def getOverlappingInputs0 (v : Version K V) (lo hi : K) : List (FileMetaData K V) :=
  match _h : scanLevel0 lo hi (v.files 0) [] with
  | .inr inputs => inputs
  | .inl (lo', hi') => v.getOverlappingInputs0 lo' hi'
termination_by endsBeyond (v.files 0) lo hi
decreasing_by exact endsBeyond_lt _h

/-- `GetOverlappingInputs`. -/
def overlappingInputs (v : Version K V) (level : Nat) (lo hi : K) : List (FileMetaData K V) :=
  if level = 0 then v.getOverlappingInputs0 lo hi else v.getOverlappingInputs level lo hi

end Version

/-! ## Boundary files -/

/-- `GetRange`; there is none of no files. -/
def getRange : List (FileMetaData K V) → Option (InternalKey K × InternalKey K)
  | [] => none
  | f :: files =>
    some (files.foldl (fun smallest g => min smallest g.smallest) f.smallest,
      files.foldl (fun largest g => max largest g.largest) f.largest)

/-- `FindSmallestBoundaryFile`. -/
def findSmallestBoundaryFile (levelFiles : List (FileMetaData K V)) (largestKey : InternalKey K) :
    Option (FileMetaData K V) :=
  (levelFiles.filter fun f =>
    largestKey < f.smallest ∧ f.smallest.userKey = largestKey.userKey).argmin (·.smallest)

theorem findSmallestBoundaryFile_eq_some {levelFiles : List (FileMetaData K V)}
    {largestKey : InternalKey K} {f : FileMetaData K V}
    (h : findSmallestBoundaryFile levelFiles largestKey = some f) :
    f ∈ levelFiles ∧ largestKey < f.smallest ∧ f.smallest.userKey = largestKey.userKey := by
  have := List.mem_filter.1 (List.argmin_mem h)
  simpa using this

/-- The files the loop of `AddBoundaryInputs` adds. -/
def boundaryFiles (levelFiles : List (FileMetaData K V)) (largestKey : InternalKey K) :
    List (FileMetaData K V) :=
  match _h : findSmallestBoundaryFile levelFiles largestKey with
  | none => []
  | some f => f :: boundaryFiles levelFiles f.largest
termination_by levelFiles.countP fun f => largestKey < f.smallest
decreasing_by
  obtain ⟨hf, hlt, -⟩ := findSmallestBoundaryFile_eq_some _h
  apply countP_lt_countP _ hf
  · simpa using f.smallest_le_largest
  · simpa using hlt
  · intro g _ hg
    simp only [decide_eq_true_eq] at hg ⊢
    exact hlt.trans (f.smallest_le_largest.trans_lt hg)

/-- `AddBoundaryInputs`. -/
def addBoundaryInputs (levelFiles compactionFiles : List (FileMetaData K V)) :
    List (FileMetaData K V) :=
  match getRange compactionFiles with
  | none => compactionFiles
  | some (_, largest) => compactionFiles ++ boundaryFiles levelFiles largest

/-! ## The inputs of a compaction -/

/-- The size below which the inputs of a level may grow. -/
def Options.expandedCompactionByteSizeLimit (o : Options K V) : Nat := 25 * o.maxFileSize

/-- A `Compaction` that is picked, with the pointer the next size compaction of the level starts
from. -/
structure PickedCompaction (K V : Type) [LinearOrder K] where
  level : Nat
  inputs0 : List (FileMetaData K V)
  inputs1 : List (FileMetaData K V)
  grandparents : List (FileMetaData K V)
  compactPointer : InternalKey K

namespace Version

/-- The files of the next level a compaction of these inputs takes, and its pointer. -/
def inputsBelow (v : Version K V) (level : Nat) (inputs0 : List (FileMetaData K V)) :
    Option (List (FileMetaData K V) × InternalKey K) :=
  (getRange inputs0).map fun (smallest, largest) =>
    (v.overlappingInputs (level + 1) smallest.userKey largest.userKey, largest)

/-- The larger inputs of the level that `SetupOtherInputs` takes instead, if they are within the
limit and need no more files of the next level. -/
def expandedInputs (opts : Options K V) (v : Version K V) (level : Nat)
    (inputs0 inputs1 : List (FileMetaData K V)) :
    Option (List (FileMetaData K V) × List (FileMetaData K V) × InternalKey K) := do
  let (allStart, allLimit) ← getRange (inputs0 ++ inputs1)
  let expanded0 := addBoundaryInputs (v.files level)
    (v.overlappingInputs level allStart.userKey allLimit.userKey)
  guard (inputs0.length < expanded0.length ∧
    totalFileSize inputs1 + totalFileSize expanded0 < opts.expandedCompactionByteSizeLimit)
  let (expanded1, largest) ← v.inputsBelow level expanded0
  guard (expanded1.length = inputs1.length)
  return (expanded0, expanded1, largest)

/-- The end of `SetupOtherInputs`: the files of the level after the next that overlap the inputs. -/
def withGrandparents (v : Version K V) (level : Nat) (inputs0 inputs1 : List (FileMetaData K V))
    (compactPointer : InternalKey K) : Option (PickedCompaction K V) :=
  (getRange (inputs0 ++ inputs1)).map fun (allStart, allLimit) =>
    ⟨level, inputs0, inputs1,
      v.getOverlappingInputs (level + 2) allStart.userKey allLimit.userKey, compactPointer⟩

/-- `SetupOtherInputs`. -/
def setupOtherInputs (opts : Options K V) (v : Version K V) (level : Nat)
    (inputs0 : List (FileMetaData K V)) : Option (PickedCompaction K V) := do
  let inputs0 := addBoundaryInputs (v.files level) inputs0
  let (inputs1, largest) ← v.inputsBelow level inputs0
  if inputs1.isEmpty then v.withGrandparents level inputs0 inputs1 largest
  else match v.expandedInputs opts level inputs0 inputs1 with
    | some (expanded0, expanded1, newLimit) => v.withGrandparents level expanded0 expanded1 newLimit
    | none => v.withGrandparents level inputs0 inputs1 largest

/-- What asks for a compaction (`NeedsCompaction`): the level with the highest score if that is at
least 1, the file whose seeks are used up, and the file whose tombstones hide most. -/
structure Triggers (K V : Type) [LinearOrder K] where
  compactionLevel : Option Nat := none
  fileToCompact : Option (Nat × FileMetaData K V) := none
  rdFileToCompact : Option (Nat × FileMetaData K V) := none

/-- The first file of the level past the pointer, or the first file. -/
def nextFile (v : Version K V) (compactPointer : Nat → Option (InternalKey K)) (level : Nat) :
    Option (FileMetaData K V) :=
  ((v.files level).find? fun f =>
    (compactPointer level).elim true fun pointer => decide (pointer < f.largest)).or
      (v.files level).head?

/-- The level and the file `PickCompaction` starts from. -/
def startFile (v : Version K V) (compactPointer : Nat → Option (InternalKey K))
    (triggers : Triggers K V) : Option (Nat × FileMetaData K V) :=
  match triggers.compactionLevel with
  | some level => (v.nextFile compactPointer level).map (level, ·)
  | none => triggers.fileToCompact.or triggers.rdFileToCompact

/-- `PickCompaction`. -/
def pickCompaction (opts : Options K V) (v : Version K V)
    (compactPointer : Nat → Option (InternalKey K)) (triggers : Triggers K V) :
    Option (PickedCompaction K V) :=
  (v.startFile compactPointer triggers).bind fun (level, f) =>
    v.setupOtherInputs opts level
      (if level = 0 then v.getOverlappingInputs0 f.smallest.userKey f.largest.userKey else [f])

end Version

/-! ## Running it -/

namespace PickedCompaction

/-- `IsTrivialMove`. -/
def isTrivialMove (opts : Options K V) (c : PickedCompaction K V) : Bool :=
  c.inputs0.length = 1 ∧ c.inputs1 = [] ∧
    totalFileSize c.grandparents ≤ opts.maxGrandParentOverlapBytes

/-- The answers about output sizes and file numbers that a compaction gets as it runs. -/
structure Outcomes (K V : Type) where
  shouldStopBefore : List (InternalKey K) → Bool
  fileFull : List (Entry K V) → Bool
  nextFileNumber : Nat
  sizes : Nat → Nat

/-- The compaction as it starts, with the snapshots and the last sequence number of the time. -/
def running (c : PickedCompaction K V) (v : Version K V) (snapshots : List Nat)
    (lastSequence : Nat) : Running K V :=
  ⟨c.level, c.inputs0, c.inputs1, v, snapshots, lastSequence⟩

/-- What `BackgroundCompaction` does with it when nothing fails: the edit it applies. -/
def edit (opts : Options K V) (c : PickedCompaction K V) (v : Version K V) (snapshots : List Nat)
    (lastSequence : Nat) (o : Outcomes K V) : Option (VersionEdit K V) :=
  if c.isTrivialMove opts then
    some ⟨c.inputs0.map fun f => (c.level, f.number), c.inputs0.map fun f => (c.level + 1, f)⟩
  else
    let r := c.running v snapshots lastSequence
    (outputFiles o.sizes o.nextFileNumber
      (r.compaction opts o.shouldStopBefore o.fileFull).doCompactionWork).map r.installEdit

end PickedCompaction

/-- `BackgroundCompaction` takes a version to another: what the triggers ask for is picked and, with
some file numbers and sizes, run. -/
def Version.CompactsTo (opts : Options K V) (snapshots : List Nat) (lastSequence : Nat)
    (triggers : Version.Triggers K V) (v v' : Version K V) : Prop :=
  ∃ compactPointer c o edit, v.pickCompaction opts compactPointer triggers = some c ∧
    c.edit opts v snapshots lastSequence o = some edit ∧ v' = v.apply edit

end LevelDb
