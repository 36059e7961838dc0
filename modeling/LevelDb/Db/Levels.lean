import LevelDb.Db.Compaction
import LevelDb.Db.Get
import LevelDb.Lib.Transition

/-!
# A family over time (`db/db_impl.cc`, `db/version_set.cc`)

The writes, memtable switches, flushes, compactions, trivial moves and recoveries of one family as
a transition system. A compaction takes two steps: `pick` chooses its inputs, `install` replaces
them by its outputs. Between the two, `DoCompactionWork` runs with the mutex released: writes and
switches go on, and it flushes a pending immutable memtable itself.
-/

namespace LevelDb

variable {K V : Type} [LinearOrder K]

/-! ## Records -/

/-- The records of a `WriteBatch`. -/
inductive Record (K V : Type)
  | put (key : K) (value : V)
  | delete (key : K)
  | merge (key : K) (value : V)
  | deleteRange (beginKey endKey : K)

/-- Inserts a record at its sequence number; a deletion has the empty value. -/
def MemTable.addRecord [Inhabited V] (m : MemTable K V) (seq : Nat) : Record K V → MemTable K V
  | .put k v => m.add ⟨⟨k, seq, .value⟩, v⟩ nofun
  | .delete k => m.add ⟨⟨k, seq, .deletion⟩, default⟩ nofun
  | .merge k v => m.add ⟨⟨k, seq, .merge⟩, v⟩ nofun
  | .deleteRange b e => m.addRange b e seq

/-- The memtable these records, oldest first, were inserted into. -/
def MemTable.ofRecords [Inhabited V] (records : List (Nat × Record K V)) : MemTable K V :=
  records.foldl (fun m r => m.addRecord r.1 r.2) .empty

/-! ## Versions and edits -/

/-- What the options say about the levels. -/
structure Options (K V : Type) where
  mergeOp : Option (MergeOperator K V)
  maxFileSize : Nat

def Options.maxGrandParentOverlapBytes (o : Options K V) : Nat := 10 * o.maxFileSize

def kMaxMemCompactLevel : Nat := 2

/-- The files a step removes, by level and number, and the files it adds. -/
structure VersionEdit (K V : Type) [LinearOrder K] where
  deletedFiles : List (Nat × Nat) := []
  newFiles : List (Nat × FileMetaData K V) := []

/-- The file is neither wholly before nor wholly after these user keys. -/
def FileMetaData.Overlaps (f : FileMetaData K V) (lo hi : K) : Prop :=
  lo ≤ f.largest.userKey ∧ f.smallest.userKey ≤ hi

instance (f : FileMetaData K V) (lo hi : K) : Decidable (f.Overlaps lo hi) := instDecidableAnd

def totalFileSize (files : List (FileMetaData K V)) : Nat := (files.map (·.fileSize)).sum

namespace Version

/-- `BySmallestKey`. -/
def bySmallest (f g : FileMetaData K V) : Prop :=
  f.smallest < g.smallest ∨ f.smallest = g.smallest ∧ f.number ≤ g.number

instance : DecidableRel (bySmallest (K := K) (V := V)) := fun _ _ => instDecidableOr

/-- `VersionSet::Builder`: the version after an edit, each level sorted by smallest key. -/
def apply (v : Version K V) (edit : VersionEdit K V) : Version K V where
  files level :=
    (((v.files level).filter fun f => (level, f.number) ∉ edit.deletedFiles) ++
      (edit.newFiles.filter fun n => n.1 = level).map (·.2)).insertionSort bySmallest

/-- The files of these numbers. -/
def pick (v : Version K V) (level : Nat) (numbers : List Nat) : List (FileMetaData K V) :=
  (v.files level).filter fun f => f.number ∈ numbers

def overlapInLevel (v : Version K V) (level : Nat) (lo hi : K) : Bool :=
  (v.files level).any fun f => f.Overlaps lo hi

/-- `GetOverlappingInputs` of a level below level 0; there is none past the last. -/
def getOverlappingInputs (v : Version K V) (level : Nat) (lo hi : K) : List (FileMetaData K V) :=
  if level < kNumLevels then (v.files level).filter fun f => f.Overlaps lo hi else []

/-- `PickLevelForMemTableOutput`: down while the next level does not overlap and the level after
that does not overlap too much. -/
def pickLevelForMemTableOutput (v : Version K V) (opts : Options K V) (lo hi : K) : Nat :=
  if v.overlapInLevel 0 lo hi then 0
  else ((List.range kMaxMemCompactLevel).takeWhile fun level =>
    !v.overlapInLevel (level + 1) lo hi && decide (totalFileSize
      (v.getOverlappingInputs (level + 2) lo hi) ≤ opts.maxGrandParentOverlapBytes)).length

/-- `Compaction::IsBaseLevelForKey` of a compaction at `level`. -/
def isBaseLevelForKey (v : Version K V) (level : Nat) (userKey : K) : Bool :=
  (List.range' (level + 2) (kNumLevels - (level + 2))).all fun lvl =>
    (v.files lvl).all fun f => !decide (f.smallest.userKey ≤ userKey ∧ userKey ≤ f.largest.userKey)

/-- `Compaction::IsBaseLevelForRange`. -/
def isBaseLevelForRange (v : Version K V) (level : Nat) (b e : K) : Bool :=
  (List.range' (level + 2) (kNumLevels - (level + 2))).all fun lvl => !v.overlapInLevel lvl b e

end Version

/-- `WriteLevel0Table`: the edit that adds the table of a memtable, at the level picked for it if
there is a version to pick by. A memtable with nothing in it makes no table. -/
def writeLevel0Table (opts : Options K V) (number fileSize : Nat) (m : MemTable K V)
    (base : Option (Version K V)) : VersionEdit K V :=
  match FileMetaData.build number fileSize m.table m.rangeDels m.ranges with
  | none => {}
  | some f =>
    let level := base.elim 0 fun v =>
      v.pickLevelForMemTableOutput opts f.smallest.userKey f.largest.userKey
    { newFiles := [(level, f)] }

/-! ## Choosing the inputs of a compaction -/

/-- The file overlaps the user-key range of these files. -/
def OverlapsHull (inputs : List (FileMetaData K V)) (f : FileMetaData K V) : Prop :=
  (∃ a ∈ inputs, a.smallest.userKey ≤ f.largest.userKey) ∧
    ∃ b ∈ inputs, f.smallest.userKey ≤ b.largest.userKey

instance (inputs : List (FileMetaData K V)) (f : FileMetaData K V) :
    Decidable (OverlapsHull inputs f) := instDecidableAnd

/-- A file `FindSmallestBoundaryFile` finds beside these files: it goes on with the user key of the
largest key in them. -/
def Boundary (inputs : List (FileMetaData K V)) (g : FileMetaData K V) : Prop :=
  (∃ f ∈ inputs, g.smallest.userKey = f.largest.userKey) ∧ ∀ f ∈ inputs, f.largest < g.smallest

instance (inputs : List (FileMetaData K V)) (g : FileMetaData K V) :
    Decidable (Boundary inputs g) := instDecidableAnd

/-- What `PickCompaction` and `CompactRange` with `SetupOtherInputs` choose, by numbers: some files
of a level with their boundary files, on level 0 with all that overlap them, and the files of the
next level that overlap their user-key range. -/
structure Picked (v : Version K V) (level : Nat) (inputs0 inputs1 : List Nat) : Prop where
  level_lt : level + 1 < kNumLevels
  nonempty : v.pick level inputs0 ≠ []
  overlapping0 : level = 0 → ∀ f ∈ v.files 0, OverlapsHull (v.pick level inputs0) f →
    f.number ∈ inputs0
  boundary0 : ∀ g ∈ v.files level, Boundary (v.pick level inputs0) g → g.number ∈ inputs0
  overlapping1 : ∀ g ∈ v.files (level + 1), OverlapsHull (v.pick level inputs0) g →
    g.number ∈ inputs1
  only1 : ∀ g ∈ v.pick (level + 1) inputs1, OverlapsHull (v.pick level inputs0) g

instance (v : Version K V) (level : Nat) (inputs0 inputs1 : List Nat) :
    Decidable (Picked v level inputs0 inputs1) :=
  decidable_of_iff
    (level + 1 < kNumLevels ∧ (v.pick level inputs0).isEmpty = false ∧
      (level = 0 → ∀ f ∈ v.files 0, OverlapsHull (v.pick level inputs0) f → f.number ∈ inputs0) ∧
      (∀ g ∈ v.files level, Boundary (v.pick level inputs0) g → g.number ∈ inputs0) ∧
      (∀ g ∈ v.files (level + 1), OverlapsHull (v.pick level inputs0) g → g.number ∈ inputs1) ∧
      ∀ g ∈ v.pick (level + 1) inputs1, OverlapsHull (v.pick level inputs0) g)
    ⟨fun ⟨h1, h2, h3, h4, h5, h6⟩ => ⟨h1, by simpa using h2, h3, h4, h5, h6⟩,
      fun h => ⟨h.level_lt, by simpa using h.nonempty, h.overlapping0, h.boundary0,
        h.overlapping1, h.only1⟩⟩

/-- A compaction under way: its inputs, the version they were picked from, and what
`DoCompactionWork` reads when it starts. -/
structure Running (K V : Type) [LinearOrder K] where
  level : Nat
  inputs0 : List (FileMetaData K V)
  inputs1 : List (FileMetaData K V)
  inputVersion : Version K V
  snapshots : List Nat
  lastSequence : Nat

namespace Running

def inputs (r : Running K V) : List (FileMetaData K V) := r.inputs0 ++ r.inputs1

/-- The compaction, with the answers about the outputs' sizes that are not modelled. -/
def compaction (r : Running K V) (opts : Options K V)
    (shouldStopBefore : List (InternalKey K) → Bool) (fileFull : List (Entry K V) → Bool) :
    Compaction K V where
  inputs := r.inputs
  isBaseLevelForKey := r.inputVersion.isBaseLevelForKey r.level
  isBaseLevelForRange := r.inputVersion.isBaseLevelForRange r.level
  shouldStopBefore
  fileFull
  snapshots := r.snapshots
  lastSequence := r.lastSequence
  mergeOp := opts.mergeOp

/-- `InstallCompactionResults`. -/
def installEdit (r : Running K V) (outputs : List (FileMetaData K V)) : VersionEdit K V where
  deletedFiles := r.inputs0.map (fun f => (r.level, f.number)) ++
    r.inputs1.map fun f => (r.level + 1, f.number)
  newFiles := outputs.map fun f => (r.level + 1, f)

end Running

/-- The file of an output. `TableBuilder::Add` asserts that keys go up. -/
def Compaction.Output.toFile (o : Compaction.Output K V) (number fileSize : Nat) :
    Option (FileMetaData K V) :=
  if h : (o.entries.Pairwise fun a b => a.key ≤ b.key) ∧
      (∀ e ∈ o.entries, e.key.type ≠ .rangeDeletion) ∧
      ∀ t ∈ o.tombstones, t.beginKey < t.endKey then
    FileMetaData.build number fileSize ⟨o.entries, h.1, h.2.1⟩ o.tombstones h.2.2
  else none

/-- The files of the outputs in turn, with new numbers. -/
def outputFiles (sizes : Nat → Nat) :
    Nat → List (Compaction.Output K V) → Option (List (FileMetaData K V))
  | _, [] => some []
  | number, o :: os =>
    (o.toFile number (sizes number)).bind fun f =>
      (outputFiles sizes (number + 1) os).map fun fs => f :: fs

/-! ## The transition system -/

structure Family (K V : Type) [LinearOrder K] where
  /-- The records in the memtable with their sequence numbers, oldest first. -/
  mem : List (Nat × Record K V)
  imm : Option (List (Nat × Record K V))
  current : Version K V
  nextFileNumber : Nat
  lastSequence : Nat
  running : Option (Running K V)

inductive Action (K V : Type)
  /-- A record that gets this sequence number; other families use some in between. -/
  | write (seq : Nat) (record : Record K V)
  | switchMemTable
  | compactMemTable (fileSize : Nat)
  | pick (level : Nat) (inputs0 inputs1 snapshots : List Nat)
  | install (shouldStopBefore : List (InternalKey K) → Bool) (fileFull : List (Entry K V) → Bool)
      (sizes : Nat → Nat)
  | trivialMove (level number : Nat)
  /-- A crash and an `Open`: the records not in tables are replayed into tables of these many
  records (and sizes), what is left stays in the memtable; the file counter is the manifest's. -/
  | recover (tables : List (Nat × Nat)) (nextFileNumber : Nat)

namespace Family

def empty : Family K V := ⟨[], none, ⟨fun _ => []⟩, 2, 0, none⟩

/-- The records that are not in tables. -/
def records (s : Family K V) : List (Nat × Record K V) := s.imm.getD [] ++ s.mem

variable [Inhabited V]

/-- What reads see of it. -/
def columnFamily (opts : Options K V) (s : Family K V) : ColumnFamily K V where
  mem := .ofRecords s.mem
  imm := s.imm.map .ofRecords
  current := s.current
  mergeOp := opts.mergeOp

/-- The tables of a recovery, all on level 0. -/
def replay (opts : Options K V) : List (Nat × Nat) → Family K V → Family K V
  | [], s => s
  | (n, fileSize) :: tables, s =>
    replay opts tables
      { s with
        mem := s.mem.drop n
        current := s.current.apply
          (writeLevel0Table opts s.nextFileNumber fileSize (.ofRecords (s.mem.take n)) none)
        nextFileNumber := s.nextFileNumber + 1 }

def step (opts : Options K V) (s : Family K V) : Action K V → Option (Family K V)
  | .write seq record =>
    if s.lastSequence < seq ∧ seq < kMaxSequenceNumber then
      some { s with mem := s.mem ++ [(seq, record)], lastSequence := seq }
    else none
  | .switchMemTable =>
    if s.imm.isNone then some { s with imm := some s.mem, mem := [] } else none
  | .compactMemTable fileSize =>
    s.imm.map fun imm =>
      { s with
        imm := none
        current := s.current.apply
          (writeLevel0Table opts s.nextFileNumber fileSize (.ofRecords imm) (some s.current))
        nextFileNumber := s.nextFileNumber + 1 }
  | .pick level inputs0 inputs1 snapshots =>
    if s.running.isNone ∧ Picked s.current level inputs0 inputs1 then
      some { s with
        running := some ⟨level, s.current.pick level inputs0, s.current.pick (level + 1) inputs1,
          s.current, snapshots, s.lastSequence⟩ }
    else none
  | .install shouldStopBefore fileFull sizes =>
    s.running.bind fun r =>
      (outputFiles sizes s.nextFileNumber
        (r.compaction opts shouldStopBefore fileFull).doCompactionWork).map fun outputs =>
          { s with
            current := s.current.apply (r.installEdit outputs)
            nextFileNumber := s.nextFileNumber + outputs.length
            running := none }
  | .trivialMove level number =>
    match s.running, s.current.pick level [number] with
    | none, [f] =>
      if Picked s.current level [number] [] ∧
          totalFileSize (s.current.getOverlappingInputs (level + 2) f.smallest.userKey
            f.largest.userKey) ≤ opts.maxGrandParentOverlapBytes then
        some { s with current := s.current.apply ⟨[(level, number)], [(level + 1, f)]⟩ }
      else none
    | _, _ => none
  | .recover tables nextFileNumber =>
    if ∀ level < kNumLevels, ∀ f ∈ s.current.files level, f.number < nextFileNumber then
      some (replay opts tables
        { s with mem := s.records, imm := none, running := none, nextFileNumber })
    else none

/-- The runs of one family, from an empty one. -/
def system (opts : Options K V) : Transition.System (Family K V) (Action K V) where
  init s := s = empty
  step := step opts

end Family
end LevelDb
