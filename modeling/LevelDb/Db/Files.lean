import LevelDb.Lib.Transition
import Mathlib.Logic.Function.Basic

/-!
# The table files and who needs them (`db/db_impl.cc`)

Tables are written with the mutex released, versions are pinned by readers, a manifest is written
before its version is installed, and `RemoveObsoleteFiles` first lists the files to delete and then
deletes them, with the mutex released. One thread does all but reading: the background thread, or
`DB::Open` before it. It may flush memtables of other families in the middle of a compaction.

A family's tables are the numbers of the files in its directory; a version is the list of its files.
The steps are the stretches of code under `mutex_`. Any of them may be the last one before a crash.
A background error leaves it open whether the manifest has the edit; from then on nothing is deleted.
-/

namespace LevelDb.Files

/-- A family: its directory, and its `VersionSet`. -/
structure Dir where
  tables : List Nat := []
  nextFileNumber : Nat := 2
  pendingOutputs : List Nat := []
  current : List Nat := []
  /-- The versions that readers hold a reference on. -/
  pinned : List (List Nat) := []
  /-- What a reopen would read: the files after the edits of the manifest, -/
  manifest : List Nat := []
  /-- and the next number, by the last edit. -/
  manifestNext : Nat := 2

/-- `AddLiveFiles`, with the version that a compaction holds. -/
def Dir.addLiveFiles (d : Dir) (base : List Nat) (live : List Nat) : List Nat :=
  live ++ d.current ++ d.pinned.flatten ++ base

structure VersionEdit where
  deletedFiles : List Nat := []
  newFiles : List Nat := []

def VersionEdit.apply (e : VersionEdit) (v : List Nat) : List Nat :=
  (v.filter fun n => n ∉ e.deletedFiles) ++ e.newFiles

/-- `LogAndApply`, with the mutex released. -/
structure Logging where
  family : Nat
  edit : VersionEdit
  recorded : Bool := false

/-- `CompactionState`; `base` is the version of its inputs, on which it holds a reference. -/
structure CompactionState where
  family : Nat
  base : List Nat
  inputs : List Nat
  outputs : List Nat := []
  ok : Bool := true
  installed : Bool := false

structure State where
  cfs : List Nat := [0]
  dirs : Nat → Dir := fun _ => {}
  /-- The table `WriteLevel0Table` is building, with its family. -/
  building : Option (Nat × Nat) := none
  /-- Tables that are built and that no version has yet. -/
  built : List (Nat × Nat) := []
  logging : Option Logging := none
  compaction : Option CompactionState := none
  /-- `files_to_delete`. -/
  filesToDelete : List (Nat × Nat) := []
  bgError : Bool := false

inductive Action
  | createColumnFamily (family : Nat)
  /-- A reader takes a reference on the current version, and gives it back. -/
  | ref (family : Nat)
  | unref (family i : Nat)
  /-- A number for a log. -/
  | newFileNumber (family : Nat)
  /-- `WriteLevel0Table`, up to `BuildTable`, -/
  | startTable (family : Nat)
  /-- and after it: there is a table, or none because of an error or for want of entries. -/
  | finishTable (ok : Bool)
  /-- `LogAndApply` for the tables built, -/
  | logTables (family : Nat)
  /-- for a file that moves to the next level, -/
  | logMove (family number : Nat)
  /-- or for a compaction, as `InstallCompactionResults` calls it. -/
  | logCompaction
  /-- The edit is in the manifest; after an error, it may be where nobody can read it. -/
  | record (readable : Bool)
  /-- An error: the manifest has the edit, or not. -/
  | fail (recorded : Bool)
  | install
  | startCompaction (family : Nat) (inputs : List Nat)
  | openCompactionOutputFile (ok : Bool)
  | cleanupCompaction
  /-- The part of `RemoveObsoleteFiles` that lists the files, -/
  | removeObsoleteFiles
  /-- and the one that deletes them. -/
  | removeFile
  /-- The process dies; the next one has read the manifests. -/
  | reopen

namespace State

def set (s : State) (family : Nat) (d : Dir) : State :=
  { s with dirs := Function.update s.dirs family d }

/-- The background thread can begin something. -/
def idle (s : State) : Bool :=
  s.building.isNone && s.logging.isNone && s.filesToDelete.isEmpty

/-- The version the compaction holds a reference on, if it is one of this family. -/
def base (s : State) (family : Nat) : List Nat :=
  s.compaction.elim [] fun c => if c.family = family then c.base else []

/-- The files of one family to delete. -/
def obsolete (s : State) (family : Nat) : List Nat :=
  let d := s.dirs family
  let live := d.addLiveFiles (s.base family) d.pendingOutputs
  d.tables.filter fun n => n ∉ live

/-- The tables of a family that are built. -/
def builtFor (s : State) (family : Nat) : List Nat :=
  (s.built.filter fun t => t.1 = family).map (·.2)

/-- The manifest has the edit. -/
def recorded (s : State) (l : Logging) : State :=
  let d := s.dirs l.family
  s.set l.family
    { d with manifest := l.edit.apply d.manifest, manifestNext := d.nextFileNumber }

def step (s : State) : Action → Option State
  | .createColumnFamily family => some { s with cfs := s.cfs ++ [family] }
  | .ref family =>
    let d := s.dirs family
    some (s.set family { d with pinned := d.pinned ++ [d.current] })
  | .unref family i =>
    let d := s.dirs family
    some (s.set family { d with pinned := d.pinned.eraseIdx i })
  | .newFileNumber family =>
    let d := s.dirs family
    some (s.set family { d with nextFileNumber := d.nextFileNumber + 1 })
  | .startTable family =>
    if s.idle then
      let d := s.dirs family
      some { s.set family { d with
          nextFileNumber := d.nextFileNumber + 1
          pendingOutputs := d.nextFileNumber :: d.pendingOutputs
          tables := d.nextFileNumber :: d.tables } with
        building := some (family, d.nextFileNumber) }
    else none
  | .finishTable ok =>
    s.building.map fun t =>
      let d := s.dirs t.1
      let d := { d with pendingOutputs := d.pendingOutputs.filter (· ≠ t.2) }
      if ok then { s.set t.1 d with building := none, built := s.built ++ [t] }
      else
        -- `BuildTable` removes the file
        { s.set t.1 { d with tables := d.tables.filter (· ≠ t.2) } with building := none }
  | .logTables family =>
    if s.idle then
      some { s with
        logging := some ⟨family, { newFiles := s.builtFor family }, false⟩
        built := s.built.filter fun t => t.1 ≠ family }
    else none
  | .logMove family number =>
    if s.idle ∧ number ∈ (s.dirs family).current then
      some { s with logging := some ⟨family, ⟨[number], [number]⟩, false⟩ }
    else none
  | .logCompaction =>
    s.compaction.bind fun c =>
      if s.idle ∧ c.ok ∧ c.installed = false then
        some { s with
          logging := some ⟨c.family, ⟨c.inputs, c.outputs⟩, false⟩
          compaction := some { c with installed := true } }
      else none
  | .record readable =>
    s.logging.bind fun l =>
      if l.recorded ∨ (readable = false ∧ s.bgError = false) then none
      else some { (if readable then s.recorded l else s) with
        logging := some { l with recorded := true } }
  | .fail recorded =>
    s.logging.bind fun l =>
      if l.recorded then none
      else some { (if recorded then s.recorded l else s) with logging := none, bgError := true }
  | .install =>
    s.logging.bind fun l =>
      if l.recorded then
        let d := s.dirs l.family
        some { s.set l.family { d with current := l.edit.apply d.current } with logging := none }
      else none
  | .startCompaction family inputs =>
    if s.idle ∧ s.compaction.isNone ∧ ∀ n ∈ inputs, n ∈ (s.dirs family).current then
      some { s with
        compaction := some { family, inputs, base := (s.dirs family).current } }
    else none
  | .openCompactionOutputFile ok =>
    s.compaction.bind fun c =>
      if s.idle ∧ c.installed = false then
        let d := s.dirs c.family
        let n := d.nextFileNumber
        some { s.set c.family { d with
            nextFileNumber := n + 1
            pendingOutputs := n :: d.pendingOutputs
            tables := if ok then n :: d.tables else d.tables } with
          compaction := some { c with outputs := c.outputs ++ [n], ok := c.ok && ok } }
      else none
  | .cleanupCompaction =>
    s.compaction.bind fun c =>
      if s.idle then
        let d := s.dirs c.family
        some { s.set c.family { d with
            pendingOutputs := d.pendingOutputs.filter fun n => n ∉ c.outputs } with
          compaction := none }
      else none
  | .removeObsoleteFiles =>
    if s.idle ∧ s.built = [] ∧ s.bgError = false then
      some { s with
        filesToDelete := s.cfs.flatMap fun family => (s.obsolete family).map (family, ·) }
    else none
  | .removeFile =>
    match s.filesToDelete with
    | [] => none
    | (family, n) :: rest =>
      let d := s.dirs family
      some { s.set family { d with tables := d.tables.filter (· ≠ n) } with filesToDelete := rest }
  | .reopen =>
    some { s with
      dirs := fun family =>
        let d := s.dirs family
        { d with
          nextFileNumber := d.manifestNext, pendingOutputs := [], current := d.manifest
          pinned := [] }
      building := none
      built := []
      logging := none
      compaction := none
      filesToDelete := []
      bgError := false }

/-- The versions of a family that someone may read: the current one, those that readers and a
compaction hold, and the one a reopen would read. -/
def versions (s : State) (family : Nat) : List (List Nat) :=
  (s.dirs family).current :: (s.dirs family).manifest :: s.base family :: (s.dirs family).pinned

end State

def system : Transition.System State Action where
  init s := s = {}
  step := State.step

end LevelDb.Files
