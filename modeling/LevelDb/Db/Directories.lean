import LevelDb.Db.Database

/-!
# The directories of the families (`DropColumnFamily`, `RemoveObsoleteFiles`)

The database of `LevelDb.Db.Database` with the table files in each family's directory, by number,
and those each manifest lists. A table is built before a manifest lists it. A drop is on the disk
once FAMILIES is rewritten; then it takes the family's files away, one by one, and no other code
looks into the directory: `RemoveObsoleteFiles` goes through the families the process has. It may
take away a table here that is still to be listed, which then is not.
-/

namespace LevelDb.Directories

open Database

variable {K V : Type} [LinearOrder K]

structure State (K V : Type) where
  base : Database.State K V
  /-- The table files in the directory of a family. -/
  dirs : Nat → List Nat
  /-- The table files its manifest lists. -/
  live : Nat → List Nat
  nextFileNumber : Nat
  /-- The families a `DropColumnFamily` is removing the files of. -/
  removing : List Nat

inductive Action (K V : Type)
  /-- A step of the database; `numbers` are the tables it adds to a manifest. -/
  | base (a : Database.Action K V) (numbers : List Nat)
  | buildTable (family : Nat)
  /-- A compaction lists its outputs in the place of its inputs. -/
  | installCompactionResults (family : Nat) (inputs outputs : List Nat)
  /-- A table file that no version has is removed, -/
  | removeObsoleteFile (family number : Nat)
  /-- or one of a dropped family, -/
  | removeFile (i : Nat)
  /-- and then its directory. -/
  | removeDir (i : Nat)

def Action.isCrash : Action K V → Bool
  | .base .crash _ => true
  | _ => false

namespace State

/-- The families the process has. -/
def ids (s : State K V) : List Nat := (s.base.db.map fun db => db.cfs.map (·.id)).getD []

def isLive (s : State K V) (family : Nat) : Bool := s.base.db.any fun db => (db.live? family).isSome

/-- The family whose manifest this step adds tables to. -/
def edited (s : State K V) : Database.Action K V → Option Nat
  | .compactMemTable family => some family
  | .editManifest =>
    match s.base.db.map DBImpl.phase with
    | some (.editing (family :: _)) => some family
    | _ => none
  | _ => none

/-- The tables are built, and as many as the manifest gets. -/
def logAndApply (s : State K V) (b : Database.State K V) (family : Nat) (numbers : List Nat) :
    Option (State K V) :=
  if numbers.length + (s.base.disk.manifests family).tables.length =
      (b.disk.manifests family).tables.length ∧ ∀ n ∈ numbers, n ∈ s.dirs family then
    some { s with
      base := b
      live := Function.update s.live family (s.live family ++ numbers) }
  else none

/-- `RemoveObsoleteFiles` at the end of `DB::Open`. -/
def removeObsoleteFiles (s : State K V) : State K V :=
  { s with
    dirs := fun f => if f ∈ s.ids then (s.dirs f).filter fun n => n ∈ s.live f else s.dirs f }

/-- What else a step of the database does. -/
def after (s : State K V) (a : Database.Action K V) (numbers : List Nat) (b : Database.State K V) :
    Option (State K V) :=
  match a with
  | .createColumnFamily _ =>
    -- `NewDB`, in the directory of the next id
    some { s with
      base := b
      live := Function.update s.live ((s.base.db.map DBImpl.nextFamilyId).getD 0) [] }
  | .finishOpen => some { s.removeObsoleteFiles with base := b }
  | .dropColumnFamily family => some { s with base := b, removing := s.removing ++ [family] }
  | .crash => some { s with base := b, removing := [] }
  | a =>
    match s.edited a with
    | some family => s.logAndApply b family numbers
    | none => some { s with base := b }

def step (s : State K V) : Action K V → Option (State K V)
  | .base a numbers => (Database.State.step s.base a).bind (s.after a numbers)
  | .buildTable family =>
    if s.isLive family then
      some { s with
        dirs := Function.update s.dirs family (s.dirs family ++ [s.nextFileNumber])
        nextFileNumber := s.nextFileNumber + 1 }
    else none
  | .installCompactionResults family inputs outputs =>
    if s.isLive family ∧ ∀ n ∈ outputs, n ∈ s.dirs family then
      let kept := (s.live family).filter fun n => n ∉ inputs
      some { s with live := Function.update s.live family (kept ++ outputs) }
    else none
  | .removeObsoleteFile family number =>
    if family ∈ s.ids ∧ number ∉ s.live family then
      some { s with
        dirs := Function.update s.dirs family ((s.dirs family).filter fun n => n ≠ number) }
    else none
  | .removeFile i =>
    (s.removing[i]?).map fun family =>
      { s with dirs := Function.update s.dirs family (s.dirs family).tail }
  | .removeDir i =>
    (s.removing[i]?).bind fun family =>
      if s.dirs family = [] then some { s with removing := s.removing.eraseIdx i } else none

/-- A crash does not come while a drop has files left to remove. -/
def CrashesTidy (s : State K V) (a : Action K V) : Prop :=
  a.isCrash = true → ∀ family ∈ s.removing, s.dirs family = []

instance (s : State K V) (a : Action K V) : Decidable (s.CrashesTidy a) :=
  inferInstanceAs (Decidable (a.isCrash = true → ∀ family ∈ s.removing, s.dirs family = []))

end State

def system (K V : Type) [LinearOrder K] : Transition.System (State K V) (Action K V) where
  init s := s = ⟨Database.State.empty, fun _ => [], fun _ => [], 1, []⟩
  step := State.step

end LevelDb.Directories
