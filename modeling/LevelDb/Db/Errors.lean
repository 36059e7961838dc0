import LevelDb.Db.Database

/-!
# When a creation or a drop fails (`CreateColumnFamilyLocked`, `DropColumnFamily`)

The database of `LevelDb.Db.Database` with the ways in which the two calls return an error: their
checks refuse, `NewDB` or `OpenColumnFamily` fails, `LogAndApply` fails, or `WriteFamilies` does and
leaves FAMILIES as it was. In `DB::Open` such an error ends the process; that is a crash.
-/

namespace LevelDb.Errors

open Database

variable {K V : Type} [LinearOrder K]

structure State (K V : Type) where
  base : Database.State K V
  /-- The ids of the families whose creation has failed in this process. -/
  failed : List Nat

inductive Action (K V : Type)
  | base (a : Database.Action K V)
  /-- The checks of one of the calls refuse, or a drop comes to a family that another has dropped. -/
  | refuse
  /-- A creation fails in `NewDB` or `OpenColumnFamily`, -/
  | failNewDB (name : String)
  /-- in `LogAndApply`, -/
  | failLogAndApply (i : Nat)
  /-- in `WriteFamilies`. -/
  | failCreateWrite (i : Nat)
  /-- A drop fails in `WriteFamilies`. -/
  | failDropWrite (family : Nat)

/-- One of the calls returns an error. -/
def Action.fails : Action K V → Bool
  | .base _ => false
  | _ => true

/-- `WriteFamilies` does not fail. -/
def Action.WritesFamilies : Action K V → Prop
  | .failCreateWrite _ | .failDropWrite _ => False
  | _ => True

instance : ∀ a : Action K V, Decidable a.WritesFamilies
  | .base _ | .refuse | .failNewDB _ | .failLogAndApply _ => inferInstanceAs (Decidable True)
  | .failCreateWrite _ | .failDropWrite _ => inferInstanceAs (Decidable False)

namespace State

/-- The process goes on with the error behind it. -/
def setDB (s : State K V) (db : DBImpl K V) : State K V :=
  { s with base := { s.base with db := some db } }

def stepDB (s : State K V) (db : DBImpl K V) : Action K V → Option (State K V)
  | .base a => (Database.State.step s.base a).map fun b =>
      ⟨b, if b.db.isNone then [] else s.failed⟩
  | .refuse => some s
  | .failNewDB name =>
    -- the id is used up; no manifest that FAMILIES does not name is ever read
    (db.createColumnFamily s.base.disk name).map fun _ =>
      { s.setDB { db with nextFamilyId := db.nextFamilyId + 1 } with
        failed := s.failed ++ [db.nextFamilyId] }
  | .failLogAndApply i =>
    (db.creating[i]?).map fun cf =>
      { s.setDB { db with creating := db.creating.eraseIdx i } with failed := s.failed ++ [cf.id] }
  | .failCreateWrite i =>
    -- the family is in `cfs_` by then
    (db.creating[i]?).bind fun cf => (db.commitColumnFamily s.base.disk i).map fun r =>
      { s.setDB r.1 with failed := s.failed ++ [cf.id] }
  | .failDropWrite family =>
    -- and this one is marked
    (db.live? family).bind fun _ => (db.dropColumnFamily s.base.disk family).map fun r =>
      s.setDB r.1

def step (s : State K V) (a : Action K V) : Option (State K V) :=
  match s.base.db with
  | some db => if a.fails = true → db.phase = .running then s.stepDB db a else none
  | none =>
    match a with
    | .base a => (Database.State.step s.base a).map fun b => { s with base := b }
    | _ => none

end State

def system (K V : Type) [LinearOrder K] : Transition.System (State K V) (Action K V) where
  init s := s = ⟨Database.State.empty, []⟩
  step := State.step

end LevelDb.Errors
