import LevelDb.Db.History

/-!
# The families of a database (`db/db_impl.cc`)

Every family has its memtables, its version and its background work; the sequence numbers and the
snapshots are the database's. What a step does to a family is a step of its `Store`. A batch writes to
any of the families, one number after the other; a family that is created starts with nothing, at the
numbers the database has come to.
-/

namespace LevelDb

variable {K V : Type} [LinearOrder K]

/-- A family with what was written to it. -/
structure Column (K V : Type) [LinearOrder K] where
  id : Nat
  family : Family K V
  /-- The records written to the family with their sequence numbers, oldest first. -/
  history : List (Nat × Record K V)

structure Stores (K V : Type) [LinearOrder K] where
  columns : List (Column K V)
  lastSequence : Nat
  snapshots : List Nat

inductive StoresAction (K V : Type)
  /-- A batch: its records with the ids of their families. -/
  | write (batch : List (Nat × Record K V))
  | getSnapshot
  | releaseSnapshot (seq : Nat)
  /-- A step of the background work of a family. -/
  | work (id : Nat) (a : Action K V)
  | createColumnFamily (id : Nat)
  | dropColumnFamily (id : Nat)
  /-- The database is closed, or crashes, and is opened again: what the recovery of each family does. -/
  | reopen (recovery : Nat → List (Nat × Nat) × Nat)

/-- The family of this id goes on to what `f` makes of it. -/
def modifyColumn (id : Nat) (f : Column K V → Option (Column K V)) :
    List (Column K V) → Option (List (Column K V))
  | [] => none
  | c :: cs =>
    if c.id = id then (f c).map fun c' => c' :: cs
    else (modifyColumn id f cs).map fun cs' => c :: cs'

namespace Stores

/-- A new database has the default family. -/
def new : Stores K V := ⟨[⟨0, .empty, []⟩], 0, []⟩

def column? (s : Stores K V) (id : Nat) : Option (Column K V) := s.columns.find? fun c => c.id = id

/-- The family with the numbers of the database. -/
def store (s : Stores K V) (c : Column K V) : Store K V :=
  ⟨c.family, s.lastSequence, s.snapshots, c.history⟩

variable [Inhabited V] (opts : Nat → Options K V)

/-- What is left of a family after a step of its store. -/
def stepColumn (s : Stores K V) (a : StoreAction K V) (c : Column K V) : Option (Column K V) :=
  ((s.store c).step (opts c.id) a).map fun t => { c with family := t.family, history := t.history }

/-- The next record of a batch. -/
def writeRecord (s : Stores K V) (w : Nat × Record K V) : Option (Stores K V) :=
  (modifyColumn w.1 (s.stepColumn opts (.write [some w.2])) s.columns).map fun columns =>
    { s with columns, lastSequence := s.lastSequence + 1 }

def step (s : Stores K V) : StoresAction K V → Option (Stores K V)
  | .write batch => batch.foldlM (writeRecord opts) s
  | .getSnapshot => some { s with snapshots := s.snapshots ++ [s.lastSequence] }
  | .releaseSnapshot seq =>
    if seq ∈ s.snapshots then some { s with snapshots := s.snapshots.erase seq } else none
  | .work _ (.recover _ _) => none
  | .work id a =>
    (modifyColumn id (s.stepColumn opts (.work a)) s.columns).map fun columns => { s with columns }
  | .createColumnFamily id =>
    if (s.column? id).isNone then some { s with columns := s.columns ++ [⟨id, .empty, []⟩] } else none
  | .dropColumnFamily id =>
    if id ≠ 0 ∧ (s.column? id).isSome then
      some { s with columns := s.columns.filter fun c => c.id ≠ id }
    else none
  | .reopen recovery =>
    (s.columns.mapM fun c =>
        s.stepColumn opts (.work (.recover (recovery c.id).1 (recovery c.id).2)) c).map
      fun columns => { s with columns, snapshots := [] }

/-- The runs of a new database. -/
def system : Transition.System (Stores K V) (StoresAction K V) where
  init s := s = new
  step := step opts

end Stores
end LevelDb
