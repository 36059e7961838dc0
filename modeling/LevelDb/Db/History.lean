import LevelDb.Db.Contents
import LevelDb.Db.Levels

/-!
# A family, its readers and its history (`db/db_impl.cc`, `db/snapshot.h`)

What a family is for, said of everything that was ever written to it: the value of a key at a
sequence number is what the records up to it make of the key, one after the other (`opsAt`). The
`Store` is a family together with the sequence numbers and snapshots of its database. Its history is
kept for comparison only: no step reads it.
-/

namespace LevelDb

open Mvcc

variable {K V : Type} [LinearOrder K]

/-! ## History -/

/-- What a record does to a key. -/
def Record.opAt (k : K) : Record K V → Option (Op V)
  | .put k' v => if k' = k then some (.put v) else none
  | .delete k' => if k' = k then some .delete else none
  | .merge k' v => if k' = k then some (.merge v) else none
  | .deleteRange b e => if b ≤ k ∧ k < e then some .delete else none

/-- What the records up to a sequence number do to a key, newest first. -/
def opsAt (history : List (Nat × Record K V)) (k : K) (snapshot : Nat) : List (Op V) :=
  ((history.filter fun r => r.1 ≤ snapshot).filterMap fun r => r.2.opAt k).reverse

/-- The answer to a reader of the key at a sequence number. -/
def answerAt (mergeOp : Option (MergeOperator K V)) (history : List (Nat × Record K V)) (k : K)
    (snapshot : Nat) : Status × Option V :=
  answer mergeOp (read (foldOf mergeOp k) (opsAt history k snapshot))

/-! ## The store -/

structure Store (K V : Type) [LinearOrder K] where
  family : Family K V
  /-- `last_sequence_`, which all families share. -/
  lastSequence : Nat
  /-- `snapshots_`, oldest first. -/
  snapshots : List Nat
  /-- The records written to the family with their sequence numbers, oldest first. -/
  history : List (Nat × Record K V)

inductive StoreAction (K V : Type)
  /-- A batch: a record of the family, or `none` for one of another family. -/
  | write (batch : List (Option (Record K V)))
  | getSnapshot
  | releaseSnapshot (seq : Nat)
  /-- A step of the family other than a write. -/
  | work (a : Action K V)

namespace Store

def empty : Store K V := ⟨.empty, 0, [], []⟩

variable [Inhabited V]

/-- The next record of a batch. -/
def writeRecord (opts : Options K V) (s : Store K V) : Option (Record K V) → Option (Store K V)
  | some record =>
    (s.family.step opts (.write (s.lastSequence + 1) record)).map fun family =>
      { s with
        family
        lastSequence := s.lastSequence + 1
        history := s.history ++ [(s.lastSequence + 1, record)] }
  | none =>
    if s.lastSequence + 1 < kMaxSequenceNumber then
      some { s with lastSequence := s.lastSequence + 1 }
    else none

/-- A compaction asks for the live snapshots when it starts; a crash ends them. -/
def step (opts : Options K V) (s : Store K V) : StoreAction K V → Option (Store K V)
  | .write batch => batch.foldlM (writeRecord opts) s
  | .getSnapshot => some { s with snapshots := s.snapshots ++ [s.lastSequence] }
  | .releaseSnapshot seq =>
    if seq ∈ s.snapshots then some { s with snapshots := s.snapshots.erase seq } else none
  | .work (.write _ _) => none
  | .work (.pick level inputs0 inputs1 snapshots) =>
    if snapshots = s.snapshots then
      (s.family.step opts (.pick level inputs0 inputs1 snapshots)).map fun family =>
        { s with family }
    else none
  | .work (.recover tables nextFileNumber) =>
    (s.family.step opts (.recover tables nextFileNumber)).map fun family =>
      { s with family, snapshots := [] }
  | .work a => (s.family.step opts a).map fun family => { s with family }

/-- The runs of a new database. -/
def system (opts : Options K V) : Transition.System (Store K V) (StoreAction K V) where
  init s := s = empty
  step := step opts

/-- A reader may hold a live snapshot, or read what is there. -/
def Readable (s : Store K V) (snapshot : Nat) : Prop :=
  snapshot ∈ s.snapshots ∨ snapshot = s.lastSequence

instance (s : Store K V) (snapshot : Nat) : Decidable (s.Readable snapshot) := instDecidableOr

end Store

/-! ## Reads under way -/

/-- What a read took references to before it let go of the mutex. Its memtable is the one writers go
on filling until the family switches to another. -/
structure Capture (K V : Type) [LinearOrder K] where
  /-- The memtable when it was switched away from; `none` while it is the family's. -/
  mem : Option (List (Nat × Record K V))
  imm : Option (List (Nat × Record K V))
  current : Version K V
  snapshot : Nat

/-- A store and the reads under way. -/
structure Session (K V : Type) [LinearOrder K] where
  store : Store K V
  readers : List (Capture K V)

inductive SessionAction (K V : Type)
  | store (a : StoreAction K V)
  /-- `Get` or `NewIterator` at this sequence number takes its references. -/
  | capture (snapshot : Nat)
  | finish (reader : Nat)

/-- What the read sees at this time. -/
def Capture.view [Inhabited V] (opts : Options K V) (s : Store K V) (r : Capture K V) :
    ColumnFamily K V where
  mem := .ofRecords (r.mem.getD s.family.mem)
  imm := r.imm.map .ofRecords
  current := r.current
  mergeOp := opts.mergeOp

/-- The memtable of the family is no longer the one written to. -/
def Capture.switched (mem : List (Nat × Record K V)) (r : Capture K V) : Capture K V :=
  { r with mem := some (r.mem.getD mem) }

namespace Session

def empty : Session K V := ⟨.empty, []⟩

variable [Inhabited V]

def step (opts : Options K V) (s : Session K V) : SessionAction K V → Option (Session K V)
  | .store a =>
    (s.store.step opts a).map fun store =>
      { store
        readers :=
          match a with
          | .work .switchMemTable => s.readers.map (·.switched s.store.family.mem)
          | .work (.recover _ _) => []
          | _ => s.readers }
  | .capture snapshot =>
    if s.store.Readable snapshot then
      some { s with
        readers := s.readers ++ [⟨none, s.store.family.imm, s.store.family.current, snapshot⟩] }
    else none
  | .finish reader => some { s with readers := s.readers.eraseIdx reader }

/-- The runs of a new database with its readers. -/
def system (opts : Options K V) : Transition.System (Session K V) (SessionAction K V) where
  init s := s = empty
  step := step opts

end Session
end LevelDb
