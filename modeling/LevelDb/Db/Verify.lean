import LevelDb.Db.Workload
import Mathlib.Logic.Function.Basic

/-!
# The full check of the benchmark (`bench/lsmbench.cc`)

`Runner::Verify` compares a forward scan of the whole database with the expected versions. The batch
that was in flight at a crash may have been applied or not; its keys tell which, the first that looks
different in the two states.
-/

namespace LevelDb.Bench

open Coding

/-- The benchmark exits: with a mismatch at an id, or with a code and a message. -/
inductive Exit
  | mismatch (id : Nat) (what : String)
  | die (code : Nat) (msg : String)
  deriving DecidableEq, Repr

def kExitMismatch : Nat := 2
def kExitEngine : Nat := 3

/-- The versions of the keys of the batch in flight, before and after it. -/
structure InFlight where
  before : Nat → Option UInt32
  after : Nat → Option UInt32
  same : ∀ id, (before id).isSome = (after id).isSome

namespace InFlight

/-- No batch. -/
def empty : InFlight := ⟨fun _ => none, fun _ => none, fun _ => rfl⟩

/-- The versions after the batch, whose writes are numbered after `w` (`Check`). -/
def afterOps : UInt32 → List Op → (Nat → Option UInt32) → Nat → Option UInt32
  | _, [], f => f
  | w, op :: ops, f =>
    afterOps (w + 1) ops
      (Function.update f op.id.toNat (some (if op.del then (w + 1) ||| kDeletedBit else w + 1)))

/-- The versions before it: those of the model. -/
def beforeOps (m : Model) : List Op → (Nat → Option UInt32) → Nat → Option UInt32
  | [], f => f
  | op :: ops, f =>
    beforeOps m ops (if (f op.id.toNat).isSome then f
      else Function.update f op.id.toNat (some (m.ver[op.id.toNat]?.getD 0)))

theorem isSome_afterOps (w : UInt32) (ops : List Op) (f : Nat → Option UInt32) (id : Nat) :
    (afterOps w ops f id).isSome ↔ (f id).isSome ∨ ∃ op ∈ ops, op.id.toNat = id := by
  induction ops generalizing w f with
  | nil => simp [afterOps]
  | cons op ops ih =>
    rw [afterOps, ih, Function.update_apply]
    by_cases hid : op.id.toNat = id
    · simp [hid]
    · simp [hid, Ne.symm hid]

theorem isSome_beforeOps (m : Model) (ops : List Op) (f : Nat → Option UInt32) (id : Nat) :
    (beforeOps m ops f id).isSome ↔ (f id).isSome ∨ ∃ op ∈ ops, op.id.toNat = id := by
  induction ops generalizing f with
  | nil => simp [beforeOps]
  | cons op ops ih =>
    rw [beforeOps, ih]
    by_cases hid : op.id.toNat = id
    · by_cases hsome : (f op.id.toNat).isSome
      · rw [if_pos hsome]
        simp [← hid, hsome]
      · rw [if_neg hsome]
        simp [← hid]
    · by_cases hsome : (f op.id.toNat).isSome
      · rw [if_pos hsome]
        simp [hid]
      · rw [if_neg hsome, Function.update_apply]
        simp [hid, Ne.symm hid]

/-- The maps that `Check` makes of the batch that may have been in flight. -/
def ofBatch (m : Model) (ops : List Op) : InFlight where
  before := beforeOps m ops fun _ => none
  after := afterOps m.wseq ops fun _ => none
  same id := by rw [Bool.eq_iff_iff, isSome_beforeOps, isSome_afterOps]

end InFlight

/-- What the in-flight keys have shown so far. -/
inductive InFlightState
  | unknown
  | old
  | new
  deriving DecidableEq, Repr

/-- `Matches`: the scan shows `value` at the id, or nothing. -/
def Model.matches (m : Model) (id : Nat) (ver : UInt32) (value : Option Bytes) : Bool :=
  if isLive ver then value.any (ValueGen.equals m.profile m.seed (.ofNat id) ver) else value.isNone

/-- `decide`, at a key of the batch. -/
def Model.decide (m : Model) (id : Nat) (oldV newV : UInt32) (value : Option Bytes)
    (st : InFlightState) : Except Exit InFlightState :=
  let oldOk := m.matches id oldV value
  let newOk := m.matches id newV value
  if oldOk ∧ newOk then .ok st
  else if ¬ oldOk ∧ ¬ newOk then
    .error (.mismatch id "in-flight key matches neither the state before nor after the batch")
  else
    let state := if oldOk then InFlightState.old else .new
    if st = .unknown then .ok state
    else if st ≠ state then .error (.mismatch id "in-flight batch applied only partially")
    else .ok st

/-- The versions of an id of the batch. -/
def InFlight.find (fl : InFlight) (id : Nat) : Option (UInt32 × UInt32) :=
  (fl.before id).bind fun old => (fl.after id).map fun new => (old, new)

/-- An id that the scan passes over. -/
def Model.absent (m : Model) (fl : InFlight) (what : String) (id : Nat) (st : InFlightState) :
    Except Exit InFlightState :=
  match fl.find id with
  | some (old, new) => m.decide id old new none st
  | none => if m.live id then .error (.mismatch id what) else .ok st

/-- So many ids from `expect` on. -/
def Model.absentFrom (m : Model) (fl : InFlight) (what : String) :
    Nat → Nat → InFlightState → Except Exit InFlightState
  | 0, _, st => .ok st
  | n + 1, expect, st => (m.absent fl what expect st).bind (m.absentFrom fl what n (expect + 1))

/-- An entry of the scan. -/
def Model.present (m : Model) (fl : InFlight) (id : Nat) (v : Bytes) (st : InFlightState) :
    Except Exit InFlightState :=
  match fl.find id with
  | some (old, new) => m.decide id old new (some v) st
  | none =>
    if m.live id then
      if ValueGen.equals m.profile m.seed (.ofNat id) (m.ver[id]?.getD 0) v then .ok st
      else .error (.mismatch id "wrong value in full scan")
    else .error (.mismatch id "deleted or never-written key present")

def text (bs : Bytes) : String := String.ofList (bs.map fun b => Char.ofNat b.toNat)

/-- The loop over the scan, which ends with `status`. -/
def Model.scanLoop (m : Model) (fl : InFlight) (status : Except String Unit) :
    List (Bytes × Bytes) → Nat → InFlightState → Except Exit InFlightState
  | [], expect, st =>
    match status with
    | .error msg => .error (.die kExitEngine ("iterator: " ++ msg))
    | .ok _ => m.absentFrom fl "missing from full scan at end" (m.ver.length - expect) expect st
  | (k, v) :: scan, expect, st =>
    match idOf k with
    | none => .error (.die kExitMismatch ("malformed key in database: " ++ text k))
    | some id =>
      if m.ver.length ≤ id then .error (.mismatch id "key outside the universe")
      else if id < expect then
        .error (.mismatch id "key out of order or duplicated in full scan")
      else (m.absentFrom fl "missing from full scan" (id - expect) expect st).bind fun st =>
        (m.present fl id v st).bind fun st => m.scanLoop fl status scan (id + 1) st

/-- Some of the versions are others. -/
def Model.patch (m : Model) (f : Nat → Option UInt32) : Model :=
  { m with ver := m.ver.mapIdx fun id v => (f id).getD v }

/-- The scan part of `Verify`: whether the batch was applied, and the model with its versions. -/
def Model.verifyScan (m : Model) (fl : InFlight) (scan : List (Bytes × Bytes))
    (status : Except String Unit) : Except Exit (Bool × Model) :=
  (m.scanLoop fl status scan 0 .unknown).map fun st =>
    (st = .new, if st = .new then m.patch fl.after else m)

end LevelDb.Bench
