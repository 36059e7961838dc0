import LevelDb.Db.Database
import LevelDb.Db.LookupState
import LevelDb.Db.Room

/-!
# Room for writes in a database without families (`MakeRoomForWrite`, before and after)

The loop of the stock engine, which knows one memtable, and the loop with families, run on a
database whose only family is the default one. Both see the same conditions in a turn: the memtable's
usage, whether one is being flushed, the files on level 0, and the background error.
-/

namespace LevelDb.Room

/-- What a turn of the loop looks at, besides the log numbers. -/
structure Conditions where
  /-- `ApproximateMemoryUsage` of the memtable. -/
  usage : Nat
  /-- An immutable memtable is to be flushed. -/
  imm : Bool
  numLevel0Files : Nat
  bgError : Option Status
  writeBufferSize : Nat

/-- How a turn ends. -/
inductive Turn
  | yieldError (error : Status)
  | sleep
  | wait
  | room
  | switchMemTable
deriving DecidableEq

/-- A turn of the stock loop. -/
def stockTurn (c : Conditions) (l : Leader) : Turn :=
  match c.bgError with
  | some error => .yieldError error
  | none =>
    if l.allowDelay ∧ kL0SlowdownWritesTrigger ≤ c.numLevel0Files then .sleep
    else if l.force = false ∧ c.usage ≤ c.writeBufferSize then .room
    else if c.imm then .wait
    else if kL0StopWritesTrigger ≤ c.numLevel0Files then .wait
    else .switchMemTable

/-- A turn of the loop with families. -/
def State.turn (s : State) (bgError : Option Status) (families : List Nat) (l : Leader) : Turn :=
  match bgError with
  | some error => .yieldError error
  | none =>
    match s.verdict families l with
    | .switchMemTable _ => .switchMemTable
    | .sleep => .sleep
    | .wait => .wait
    | .room => .room

/-- The families and logs of a process as `MakeRoomForWrite` sees them under these conditions. -/
def ofDBImpl {K V : Type} (db : Database.DBImpl K V) (c : Conditions) : State where
  cfs := db.cfs.map fun cf =>
    { id := cf.id, dropped := cf.dropped, mem := cf.mem.map fun _ => c.usage, before := 0
      memLogNumber := cf.memLogNumber, imm := c.imm, immLogNumber := cf.immLogNumber
      logNumber := cf.versions.logNumber, numLevel0Files := c.numLevel0Files
      writeBufferSize := c.writeBufferSize }
  creating := []
  nextFamilyId := db.nextFamilyId
  logfileNumber := db.logfileNumber
  nextFileNumber := ((db.find? 0).map (·.versions.nextFileNumber)).getD 0
  checked := []
  queue := []
  leader := none
  group := none
  switches := 0

/-- Where a leader with this batch can be in the loop: at the start; after it has given up the mutex,
while others work and errors occur; after a switch, which gives it a new memtable. -/
inductive Loops (fresh : Nat) (batch : Option (List Nat)) : Conditions → Leader → Prop
  | start (c : Conditions) : Loops fresh batch c ⟨batch.isNone, batch.isSome⟩
  | released {c : Conditions} {l : Leader} (imm : Bool) (numLevel0Files : Nat)
      (bgError : Option Status) : Loops fresh batch c l →
      Loops fresh batch { c with imm, numLevel0Files, bgError } l
  | slept {c : Conditions} {l : Leader} (imm : Bool) (numLevel0Files : Nat)
      (bgError : Option Status) : Loops fresh batch c l →
      Loops fresh batch { c with imm, numLevel0Files, bgError } { l with allowDelay := false }
  | switched {c : Conditions} {l : Leader} : Loops fresh batch c l →
      Loops fresh batch { c with usage := fresh, imm := true } { l with force := false }

/-- What a turn decides, with and without the delay allowed: it sleeps in place of the decision, if
it does. -/
def Decides (turn : Bool → Turn) (decision : Turn) : Prop :=
  decision ≠ .sleep ∧ turn false = decision ∧ (turn true = .sleep ∨ turn true = decision)

end LevelDb.Room

namespace LevelDb.Database

variable {K V : Type}

/-- No family is created. -/
def DefaultOnly (_ : State K V) : Action K V → Prop
  | .createColumnFamily _ => False
  | _ => True

instance (s : State K V) : ∀ a, Decidable (DefaultOnly s a)
  | .createColumnFamily _ => instDecidableFalse
  | .openDB .. | .commitColumnFamily _ | .recoverLogs .. | .editManifest | .finishOpen | .capture _
  | .addRecord | .insert | .close | .switchMemTable _ | .compactMemTable _ | .removeObsoleteFiles
  | .removeFile _ | .dropColumnFamily _ | .crash => instDecidableTrue

end LevelDb.Database
