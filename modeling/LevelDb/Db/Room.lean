import LevelDb.Lib.Transition
import Mathlib.Algebra.GroupWithZero.Nat
import Mathlib.Data.List.Sort

/-!
# Room for writes (`MakeRoomForWrite`, `SwitchLog`)

The write queue of a database, its families' memtables by their memory usage, and the logs by their
numbers, from `DB::Open` on. The leader makes room for the families of its own batch, and for those
that lag behind on the shared log; then it takes the batches queued behind it into its group. The
steps are the stretches of code under `mutex_`; flushes, compactions and drops come in between.
Errors of the environment are left out.
-/

namespace LevelDb.Room

def kL0SlowdownWritesTrigger : Nat := 8
def kL0StopWritesTrigger : Nat := 12
def kMaxLiveLogs : Nat := 3

/-- The least write buffer `SanitizeOptions` lets pass. -/
def minWriteBufferSize : Nat := 2 ^ 16

structure ColumnFamily where
  id : Nat
  dropped : Bool
  /-- The memtable's `ApproximateMemoryUsage`, -/
  mem : Option Nat
  /-- and what it was before the last group. -/
  before : Nat
  memLogNumber : Nat
  /-- An immutable memtable is to be flushed. -/
  imm : Bool
  immLogNumber : Nat
  /-- `versions->LogNumber()`. -/
  logNumber : Nat
  numLevel0Files : Nat
  writeBufferSize : Nat

/-- A batch by the families of its records; a null batch forces a flush. -/
structure Writer where
  batch : Option (List Nat)

/-- The variables of `MakeRoomForWrite`. -/
structure Leader where
  force : Bool
  allowDelay : Bool

/-- The families of its records. -/
def Writer.families (w : Writer) : List Nat := w.batch.getD []

/-- The batches taken for one log record, and the families whose memtables were captured. -/
structure Group where
  writers : List Writer
  mems : List Nat
  inserted : Bool

def Group.families (g : Group) : List Nat := g.writers.flatMap (·.families)

structure State where
  cfs : List ColumnFamily
  /-- Families whose creation has given up the mutex. -/
  creating : List ColumnFamily
  nextFamilyId : Nat
  logfileNumber : Nat
  /-- The file number counter of the default family. -/
  nextFileNumber : Nat
  /-- Writers past the check of their families. -/
  checked : List Writer
  /-- `writers_`, behind the group at its front. -/
  queue : List Writer
  /-- The leader, once it has given up the mutex in `MakeRoomForWrite`. -/
  leader : Option Leader
  group : Option Group
  /-- How often `MakeRoomForWrite` has called `SwitchLog`. -/
  switches : Nat

inductive Action
  | write (batch : Option (List Nat))
  | enqueue (i : Nat)
  /-- The leader sleeps or waits in `MakeRoomForWrite`. -/
  | waitForRoom
  /-- `MakeRoomForWrite` returns; the leader takes `n` writers behind it into its group. -/
  | capture (n : Nat)
  /-- The group is inserted: each memtable grows by so much. -/
  | insert (growth : Nat → Nat)
  | close
  /-- A flush ends; its table may go to level 0. -/
  | compactMemTable (family : Nat) (toLevel0 : Bool)
  /-- A compaction leaves so many files on level 0, and has taken so many file numbers. -/
  | compact (family numLevel0Files numbers : Nat)
  | createColumnFamily (writeBufferSize : Nat)
  | commitColumnFamily (i : Nat)
  | dropColumnFamily (family : Nat)

/-- How many batches the leader takes behind its own. -/
def Action.groupSize : Action → Option Nat
  | .capture n => some n
  | _ => none

/-- Writes of batches, and the work in the background, with compactions or without. -/
def Action.isCalm (compactions : Bool) : Action → Bool
  | .write batch => batch.isSome
  | .compact _ _ _ => compactions
  | .createColumnFamily _ | .commitColumnFamily _ | .dropColumnFamily _ => false
  | _ => true

namespace ColumnFamily

/-- The first log the family needs. -/
def neededLog (cf : ColumnFamily) : Nat :=
  if cf.imm then min cf.logNumber cf.immLogNumber
  else if cf.mem.isSome then min cf.logNumber cf.memLogNumber
  else cf.logNumber

/-- The memtable is larger than it may be. -/
def overflows (cf : ColumnFamily) : Bool := cf.mem.any fun usage => cf.writeBufferSize < usage

end ColumnFamily

namespace State

def live (s : State) : List ColumnFamily := s.cfs.filter fun cf => cf.dropped = false

def live? (s : State) (family : Nat) : Option ColumnFamily :=
  s.cfs.find? fun cf => cf.id = family ∧ cf.dropped = false

/-- One family changes. -/
def modify (s : State) (family : Nat) (f : ColumnFamily → ColumnFamily) : State :=
  { s with cfs := s.cfs.map fun cf => if cf.id = family then f cf else cf }

/-! ## `MakeRoomForWrite` -/

def oldestLiveLog (s : State) : Nat :=
  (s.live.map (·.neededLog)).foldl min s.logfileNumber

/-- The family is far behind on the shared log. -/
def lags (s : State) (cf : ColumnFamily) : Bool :=
  cf.memLogNumber ≤ s.oldestLiveLog ∧ s.oldestLiveLog + kMaxLiveLogs < s.logfileNumber

/-- The set `want`. -/
def wants (s : State) (families : List Nat) (force : Bool) (cf : ColumnFamily) : Bool :=
  cf.id ∈ families ∨ force = true ∧ cf.id = 0 ∨ cf.imm = false ∧ s.lags cf = true

def full (s : State) (force : Bool) (cf : ColumnFamily) : Bool :=
  force = true ∧ cf.id = 0 ∨ cf.mem = none ∨ cf.overflows = true ∨
    s.lags cf = true ∧ cf.mem.any fun usage => 0 < usage

/-- What the loop over `want` has found. -/
structure Scan where
  cf : Option Nat
  overL0Soft : Bool
  overL0Hard : Bool
  waiting : Bool
deriving DecidableEq

/-- The loop over `want`; the ids are in the order of `cfs_`. -/
def scan (s : State) (l : Leader) : List ColumnFamily → Scan
  | [] => ⟨none, false, false, false⟩
  | cf :: cfs =>
    if s.full l.force cf = false then
      let r := s.scan l cfs
      { r with overL0Soft := r.overL0Soft || (l.allowDelay && kL0SlowdownWritesTrigger ≤ cf.numLevel0Files) }
    else if cf.imm then { s.scan l cfs with waiting := true }
    else if kL0StopWritesTrigger ≤ cf.numLevel0Files then { s.scan l cfs with overL0Hard := true }
    else ⟨some cf.id, false, false, false⟩

/-- How a turn of `MakeRoomForWrite` ends. -/
inductive Verdict
  | switchMemTable (family : Nat)
  | sleep
  | wait
  | room
deriving DecidableEq

def verdict (s : State) (families : List Nat) (l : Leader) : Verdict :=
  let r := s.scan l (s.live.filter (s.wants families l.force))
  match r.cf with
  | some family => .switchMemTable family
  | none => if r.overL0Soft then .sleep else if r.waiting || r.overL0Hard then .wait else .room

/-- `SwitchLog`, and a new memtable for the family. -/
def switchMemTable (fresh : Nat) (s : State) (family : Nat) : State :=
  { s.modify family fun cf => { cf with
      imm := true, immLogNumber := cf.memLogNumber
      mem := some fresh, before := 0, memLogNumber := s.nextFileNumber } with
    logfileNumber := s.nextFileNumber
    nextFileNumber := s.nextFileNumber + 1
    switches := s.switches + 1 }

/-- The loop until it gives up the mutex or returns; a family is switched at most once. -/
def makeRoomForWrite (fresh : Nat) (families : List Nat) :
    Nat → State → Leader → State × Leader × Verdict
  | 0, s, l => (s, l, s.verdict families l)
  | turns + 1, s, l =>
    match s.verdict families l with
    | .switchMemTable family =>
      makeRoomForWrite fresh families turns (s.switchMemTable fresh family) { l with force := false }
    | v => (s, l, v)

/-- Where the leader is; the writer at the front starts with these variables. -/
def leading (s : State) (w : Writer) : Leader :=
  s.leader.getD ⟨w.batch.isNone, w.batch.isSome⟩

/-- The writer at the front makes room for its families. -/
def makeRoom (fresh : Nat) (s : State) (w : Writer) : State × Leader × Verdict :=
  makeRoomForWrite fresh w.families (s.cfs.length + 1) s (s.leading w)

/-! ## Steps -/

/-- The check at the start of `Write`. -/
def check (s : State) (w : Writer) : Bool := w.families.all fun family => (s.live? family).isSome

def step (fresh : Nat) (s : State) : Action → Option State
  | .write batch =>
    if s.check ⟨batch⟩ then some { s with checked := s.checked ++ [⟨batch⟩] } else none
  | .enqueue i =>
    (s.checked[i]?).map fun w =>
      { s with checked := s.checked.eraseIdx i, queue := s.queue ++ [w] }
  | .waitForRoom =>
    match s.group, s.queue with
    | none, w :: _ =>
      match s.makeRoom fresh w with
      | (s, l, .sleep) => some { s with leader := some { l with allowDelay := false } }
      | (s, l, .wait) => some { s with leader := some l }
      | _ => none
    | _, _ => none
  | .capture n =>
    match s.group, s.queue with
    | none, w :: ws =>
      match s.makeRoom fresh w with
      | (s, _, .room) =>
        if w.batch.isNone then some { s with leader := none, queue := ws }
        else if n ≤ ws.length then
          some { s with
            leader := none
            queue := ws.drop n
            group := some ⟨w :: ws.take n, s.live.map (·.id), false⟩ }
        else none
      | _ => none
    | _, _ => none
  | .insert growth =>
    match s.group with
    | some g =>
      if g.inserted then none
      else some { s with
        group := some { g with inserted := true }
        cfs := s.cfs.map fun cf =>
          if cf.id ∈ g.families ∧ cf.id ∈ g.mems then
            { cf with
              before := cf.mem.getD 0
              mem := cf.mem.map fun usage => usage + growth cf.id }
          else cf }
    | none => none
  | .close =>
    match s.group with
    | some g => if g.inserted then some { s with group := none } else none
    | none => none
  | .compactMemTable family toLevel0 =>
    (s.live? family).bind fun cf =>
      if cf.imm then
        some { s.modify family fun cf => { cf with
            imm := false, logNumber := cf.memLogNumber
            numLevel0Files := cf.numLevel0Files + if toLevel0 then 1 else 0 } with
          nextFileNumber := s.nextFileNumber + if family = 0 then 1 else 0 }
      else none
  | .compact family numLevel0Files numbers =>
    (s.live? family).bind fun cf =>
      if numLevel0Files ≤ cf.numLevel0Files then
        some { s.modify family fun cf => { cf with numLevel0Files } with
          nextFileNumber := s.nextFileNumber + if family = 0 then numbers else 0 }
      else none
  | .createColumnFamily writeBufferSize =>
    if minWriteBufferSize ≤ writeBufferSize then
      some { s with
        nextFamilyId := s.nextFamilyId + 1
        creating := s.creating ++ [⟨s.nextFamilyId, false, some fresh, 0, s.logfileNumber, false, 0,
          s.logfileNumber, 0, writeBufferSize⟩] }
    else none
  | .commitColumnFamily i =>
    (s.creating[i]?).map fun cf =>
      { s with
        cfs := s.cfs.orderedInsert (fun a b => a.id ≤ b.id) cf
        creating := s.creating.eraseIdx i }
  | .dropColumnFamily family =>
    (s.live? family).bind fun _ =>
      if family ≠ 0 then
        some (s.modify family fun cf => { cf with dropped := true, mem := none, imm := false })
      else none

/-- A family that batches of the group touch, but not the leader's own, has room in its memtable by
the time the group is built. -/
def FollowersFit (fresh : Nat) (s : State) (a : Action) : Prop :=
  ∀ n ∈ a.groupSize, ∀ w ∈ s.queue.head?, w.batch.isSome = true →
    ∀ w' ∈ s.queue.tail.take n, ∀ f ∈ w'.families, f ∉ w.families →
      ∀ cf ∈ (s.makeRoom fresh w).1.live, cf.id = f → cf.overflows = false

instance (fresh : Nat) (s : State) (a : Action) : Decidable (s.FollowersFit fresh a) :=
  inferInstanceAs (Decidable (∀ n ∈ a.groupSize, ∀ w ∈ s.queue.head?, w.batch.isSome = true →
    ∀ w' ∈ s.queue.tail.take n, ∀ f ∈ w'.families, f ∉ w.families →
      ∀ cf ∈ (s.makeRoom fresh w).1.live, cf.id = f → cf.overflows = false))

/-- No memtable is over its limit, and no flush is forced. -/
structure Quiet (s : State) : Prop where
  fits : ∀ cf ∈ s.live, cf.overflows = false
  batches : ∀ w ∈ s.checked ++ s.queue, w.batch.isSome = true
  leader : ∀ l ∈ s.leader, l.force = false

/-- The step of a quiet state that adds no null batch; the families stay the same. -/
def Calm (compactions : Bool) (s : State) (a : Action) : Prop :=
  s.Quiet ∧ a.isCalm compactions = true

/-- Either no live family is far behind the log that is open; or there is one only; or there are no
more than logs may live, all on one log, and none can come to stop writes by its level 0. -/
def Settles (s : State) : Prop :=
  (∀ cf ∈ s.live, s.logfileNumber ≤ cf.memLogNumber + kMaxLiveLogs) ∨
  s.live.length ≤ 1 ∨
  (s.live.length ≤ kMaxLiveLogs + 1 ∧
    (∀ cf ∈ s.live, ∀ cf' ∈ s.live, cf.memLogNumber = cf'.memLogNumber) ∧
    ∀ cf ∈ s.live, cf.numLevel0Files + (if cf.imm then 1 else 0) < kL0StopWritesTrigger)

end State

/-- As `DB::Open` leaves a family: its memtable starts at the log that is open. -/
structure Opened (fresh : Nat) (s : State) (cf : ColumnFamily) : Prop where
  dropped : cf.dropped = false
  mem : ∃ usage, cf.mem = some usage ∧ fresh ≤ usage
  before : cf.before = 0
  imm : cf.imm = false
  memLogNumber : cf.memLogNumber = s.logfileNumber
  logNumber : cf.logNumber = s.logfileNumber
  id : cf.id < s.nextFamilyId
  writeBufferSize : minWriteBufferSize ≤ cf.writeBufferSize

/-- All the runs from `DB::Open` on, where a new memtable has usage `fresh`. -/
def system (fresh : Nat) : Transition.System State Action where
  init s := (∀ cf ∈ s.cfs, Opened fresh s cf) ∧ (s.cfs.map (·.id)).Nodup ∧ 0 ∈ s.cfs.map (·.id) ∧
    s.creating = [] ∧ s.logfileNumber < s.nextFileNumber ∧ s.checked = [] ∧ s.queue = [] ∧
    s.leader = none ∧ s.group = none
  step := State.step fresh

end LevelDb.Room
