import LevelDb.Db.PickCompaction
import LevelDb.Db.Room

/-!
# Manual compactions and the background worker (`db/db_impl.cc`)

A database with families and one call of `CompactRange` in it, with no writes at the same time. The
caller forces a flush (`TEST_CompactMemTable`) and asks for a compaction of one level after the
other (`TEST_CompactRange`); the background worker flushes memtables, serves what was asked for,
and compacts by itself. A compaction of the worker takes two steps, with flushes and the caller's
turns in between. Errors of the environment and shutting down are left out.
-/

namespace LevelDb

variable {K V : Type} [LinearOrder K]

/-! ## `VersionSet::CompactRange` -/

namespace Version

/-- `OverlapInLevel`, where a missing end of the range leaves it open. -/
def overlapInRange (v : Version K V) (level : Nat) (lo hi : Option K) : Bool :=
  (v.files level).any fun f =>
    lo.all (fun lo => decide (lo ≤ f.largest.userKey)) &&
      hi.all fun hi => decide (f.smallest.userKey ≤ hi)

/-- `max_level_with_files`. -/
def maxLevelWithFiles (v : Version K V) (lo hi : Option K) : Nat :=
  (List.range' 1 (kNumLevels - 1)).foldl
    (fun level l => if v.overlapInRange l lo hi then l else level) 1

/-- `GetOverlappingInputs`: a missing end of the range is past all files of the level. -/
def inputsInRange (v : Version K V) (level : Nat) (lo hi : Option K) : List (FileMetaData K V) :=
  match getRange (v.files level) with
  | none => []
  | some (smallest, largest) =>
    v.overlappingInputs level (lo.getD smallest.userKey) (hi.getD largest.userKey)

/-- The inputs up to the one that takes their total size to the limit. -/
def inputsWithin (limit : Nat) : Nat → List (FileMetaData K V) → List (FileMetaData K V)
  | _, [] => []
  | total, f :: files =>
    if limit ≤ total + f.fileSize then [f]
    else f :: inputsWithin limit (total + f.fileSize) files

/-- `VersionSet::CompactRange`; on level 0 no input may be left out. -/
def compactRange (opts : Options K V) (v : Version K V) (level : Nat)
    (begin_ end_ : Option (InternalKey K)) : Option (PickedCompaction K V) :=
  let inputs := v.inputsInRange level (begin_.map (·.userKey)) (end_.map (·.userKey))
  if inputs.isEmpty then none
  else v.setupOtherInputs opts level
    (if 0 < level then inputsWithin opts.maxFileSize 0 inputs else inputs)

end Version

namespace Worker

/-! ## The state -/

/-- `ManualCompaction`: the object of the call; the worker moves `begin_` on. -/
structure ManualCompaction (K : Type) where
  level : Nat
  begin_ : Option (InternalKey K)
  end_ : Option (InternalKey K)
  done : Bool

/-- A family: its memtables and levels, and what `MakeRoomForWrite` and the worker look at. -/
structure ColumnFamily (K V : Type) [LinearOrder K] where
  id : Nat
  dropped : Bool
  store : Family K V
  /-- `ApproximateMemoryUsage` of the memtable. -/
  usage : Nat
  memLogNumber : Nat
  immLogNumber : Nat
  /-- The log number of its manifest. -/
  logNumber : Nat
  writeBufferSize : Nat
  options : Options K V
  /-- What a version asks for by itself. -/
  triggers : Version K V → Version.Triggers K V
  compactPointer : Nat → Option (InternalKey K)
  /-- `manual` points to the object of the call. -/
  manual : Bool

/-- Where the call of `CompactRange` is. -/
inductive Caller
  /-- In `MakeRoomForWrite`, with a null batch. -/
  | makeRoom (l : Room.Leader)
  | waitForFlush
  /-- In `TEST_CompactRange`. -/
  | compactRange
  | returned

/-- A compaction under way: of which family; of a manual one, where its inputs end. -/
structure Working (K : Type) where
  family : Nat
  manualEnd : Option (InternalKey K)

structure State (K V : Type) [LinearOrder K] where
  cfs : List (ColumnFamily K V)
  logfileNumber : Nat
  /-- Every live snapshot, oldest first. -/
  snapshots : List Nat
  caller : Caller
  maxLevelWithFiles : Nat
  begin_ : Option K
  end_ : Option K
  manual : ManualCompaction K
  working : Option (Working K)
  /-- The families whose `VersionSet::CompactRange` the worker has called for the call. -/
  served : List Nat

inductive Action (K V : Type)
  /-- The caller's next stretch under the mutex. -/
  | turn
  | compactMemTable (family fileSize : Nat)
  | compactManually
  | compact (family : Nat)
  /-- The compaction under way ends. -/
  | install (shouldStopBefore : List (InternalKey K) → Bool) (fileFull : List (Entry K V) → Bool)
      (sizes : Nat → Nat)

/-- What `MakeRoomForWrite` sees of a family. -/
def ColumnFamily.room (cf : ColumnFamily K V) : Room.ColumnFamily where
  id := cf.id
  dropped := cf.dropped
  mem := if cf.dropped then none else some cf.usage
  before := 0
  memLogNumber := cf.memLogNumber
  imm := cf.store.imm.isSome
  immLogNumber := cf.immLogNumber
  logNumber := cf.logNumber
  numLevel0Files := (cf.store.current.files 0).length
  writeBufferSize := cf.writeBufferSize

/-- `NeedsCompaction`. -/
def ColumnFamily.needsCompaction (cf : ColumnFamily K V) : Bool :=
  let triggers := cf.triggers cf.store.current
  triggers.compactionLevel.isSome || triggers.fileToCompact.isSome ||
    triggers.rdFileToCompact.isSome

namespace State

def live (s : State K V) : List (ColumnFamily K V) := s.cfs.filter fun cf => cf.dropped = false

def live? (s : State K V) (family : Nat) : Option (ColumnFamily K V) :=
  s.cfs.find? fun cf => cf.id = family ∧ cf.dropped = false

/-- The family becomes another. -/
def set (s : State K V) (family : Nat) (cf : ColumnFamily K V) : State K V :=
  { s with cfs := s.cfs.map fun c => if c.id = family then cf else c }

def room (s : State K V) : Room.State where
  cfs := s.cfs.map (·.room)
  creating := []
  nextFamilyId := 0
  logfileNumber := s.logfileNumber
  nextFileNumber := ((s.live? 0).map (·.store.nextFileNumber)).getD 0
  checked := []
  queue := []
  leader := none
  group := none
  switches := 0

/-! ## The caller -/

/-- `TEST_CompactRange` starts on a level. -/
def testCompactRange (s : State K V) (level : Nat) : State K V :=
  { s with
    caller := .compactRange
    manual := ⟨level, s.begin_.map fun k => ⟨k, kMaxSequenceNumber, kValueTypeForSeek⟩,
      s.end_.map fun k => ⟨k, 0, .deletion⟩, false⟩ }

/-- `CompactRange` of a family, up to `TEST_CompactMemTable`. -/
def compactRange (s : State K V) (family : Nat) (begin_ end_ : Option K) : Option (State K V) :=
  (s.live? family).map fun cf =>
    { s with
      caller := .makeRoom ⟨true, false⟩
      maxLevelWithFiles := cf.store.current.maxLevelWithFiles begin_ end_
      begin_
      end_
      served := [] }

/-- `SwitchLog`: the number comes from the default family. -/
def switchLog (s : State K V) : Option (State K V) :=
  (s.live? 0).map fun cf =>
    { s.set 0 { cf with store := { cf.store with
        nextFileNumber := cf.store.nextFileNumber + 1 } } with
      logfileNumber := cf.store.nextFileNumber }

section
variable [Inhabited V]

/-- `MakeRoomForWrite` gives a family a new memtable, on a new log. -/
def switchMemTable (fresh : Nat) (s : State K V) (family : Nat) : Option (State K V) :=
  s.switchLog.bind fun s =>
    (s.live? family).bind fun cf =>
      (Family.step cf.options cf.store .switchMemTable).map fun store =>
        s.set family { cf with
          store, usage := fresh, immLogNumber := cf.memLogNumber, memLogNumber := s.logfileNumber }

/-- `TEST_CompactMemTable` and `TEST_CompactRange` work on `default_cf_`. -/
def turn (fresh : Nat) (s : State K V) : Option (State K V) :=
  match s.caller with
  | .makeRoom l =>
    match s.room.verdict [] l with
    | .switchMemTable family =>
      (s.switchMemTable fresh family).map fun s =>
        { s with caller := .makeRoom { l with force := false } }
    | .room => some { s with caller := .waitForFlush }
    | _ => none
  | .waitForFlush =>
    (s.live? 0).bind fun cf =>
      if cf.store.imm.isNone then
        if 0 < s.maxLevelWithFiles then some (s.testCompactRange 0)
        else some { s with caller := .returned }
      else none
  | .compactRange =>
    if s.manual.done then
      if s.manual.level + 1 < s.maxLevelWithFiles then
        some (s.testCompactRange (s.manual.level + 1))
      else some { s with caller := .returned }
    else
      (s.live? 0).bind fun cf =>
        if cf.manual then none else some (s.set 0 { cf with manual := true })
  | .returned => none

/-! ## The worker -/

/-- `CompactMemTable`. -/
def compactMemTable (s : State K V) (family fileSize : Nat) : Option (State K V) :=
  (s.live? family).bind fun cf =>
    (Family.step cf.options cf.store (.compactMemTable fileSize)).map fun store =>
      s.set family { cf with store, logNumber := cf.memLogNumber }

/-- A compaction that is picked starts. -/
def start (s : State K V) (cf : ColumnFamily K V) (c : PickedCompaction K V)
    (manualEnd : Option (InternalKey K)) : Option (State K V) :=
  (Family.step cf.options cf.store (.pick c.level (c.inputs0.map (·.number))
      (c.inputs1.map (·.number)) s.snapshots)).map fun store =>
    { s.set cf.id { cf with
        store, compactPointer := Function.update cf.compactPointer c.level c.compactPointer } with
      working := some ⟨cf.id, manualEnd⟩ }

/-- `BackgroundCompaction` finds no memtable to flush and the slot of a family set. -/
def compactManually (s : State K V) : Option (State K V) :=
  if s.working.isNone ∧ ∀ cf ∈ s.live, cf.store.imm.isNone then
    (s.live.find? (·.manual)).bind fun cf =>
      let m := s.manual
      let s := { s with served := s.served ++ [cf.id] }
      match cf.store.current.compactRange cf.options m.level m.begin_ m.end_ with
      | none =>
        some { s.set cf.id { cf with manual := false } with manual := { m with done := true } }
      | some c => s.start cf c (c.inputs0.getLast?.map (·.largest))
  else none

/-- `BackgroundCompaction` finds nothing that was asked for, and a family that needs it; of several
the one with the highest score. -/
def compact (s : State K V) (family : Nat) : Option (State K V) :=
  if s.working.isNone ∧ ∀ cf ∈ s.live, cf.store.imm.isNone ∧ cf.manual = false then
    (s.live? family).bind fun cf =>
      if cf.needsCompaction then
        (cf.store.current.pickCompaction cf.options cf.compactPointer
            (cf.triggers cf.store.current)).bind fun c =>
          if c.isTrivialMove cf.options then
            c.inputs0.head?.bind fun f =>
              (Family.step cf.options cf.store (.trivialMove c.level f.number)).map fun store =>
                s.set family { cf with
                  store
                  compactPointer := Function.update cf.compactPointer c.level c.compactPointer }
          else s.start cf c none
      else none
  else none

/-- The outputs are installed; of a manual compaction, what is left starts at the end of its
inputs. -/
def install (s : State K V) (shouldStopBefore : List (InternalKey K) → Bool)
    (fileFull : List (Entry K V) → Bool) (sizes : Nat → Nat) : Option (State K V) :=
  s.working.bind fun w =>
    (s.live? w.family).bind fun cf =>
      (Family.step cf.options cf.store (.install shouldStopBefore fileFull sizes)).map fun store =>
        match w.manualEnd with
        | none => { s.set cf.id { cf with store } with working := none }
        | some k =>
          { s.set cf.id { cf with store, manual := false } with
            working := none
            manual := { s.manual with begin_ := some k } }

def step (fresh : Nat) (s : State K V) : Action K V → Option (State K V)
  | .turn => s.turn fresh
  | .compactMemTable family fileSize => s.compactMemTable family fileSize
  | .compactManually => s.compactManually
  | .compact family => s.compact family
  | .install shouldStopBefore fileFull sizes => s.install shouldStopBefore fileFull sizes

end

/-- Before the call: the default family is there, and no manual compaction. -/
structure Idle (s : State K V) : Prop where
  nodup : (s.cfs.map (·.id)).Nodup
  default : ∃ cf ∈ s.live, cf.id = 0
  manual : ∀ cf ∈ s.cfs, cf.manual = false
  working : ∀ w ∈ s.working, w.manualEnd = none

/-- No compaction is under way or due by itself. -/
structure Quiet (s : State K V) : Prop where
  working : s.working = none
  due : ∀ cf ∈ s.live, cf.needsCompaction = false

/-- A turn in `MakeRoomForWrite` finds no other family that could be switched far behind on the
log. -/
def NoneLags (s : State K V) : Action K V → Prop
  | .turn =>
    match s.caller with
    | .makeRoom _ => ∀ cf ∈ s.live, cf.id ≠ 0 → cf.store.imm.isNone → s.room.lags cf.room = false
    | _ => True
  | _ => True

instance (s : State K V) : ∀ a, Decidable (s.NoneLags a)
  | .turn =>
    match hcaller : s.caller with
    | .makeRoom _ =>
      decidable_of_iff (∀ cf ∈ s.live, cf.id ≠ 0 → cf.store.imm.isNone → s.room.lags cf.room = false)
        (by simp only [NoneLags, hcaller])
    | .waitForFlush | .compactRange | .returned => .isTrue (by simp only [NoneLags, hcaller])
  | .compactMemTable .. | .compactManually | .compact _ | .install .. => .isTrue trivial

/-- **What `CompactRange` of a family should do**, from one state to another: its memtables are
empty, its manual compactions were served in it, and, with nothing else due, all other families are
as they were. -/
structure Owns (family : Nat) (s s' : State K V) : Prop where
  flushed : ∀ cf ∈ s'.cfs, cf.id = family → cf.store.records = []
  served : ∀ id ∈ s'.served, id = family
  others : s.Quiet → ∀ cf ∈ s.live, cf.id ≠ family → cf ∈ s'.cfs

end State

/-- A call of `CompactRange` in an idle database, and the worker's work. -/
def system [Inhabited V] (fresh : Nat) (before : State K V) (family : Nat) (begin_ end_ : Option K) :
    Transition.System (State K V) (Action K V) where
  init s := before.Idle ∧ before.compactRange family begin_ end_ = some s
  step := State.step fresh

end Worker
end LevelDb
