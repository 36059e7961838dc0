import LevelDb.Db.InternalIterator
import LevelDb.Db.Oracle
import LevelDb.Db.Stores

/-!
# The runner of the conformance tests (`bench/conf_model.cc`)

`RunScenario` makes the operations of the generator on a database and on the oracle, and compares
every read. An operation is a list of tasks: the calls that change the database, and the reads
(`Task`). The background work of the families goes on between any two tasks; a `CompactRange` asks for
some of it. An iterator is made and used in one task, as it keeps what it took references to. What a
failed check writes is left out.
-/

namespace LevelDb.Conf

open Numerals

def ConfRng.below (r : ConfRng) (n : Nat) : Nat × ConfRng :=
  if n = 0 then (0, r) else (r.next.1.toNat % n, r.next.2)

/-! ## Checks -/

/-- One read of `CheckGets`. -/
def checkGet (cf : ColumnFamily Text Text) (snapshot : Nat) (model : ConfMap) (id : Nat) : Bool :=
  match model[id]?, cf.get (confKey id) snapshot with
  | none, (status, _) => status = .notFound
  | some v, (status, got) => status = .ok ∧ got = some v

/-- `SameEntry`. -/
def sameEntry (it : DBIter Text Text) (e : Nat × Text) : Bool := it.shown = some (confKey e.1, e.2)

/-- One direction of `CheckScan`: the entries of the oracle in turn, each against the iterator, which
`move` takes to the next one; the iterator where both end. -/
def scanLoop (move : DBIter Text Text → DBIter Text Text) :
    DBIter Text Text → List (Nat × Text) → Option (DBIter Text Text)
  | it, [] => if it.valid = false ∧ it.status = .ok then some it else none
  | it, e :: es => if sameEntry it e then scanLoop move (move it) es else none

/-- `CheckScan`. -/
def checkScan (src : DBIterSource Text Text) (model : ConfMap) : Bool :=
  ((scanLoop (·.next src) (DBIter.new.seekToFirst src) model.toList).bind fun it =>
    scanLoop (·.prev src) (it.seekToLast src) model.toList.reverse).isSome

/-- The loop of `CheckWalk` with so many steps left, with the iterator here and the place in the
oracle's map; the iterator where the walk ends. -/
def walkLoop (src : DBIterSource Text Text) :
    Nat → DBIter Text Text → Option (Cursor (Nat × Text)) → ConfRng →
      Option (DBIter Text Text) × ConfRng
  | _, it, none, rng => (if it.valid then none else some it, rng)
  | 0, it, some e, rng => (if sameEntry it e.here then some it else none, rng)
  | steps + 1, it, some e, rng =>
    if sameEntry it e.here then
      let roll := rng.below 100
      if roll.1 < 60 then walkLoop src steps (it.next src) e.next roll.2
      else if e.before.isEmpty then
        -- past the first key
        (if (it.prev src).valid then none else some (it.prev src), roll.2)
      else walkLoop src steps (it.prev src) e.prev roll.2
    else (none, rng)

theorem walkLoop_none (src : DBIterSource Text Text) (steps : Nat) (it : DBIter Text Text)
    (rng : ConfRng) :
    walkLoop src steps it none rng = (if it.valid then none else some it, rng) := by
  cases steps <;> rfl

theorem walkLoop_succ (src : DBIterSource Text Text) (steps : Nat) (it : DBIter Text Text)
    (e : Cursor (Nat × Text)) (rng : ConfRng) (hsame : sameEntry it e.here = true) :
    walkLoop src (steps + 1) it (some e) rng =
      if (rng.below 100).1 < 60 then walkLoop src steps (it.next src) e.next (rng.below 100).2
      else if e.before.isEmpty then
        (if (it.prev src).valid then none else some (it.prev src), (rng.below 100).2)
      else walkLoop src steps (it.prev src) e.prev (rng.below 100).2 :=
  if_pos hsame

/-- `CheckWalk`. -/
def checkWalk (src : DBIterSource Text Text) (model : ConfMap) (start steps : Nat) (rng : ConfRng) :
    Bool × ConfRng :=
  let e := Cursor.seek (fun p => p.1 < start) model.toList
  let walk := walkLoop src steps (DBIter.new.seek src (confKey start)) e rng
  (walk.1.any fun it => it.status = .ok, walk.2)

/-! ## Operations -/

/-- A snapshot that is held, with what the oracle held when it was taken. -/
structure HeldSnap where
  seq : Nat
  models : ConfMaps

/-- What an operation has yet to do. A read compares with `model`, at a snapshot or at what is
there. -/
inductive Task
  | write (op : ConfOp)
  | create (op : ConfOp)
  | drop (op : ConfOp)
  | getSnapshot
  | releaseSnapshot (i : Nat)
  | reopen
  | gets (model : ConfMap) (family : Nat) (snapshot : Option Nat) (n : Nat)
  | scan (model : ConfMap) (family : Nat) (snapshot : Option Nat)
  | walk (model : ConfMap) (family start steps : Nat)

/-- `RunScenario` between two tasks. -/
structure Runner where
  gen : ScenarioGen
  checkRng : ConfRng
  models : ConfMaps := .empty
  /-- The families the runner has handles of (`Db::live`). -/
  live : Nat → Bool := (· = 0)
  snaps : List HeldSnap := []
  writes : Nat := 0
  opno : Nat := 0
  tasks : List Task := []
  /-- The scenario is over, and the final checks are made. -/
  finished : Bool := false
  ok : Bool := true

namespace Runner

def new (seed : UInt64) (ops : Nat) (ext : Bool) : Runner :=
  { gen := .new seed ops ext, checkRng := .new (seed ^^^ 0x7E57) }

/-- `check_snapshot`. -/
def checkSnapshot (r : Runner) (sn : HeldSnap) : List Task :=
  ((List.range kMaxFamilies).filter fun f => sn.models.live f && r.live f).flatMap fun f =>
    [.gets (sn.models.m f) f (some sn.seq) 16, .scan (sn.models.m f) f (some sn.seq)]

/-- `check_all`. -/
def checkAll (r : Runner) (gets : Nat) : List Task :=
  ((List.range kMaxFamilies).filter r.live).map fun f => .gets (r.models.m f) f none gets

/-- A scan of every family. -/
def scanAll (r : Runner) : List Task :=
  ((List.range kMaxFamilies).filter r.live).map fun f => .scan (r.models.m f) f none

/-- The snapshots' views of a dropped family go away with it. -/
def forget (r : Runner) (family : Nat) : Runner :=
  { r with
    snaps := r.snaps.map fun sn =>
      { sn with models := { sn.models with live := Function.update sn.models.live family false } } }

/-- The tasks of an operation. -/
def start (r : Runner) (op : ConfOp) : Runner :=
  match op.kind with
  | .create => { r with tasks := [.create op] }
  | .drop => { r.forget op.family with tasks := [.drop op] }
  | .write => { r with tasks := [.write op] }
  | .gets => { r with tasks := [.gets (r.models.m op.family) op.family none op.count] }
  | .walk => { r with tasks := [.walk (r.models.m op.family) op.family op.id op.count] }
  | .scan => { r with tasks := [.scan (r.models.m op.family) op.family none] }
  | .snapTake => { r with tasks := [.getSnapshot] }
  | .snapCheck =>
    { r with tasks := r.snaps[op.id]?.elim [] fun sn => r.checkSnapshot sn ++ [.releaseSnapshot op.id] }
  | .reopen => { r with tasks := .reopen :: r.checkAll 24 }
  | .compact => { r with tasks := r.checkAll 24 ++ r.snaps.head?.elim [] r.checkSnapshot }

/-- What is checked when the scenario is over: the snapshots; every family, also after the database
was opened again, and after it was compacted all the way down. -/
def finish (r : Runner) : Runner :=
  { r with
    finished := true
    tasks := r.snaps.flatMap r.checkSnapshot ++
      (List.replicate r.snaps.length (.releaseSnapshot 0) ++
        (r.scanAll ++ .reopen :: (r.scanAll ++ r.scanAll))) }

/-- The next operation is taken up. -/
def round (r : Runner) : Runner :=
  match r.gen.next r.models.view with
  | some (op, gen) => { r with gen, opno := r.opno + 1 }.start op
  | none => r.finish

/-- A write that went well: it is applied to the oracle and acknowledged. -/
def applied (r : Runner) (op : ConfOp) : Runner :=
  { r with models := r.models.apply op, writes := r.writes + 1 }

def fail (r : Runner) : Runner := { r with ok := false }

end Runner

/-! ## The run -/

/-- A database and the runner over it. -/
structure Conformance where
  db : Stores Text Text
  runner : Runner

namespace Conformance

variable (opts : Nat → Options Text Text)

/-- What a read of the family goes over, if it exists. -/
def reader (s : Conformance) (family : Nat) : Option (ColumnFamily Text Text) :=
  (s.db.column? family).map fun c => c.family.columnFamily (opts c.id)

/-- The sequence number of a read. -/
def sequence (s : Conformance) (snapshot : Option Nat) : Nat := snapshot.getD s.db.lastSequence

/-- `Db::Open` has to name the families there are, all of them. -/
def opens (db : Stores Text Text) (live : Nat → Bool) : Bool :=
  db.columns.all (fun c => live c.id) &&
    (List.range kMaxFamilies).all fun f => !live f || (db.column? f).isSome

/-- What a task does; `none` if the recovery is not one of this database. -/
def perform (s : Conformance) (recovery : Nat → List (Nat × Nat) × Nat) (task : Task)
    (tasks : List Task) : Option Conformance :=
  let r := { s.runner with tasks }
  match task with
  | .write op =>
    some ((s.db.step opts (.write op.batch)).elim ⟨s.db, r.fail⟩ fun db => ⟨db, r.applied op⟩)
  | .create op =>
    some ((s.db.step opts (.createColumnFamily op.family)).elim ⟨s.db, r.fail⟩ fun db =>
      ⟨db, { r.applied op with live := Function.update r.live op.family true }⟩)
  | .drop op =>
    some ((s.db.step opts (.dropColumnFamily op.family)).elim ⟨s.db, r.fail⟩ fun db =>
      ⟨db, { r.applied op with live := Function.update r.live op.family false }⟩)
  | .getSnapshot =>
    (s.db.step opts .getSnapshot).map fun db =>
      ⟨db, { r with snaps := r.snaps ++ [⟨s.db.lastSequence, r.models⟩] }⟩
  | .releaseSnapshot i =>
    r.snaps[i]?.bind fun sn =>
      (s.db.step opts (.releaseSnapshot sn.seq)).map fun db =>
        ⟨db, { r with snaps := r.snaps.eraseIdx i }⟩
  | .reopen =>
    let r := { r with snaps := [] }
    (s.db.step opts (.reopen recovery)).map fun db => ⟨db, if opens db r.live then r else r.fail⟩
  | .gets _ _ _ 0 => some ⟨s.db, r⟩
  | .gets model family snapshot (n + 1) =>
    let id := r.checkRng.below (r.gen.shape.keys + 20)
    let r := { r with checkRng := id.2 }
    some ⟨s.db,
      if (s.reader opts family).any fun cf => checkGet cf (s.sequence snapshot) model id.1 then
        { r with tasks := .gets model family snapshot n :: tasks }
      else r.fail⟩
  | .scan model family snapshot =>
    some ⟨s.db,
      if (s.reader opts family).any fun cf => checkScan (cf.newIterator (s.sequence snapshot)) model then r
      else r.fail⟩
  | .walk model family start steps =>
    some ⟨s.db,
      (s.reader opts family).elim r.fail fun cf =>
        let walk := checkWalk (cf.newIterator s.db.lastSequence) model start steps r.checkRng
        let r := { r with checkRng := walk.2 }
        if walk.1 then r else r.fail⟩

theorem perform_gets (s : Conformance) (recovery : Nat → List (Nat × Nat) × Nat) (model : ConfMap)
    (family : Nat) (snapshot : Option Nat) (n : Nat) (tasks : List Task) {id : Nat × ConfRng}
    (hid : s.runner.checkRng.below (s.runner.gen.shape.keys + 20) = id) :
    s.perform opts recovery (.gets model family snapshot (n + 1)) tasks =
      some ⟨s.db,
        if (s.reader opts family).any fun cf => checkGet cf (s.sequence snapshot) model id.1 then
          { s.runner with
            checkRng := id.2
            tasks := .gets model family snapshot n :: tasks }
        else { s.runner with checkRng := id.2, tasks }.fail⟩ := by
  subst hid
  rfl

variable {opts} in
theorem perform_walk {s : Conformance} (recovery : Nat → List (Nat × Nat) × Nat) {model : ConfMap}
    {family start steps : Nat} (tasks : List Task) {cf : ColumnFamily Text Text}
    (hreader : s.reader opts family = some cf) {rng : ConfRng}
    (hwalk : checkWalk (cf.newIterator s.db.lastSequence) model start steps s.runner.checkRng =
      (true, rng)) :
    s.perform opts recovery (.walk model family start steps) tasks =
      some ⟨s.db, { s.runner with checkRng := rng, tasks }⟩ := by
  simp only [perform, hreader, Option.elim_some, hwalk, if_true]

inductive Action
  /-- A step of the background work of a family. -/
  | work (family : Nat) (a : LevelDb.Action Text Text)
  /-- The runner's next task; the recovery is for a task that opens the database again. -/
  | turn (recovery : Nat → List (Nat × Nat) × Nat)

/-- The loop of `RunScenario`; it ends at the first failure. -/
def turn (s : Conformance) (recovery : Nat → List (Nat × Nat) × Nat) : Option Conformance :=
  if s.runner.ok then
    match s.runner.tasks with
    | task :: tasks => s.perform opts recovery task tasks
    | [] =>
      if s.runner.finished then none else some ⟨s.db, s.runner.round⟩
  else none

def step (s : Conformance) : Action → Option Conformance
  | .work family a => (s.db.step opts (.work family a)).map fun db => { s with db }
  | .turn recovery => s.turn opts recovery

end Conformance

/-- The test of a seed, on a new database. -/
def conformance (opts : Nat → Options Text Text) (seed : UInt64) (ops : Nat) (ext : Bool) :
    Transition.System Conformance Conformance.Action where
  init s := s = ⟨.new, .new seed ops ext⟩
  step := Conformance.step opts

end LevelDb.Conf
