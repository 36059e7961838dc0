import LevelDb.Db.Levels

/-!
# Writers, readers and droppers (`db/db_impl.cc`, `db/write_batch.cc`)

The clients of one database, with the stretches of code under `mutex_` as steps. A `Write` takes
four: the check of its families, queueing, the capture of the memtables by the writer at the front
(the leader, for a group at the front of the queue), and the closing step. Between the last two
the leader inserts with the mutex released. `NewIterator` checks its family without the mutex and
takes its references in a second step; `DropColumnFamily` gives the mutex up while background work
goes on. Errors of the environment are not modelled.
-/

namespace LevelDb.Clients

variable {K V : Type}

/-- A `MemTable` object. -/
structure MemRef where
  id : Nat
  deriving DecidableEq

/-- What `cfs_` holds of a family. -/
structure Slot where
  name : String
  dropped : Bool
  mem : Option MemRef
  imm : Option MemRef
  hasMergeOperator : Bool
  deriving DecidableEq

/-- The memtables the family has a reference on. -/
def Slot.pins (slot : Slot) : List MemRef := slot.mem.toList ++ slot.imm.toList

inductive Status
  | ok
  | invalidArgument (msg msg2 : String)
  deriving DecidableEq

/-- A batch, with the family of each record, under way in a `Write`. -/
structure Writer (K V : Type) where
  id : Nat
  batch : List (Nat × Record K V)

/-- A record in a memtable, with the writer it comes from. -/
structure Applied (K V : Type) where
  writer : Nat
  sequence : Nat
  record : Record K V

/-- A record of a batch group, with its family and its sequence number. -/
structure Item (K V : Type) extends Applied K V where
  family : Nat

/-- A group whose leader has captured the map `mems`. -/
structure Group (K V : Type) where
  mems : Nat → Option MemRef
  writers : List (Writer K V)
  sequence : Nat
  inserted : Bool

/-- What a `Write` returned, and the map its group was inserted with. -/
structure Outcome (K V : Type) where
  writer : Writer K V
  status : Status
  mems : Option (Nat → Option MemRef)

structure State (K V : Type) where
  /-- `cfs_`: the family of each id. -/
  families : List Slot
  nextMem : Nat
  refs : MemRef → Nat
  contents : MemRef → List (Applied K V)
  lastSequence : Nat
  nextWriter : Nat
  /-- Writers past the check of their families, not queued yet. -/
  checked : List (Writer K V)
  /-- `writers_`, behind the group at its front. -/
  queue : List (Writer K V)
  group : Option (Group K V)
  returned : List (Outcome K V)
  /-- The families of the `NewIterator` calls past `CheckFamily`. -/
  opening : List Nat
  /-- The families of the `DropColumnFamily` calls past `CheckFamily`. -/
  dropping : List Nat
  /-- The memtables each reader holds references on. -/
  pinned : List (List MemRef)

inductive Action (K V : Type)
  | createColumnFamily (name : String) (hasMergeOperator : Bool)
  /-- The check at the start of `Write`. -/
  | write (batch : List (Nat × Record K V))
  | enqueue (i : Nat)
  /-- `MakeRoomForWrite` of the leader takes a new memtable for a family. -/
  | switchMemTable (family : Nat)
  | compactMemTable (family : Nat)
  /-- The leader builds a group of `n` writers and captures `mems`. -/
  | capture (n : Nat)
  | insert
  | close
  | checkIterator (family : Nat)
  | newInternalIterator (i : Nat)
  | get (family : Nat)
  | release (i : Nat)
  | checkDrop (family : Nat)
  | drop (i : Nat)

/-! ## Batches -/

/-- `BatchScanner`: the families a batch touches, in the order of the set. -/
def scanFamilies (batch : List (Nat × Record K V)) : List Nat :=
  ((batch.map (·.1)).dedup).insertionSort (· ≤ ·)

/-- `BatchScanner`: a family gets an operand. -/
def scanMerges (batch : List (Nat × Record K V)) (family : Nat) : Bool :=
  batch.any fun r => r.1 == family && r.2 matches .merge _ _

/-- The records of a batch from this sequence number on. -/
def numbered (writer : Nat) : Nat → List (Nat × Record K V) → List (Item K V)
  | _, [] => []
  | seq, (family, record) :: batch =>
    ⟨⟨writer, seq, record⟩, family⟩ :: numbered writer (seq + 1) batch

/-- `BuildBatchGroup`: the batches one after the other. -/
def buildBatchGroup : Nat → List (Writer K V) → List (Item K V)
  | _, [] => []
  | seq, w :: ws => numbered w.id seq w.batch ++ buildBatchGroup (seq + w.batch.length) ws

/-- `MemTableInserter`: a record goes to the memtable of its family; one whose family the map does
not name is skipped. -/
def insertInto (mems : Nat → Option MemRef) (contents : MemRef → List (Applied K V)) :
    List (Item K V) → MemRef → List (Applied K V)
  | [] => contents
  | item :: items =>
    match mems item.family with
    | none => insertInto mems contents items
    | some m =>
      insertInto mems (Function.update contents m (contents m ++ [item.toApplied])) items

/-! ## Steps -/

namespace State

/-- A database with the default family only. -/
def initial (hasMergeOperator : Bool) : State K V where
  families := [⟨"default", false, some ⟨0⟩, none, hasMergeOperator⟩]
  nextMem := 1
  refs := fun m => [⟨0⟩].count m
  contents := fun _ => []
  lastSequence := 0
  nextWriter := 0
  checked := []
  queue := []
  group := none
  returned := []
  opening := []
  dropping := []
  pinned := []

def ref (s : State K V) (ms : List MemRef) : MemRef → Nat := fun m => s.refs m + ms.count m

def unref (s : State K V) (ms : List MemRef) : MemRef → Nat := fun m => s.refs m - ms.count m

/-- The family, if there is one that is not dropped. -/
def live? (s : State K V) (family : Nat) : Option Slot :=
  (s.families[family]?).filter fun slot => !slot.dropped

/-- The map of every live family's memtable. -/
def mems (s : State K V) (family : Nat) : Option MemRef :=
  (s.live? family).bind (·.mem)

/-- The loop at the start of `Write`: what is wrong with one family of the batch. -/
def checkOne (s : State K V) (batch : List (Nat × Record K V)) (family : Nat) : Option Status :=
  match s.live? family with
  | none => some (.invalidArgument "no such column family" (toString family))
  | some slot =>
    if scanMerges batch family && !slot.hasMergeOperator then
      some (.invalidArgument "no merge_operator configured" slot.name)
    else none

def check (s : State K V) (batch : List (Nat × Record K V)) : Option Status :=
  (scanFamilies batch).findSome? (s.checkOne batch)

/-- The references a reader of the family takes. -/
def pin (s : State K V) (family : Nat) : State K V :=
  let pins := ((s.families[family]?).map (·.pins)).getD []
  { s with refs := s.ref pins, pinned := s.pinned ++ [pins] }

def step (s : State K V) : Action K V → Option (State K V)
  | .createColumnFamily name hasMergeOperator =>
    if name ≠ "default" ∧ ∀ slot ∈ s.families, slot.dropped = false → slot.name ≠ name then
      some { s with
        families := s.families ++ [⟨name, false, some ⟨s.nextMem⟩, none, hasMergeOperator⟩]
        nextMem := s.nextMem + 1
        refs := s.ref [⟨s.nextMem⟩] }
    else none
  | .write batch =>
    let w := ⟨s.nextWriter, batch⟩
    match s.check batch with
    | some status =>
      some { s with
        nextWriter := s.nextWriter + 1
        returned := s.returned ++ [⟨w, status, none⟩] }
    | none => some { s with nextWriter := s.nextWriter + 1, checked := s.checked ++ [w] }
  | .enqueue i =>
    (s.checked[i]?).map fun w =>
      { s with checked := s.checked.eraseIdx i, queue := s.queue ++ [w] }
  | .switchMemTable family =>
    match s.live? family with
    | some slot =>
      if s.group.isNone ∧ s.queue ≠ [] ∧ slot.imm = none then
        some { s with
          families := s.families.set family
            { slot with mem := some ⟨s.nextMem⟩, imm := slot.mem }
          nextMem := s.nextMem + 1
          refs := s.ref [⟨s.nextMem⟩] }
      else none
    | none => none
  | .compactMemTable family =>
    match s.live? family with
    | some slot =>
      if slot.imm.isSome then
        some { s with
          families := s.families.set family { slot with imm := none }
          refs := s.unref slot.imm.toList }
      else none
    | none => none
  | .capture n =>
    if s.group.isNone ∧ 0 < n ∧ n ≤ s.queue.length then
      some { s with
        group := some ⟨s.mems, s.queue.take n, s.lastSequence + 1, false⟩
        queue := s.queue.drop n }
    else none
  | .insert =>
    match s.group with
    | some g =>
      if g.inserted then none
      else some { s with
        group := some { g with inserted := true }
        contents := insertInto g.mems s.contents (buildBatchGroup g.sequence g.writers) }
    | none => none
  | .close =>
    match s.group with
    | some g =>
      if g.inserted then
        some { s with
          group := none
          lastSequence := s.lastSequence + (g.writers.map (·.batch.length)).sum
          returned := s.returned ++ g.writers.map fun w => ⟨w, .ok, some g.mems⟩ }
      else none
    | none => none
  | .checkIterator family =>
    (s.live? family).map fun _ => { s with opening := s.opening ++ [family] }
  | .newInternalIterator i =>
    (s.opening[i]?).map fun family => { s.pin family with opening := s.opening.eraseIdx i }
  | .get family => (s.live? family).map fun _ => s.pin family
  | .release i =>
    (s.pinned[i]?).map fun pins =>
      { s with refs := s.unref pins, pinned := s.pinned.eraseIdx i }
  | .checkDrop family =>
    if family ≠ 0 ∧ (s.live? family).isSome then
      some { s with dropping := s.dropping ++ [family] }
    else none
  | .drop i =>
    (s.dropping[i]?).bind fun family => (s.families[family]?).map fun slot =>
      { s with
        dropping := s.dropping.eraseIdx i
        families := s.families.set family { slot with dropped := true, mem := none, imm := none }
        refs := s.unref slot.pins }

end State

/-- All the runs, from a database with the default family. -/
def system (K V : Type) : Transition.System (State K V) (Action K V) where
  init s := ∃ hasMergeOperator, s = State.initial hasMergeOperator
  step := State.step

/-! ## Steps that touch a memtable -/

namespace State

/-- The family's memtable is there, and it and the immutable one, if any, have a reference. -/
def Usable (s : State K V) (family : Nat) : Prop :=
  ∃ slot, s.families[family]? = some slot ∧ slot.mem.isSome ∧ ∀ m ∈ slot.pins, s.refs m ≠ 0

/-- The step reads and inserts into memtables only that their families still have, and that have a
reference. -/
def Safe (s : State K V) : Action K V → Prop
  | .insert => ∀ g, s.group = some g → ∀ w ∈ g.writers, ∀ r ∈ w.batch, ∀ m,
      g.mems r.1 = some m → (∃ slot, s.families[r.1]? = some slot ∧ slot.mem = some m) ∧ s.refs m ≠ 0
  | .newInternalIterator i => ∀ family, s.opening[i]? = some family → s.Usable family
  | .get family => s.Usable family
  | _ => True

/-- A record of the family is on its way into a captured memtable. -/
def Inserting (s : State K V) (family : Nat) : Prop :=
  ∃ g ∈ s.group, g.inserted = false ∧ (g.mems family).isSome ∧
    ∃ w ∈ g.writers, ∃ r ∈ w.batch, r.1 = family

/-- A batch that is checked and whose group has not captured `mems` has a record of the family. -/
def Awaited (s : State K V) (family : Nat) : Prop :=
  ∃ w ∈ s.checked ++ s.queue, ∃ r ∈ w.batch, r.1 = family

instance (s : State K V) (family : Nat) : Decidable (s.Inserting family) :=
  inferInstanceAs (Decidable (∃ g ∈ s.group, g.inserted = false ∧ (g.mems family).isSome ∧
    ∃ w ∈ g.writers, ∃ r ∈ w.batch, r.1 = family))

instance (s : State K V) (family : Nat) : Decidable (s.Awaited family) :=
  inferInstanceAs (Decidable (∃ w ∈ s.checked ++ s.queue, ∃ r ∈ w.batch, r.1 = family))

/-- A family is not dropped while a record is on its way into its memtable, nor between the two
steps of a `NewIterator` on it. -/
def DropsUnused (s : State K V) : Action K V → Prop
  | .drop i => ∀ family ∈ s.dropping[i]?, ¬ s.Inserting family ∧ family ∉ s.opening
  | _ => True

/-- A family is not dropped between the check of a batch that touches it and its capture. -/
def DropsUnawaited (s : State K V) : Action K V → Prop
  | .drop i => ∀ family ∈ s.dropping[i]?, ¬ s.Awaited family
  | _ => True

instance (s : State K V) : (a : Action K V) → Decidable (s.DropsUnused a)
  | .drop i =>
    inferInstanceAs (Decidable (∀ family ∈ s.dropping[i]?,
      ¬ s.Inserting family ∧ family ∉ s.opening))
  | .createColumnFamily .. | .write _ | .enqueue _ | .switchMemTable _ | .compactMemTable _
  | .capture _ | .insert | .close | .checkIterator _ | .newInternalIterator _ | .get _ | .release _
  | .checkDrop _ => instDecidableTrue

instance (s : State K V) : (a : Action K V) → Decidable (s.DropsUnawaited a)
  | .drop i => inferInstanceAs (Decidable (∀ family ∈ s.dropping[i]?, ¬ s.Awaited family))
  | .createColumnFamily .. | .write _ | .enqueue _ | .switchMemTable _ | .compactMemTable _
  | .capture _ | .insert | .close | .checkIterator _ | .newInternalIterator _ | .get _ | .release _
  | .checkDrop _ => instDecidableTrue

/-- Each record of the batch is in the memtable the map has for its family. -/
def Holds (s : State K V) (mems : Nat → Option MemRef) (w : Writer K V) : Prop :=
  ∃ seq, ∀ (i : Nat) r, w.batch[i]? = some r →
    ∃ m, mems r.1 = some m ∧ ⟨w.id, seq + i, r.2⟩ ∈ s.contents m

/-- The `Write` keeps its word: if it returned OK, each record is in the memtable that the record's
family, live then, had at the capture; if it was refused, no record is in any memtable. -/
structure Whole (s : State K V) (o : Outcome K V) : Prop where
  applied : o.status = .ok → ∃ mems, o.mems = some mems ∧ s.Holds mems o.writer
  refused : o.status ≠ .ok → ∀ m, ∀ a ∈ s.contents m, a.writer ≠ o.writer.id

/-! ## The order of the writes -/

/-- No family is dropped that a batch or an iterator under way is about. -/
def DropsIdle (s : State K V) (a : Action K V) : Prop := s.DropsUnused a ∧ s.DropsUnawaited a

instance (s : State K V) (a : Action K V) : Decidable (s.DropsIdle a) :=
  inferInstanceAs (Decidable (_ ∧ _))

/-- The writes that returned OK, in the order of their return. -/
def committed (s : State K V) : List (Writer K V) :=
  (s.returned.filter fun o => o.status = .ok).map (·.writer)

/-- What the writes would leave if each was made alone, one after the other: the records of a
family, numbered from 1 on. -/
def serially (ws : List (Writer K V)) (family : Nat) : List (Applied K V) :=
  ((buildBatchGroup 1 ws).filter fun item => item.family = family).map (·.toApplied)

/-- The memtables a family has had so far, from its first on. `owner` says whose each is. -/
def tables (s : State K V) (owner : MemRef → Nat) (family : Nat) : List MemRef :=
  ((List.range s.nextMem).map MemRef.mk).filter fun m => owner m = family

end State
end LevelDb.Clients
