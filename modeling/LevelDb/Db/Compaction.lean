import LevelDb.Db.VersionSet
import LevelDb.Lib.Mvcc
import LevelDb.Lib.Runs

/-!
# `DBImpl::DoCompactionWork` (`db/db_impl.cc`)

The merged input is read one user key at a time. The entries of a key (a group) fall into
stripes, those between two consecutive snapshots; `compactStripe` resolves one stripe,
`compactGroup` a group. `flushGroup` writes the result, cutting the output between user keys when
it is full or should stop, and `finishOutput` gives each output the parts of the kept tombstones
between its cuts.
-/

namespace LevelDb

variable {K V : Type} [LinearOrder K]

/-- A compaction and what `DoCompactionWork` asks of its surroundings. The answers about deeper
levels, `ShouldStopBefore` (from the keys it was asked about so far, newest first) and
`FileSize() >= MaxOutputFileSize()` (from the entries of the open output) are parameters. -/
structure Compaction (K V : Type) [LinearOrder K] where
  /-- The input files of both levels. -/
  inputs : List (FileMetaData K V)
  isBaseLevelForKey : K → Bool
  isBaseLevelForRange : K → K → Bool
  shouldStopBefore : List (InternalKey K) → Bool
  fileFull : List (Entry K V) → Bool
  /-- Every live snapshot, oldest first. -/
  snapshots : List Nat
  /-- The last sequence number when the compaction starts. -/
  lastSequence : Nat
  mergeOp : Option (MergeOperator K V)

/-- `RangeDelIndex::Covers`. -/
def RangeDelIndex.covers (ix : RangeDelIndex K) (userKey : K) (seq snapshot : Nat) : Bool :=
  !ix.fragments.isEmpty && decide (seq < ix.maxCovering userKey snapshot)

namespace Compaction

variable (c : Compaction K V)

/-! ## The input -/

def smallestSnapshot : Nat := c.snapshots.head?.getD c.lastSequence

/-- The input files' tombstones, as decoded from their blocks. -/
def inputTombstones : List (RangeTombstone K) :=
  c.inputs.flatMap fun f =>
    if f.hasRangeDels then f.tombstones.map fun t => { t with layer := 0 } else []

def inputRd : RangeDelIndex K := .ofTombstones c.inputTombstones

/-- The tombstones that go to the outputs: not those nothing deeper can need and every reader
sees. -/
def tombstones : List (RangeTombstone K) :=
  (c.inputTombstones.filter fun t =>
    !(decide (t.seq ≤ c.smallestSnapshot) && c.isBaseLevelForRange t.beginKey t.endKey)).insertionSort
      fun a b => a.beginKey ≤ b.beginKey

/-- What `MakeInputIterator` yields: the input entries in internal-key order. -/
def input : List (Entry K V) :=
  (c.inputs.flatMap fun f => f.table.entries).insertionSort fun a b => a.key ≤ b.key

/-! ## A stripe, a group -/

/-- The index of the oldest snapshot at or above a sequence number. -/
def stripeOf (seq : Nat) : Nat := c.snapshots.findIdx fun s => seq ≤ s

/-- The largest sequence number of a stripe. -/
def bound (stripe : Nat) : Nat := c.snapshots[stripe]?.getD kMaxSequenceNumber

/-- An entry hidden by a tombstone that every reader of the stripe sees is a deletion (the source
also clears its value). -/
def cover (bound : Nat) (e : Entry K V) : Entry K V :=
  if e.key.type ≠ .deletion ∧ c.inputRd.covers e.key.userKey e.key.sequence bound = true then
    { e with key := { e.key with type := .deletion } }
  else e

/-- Folds operands (newest first) into one where there is no base to fold them onto. -/
def partialMergeAll (op : MergeOperator K V) (userKey : K) (ops : List V) : Option V :=
  match ops.reverse with
  | [] => none
  | acc :: newer => Mvcc.partials (op.partialMerge userKey) acc newer

/-- The one entry that operands (newest first) and what settles them merge to, if they do: onto
the base when it is in hand, or certain to be missing, else into one operand. -/
def mergeStripe (userKey : K) (newest : Nat) (nothingOlder : Bool) (ops : List V)
    (settling : Option (Entry K V)) : Option (Entry K V) :=
  c.mergeOp.bind fun op =>
    if settling.isSome || nothingOlder then
      let base := settling.bind fun e => if e.key.type = .value then some e.value else none
      (op.fullMerge userKey base ops.reverse).map fun merged => ⟨⟨userKey, newest, .value⟩, merged⟩
    else if 1 < ops.length then
      (partialMergeAll op userKey ops).map fun acc => ⟨⟨userKey, newest, .merge⟩, acc⟩
    else none

/-- The operands and what settles them: merged, or as they are. -/
def mergeOrKeep (userKey : K) (newest : Nat) (nothingOlder : Bool) (ops : List (Entry K V))
    (settling : Option (Entry K V)) : List (Entry K V) :=
  match c.mergeStripe userKey newest nothingOlder (ops.map (·.value)) settling with
  | some merged => [merged]
  | none => ops ++ settling.toList

/-- One stripe of a group, newest first; `last` when it is the group's oldest. -/
def compactStripe (baseLevel last : Bool) (group : List (Entry K V)) : List (Entry K V) :=
  match group with
  | [] => []
  | newest :: _ =>
    let stripe := c.stripeOf newest.key.sequence
    let es := group.map (c.cover (c.bound stripe))
    let ops := es.takeWhile fun e => e.key.type = .merge
    let settling := (es.dropWhile fun e => e.key.type = .merge).head?
    match ops, settling with
    | [], some e =>
      -- an obsolete deletion marker: nothing older anywhere
      if e.key.type = .deletion ∧ stripe = 0 ∧ baseLevel = true then [] else [e]
    | ops, settling =>
      c.mergeOrKeep newest.key.userKey newest.key.sequence (last && baseLevel) ops settling

/-- The stripes of a group in turn. -/
def compactStripes (baseLevel : Bool) : List (List (Entry K V)) → List (Entry K V)
  | [] => []
  | stripe :: older =>
    c.compactStripe baseLevel older.isEmpty stripe ++ compactStripes baseLevel older

/-- The stripe of an entry, newest stripes first. -/
def stripeKey (e : Entry K V) : ℕᵒᵈ := OrderDual.toDual (c.stripeOf e.key.sequence)

/-- `compact_group`: what the entries of one user key compact to, newest first. -/
def compactGroup (group : List (Entry K V)) : List (Entry K V) :=
  match group with
  | [] => []
  | first :: _ =>
    c.compactStripes (c.isBaseLevelForKey first.key.userKey) (Runs.runs c.stripeKey group)

/-! ## The outputs -/

/-- A finished output: its entries and its range-deletion block. -/
structure Output (K V : Type) where
  entries : List (Entry K V)
  tombstones : List (RangeTombstone K)

/-- `CompactionState`: the finished outputs, the entries of the open one, where the next one
starts, whether the open one is full, and the keys `ShouldStopBefore` was asked about. -/
structure State (K V : Type) where
  outputs : List (Output K V) := []
  builder : Option (List (Entry K V)) := none
  lowerCut : Option K := none
  pendingCut : Bool := false
  asked : List (InternalKey K) := []

/-- The part of a tombstone in `[lower, upper)`, if there is any. -/
def cut (lower upper : Option K) (t : RangeTombstone K) : Option (RangeTombstone K) :=
  let b := lower.elim t.beginKey fun l => if t.beginKey < l then l else t.beginKey
  let e := upper.elim t.endKey fun u => if u < t.endKey then u else t.endKey
  if b < e then some ⟨b, e, t.seq, 0⟩ else none

/-- `FinishCompactionOutputFile`. -/
def finishOutput (upper : Option K) (s : State K V) : State K V :=
  match s.builder with
  | none => s
  | some entries =>
    { s with
      outputs := s.outputs ++ [⟨entries, c.tombstones.filterMap (cut s.lowerCut upper)⟩]
      builder := none
      lowerCut := upper.or s.lowerCut }

/-- `flush_group` of the entries of one user key. -/
def flushGroup (s : State K V) (group : List (Entry K V)) : State K V :=
  match group with
  | [] => s
  | first :: _ =>
    let asked := first.key :: s.asked
    let out := c.compactGroup group
    let s := { s with asked }
    let s :=
      if s.builder.isSome ∧ (s.pendingCut ∨ c.shouldStopBefore asked = true) then
        { c.finishOutput (some first.key.userKey) s with pendingCut := false }
      else s
    let s := if out.isEmpty then s else { s with builder := some (s.builder.getD [] ++ out) }
    if s.builder.elim false c.fileFull then { s with pendingCut := true } else s

/-- The tombstones past the last output still need a home. -/
def openLeft (s : State K V) : State K V :=
  if s.builder.isNone ∧
      c.tombstones.any (fun t => s.lowerCut.elim true fun l => l < t.endKey) = true then
    { s with builder := some [] }
  else s

/-- `DoCompactionWork`: the outputs that replace the inputs. -/
def doCompactionWork : List (Output K V) :=
  (c.finishOutput none (c.openLeft
    ((Runs.runs (fun e => e.key.userKey) c.input).foldl c.flushGroup {}))).outputs

end Compaction
end LevelDb
