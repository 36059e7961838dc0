import LevelDb.Db.MemTable
import LevelDb.Lib.Cursor
import LevelDb.Lib.Transition

/-!
# `RangeDelSkippingIterator` (`db/range_del.cc`)

`DBImpl::NewInternalIterator` puts one over each layer of a family: it skips the entries of the
layer whose key a tombstone of a newer layer covers, by seeking the layer's own iterator to the end
of the covered range, or backwards to its begin and one entry further. The view it asks is read
again at each question, and writers add tombstones to the memtable meanwhile.
-/

namespace LevelDb

variable {K V : Type} [LinearOrder K]

/-- The calls that move an iterator over internal keys. -/
inductive EntryCall (K : Type)
  | seek (target : InternalKey K)
  | seekToFirst
  | seekToLast
  | next
  | prev

/-- A plain iterator over entries in order; `Next` and `Prev` assert that it is valid. -/
def entryIterator (entries : List (Entry K V)) :
    Transition.System (Option (Cursor (Entry K V))) (EntryCall K) where
  init c := c = none
  step c
    | .seek target => some (Cursor.seek (fun e => e.key < target) entries)
    | .seekToFirst => some (Cursor.first entries)
    | .seekToLast => some (Cursor.last entries)
    | .next => c.map (·.next)
    | .prev => c.map (·.prev)

/-- What a `RangeDelSkippingIterator` is made with. -/
structure SkippingSource (K V : Type) [LinearOrder K] where
  /-- What the layer's own iterator yields. -/
  entries : Table K V
  /-- The view as it is when it is asked for the n-th time. -/
  view : Nat → RangeDelView K V
  layer : Nat
  snapshot : Nat

structure RangeDelSkippingIterator (K V : Type) where
  iter : Option (Cursor (Entry K V))
  /-- How often the view has been asked. -/
  asked : Nat

namespace RangeDelSkippingIterator

variable (src : SkippingSource K V)

/-- `NewRangeDelSkippingIterator`. -/
def new : RangeDelSkippingIterator K V := ⟨none, 0⟩

/-- `Covered` at the entry. -/
def covered (it : RangeDelSkippingIterator K V) (e : Entry K V) : Option (K × K) :=
  (src.view it.asked).coveredRange e.key.userKey src.snapshot src.layer

/-- The first of all entries whose user key is at or after this one. -/
def seekUserKey (userKey : K) : Option (Cursor (Entry K V)) :=
  Cursor.seek (fun e => e.key < ⟨userKey, kMaxSequenceNumber, kValueTypeForSeek⟩) src.entries.entries

/-- One pass of the loop of `SkipForward`: `none` where its condition does not hold. -/
def forwardPass (it : RangeDelSkippingIterator K V) : Option (RangeDelSkippingIterator K V) :=
  it.iter.bind fun c => (it.covered src c.here).map fun (_, e) => ⟨seekUserKey src e, it.asked + 1⟩

/-- One pass of the loop of `SkipBackward`. -/
def backwardPass (it : RangeDelSkippingIterator K V) : Option (RangeDelSkippingIterator K V) :=
  it.iter.bind fun c => (it.covered src c.here).map fun (b, _) =>
    ⟨(seekUserKey src b).elim (Cursor.last src.entries.entries) (·.prev), it.asked + 1⟩

/-- A loop of these passes, cut off after so many. Where it ends at an entry, the view has been asked
once more. -/
def skip (pass : RangeDelSkippingIterator K V → Option (RangeDelSkippingIterator K V)) :
    Nat → RangeDelSkippingIterator K V → Option (RangeDelSkippingIterator K V)
  | 0, _ => none
  | passes + 1, it =>
    match pass it with
    | some it => skip pass passes it
    | none => some { it with asked := it.asked + if it.iter.isSome then 1 else 0 }

def skipForward (passes : Nat) (it : RangeDelSkippingIterator K V) :
    Option (RangeDelSkippingIterator K V) := skip (forwardPass src) passes it

def skipBackward (passes : Nat) (it : RangeDelSkippingIterator K V) :
    Option (RangeDelSkippingIterator K V) := skip (backwardPass src) passes it

/-- The iterator and the calls on it, with the loops cut off after so many passes. -/
def system (passes : Nat) : Transition.System (RangeDelSkippingIterator K V) (EntryCall K) where
  init it := it = new
  step it call :=
    let moved := (entryIterator src.entries.entries).step it.iter call
    match call with
    | .seek _ | .seekToFirst | .next =>
      moved.bind fun iter => skipForward src passes { it with iter }
    | .seekToLast | .prev => moved.bind fun iter => skipBackward src passes { it with iter }

end RangeDelSkippingIterator
end LevelDb
