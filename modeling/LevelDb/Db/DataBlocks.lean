import LevelDb.Db.LookupState
import Mathlib.Data.List.Chain

/-!
# The data blocks of a table (`table/table.cc`, `table/format.cc`)

A table file holds its entries in blocks; an index has a key for each block, at or past its last
entry and before the next block, and a filter may say of a user key that a block does not hold it.
`Table::InternalGet` seeks the index and the block it finds, and goes on through the following
blocks until the caller has enough.
-/

namespace LevelDb

variable {K V : Type}

/-- A block as the index, the filter and `BlockReader` show it. -/
structure DataBlock (K V : Type) where
  indexKey : InternalKey K
  entries : List (Entry K V)
  /-- `KeyMayMatch` of the block's filter; true when there is none. -/
  keyMayMatch : K → Bool
  /-- Why the block cannot be read, if it cannot. -/
  error : Option Status

namespace DataBlock

/-- The index key is the last key of the block. -/
def KeepsLast (b : DataBlock K V) : Prop := ∃ e ∈ b.entries.getLast?, b.indexKey = e.key

/-- The block as its iterator gives it after `Seek`: from the first entry at or after the key on. -/
def seek [LinearOrder K] (b : DataBlock K V) (k : InternalKey K) : DataBlock K V :=
  { b with entries := b.entries.dropWhile fun e => e.key < k }

end DataBlock

variable [LinearOrder K]

/-- The blocks of a table, as `TableBuilder` cuts them: `FindShortestSeparator` leaves the last key
of a block or gives a user key between it and the next block. -/
structure BlockTable (K V : Type) [LinearOrder K] where
  blocks : List (DataBlock K V)
  sorted : (blocks.flatMap (·.entries)).Pairwise fun a b => a.key < b.key
  types : ∀ b ∈ blocks, ∀ e ∈ b.entries, e.key.type ≠ .rangeDeletion
  nonempty : ∀ b ∈ blocks, b.entries ≠ []
  index_last : ∀ b ∈ blocks, b.KeepsLast ∨ ∀ e ∈ b.entries.getLast?,
    e.key.userKey < b.indexKey.userKey
  index_next : blocks.IsChain fun b next => b.KeepsLast ∨ ∀ e ∈ next.entries.head?,
    b.indexKey.userKey < e.key.userKey
  /-- The filters have no false negatives. -/
  filter : ∀ b ∈ blocks, ∀ e ∈ b.entries, b.keyMayMatch e.key.userKey = true
  error_ne : ∀ b ∈ blocks, b.error ≠ some .ok

namespace BlockTable

/-- All entries. -/
def table (t : BlockTable K V) : Table K V where
  entries := t.blocks.flatMap (·.entries)
  sorted := t.sorted.imp le_of_lt
  types e he := by
    obtain ⟨b, hb, he⟩ := List.mem_flatMap.1 he
    exact t.types b hb e he

section

variable {S : Type} (handleResult : S → Entry K V → Bool × S)

/-- The entries of a block from where its iterator stands; true when it runs off the end. -/
def readBlock : List (Entry K V) → S → Bool × S
  | [], s => (true, s)
  | e :: es, s =>
    match handleResult s e with
    | (true, s) => readBlock es s
    | (false, s) => (false, s)

/-- The loop of `InternalGet`, with the entries each block still has to give. -/
def readBlocks : List (DataBlock K V) → S → Status × S
  | [], s => (.ok, s)
  | b :: bs, s =>
    match b.error with
    | some status => (status, s)
    | none =>
      match readBlock handleResult b.entries s with
      | (true, s) => readBlocks bs s
      | (false, s) => (.ok, s)

/-- `Table::InternalGet`. -/
def internalGet (t : BlockTable K V) (k : InternalKey K) (s : S) : Status × S :=
  match t.blocks.dropWhile fun b => b.indexKey < k with
  | [] => (.ok, s)
  | b :: bs =>
    if b.keyMayMatch k.userKey then readBlocks handleResult (b.seek k :: bs) s
    else (.ok, s)

end
end BlockTable

/-! ## What a lookup is passed -/

/-- `SaveValue`, with a record of the entries it passes to `LookupState::Add`. -/
def saveValueRecorded (s : Saver K V × List (Entry K V)) (e : Entry K V) :
    Bool × Saver K V × List (Entry K V) :=
  let r := saveValue s.1 e
  (r.1, r.2,
    if e.key.type ≠ .rangeDeletion ∧ e.key.userKey = s.1.state.userKey then s.2 ++ [e] else s.2)

/-- A lookup that takes entries until it is settled or they run out: those it takes, and the lookup
then. -/
def LookupState.take : List (Entry K V) → LookupState K V → List (Entry K V) × LookupState K V
  | [], st => ([], st)
  | e :: es, st =>
    match st.add e.key.type e.key.sequence e.value with
    | (true, st) => ([e], st)
    | (false, st) =>
      let r := LookupState.take es st
      (e :: r.1, r.2)

end LevelDb
