import LevelDb.Db.MemTable

/-!
# A point lookup in progress (`db/lookup_state.h`, `db/memtable.cc`)

A lookup is fed the entries of its key, newest first, until it is settled: by a put, by a
deletion or a covered entry, or by the end of the data. `feed` is the loop over one table, as
`MemTable::Get` runs it and as `TableCache::Get` runs it through `SaveValue`.
-/

namespace LevelDb

variable {K V : Type} [LinearOrder K]

inductive Status
  | ok
  | notFound
  | corruption (msg : String)
  | invalidArgument (msg : String)
  deriving DecidableEq, Repr

/-- `MergeOperator`: `none` is a refusal. -/
structure MergeOperator (K V : Type) where
  /-- `FullMerge(key, base, operands)`, the operands oldest first. -/
  fullMerge : K → Option V → List V → Option V
  /-- `PartialMerge(key, left, right)`, `left` the older one. -/
  partialMerge : K → V → V → Option V

structure LookupState (K V : Type) [LinearOrder K] where
  userKey : K
  snapshot : Nat
  mergeOp : Option (MergeOperator K V)
  /-- `none` when there are no range tombstones anywhere. -/
  rd : Option (RangeDelView K V)
  /-- Newest first. -/
  operands : List V := []
  done : Bool := false
  status : Status := .ok
  value : Option V := none

namespace LookupState

/-- The status and the value stored when the pending operands are settled on a base. -/
def outcome (st : LookupState K V) (base : Option V) : Status × Option V :=
  match st.operands with
  | [] =>
    match base with
    | none => (.notFound, st.value)
    | some v => (.ok, some v)
  | _ :: _ =>
    match st.mergeOp with
    | none => (.invalidArgument "merge operand but no merge_operator", st.value)
    | some op =>
      match op.fullMerge st.userKey base st.operands.reverse with
      | some v => (.ok, some v)
      | none => (.corruption "merge operator failed", st.value)

/-- `Settle`. -/
def settle (st : LookupState K V) (base : Option V) : LookupState K V :=
  { st with done := true, status := (st.outcome base).1, value := (st.outcome base).2 }

/-- `LookupState::Add`: the next older entry; true once the lookup is settled. -/
def add (st : LookupState K V) (type : ValueType) (seq : Nat) (value : V) :
    Bool × LookupState K V :=
  if st.done then (true, st)
  else
    let type :=
      if type ≠ .deletion ∧ st.rd.elim false (·.covers st.userKey seq st.snapshot) = true then
        .deletion
      else type
    match type with
    | .value => (true, st.settle (some value))
    | .deletion => (true, st.settle none)
    | .merge => (false, { st with operands := st.operands ++ [value] })
    | .rangeDeletion =>
      (true, { st with status := .corruption "unexpected entry type in lookup", done := true })

/-- `SettleDeleted`: everything older is hidden. -/
def settleDeleted (st : LookupState K V) : LookupState K V :=
  if st.done then st else st.settle none

/-- `Finish`: nothing older is left. -/
def finish (st : LookupState K V) : LookupState K V :=
  if st.done then st else st.settle none

end LookupState

/-- The internal key a lookup seeks to (`LookupKey`). -/
def lookupKey (userKey : K) (snapshot : Nat) : InternalKey K :=
  ⟨userKey, snapshot, kValueTypeForSeek⟩

/-- The loop of `MemTable::Get` from the entry the iterator stands on. -/
def MemTable.feed (userKey : K) : List (Entry K V) → LookupState K V → Bool × LookupState K V
  | [], st => (false, st)
  | e :: es, st =>
    if e.key.userKey ≠ userKey then (false, st)
    else
      match st.add e.key.type e.key.sequence e.value with
      | (true, st) => (true, st)
      | (false, st) => MemTable.feed userKey es st

/-- `MemTable::Get`: true once the lookup is settled. -/
def MemTable.get (m : MemTable K V) (userKey : K) (snapshot : Nat) (st : LookupState K V) :
    Bool × LookupState K V :=
  MemTable.feed userKey (m.table.seek (lookupKey userKey snapshot)) st

/-! ## Tables -/

/-- `Saver`: the lookup fed by a table, and whether an entry was corrupt. -/
structure Saver (K V : Type) [LinearOrder K] where
  state : LookupState K V
  corrupt : Bool := false

/-- `SaveValue`: true to go on with the next entry. -/
def saveValue (s : Saver K V) (e : Entry K V) : Bool × Saver K V :=
  if e.key.type = .rangeDeletion then (false, { s with corrupt := true })
  else if e.key.userKey ≠ s.state.userKey then (false, s)
  else
    let (settled, state) := s.state.add e.key.type e.key.sequence e.value
    (!settled, { s with state })

/-- The loop of `Table::InternalGet` from the entry it found. -/
def internalGet : List (Entry K V) → Saver K V → Saver K V
  | [], s => s
  | e :: es, s =>
    match saveValue s e with
    | (true, s) => internalGet es s
    | (false, s) => s

end LevelDb
