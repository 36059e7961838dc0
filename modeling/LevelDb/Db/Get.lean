import LevelDb.Db.VersionSet

/-!
# `DBImpl::Get` (`db/db_impl.cc`)

The read of one key at a snapshot: memtable, immutable memtable, files. Between two places it
stops when a tombstone of a newer layer hides everything below.
-/

namespace LevelDb

variable {K V : Type} [LinearOrder K]

/-- What a read uses of a column family. -/
structure ColumnFamily (K V : Type) [LinearOrder K] where
  mem : MemTable K V
  imm : Option (MemTable K V)
  current : Version K V
  mergeOp : Option (MergeOperator K V)

namespace ColumnFamily

/-- `RangeDelsLocked`: `none` when there are no tombstones. The index of the files' tombstones is
cached by version in the source. -/
def rangeDels (cf : ColumnFamily K V) : Option (RangeDelView K V) :=
  let index := if cf.current.hasRangeDels then
    some (RangeDelIndex.ofTombstones cf.current.getRangeTombstones) else none
  if cf.mem.numRangeTombstones = 0 ∧ cf.imm.elim true (·.numRangeTombstones = 0) = true ∧
      index.isNone then none
  else some ⟨some cf.mem, cf.imm, index⟩

/-- `hidden_below`: a tombstone of a layer below this one covers the key. -/
def hiddenBelow (rd : Option (RangeDelView K V)) (userKey : K) (snapshot layer : Nat) : Bool :=
  0 < rd.elim 0 (·.maxCovering userKey snapshot layer)

/-- The status of `Finish` and the value stored. -/
def conclude (lookup : LookupState K V) : Status × Option V :=
  (lookup.finish.status, lookup.finish.value)

/-- The read from the files on. -/
def getFiles (cf : ColumnFamily K V) (userKey : K) (snapshot : Nat) (lookup : LookupState K V) :
    Status × Option V :=
  if hiddenBelow cf.rangeDels userKey snapshot kFirstTableLayer then conclude lookup.settleDeleted
  else
    let s := cf.current.get userKey snapshot lookup cf.rangeDels
    if s.status = .ok then conclude s.saver.state else (s.status, s.saver.state.value)

/-- The read from the immutable memtable on. -/
def getImm (cf : ColumnFamily K V) (userKey : K) (snapshot : Nat) (lookup : LookupState K V) :
    Status × Option V :=
  match cf.imm with
  | none => cf.getFiles userKey snapshot lookup
  | some imm =>
    if hiddenBelow cf.rangeDels userKey snapshot kLayerImm then conclude lookup.settleDeleted
    else
      match imm.get userKey snapshot lookup with
      | (true, lookup) => conclude lookup
      | (false, lookup) => cf.getFiles userKey snapshot lookup

/-- `DBImpl::Get` of a live family at a snapshot: the status and the value stored. -/
def get (cf : ColumnFamily K V) (userKey : K) (snapshot : Nat) : Status × Option V :=
  let lookup : LookupState K V :=
    { userKey, snapshot, mergeOp := cf.mergeOp, rd := cf.rangeDels }
  match cf.mem.get userKey snapshot lookup with
  | (true, lookup) => conclude lookup
  | (false, lookup) => cf.getImm userKey snapshot lookup

end ColumnFamily
end LevelDb
