import LevelDb.Db.Catalog
import LevelDb.Lib.Coding

/-!
# Families, their options and their handles (`db/db_impl.cc`)

`DB::Open` with descriptors, creation, drop and `DestroyColumnFamilyHandle`: which families there
are, what options they run with and who refers to them. A pointer to a family is the place of the
object in `heap`, which keeps those that were deleted; the other objects that options point to are
numbers. Errors of the environment are left out, but for `WriteFamilies` in calls on an open database;
without them all that `DB::Open` does with manifests and logs returns OK.
-/

namespace LevelDb.Handles

open Catalog

/-! ## Options -/

structure Options where
  comparator : Option Nat
  createIfMissing : Bool
  errorIfExists : Bool
  paranoidChecks : Bool
  env : Nat
  infoLog : Option Nat
  writeBufferSize : Nat
  maxOpenFiles : Int
  blockCache : Option Nat
  blockSize : Nat
  blockRestartInterval : Int
  maxFileSize : Nat
  compression : Nat
  reuseLogs : Bool
  filterPolicy : Option Nat
  mergeOperator : Option Nat
  createMissingColumnFamilies : Bool
deriving DecidableEq

def kNumNonTableCacheFiles : Int := 10

/-- `ClipToRange` of an `int`, -/
def clipInt (n lo hi : Int) : Int :=
  let n := if hi < n then hi else n
  if n < lo then lo else n

/-- and of a `size_t`, which it compares as an `int`. -/
def clipSize (n lo hi : Nat) : Nat :=
  let n := if (hi : Int) < Coding.asInt n then hi else n
  if Coding.asInt n < lo then lo else n

/-- With the objects it makes where the options have none. -/
def sanitizeOptions (comparator filterPolicy : Option Nat) (newLog newCache : Nat) (src : Options) :
    Options :=
  { src with
    comparator
    filterPolicy := if src.filterPolicy.isSome then filterPolicy else none
    maxOpenFiles := clipInt src.maxOpenFiles (64 + kNumNonTableCacheFiles) 50000
    writeBufferSize := clipSize src.writeBufferSize (64 * 2 ^ 10) (2 ^ 30)
    maxFileSize := clipSize src.maxFileSize (2 ^ 20) (2 ^ 30)
    blockSize := clipSize src.blockSize (2 ^ 10) (4 * 2 ^ 20)
    infoLog := some (src.infoLog.getD newLog)
    blockCache := some (src.blockCache.getD newCache) }

structure Descriptor where
  name : Bytes
  options : Options

/-! ## The database -/

inductive Status
  | ok
  | invalidArgument (msg msg2 : Bytes)
  | corruption (c : Corruption)
  | ioError
deriving DecidableEq

structure ColumnFamily where
  id : Nat
  name : Bytes
  options : Options
  dropped : Bool
  refs : Int
  /-- The object is deleted, with its `VersionSet` and its `TableCache`. -/
  freed : Bool

structure DBImpl where
  dbname : Bytes
  options : Options
  userComparator : Option Nat
  env : Nat
  heap : List ColumnFamily
  /-- `cfs_`: pointers by ids, in order. -/
  cfs : List (Nat × Nat)
  defaultCf : Nat
  defaultHandle : Option Nat
  /-- The handles that are out, each with its family. -/
  handles : List Nat
  nextFamilyId : Nat

namespace DBImpl

def new (raw : Options) (dbname : Bytes) (newLog newCache : Nat) : DBImpl :=
  ⟨dbname, sanitizeOptions none none newLog newCache raw, raw.comparator, raw.env, [], [], 0, none, [], 1⟩

/-- The change of an object. -/
def modify (db : DBImpl) (ptr : Nat) (f : ColumnFamily → ColumnFamily) : DBImpl :=
  { db with heap := db.heap.modify ptr f }

def ref (db : DBImpl) (ptr : Nat) : DBImpl := db.modify ptr fun cf => { cf with refs := cf.refs + 1 }

/-- What the database sets of a family's options. -/
def familyOptions (db : DBImpl) (raw : Options) : Options :=
  let raw := { raw with
    env := db.env
    infoLog := db.options.infoLog
    blockCache := db.options.blockCache
    maxOpenFiles := db.options.maxOpenFiles
    comparator := db.userComparator }
  { sanitizeOptions raw.comparator raw.filterPolicy 0 0 raw with
    infoLog := db.options.infoLog
    blockCache := db.options.blockCache }

/-- The families in `cfs_`, in their order. -/
def families (db : DBImpl) : List ColumnFamily := db.cfs.filterMap fun e => db.heap[e.2]?

/-- A new object in `cfs_`. -/
def addFamily (db : DBImpl) (id : Nat) (name : Bytes) (raw : Options) : DBImpl :=
  { db with
    heap := db.heap ++ [⟨id, name, db.familyOptions raw, false, 1, false⟩]
    cfs := (db.cfs.filter fun e => e.1 ≠ id).orderedInsert (fun a b => a.1 ≤ b.1)
      (id, db.heap.length) }

/-- What `WriteFamilies` is given. -/
def onDisk (db : DBImpl) : List (Nat × Bytes) :=
  (db.families.filter fun cf => cf.id ≠ 0 ∧ cf.dropped = false).map fun cf => (cf.id, cf.name)

/-- The status, the database and FAMILIES; on success the handle is to the last object. -/
def createColumnFamilyLocked (db : DBImpl) (file : Option Bytes) (written : Bool) (options : Options)
    (name : Bytes) : Status × DBImpl × Option Bytes :=
  if name = kDefaultColumnFamilyName then
    (.invalidArgument "the default column family exists".toList [], db, file)
  else if db.families.any fun cf => !cf.dropped && cf.name == name then
    (.invalidArgument "column family exists".toList name, db, file)
  else
    let db1 := { db.addFamily db.nextFamilyId name options with
      nextFamilyId := uint32 (db.nextFamilyId + 1) }
    if written then
      (.ok, db1.ref db.heap.length, some (writeFamilies db1.onDisk db1.nextFamilyId))
    else (.ioError, db1, file)

/-! ## Opening -/

/-- The first name that comes again. -/
def findDuplicate : List Bytes → List Bytes → Option Bytes
  | _, [] => none
  | seen, n :: ns => if n ∈ seen then some n else findDuplicate (n :: seen) ns

/-- The families the database has are opened. -/
def openFamilies (db : DBImpl) (optionsFor : Bytes → Options) : List (Nat × Bytes) → DBImpl
  | [] => db
  | f :: fs =>
    let db1 := db.addFamily f.1 f.2 (optionsFor f.2)
    openFamilies (if f.1 = 0 then { db1 with defaultCf := db.heap.length } else db1) optionsFor fs

/-- The missing ones are created, if allowed. The handle `CreateColumnFamilyLocked` makes is
deleted. -/
def createMissing (all : List (Nat × Bytes)) (allowed : Bool) (db : DBImpl) (file : Option Bytes) :
    List Descriptor → Status × DBImpl × Option Bytes
  | [] => (.ok, db, file)
  | d :: ds =>
    if all.any fun f => f.2 == d.name then createMissing all allowed db file ds
    else if !allowed then
      (.invalidArgument "column family does not exist".toList d.name, db, file)
    else
      match db.createColumnFamilyLocked file true d.options d.name with
      | (.ok, db, file) => createMissing all allowed db file ds
      | r => r

/-- The part of `Recover` about families; `existed` says whether there is a database. -/
def recover (db : DBImpl) (file : Option Bytes) (existed : Bool) (families : List Descriptor)
    (allowed : Bool) : Status × DBImpl × Option Bytes :=
  if !existed && !db.options.createIfMissing then
    (.invalidArgument db.dbname "does not exist (create_if_missing is false)".toList, db, file)
  else if existed && db.options.errorIfExists then
    (.invalidArgument db.dbname "exists (error_if_exists is true)".toList, db, file)
  else
    match readFamilies file with
    | .error c => (.corruption c, db, file)
    | .ok (onDisk, nextId) =>
      let db := { db with nextFamilyId := nextId }
      match findDuplicate [] (families.map (·.name)) with
      | some name => (.invalidArgument "duplicate column family".toList name, db, file)
      | none =>
        let wanted (name : Bytes) := families.find? fun d => d.name = name
        let byName := !families.isEmpty
        if !byName && !onDisk.isEmpty then
          (.invalidArgument db.dbname
            "has column families; open it with their descriptors".toList, db, file)
        else if byName && (wanted kDefaultColumnFamilyName).isNone then
          (.invalidArgument "the default column family must be opened".toList [], db, file)
        else
          let optionsFor (name : Bytes) := ((wanted name).map (·.options)).getD db.options
          let all := (0, kDefaultColumnFamilyName) :: onDisk
          match if byName then all.find? fun f => (wanted f.2).isNone else none with
          | some f => (.invalidArgument "column family not opened".toList f.2, db, file)
          | none => createMissing all allowed (db.openFamilies optionsFor all) file families

/-- The first live family of a name, and its id. -/
def findName (db : DBImpl) (name : Bytes) : Option (Nat × Nat) :=
  db.cfs.find? fun e => (db.heap[e.2]?).any fun cf => !cf.dropped && cf.name == name

/-- `DB::Open` hands out the handles: the families they are of. -/
def openHandles : DBImpl → List Descriptor → Status × DBImpl × List Nat
  | db, [] => (.ok, db, [])
  | db, d :: ds =>
    match db.findName d.name with
    | none => (.invalidArgument "column family does not exist".toList d.name, db, [])
    | some (id, ptr) =>
      let db1 := if id = 0 then db else { db.ref ptr with handles := db.handles ++ [ptr] }
      let (s, db2, handles) := openHandles db1 ds
      (s, db2, (if id = 0 then db.defaultHandle.getD 0 else ptr) :: handles)

end DBImpl

/-- What a caller gives to `DB::Open`, and the objects `SanitizeOptions` makes. -/
structure OpenArgs where
  dbname : Bytes
  options : Options
  families : List Descriptor
  existed : Bool
  newLog : Nat
  newCache : Nat

/-- The status, FAMILIES, and the database with the families of `*handles`. -/
def openDB (file : Option Bytes) (a : OpenArgs) : Status × Option Bytes × Option (DBImpl × List Nat) :=
  match (DBImpl.new a.options a.dbname a.newLog a.newCache).recover file a.existed a.families
    a.options.createMissingColumnFamilies with
  | (.ok, db, file) =>
    let db := { db.ref db.defaultCf with defaultHandle := some db.defaultCf }
    match db.openHandles a.families with
    | (.ok, db, handles) => (.ok, file, some (db, handles))
    | (s, _, _) => (s, file, none)
  | (s, _, file) => (s, file, none)

/-! ## Runs -/

/-- FAMILIES and the process, if one is up. -/
structure State where
  file : Option Bytes
  db : Option DBImpl

inductive Action
  | openDB (a : OpenArgs)
  /-- `CreateColumnFamily`; `written` says whether `WriteFamilies` succeeds. -/
  | createColumnFamily (options : Options) (name : Bytes) (written : Bool)
  /-- Through a handle, by its place among those that are out. -/
  | dropColumnFamily (i : Nat) (written : Bool)
  | destroyColumnFamilyHandle (i : Nat)
  /-- The database is closed, or the process ends. -/
  | close

namespace DBImpl

def createColumnFamily (db : DBImpl) (file : Option Bytes) (written : Bool) (options : Options)
    (name : Bytes) : DBImpl × Option Bytes :=
  match db.createColumnFamilyLocked file written options name with
  | (.ok, db1, file) => ({ db1 with handles := db1.handles ++ [db.heap.length] }, file)
  | (_, db1, file) => (db1, file)

/-- The family is marked; its reference of the database stays. -/
def dropColumnFamily (db : DBImpl) (file : Option Bytes) (written : Bool) (ptr : Nat) :
    DBImpl × Option Bytes :=
  match db.heap[ptr]? with
  | none => (db, file)
  | some cf =>
    if cf.dropped then (db, file)
    else if cf.id = 0 then (db, file)
    else
      let db := db.modify ptr fun cf => { cf with dropped := true }
      (db, if written then some (writeFamilies db.onDisk db.nextFamilyId) else file)

def destroyColumnFamilyHandle (db : DBImpl) (i ptr : Nat) : DBImpl :=
  let db := { db.modify ptr fun cf => { cf with refs := cf.refs - 1 } with
    handles := db.handles.eraseIdx i }
  match db.heap[ptr]? with
  | some cf =>
    if cf.refs ≤ 0 ∧ cf.dropped = true then
      { db.modify ptr fun cf => { cf with freed := true } with
        cfs := db.cfs.filter fun e => e.1 ≠ cf.id }
    else db
  | none => db

end DBImpl

namespace State

def step (s : State) (a : Action) : Option State :=
  match s.db, a with
  | none, .openDB a =>
    let (_, file, r) := Handles.openDB s.file a
    some ⟨file, r.map (·.1)⟩
  | some db, .createColumnFamily options name written =>
    let (db, file) := db.createColumnFamily s.file written options name
    some ⟨file, some db⟩
  | some db, .dropColumnFamily i written =>
    (db.handles[i]?).map fun ptr =>
      let (db, file) := db.dropColumnFamily s.file written ptr
      ⟨file, some db⟩
  | some db, .destroyColumnFamilyHandle i =>
    (db.handles[i]?).map fun ptr => ⟨s.file, some (db.destroyColumnFamilyHandle i ptr)⟩
  | some _, .close => some ⟨s.file, none⟩
  | _, _ => none

end State

def system : Transition.System State Action where
  init s := s = ⟨none, none⟩
  step := State.step

end LevelDb.Handles
