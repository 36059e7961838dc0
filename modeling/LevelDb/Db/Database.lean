import LevelDb.Db.Catalog
import LevelDb.Db.Levels

/-!
# A database with families (`db/db_impl.cc`, `db/column_family.cc`)

The shared log, the manifest of each family and FAMILIES on the disk, and the process that writes
them: batches, memtable switches, flushes, log removal, creation and drop of families, and
`DB::Open` after a crash. Each step has at most one durable effect that a reader of the disk can
see. A memtable and a table are written down as the records they were given, oldest first. A batch
stands for the group its leader writes. Compactions and errors of the environment are left out.
-/

namespace LevelDb.Database

variable {K V : Type} [LinearOrder K]

/-! ## Batches -/

/-- `MemTable::Add` drops it: an empty range. -/
def isVoid : Record K V → Bool
  | .deleteRange b e => e ≤ b
  | _ => false

/-- A record of the log: a first sequence number, and records with their families. -/
structure Batch (K V : Type) where
  sequence : Nat
  records : List (Nat × Record K V)

/-- What `MemTableInserter` gives the memtable of a family. -/
def Batch.recordsOf (family : Nat) (b : Batch K V) : List (Nat × Record K V) :=
  (b.records.zipIdx b.sequence).filterMap fun ((f, record), seq) =>
    if f = family ∧ isVoid record = false then some (seq, record) else none

/-! ## The disk -/

/-- What a manifest records, and what a `VersionSet` knows of it: the tables in the order they were
added. -/
structure VersionSet (K V : Type) where
  logNumber : Nat
  nextFileNumber : Nat
  lastSequence : Nat
  tables : List (List (Nat × Record K V))

namespace VersionSet

/-- The manifest `NewDB` writes. -/
def newDB : VersionSet K V := ⟨0, 2, 0, []⟩

/-- `VersionSet::Recover`: the next file number is kept for the manifest. -/
def recover (v : VersionSet K V) : VersionSet K V := { v with nextFileNumber := v.nextFileNumber + 1 }

def markFileNumberUsed (n : Nat) (v : VersionSet K V) : VersionSet K V :=
  { v with nextFileNumber := max v.nextFileNumber (n + 1) }

/-- `LogAndApply` of an edit with new tables and a log number. -/
def logAndApply (v : VersionSet K V) (tables : List (List (Nat × Record K V))) (logNumber : Nat) :
    VersionSet K V :=
  { v with logNumber, tables := v.tables ++ tables }

end VersionSet

structure LogFile (K V : Type) where
  number : Nat
  batches : List (Batch K V)

structure Disk (K V : Type) where
  /-- In the order of their creation. -/
  logs : List (LogFile K V)
  manifests : Nat → VersionSet K V
  /-- FAMILIES: the families besides the default one, and the next id. -/
  families : List (Nat × String)
  nextFamilyId : Nat

/-- The families FAMILIES names, in bytes. -/
def Disk.entries {K V : Type} (disk : Disk K V) : List (Nat × Catalog.Bytes) :=
  disk.families.map fun f => (f.1, f.2.toList)

/-- What `WriteFamilies` writes; the next id is a `uint32_t`. -/
def Disk.familiesFile {K V : Type} (disk : Disk K V) : Catalog.Bytes :=
  Catalog.writeFamilies disk.entries (Catalog.uint32 disk.nextFamilyId)

/-! ## The process -/

structure ColumnFamily (K V : Type) where
  id : Nat
  name : String
  dropped : Bool
  versions : VersionSet K V
  mem : Option (List (Nat × Record K V))
  memLogNumber : Nat
  imm : Option (List (Nat × Record K V))
  immLogNumber : Nat

/-- How far `DB::Open` is: the families it has to create, or those it has to edit the manifests
of. -/
inductive Phase
  | creating (names : List String)
  | editing (ids : List Nat)
  | running
deriving DecidableEq

/-- A batch its leader has captured `mems` for. -/
structure Writing (K V : Type) where
  batch : Batch K V
  mems : List Nat
  logged : Bool
  inserted : Bool

structure DBImpl (K V : Type) where
  cfs : List (ColumnFamily K V)
  /-- Families whose creation has given up the mutex in `LogAndApply`. -/
  creating : List (ColumnFamily K V)
  nextFamilyId : Nat
  /-- The log that is open, if any. -/
  log : Option Nat
  lastSequence : Nat
  recoveryEdits : Nat → Option (List (List (Nat × Record K V)))
  saveManifest : Bool
  phase : Phase
  writing : Option (Writing K V)
  /-- The logs a `RemoveObsoleteFiles` is about to remove. -/
  obsolete : List Nat

/-- The disk and the process, if one is up. What clients have seen is kept beside: the batches in
the order they were appended, with their logs, and those that were acknowledged. -/
structure State (K V : Type) where
  disk : Disk K V
  db : Option (DBImpl K V)
  appended : List (Nat × Batch K V)
  acknowledged : List (Nat × Batch K V)

inductive Action (K V : Type)
  /-- `DB::Open` with descriptors of these names, up to the creation of families; `saveManifest`
  says whether some manifest cannot be reused. -/
  | openDB (names : List String) (createMissing saveManifest : Bool)
  /-- `CreateColumnFamilyLocked` up to the family's first manifest edit, -/
  | createColumnFamily (name : String)
  /-- and from there. -/
  | commitColumnFamily (i : Nat)
  /-- `DB::Open` reads the logs, with memtables full as `full` says, and opens a log. -/
  | recoverLogs (reuseLogs : Bool) (full : Nat → List (Nat × Record K V) → Bool)
  /-- `DB::Open` edits the manifest of the next family. -/
  | editManifest
  | finishOpen
  | capture (records : List (Nat × Record K V))
  | addRecord
  | insert
  | close
  | switchMemTable (family : Nat)
  | compactMemTable (family : Nat)
  | removeObsoleteFiles
  | removeFile (i : Nat)
  | dropColumnFamily (family : Nat)
  | crash

namespace ColumnFamily

/-- The first log the family needs. -/
def neededLog (cf : ColumnFamily K V) : Nat :=
  match cf.imm, cf.mem with
  | some _, _ => min cf.versions.logNumber cf.immLogNumber
  | none, some _ => min cf.versions.logNumber cf.memLogNumber
  | none, none => cf.versions.logNumber

/-- The records in its tables and memtables, oldest first. -/
def contents (cf : ColumnFamily K V) : List (Nat × Record K V) :=
  cf.versions.tables.flatten ++ cf.imm.getD [] ++ cf.mem.getD []

/-- `OpenColumnFamily` of a family with this manifest. -/
def ofManifest (id : Nat) (name : String) (manifest : VersionSet K V) : ColumnFamily K V :=
  ⟨id, name, false, manifest.recover, none, 0, none, 0⟩

end ColumnFamily

namespace DBImpl

def logfileNumber (db : DBImpl K V) : Nat := db.log.getD 0

def find? (db : DBImpl K V) (family : Nat) : Option (ColumnFamily K V) :=
  db.cfs.find? fun cf => cf.id = family

def live? (db : DBImpl K V) (family : Nat) : Option (ColumnFamily K V) :=
  db.cfs.find? fun cf => cf.id = family ∧ cf.dropped = false

/-- The family becomes another. -/
def set (db : DBImpl K V) (family : Nat) (cf : ColumnFamily K V) : DBImpl K V :=
  { db with cfs := db.cfs.map fun c => if c.id = family then cf else c }

/-- What `WriteFamilies` is given. -/
def onDisk (db : DBImpl K V) : List (Nat × String) :=
  (db.cfs.filter fun cf => cf.id ≠ 0 ∧ cf.dropped = false).map fun cf => (cf.id, cf.name)

def writeFamilies (db : DBImpl K V) (disk : Disk K V) : Disk K V :=
  { disk with families := db.onDisk, nextFamilyId := db.nextFamilyId }

def oldestLiveLog (db : DBImpl K V) : Nat :=
  ((db.cfs.filter fun cf => cf.dropped = false).map (·.neededLog)).foldl min db.logfileNumber

/-! ## Families come and go -/

/-- The family and its manifest, with the current log's number: nothing older belongs to it. A
manifest that FAMILIES does not name is never read. -/
def createColumnFamily (db : DBImpl K V) (disk : Disk K V) (name : String) :
    Option (DBImpl K V × Disk K V) :=
  if name ≠ "default" ∧ ∀ cf ∈ db.cfs, cf.dropped = false → cf.name ≠ name then
    let id := db.nextFamilyId
    let versions := VersionSet.newDB.recover.logAndApply [] db.logfileNumber
    some ({ db with
        nextFamilyId := id + 1
        creating := db.creating ++
          [⟨id, name, false, versions, some [], db.logfileNumber, none, 0⟩] },
      { disk with manifests := Function.update disk.manifests id versions })
  else none

def commitColumnFamily (db : DBImpl K V) (disk : Disk K V) (i : Nat) :
    Option (DBImpl K V × Disk K V) :=
  (db.creating[i]?).map fun cf =>
    let db' := { db with
      cfs := db.cfs.orderedInsert (fun a b => a.id ≤ b.id) cf
      creating := db.creating.eraseIdx i }
    (db', db'.writeFamilies disk)

def dropColumnFamily (db : DBImpl K V) (disk : Disk K V) (family : Nat) :
    Option (DBImpl K V × Disk K V) :=
  (db.find? family).bind fun cf =>
    if family ≠ 0 then
      let db' := db.set family { cf with dropped := true, mem := none, imm := none }
      some (db', db'.writeFamilies disk)
    else none

/-! ## Logs and memtables -/

/-- `SwitchLog`: the number comes from the default family. -/
def switchLog (db : DBImpl K V) (disk : Disk K V) : Option (DBImpl K V × Disk K V) :=
  (db.find? 0).map fun cf =>
    let number := cf.versions.nextFileNumber
    ({ db.set 0 { cf with versions := { cf.versions with nextFileNumber := number + 1 } } with
        log := some number },
      { disk with logs := disk.logs ++ [⟨number, []⟩] })

/-- `MakeRoomForWrite` gives a family a new memtable, on a new log. -/
def switchMemTable (db : DBImpl K V) (disk : Disk K V) (family : Nat) :
    Option (DBImpl K V × Disk K V) :=
  (db.switchLog disk).bind fun (db, disk) =>
    (db.live? family).bind fun cf =>
      if cf.imm.isNone then
        some (db.set family { cf with
          imm := cf.mem, immLogNumber := cf.memLogNumber
          mem := some [], memLogNumber := db.logfileNumber }, disk)
      else none

/-- `WriteLevel0Table`: the tables of an edit, with that of a memtable unless nothing is in it. -/
def writeLevel0Table (tables : List (List (Nat × Record K V))) (mem : List (Nat × Record K V)) :
    List (List (Nat × Record K V)) :=
  if mem.isEmpty then tables else tables ++ [mem]

/-- `CompactMemTable`. -/
def compactMemTable (db : DBImpl K V) (disk : Disk K V) (family : Nat) :
    Option (DBImpl K V × Disk K V) :=
  (db.live? family).bind fun cf => cf.imm.map fun imm =>
    let versions := { cf.versions with nextFileNumber := cf.versions.nextFileNumber + 1 }.logAndApply
      (writeLevel0Table [] imm) cf.memLogNumber
    (db.set family { cf with versions, imm := none },
      { disk with manifests := Function.update disk.manifests family versions })

/-- The part of `RemoveObsoleteFiles` under the mutex. -/
def removeObsoleteFiles (db : DBImpl K V) (disk : Disk K V) : DBImpl K V :=
  { db with
    obsolete := db.obsolete ++ (disk.logs.map (·.number)).filter fun n => n < db.oldestLiveLog }

def removeFile (db : DBImpl K V) (disk : Disk K V) (i : Nat) : Option (DBImpl K V × Disk K V) :=
  (db.obsolete[i]?).map fun n =>
    ({ db with obsolete := db.obsolete.eraseIdx i },
      { disk with logs := disk.logs.filter fun l => l.number ≠ n })

/-! ## Writing -/

/-- The leader builds the batch and captures the live families' memtables. The families of the
records were checked: they are families of the database, some dropped by now perhaps. -/
def capture (db : DBImpl K V) (records : List (Nat × Record K V)) : Option (DBImpl K V) :=
  if db.writing.isNone ∧ ∀ r ∈ records, (db.find? r.1).isSome then
    some { db with
      writing := some ⟨⟨db.lastSequence + 1, records⟩,
        (db.cfs.filter fun cf => cf.dropped = false).map (·.id), false, false⟩ }
  else none

/-- `InsertInto`, for one family. -/
def insertInto (w : Writing K V) (cf : ColumnFamily K V) : ColumnFamily K V :=
  if cf.id ∈ w.mems then { cf with mem := cf.mem.map fun m => m ++ w.batch.recordsOf cf.id } else cf

def insert (db : DBImpl K V) : Option (DBImpl K V) :=
  db.writing.bind fun w =>
    if w.logged && !w.inserted then
      some { db with
        cfs := db.cfs.map (insertInto w)
        writing := some { w with inserted := true } }
    else none

def setLastSequence (n : Nat) (cf : ColumnFamily K V) : ColumnFamily K V :=
  { cf with versions := { cf.versions with lastSequence := n } }

def close (db : DBImpl K V) : Option (DBImpl K V × Batch K V) :=
  db.writing.bind fun w =>
    if w.inserted then
      let lastSequence := db.lastSequence + w.batch.records.length
      some ({ db with
          cfs := db.cfs.map (setLastSequence lastSequence)
          lastSequence
          writing := none }, w.batch)
    else none

/-! ## Opening -/

/-- `RecoverLogFile` on its way through a log: the memtables, the edits, the tables written for each
family, and how many memtables were full. -/
structure Replay (K V : Type) where
  mems : Nat → Option (List (Nat × Record K V))
  edits : Nat → Option (List (List (Nat × Record K V)))
  written : Nat → Nat
  compactions : Nat
  maxSequence : Nat

/-- A record of the log goes to the memtables of the families that replay it; those that are full
then are written. -/
def Replay.addRecord (full : Nat → List (Nat × Record K V) → Bool) (replaying : List Nat)
    (r : Replay K V) (b : Batch K V) : Replay K V :=
  let mems := fun f =>
    if f ∈ replaying then some ((r.mems f).getD [] ++ b.recordsOf f) else none
  { mems := fun f => (mems f).filter fun m => !full f m
    edits := fun f =>
      match (mems f).filter (full f) with
      | some m => some (writeLevel0Table ((r.edits f).getD []) m)
      | none => r.edits f
    written := fun f => r.written f + ((mems f).filter (full f)).toList.length
    compactions := r.compactions + (replaying.filter fun f => (mems f).any (full f)).length
    maxSequence := max r.maxSequence (b.sequence + b.records.length - 1) }

/-- The memtables left at the end of the log are written. -/
def Replay.finish (r : Replay K V) : Replay K V :=
  { r with
    mems := fun _ => none
    edits := fun f =>
      match r.mems f with
      | some m => some (writeLevel0Table ((r.edits f).getD []) m)
      | none => r.edits f
    written := fun f => r.written f + (r.mems f).toList.length }

/-- The file numbers of the tables written for it. -/
def takeNumbers (written : Nat → Nat) (cf : ColumnFamily K V) : ColumnFamily K V :=
  { cf with versions :=
    { cf.versions with nextFileNumber := cf.versions.nextFileNumber + written cf.id } }

/-- `RecoverLogFile`; the last log is reused with the default family alone. -/
def recoverLogFile (reuseLogs : Bool) (full : Nat → List (Nat × Record K V) → Bool) (last : Bool)
    (db : DBImpl K V) (log : LogFile K V) : DBImpl K V :=
  let replaying := (db.cfs.filter fun cf =>
    cf.dropped = false ∧ cf.versions.logNumber ≤ log.number).map (·.id)
  let r := log.batches.foldl (Replay.addRecord full replaying)
    ⟨fun _ => none, db.recoveryEdits, fun _ => 0, 0, db.lastSequence⟩
  let reused := if reuseLogs && last && r.compactions == 0 && db.cfs.length == 1 then
    (db.find? 0).filter (·.mem.isNone) else none
  match reused with
  | some cf =>
    { db.set 0 { cf with mem := some ((r.mems 0).getD []), memLogNumber := log.number } with
      log := some log.number
      recoveryEdits := r.edits
      lastSequence := r.maxSequence }
  | none =>
    { db with
      cfs := db.cfs.map (takeNumbers r.finish.written)
      recoveryEdits := r.finish.edits
      lastSequence := r.maxSequence }

def markFileNumberUsed (n : Nat) (cf : ColumnFamily K V) : ColumnFamily K V :=
  { cf with versions := cf.versions.markFileNumberUsed n }

/-- The loop of `Recover` over the logs. -/
def recoverLogFiles (reuseLogs : Bool) (full : Nat → List (Nat × Record K V) → Bool) :
    DBImpl K V → List (LogFile K V) → DBImpl K V
  | db, [] => db
  | db, log :: logs =>
    let db' := recoverLogFile reuseLogs full logs.isEmpty db log
    recoverLogFiles reuseLogs full
      { db' with cfs := db'.cfs.map (markFileNumberUsed log.number), saveManifest := true } logs

/-- The smallest log number of a family, the default family's first. -/
def minLog (db : DBImpl K V) : Nat :=
  (db.cfs.map (·.versions.logNumber)).foldl min
    (((db.find? 0).map (·.versions.logNumber)).getD 0)

/-- The rest of `Recover`. -/
def readLogs (db : DBImpl K V) (disk : Disk K V) (reuseLogs : Bool)
    (full : Nat → List (Nat × Record K V) → Bool) : DBImpl K V :=
  let maxSequence := (db.cfs.map fun cf => cf.versions.lastSequence).foldl max 0
  let logs := (disk.logs.filter fun l => db.minLog ≤ l.number).insertionSort
    fun a b => a.number ≤ b.number
  let recovered := recoverLogFiles reuseLogs full { db with lastSequence := maxSequence } logs
  { recovered with
    cfs := recovered.cfs.map fun cf =>
      setLastSequence (max cf.versions.lastSequence recovered.lastSequence) cf
    phase := .editing (recovered.cfs.map fun cf => cf.id) }

/-- `DB::Open` opens a log if none was reused. -/
def recoverLogs (db : DBImpl K V) (disk : Disk K V) (reuseLogs : Bool)
    (full : Nat → List (Nat × Record K V) → Bool) : Option (DBImpl K V × Disk K V) :=
  let db := db.readLogs disk reuseLogs full
  if db.log.isNone then db.switchLog disk else some (db, disk)

/-- A family starts on the new log unless it has a memtable, -/
def startMemTable (db : DBImpl K V) (cf : ColumnFamily K V) : ColumnFamily K V :=
  match cf.mem with
  | none => { cf with mem := some [], memLogNumber := db.logfileNumber }
  | some _ => cf

/-- and its manifest gets what was recovered. -/
def editManifest (db : DBImpl K V) (disk : Disk K V) (family : Nat) :
    Option (DBImpl K V × Disk K V) :=
  (db.find? family).map fun cf =>
    let cf := db.startMemTable cf
    let edit := db.recoveryEdits family
    if db.saveManifest || edit.isSome || cf.versions.logNumber == 0 then
      let versions := cf.versions.logAndApply (edit.getD []) cf.memLogNumber
      (db.set family { cf with versions },
        { disk with manifests := Function.update disk.manifests family versions })
    else (db.set family cf, disk)

end DBImpl

/-- The first part of `Recover`: which families are there, which are wanted. -/
def Disk.openDB (disk : Disk K V) (names : List String) (createMissing saveManifest : Bool) :
    Option (DBImpl K V) :=
  let all := (0, "default") :: disk.families
  let missing := names.filter fun n => n ∉ all.map (·.2)
  if (names = [] → disk.families = []) ∧
      (names ≠ [] → names.Nodup ∧ "default" ∈ names ∧ ∀ f ∈ all, f.2 ∈ names) ∧
      (createMissing = false → missing = []) then
    some {
      cfs := all.map fun f => .ofManifest f.1 f.2 (disk.manifests f.1)
      creating := []
      nextFamilyId := disk.nextFamilyId
      log := none
      lastSequence := 0
      recoveryEdits := fun _ => none
      saveManifest
      phase := .creating missing
      writing := none
      obsolete := [] }
  else none

/-- `log_->AddRecord`, in the log that is open. -/
def Disk.addRecord (disk : Disk K V) (log : Option Nat) (b : Batch K V) : Disk K V :=
  { disk with
    logs := disk.logs.map fun l =>
      if some l.number = log then { l with batches := l.batches ++ [b] } else l }

/-! ## The transition system -/

namespace State

/-- After `NewDB`. -/
def empty : State K V := ⟨⟨[], fun _ => .newDB, [], 1⟩, none, [], []⟩

/-- The process and the disk take a step of their own. -/
def update (s : State K V) (r : DBImpl K V × Disk K V) : State K V :=
  { s with db := some r.1, disk := r.2 }

/-- A step of the process. -/
def stepDB (s : State K V) (db : DBImpl K V) : Action K V → Option (State K V)
  | .openDB .. => none
  | .crash => some { s with db := none }
  | .createColumnFamily name =>
    match db.phase with
    | .running => (db.createColumnFamily s.disk name).map s.update
    | .creating (n :: _) =>
      if n = name ∧ db.creating = [] then (db.createColumnFamily s.disk name).map s.update else none
    | _ => none
  | .commitColumnFamily i =>
    match db.phase with
    | .running => (db.commitColumnFamily s.disk i).map s.update
    | .creating (_ :: names) =>
      ({ db with phase := .creating names }.commitColumnFamily s.disk i).map s.update
    | _ => none
  | .recoverLogs reuseLogs full =>
    match db.phase with
    | .creating [] => (db.recoverLogs s.disk reuseLogs full).map s.update
    | _ => none
  | .editManifest =>
    match db.phase with
    | .editing (id :: ids) =>
      ({ db with phase := .editing ids }.editManifest s.disk id).map s.update
    | _ => none
  | .finishOpen =>
    match db.phase with
    | .editing [] => some { s with db := some { db with phase := .running } }
    | _ => none
  | .capture records =>
    match db.phase with
    | .running => (db.capture records).map fun db => { s with db := some db }
    | _ => none
  | .addRecord =>
    match db.writing with
    | some w =>
      if w.logged then none
      else some { s with
        db := some { db with writing := some { w with logged := true } }
        disk := s.disk.addRecord db.log w.batch
        appended := s.appended ++ [(db.logfileNumber, w.batch)] }
    | none => none
  | .insert => db.insert.map fun db => { s with db := some db }
  | .close => db.close.map fun (db', b) =>
      { s with db := some db', acknowledged := s.acknowledged ++ [(db.logfileNumber, b)] }
  | .switchMemTable family =>
    match db.phase with
    | .running =>
      if db.writing.isNone then (db.switchMemTable s.disk family).map s.update else none
    | _ => none
  | .compactMemTable family =>
    match db.phase with
    | .running => (db.compactMemTable s.disk family).map s.update
    | _ => none
  | .removeObsoleteFiles =>
    match db.phase with
    | .running => some { s with db := some (db.removeObsoleteFiles s.disk) }
    | _ => none
  | .removeFile i => (db.removeFile s.disk i).map s.update
  | .dropColumnFamily family =>
    match db.phase with
    | .running => (db.dropColumnFamily s.disk family).map s.update
    | _ => none

def step (s : State K V) (a : Action K V) : Option (State K V) :=
  match s.db with
  | some db => s.stepDB db a
  | none =>
    match a with
    | .openDB names createMissing saveManifest =>
      (s.disk.openDB names createMissing saveManifest).map fun db => { s with db := some db }
    | _ => none

end State

/-- All the runs, from a new database. -/
def system (K V : Type) [LinearOrder K] : Transition.System (State K V) (Action K V) where
  init s := s = State.empty
  step := State.step

end LevelDb.Database
