import LevelDb.Proof.Recovery

/-!
# What holds of the process

Beside what holds of the disk, in each phase (`Inv`): the families of the process are those of
FAMILIES (`Named`), the log it writes is the newest (`Logging`), and a live family's tables and
memtables hold the records of its log numbers, in order: the tables those before the manifest's
number, the immutable memtable those up to the memtable's log, the memtable the rest (`Sound`).
-/

namespace LevelDb.Database

open Journal Transition

variable {K V : Type} [LinearOrder K]

/-! ## The families of a process -/

/-- As creation leaves a family: no record is of it. -/
structure Fresh (appended : List (Nat × Batch K V)) (disk : Disk K V) (cf : ColumnFamily K V) :
    Prop where
  dropped : cf.dropped = false
  mem : cf.mem = some []
  imm : cf.imm = none
  start : cf.memLogNumber = cf.versions.logNumber
  tables : cf.versions.tables = []
  logNumber : (disk.manifests cf.id).logNumber = cf.versions.logNumber
  stored : (disk.manifests cf.id).tables = []
  unused : ∀ e ∈ appended, e.2.recordsOf cf.id = []

theorem Fresh.congr {appended : List (Nat × Batch K V)} {disk disk' : Disk K V}
    {cf : ColumnFamily K V} (h : Fresh appended disk cf)
    (hmanifest : disk'.manifests cf.id = disk.manifests cf.id) : Fresh appended disk' cf := by
  obtain ⟨h1, h2, h3, h4, h5, h6, h7, h8⟩ := h
  refine ⟨h1, h2, h3, h4, h5, ?_, ?_, h8⟩
  · rw [hmanifest]
    exact h6
  · rw [hmanifest]
    exact h7

/-- The process and the disk agree on the families and their manifests. -/
structure Named (appended : List (Nat × Batch K V)) (disk : Disk K V) (db : DBImpl K V) : Prop where
  families : disk.families = db.onDisk
  default : ∃ cf ∈ db.cfs, cf.id = 0 ∧ cf.dropped = false
  nodup : ((db.cfs ++ db.creating).map (·.id)).Nodup
  cfs_lt : ∀ cf ∈ db.cfs, cf.id < disk.nextFamilyId
  creating_lt : ∀ cf ∈ db.creating, cf.id < db.nextFamilyId
  next : disk.nextFamilyId ≤ db.nextFamilyId
  logNumber : ∀ cf ∈ db.cfs, cf.dropped = false →
    (disk.manifests cf.id).logNumber = cf.versions.logNumber
  tables : ∀ cf ∈ db.cfs, cf.dropped = false →
    (disk.manifests cf.id).tables = cf.versions.tables
  fresh : ∀ cf ∈ db.creating, Fresh appended disk cf

/-- The log the process writes to is the newest. -/
structure Logging (appended : List (Nat × Batch K V)) (disk : Disk K V) (db : DBImpl K V) (n : Nat) :
    Prop where
  log : db.log = some n
  present : ∃ l ∈ disk.logs, l.number = n
  newest : ∀ l ∈ disk.logs, l.number ≤ n
  next : ∀ cf ∈ db.cfs, cf.id = 0 → n < cf.versions.nextFileNumber
  creating : ∀ cf ∈ db.creating, cf.versions.logNumber ≤ n
  obsolete : ∀ k ∈ db.obsolete, k < n ∧ ∀ cf ∈ db.cfs, cf.dropped = false →
    cf.versions.logNumber ≤ k → recordsIn cf.id (segment k appended) = []

/-- The records of a family that are in the log, but not in its memtable yet. -/
def pendingOf (w : Option (Writing K V)) (f : Nat) : List (Nat × Record K V) :=
  match w with
  | some w => if w.logged && !w.inserted then w.batch.recordsOf f else []
  | none => []

/-- The tables aside, which the manifest answers for: the memtables hold the rest. -/
structure Sound (appended : List (Nat × Batch K V)) (n : Nat) (pending : List (Nat × Record K V))
    (cf : ColumnFamily K V) : Prop where
  mem : ∃ m, cf.mem = some m ∧ m ++ pending = recordsIn cf.id (since cf.memLogNumber appended)
  imm : cf.imm.getD [] =
    recordsIn cf.id (between cf.versions.logNumber cf.memLogNumber appended)
  log_le : cf.versions.logNumber ≤ cf.memLogNumber
  mem_le : cf.memLogNumber ≤ n

/-- Where the memtable of a family starts that `DB::Open` has not seen to yet. -/
def ColumnFamily.start (n : Nat) (cf : ColumnFamily K V) : Nat :=
  match cf.mem with
  | some _ => cf.memLogNumber
  | none => n

def ColumnFamily.setNextFileNumber (cf : ColumnFamily K V) (m : Nat) : ColumnFamily K V :=
  { cf with versions := { cf.versions with nextFileNumber := m } }

/-- What was recovered for the family, in its edit and its memtable, is what its tables lack. -/
structure Unedited (appended : List (Nat × Batch K V)) (n : Nat)
    (edit : Option (List (List (Nat × Record K V)))) (cf : ColumnFamily K V) : Prop where
  tables : cf.versions.tables.flatten ++ editRecords edit =
    recordsIn cf.id (below (cf.start n) appended)
  mem : cf.mem.getD [] = recordsIn cf.id (since (cf.start n) appended)
  imm : cf.imm = none
  log_le : cf.versions.logNumber ≤ cf.start n
  start_le : cf.start n ≤ n

/-- `DB::Open` before it reads the logs. -/
structure Creating (appended : List (Nat × Batch K V)) (disk : Disk K V) (db : DBImpl K V) :
    Prop where
  log : db.log = none
  writing : db.writing = none
  obsolete : db.obsolete = []
  edits : ∀ f, db.recoveryEdits f = none
  live : ∀ cf ∈ db.cfs, cf.dropped = false
  imm : ∀ cf ∈ db.cfs, cf.imm = none
  mem : ∀ cf ∈ db.cfs, cf.mem = none ∨ Fresh appended disk cf ∧ cf.versions.logNumber = 0
  creating : ∀ cf ∈ db.creating, cf.versions.logNumber = 0

/-- `DB::Open` before it edits the manifests of these families. -/
structure Editing (appended : List (Nat × Batch K V)) (disk : Disk K V) (db : DBImpl K V) (n : Nat)
    (ids : List Nat) : Prop where
  logging : Logging appended disk db n
  writing : db.writing = none
  live : ∀ cf ∈ db.cfs, cf.dropped = false
  nodup : ids.Nodup
  unedited : ∀ cf ∈ db.cfs, cf.id ∈ ids → Unedited appended n (db.recoveryEdits cf.id) cf
  sound : ∀ cf ∈ db.cfs, cf.id ∉ ids → Sound appended n [] cf

/-- A batch under way is of families there are; in the log, it is the last. -/
structure Writes (appended acknowledged : List (Nat × Batch K V)) (db : DBImpl K V) (n : Nat)
    (w : Writing K V) : Prop where
  families : ∀ r ∈ w.batch.records, ∃ cf ∈ db.cfs, cf.id = r.1
  captured : ∀ cf ∈ db.cfs, cf.dropped = false → (∃ r ∈ w.batch.records, r.1 = cf.id) →
    cf.id ∈ w.mems
  logged : w.inserted = true → w.logged = true
  last : w.logged = true → ∃ before, appended = before ++ [(n, w.batch)] ∧
    acknowledged.Sublist before

structure Running (appended acknowledged : List (Nat × Batch K V)) (disk : Disk K V)
    (db : DBImpl K V) (n : Nat) : Prop where
  logging : Logging appended disk db n
  sound : ∀ cf ∈ db.cfs, cf.dropped = false → Sound appended n (pendingOf db.writing cf.id) cf
  writes : ∀ w, db.writing = some w → Writes appended acknowledged db n w

def Phased (appended acknowledged : List (Nat × Batch K V)) (disk : Disk K V) (db : DBImpl K V) :
    Prop :=
  match db.phase with
  | .creating _ => Creating appended disk db
  | .editing ids => ∃ n, Editing appended disk db n ids
  | .running => ∃ n, Running appended acknowledged disk db n

/-- What every reachable state keeps. -/
structure Inv (s : State K V) : Prop where
  stored : Stored s.appended s.disk
  acknowledged : s.acknowledged.Sublist s.appended
  named : ∀ db, s.db = some db → Named s.appended s.disk db
  phased : ∀ db, s.db = some db → Phased s.appended s.acknowledged s.disk db

/-! ## Families by id -/

section
variable {appended : List (Nat × Batch K V)} {disk : Disk K V} {db db' : DBImpl K V} {f : Nat}
  {cf : ColumnFamily K V}

omit [LinearOrder K] in
theorem find?_some (h : db.find? f = some cf) : cf ∈ db.cfs ∧ cf.id = f :=
  ⟨List.mem_of_find?_eq_some h, by simpa using List.find?_some h⟩

omit [LinearOrder K] in
theorem live?_some (h : db.live? f = some cf) :
    cf ∈ db.cfs ∧ cf.id = f ∧ cf.dropped = false := by
  have hsome := List.find?_some h
  simp only [Bool.decide_and, Bool.and_eq_true, decide_eq_true_eq] at hsome
  exact ⟨List.mem_of_find?_eq_some h, hsome⟩

/-! ## What the operations do -/

omit [LinearOrder K] in
theorem switchLog_some (h : db.switchLog disk = some (db', disk')) :
    ∃ cf, cf ∈ db.cfs ∧ cf.id = 0 ∧ disk' = { disk with
        logs := disk.logs ++ [⟨cf.versions.nextFileNumber, []⟩] } ∧
      db' = { db.set 0 (cf.setNextFileNumber (cf.versions.nextFileNumber + 1)) with
        log := some cf.versions.nextFileNumber } := by
  obtain ⟨cf, hfind, heq⟩ := Option.map_eq_some_iff.1 h
  obtain ⟨hcf, hzero⟩ := find?_some hfind
  cases heq
  exact ⟨cf, hcf, hzero, rfl, rfl⟩

omit [LinearOrder K] in
theorem switchMemTable_some (h : db.switchMemTable disk f = some (db', disk')) :
    ∃ db1 cf, db.switchLog disk = some (db1, disk') ∧ db1.live? f = some cf ∧ cf.imm = none ∧
      db' = db1.set f { cf with
        imm := cf.mem, immLogNumber := cf.memLogNumber
        mem := some [], memLogNumber := db1.logfileNumber } := by
  obtain ⟨⟨db1, disk1⟩, hswitch, h⟩ := Option.bind_eq_some_iff.1 h
  obtain ⟨cf, hfind, h⟩ := Option.bind_eq_some_iff.1 h
  split at h
  · rename_i himm
    cases h
    exact ⟨db1, cf, hswitch, hfind, Option.isNone_iff_eq_none.1 himm, rfl⟩
  · cases h

omit [LinearOrder K] in
theorem compactMemTable_some (h : db.compactMemTable disk f = some (db', disk')) :
    ∃ cf imm versions, db.live? f = some cf ∧ cf.imm = some imm ∧
      versions = { cf.versions with
        nextFileNumber := cf.versions.nextFileNumber + 1 }.logAndApply
          (DBImpl.writeLevel0Table [] imm) cf.memLogNumber ∧
      db' = db.set f { cf with versions, imm := none } ∧
      disk' = { disk with manifests := Function.update disk.manifests f versions } := by
  obtain ⟨cf, hfind, h⟩ := Option.bind_eq_some_iff.1 h
  obtain ⟨imm, himm, heq⟩ := Option.map_eq_some_iff.1 h
  cases heq
  exact ⟨cf, imm, _, hfind, himm, rfl, rfl, rfl⟩

omit [LinearOrder K] in
theorem removeFile_some {i : Nat} (h : db.removeFile disk i = some (db', disk')) :
    ∃ k ∈ db.obsolete, db' = { db with obsolete := db.obsolete.eraseIdx i } ∧
      disk' = { disk with logs := disk.logs.filter fun l => l.number ≠ k } := by
  obtain ⟨k, hk, heq⟩ := Option.map_eq_some_iff.1 h
  cases heq
  exact ⟨k, List.mem_of_getElem? hk, rfl, rfl⟩

omit [LinearOrder K] in
theorem capture_some {records : List (Nat × Record K V)} (h : db.capture records = some db') :
    db.writing = none ∧ (∀ r ∈ records, (db.find? r.1).isSome = true) ∧ db' = { db with
      writing := some ⟨⟨db.lastSequence + 1, records⟩,
        (db.cfs.filter fun cf => cf.dropped = false).map (·.id), false, false⟩ } := by
  rw [DBImpl.capture] at h
  split at h
  · rename_i hcond
    cases h
    exact ⟨Option.isNone_iff_eq_none.1 hcond.1, hcond.2, rfl⟩
  · cases h

theorem insert_some (h : db.insert = some db') : ∃ w, db.writing = some w ∧ w.logged = true ∧
    w.inserted = false ∧ db' = { db with
      cfs := db.cfs.map (DBImpl.insertInto w)
      writing := some { w with inserted := true } } := by
  obtain ⟨w, hw, h⟩ := Option.bind_eq_some_iff.1 h
  split at h
  · rename_i hcond
    cases h
    simp only [Bool.and_eq_true, Bool.not_eq_true'] at hcond
    exact ⟨w, hw, hcond.1, hcond.2, rfl⟩
  · cases h

omit [LinearOrder K] in
theorem close_some {b : Batch K V} (h : db.close = some (db', b)) : ∃ w, db.writing = some w ∧
    w.inserted = true ∧ b = w.batch ∧ db' = { db with
      cfs := db.cfs.map (DBImpl.setLastSequence (db.lastSequence + w.batch.records.length))
      lastSequence := db.lastSequence + w.batch.records.length
      writing := none } := by
  obtain ⟨w, hw, h⟩ := Option.bind_eq_some_iff.1 h
  split at h
  · rename_i hcond
    cases h
    exact ⟨w, hw, hcond, rfl, rfl⟩
  · cases h

/-! ## Families and the disk -/

theorem Named.cfs_nodup (h : Named appended disk db) : (db.cfs.map (·.id)).Nodup :=
  (List.map_append ▸ h.nodup).of_append_left

theorem Named.eq_of_id (h : Named appended disk db) {cf' : ColumnFamily K V} (hcf : cf ∈ db.cfs)
    (hcf' : cf' ∈ db.cfs) (heq : cf.id = cf'.id) : cf = cf' :=
  DBImpl.eq_of_id h.cfs_nodup hcf hcf' heq

/-- A family under creation is none of the others. -/
theorem Named.ne_creating (h : Named appended disk db) {cf' : ColumnFamily K V} (hcf : cf ∈ db.cfs)
    (hcf' : cf' ∈ db.creating) : cf.id ≠ cf'.id := fun heq =>
  List.disjoint_of_nodup_append (List.map_append ▸ h.nodup) (List.mem_map_of_mem hcf)
    (heq ▸ List.mem_map_of_mem hcf')

omit [LinearOrder K] in
/-- What `WriteFamilies` is given: the live families but the default one. -/
theorem mem_onDisk {p : Nat × String} :
    p ∈ db.onDisk ↔ ∃ cf ∈ db.cfs, cf.id ≠ 0 ∧ cf.dropped = false ∧ (cf.id, cf.name) = p := by
  simp only [DBImpl.onDisk, List.mem_map, List.mem_filter, decide_eq_true_eq, and_assoc]

omit [LinearOrder K] in
theorem onDisk_nodup (h : (db.cfs.map (·.id)).Nodup) : (0 :: db.onDisk.map (·.1)).Nodup := by
  refine List.nodup_cons.2 ⟨fun hzero => ?_, ?_⟩
  · obtain ⟨p, hp, heq⟩ := List.mem_map.1 hzero
    obtain ⟨cf, -, hne, -, rfl⟩ := mem_onDisk.1 hp
    exact hne heq
  · rw [DBImpl.onDisk, List.map_map]
    exact h.sublist (List.filter_sublist.map _)

/-- The families on the disk are the live ones. -/
theorem Named.mem_ids (h : Named appended disk db) :
    f ∈ disk.ids ↔ ∃ cf ∈ db.cfs, cf.id = f ∧ cf.dropped = false := by
  rw [Disk.ids, List.mem_cons, h.families, List.mem_map]
  constructor
  · rintro (rfl | ⟨p, hp, rfl⟩)
    · exact h.default
    · obtain ⟨cf, hcf, -, hlive, rfl⟩ := mem_onDisk.1 hp
      exact ⟨cf, hcf, rfl, hlive⟩
  · rintro ⟨cf, hcf, rfl, hlive⟩
    by_cases hzero : cf.id = 0
    · exact .inl hzero
    · exact .inr ⟨_, mem_onDisk.2 ⟨cf, hcf, hzero, hlive, rfl⟩, rfl⟩

omit [LinearOrder K] in
theorem onDisk_map {g : ColumnFamily K V → ColumnFamily K V} (hcfs : db'.cfs = db.cfs.map g)
    (hg : ∀ cf ∈ db.cfs, (g cf).id = cf.id ∧ (g cf).name = cf.name ∧ (g cf).dropped = cf.dropped) :
    db'.onDisk = db.onDisk := by
  rw [DBImpl.onDisk, DBImpl.onDisk, hcfs, List.filter_map, List.map_map]
  have hfilter : (db.cfs.filter ((fun cf => decide (cf.id ≠ 0 ∧ cf.dropped = false)) ∘ g)) =
      db.cfs.filter fun cf => cf.id ≠ 0 ∧ cf.dropped = false := by
    refine List.filter_congr fun cf hcf => ?_
    obtain ⟨h1, -, h3⟩ := hg cf hcf
    simp only [Function.comp_apply, h1, h3]
  rw [hfilter]
  refine List.map_congr_left fun cf hcf => ?_
  obtain ⟨h1, h2, -⟩ := hg cf (List.mem_of_mem_filter hcf)
  simp only [Function.comp_apply, h1, h2]

/-- A step that keeps the families, and the manifests of those under creation. -/
theorem Named.map (h : Named appended disk db) {disk' : Disk K V}
    {g : ColumnFamily K V → ColumnFamily K V} (hcfs : db'.cfs = db.cfs.map g)
    (hg : ∀ cf ∈ db.cfs, (g cf).id = cf.id ∧ (g cf).name = cf.name ∧ (g cf).dropped = cf.dropped)
    (hcreating : db'.creating = db.creating) (hnext : db'.nextFamilyId = db.nextFamilyId)
    (hfamilies : disk'.families = disk.families) (hnext' : disk'.nextFamilyId = disk.nextFamilyId)
    (hmanifest : ∀ cf ∈ db.cfs, cf.dropped = false →
      (disk'.manifests cf.id).logNumber = (g cf).versions.logNumber ∧
        (disk'.manifests cf.id).tables = (g cf).versions.tables)
    (hother : ∀ cf ∈ db.creating, disk'.manifests cf.id = disk.manifests cf.id) :
    Named appended disk' db' := by
  have hmem : ∀ cf' ∈ db'.cfs, ∃ cf ∈ db.cfs, g cf = cf' := fun cf' hcf' =>
    List.mem_map.1 (hcfs ▸ hcf')
  have hids : db'.cfs.map (·.id) = db.cfs.map (·.id) := by
    rw [hcfs, List.map_map]
    exact List.map_congr_left fun cf hcf => (hg cf hcf).1
  constructor
  · rw [hfamilies, onDisk_map hcfs hg]
    exact h.families
  · obtain ⟨cf, hcf, hzero, hlive⟩ := h.default
    obtain ⟨h1, -, h3⟩ := hg cf hcf
    exact ⟨g cf, hcfs ▸ List.mem_map_of_mem hcf, h1.trans hzero, h3.trans hlive⟩
  · rw [hcreating, List.map_append, hids, ← List.map_append]
    exact h.nodup
  · intro cf' hcf'
    obtain ⟨cf, hcf, rfl⟩ := hmem cf' hcf'
    rw [(hg cf hcf).1, hnext']
    exact h.cfs_lt cf hcf
  · rw [hcreating, hnext]
    exact h.creating_lt
  · rw [hnext, hnext']
    exact h.next
  · intro cf' hcf' hlive
    obtain ⟨cf, hcf, rfl⟩ := hmem cf' hcf'
    rw [(hg cf hcf).1]
    exact (hmanifest cf hcf ((hg cf hcf).2.2.symm.trans hlive)).1
  · intro cf' hcf' hlive
    obtain ⟨cf, hcf, rfl⟩ := hmem cf' hcf'
    rw [(hg cf hcf).1]
    exact (hmanifest cf hcf ((hg cf hcf).2.2.symm.trans hlive)).2
  · intro cf hcf
    rw [hcreating] at hcf
    exact (h.fresh cf hcf).congr (hother cf hcf)

/-- A step of the process that leaves the families alone. -/
theorem Named.congr (h : Named appended disk db) (hcfs : db'.cfs = db.cfs)
    (hcreating : db'.creating = db.creating) (hnext : db'.nextFamilyId = db.nextFamilyId) :
    Named appended disk db' :=
  h.map (hcfs.trans (List.map_id _).symm) (fun _ _ => ⟨rfl, rfl, rfl⟩) hcreating hnext rfl rfl
    (fun cf hcf hlive => ⟨h.logNumber cf hcf hlive, h.tables cf hcf hlive⟩) fun _ _ => rfl

omit [LinearOrder K] in
/-- A family becomes another of its id. -/
theorem mem_set {cf' c : ColumnFamily K V} (hc : c ∈ (db.set f cf').cfs) :
    c = cf' ∨ c ∈ db.cfs ∧ c.id ≠ f := by
  obtain ⟨c0, hc0, rfl⟩ := List.mem_map.1 hc
  by_cases heq : c0.id = f
  · rw [if_pos heq]
    exact .inl rfl
  · rw [if_neg heq]
    exact .inr ⟨hc0, heq⟩

/-- A step that changes one family. -/
theorem Named.set (h : Named appended disk db) {disk' : Disk K V} {cf' : ColumnFamily K V}
    (hcf : cf ∈ db.cfs) (hcfs : db'.cfs = (db.set cf.id cf').cfs) (hid : cf'.id = cf.id)
    (hname : cf'.name = cf.name) (hdropped : cf'.dropped = cf.dropped)
    (hcreating : db'.creating = db.creating) (hnext : db'.nextFamilyId = db.nextFamilyId)
    (hfamilies : disk'.families = disk.families) (hnext' : disk'.nextFamilyId = disk.nextFamilyId)
    (hlog : (disk'.manifests cf.id).logNumber = cf'.versions.logNumber)
    (htables : (disk'.manifests cf.id).tables = cf'.versions.tables)
    (hother : ∀ g, g ≠ cf.id → disk'.manifests g = disk.manifests g) : Named appended disk' db' := by
  refine h.map hcfs (fun c hc => ?_) hcreating hnext hfamilies hnext' (fun c hc hlive => ?_)
    fun c hc => hother c.id (h.ne_creating hcf hc).symm
  · by_cases heq : c.id = cf.id
    · rw [if_pos heq, h.eq_of_id hc hcf heq]
      exact ⟨hid, hname, hdropped⟩
    · rw [if_neg heq]
      exact ⟨rfl, rfl, rfl⟩
  · by_cases heq : c.id = cf.id
    · rw [if_pos heq, heq]
      exact ⟨hlog, htables⟩
    · rw [if_neg heq, hother c.id heq]
      exact ⟨h.logNumber c hc hlive, h.tables c hc hlive⟩

end

/-! ## What a step can do -/

section
variable {s s' : State K V} {db : DBImpl K V} {a : Action K V}

/-- The steps of a process. -/
inductive Stepped (s : State K V) (db : DBImpl K V) : Action K V → State K V → Prop
  | crash : Stepped s db .crash { s with db := none }
  | createColumnFamily {name : String} {db' : DBImpl K V} {disk' : Disk K V} :
      (db.phase = .running ∨ db.creating = [] ∧ ∃ names, db.phase = .creating (name :: names)) →
      db.createColumnFamily s.disk name = some (db', disk') →
      Stepped s db (.createColumnFamily name) (s.update (db', disk'))
  | commitColumnFamily {i : Nat} {phase : Phase} {db' : DBImpl K V} {disk' : Disk K V} :
      (db.phase = .running ∧ phase = .running ∨
        ∃ name names, db.phase = .creating (name :: names) ∧ phase = .creating names) →
      { db with phase }.commitColumnFamily s.disk i = some (db', disk') →
      Stepped s db (.commitColumnFamily i) (s.update (db', disk'))
  | recoverLogs {reuseLogs : Bool} {full : Nat → List (Nat × Record K V) → Bool}
      {db' : DBImpl K V} {disk' : Disk K V} :
      db.phase = .creating [] → db.recoverLogs s.disk reuseLogs full = some (db', disk') →
      Stepped s db (.recoverLogs reuseLogs full) (s.update (db', disk'))
  | editManifest {id : Nat} {ids : List Nat} {db' : DBImpl K V} {disk' : Disk K V} :
      db.phase = .editing (id :: ids) →
      { db with phase := .editing ids }.editManifest s.disk id = some (db', disk') →
      Stepped s db .editManifest (s.update (db', disk'))
  | finishOpen : db.phase = .editing [] →
      Stepped s db .finishOpen { s with db := some { db with phase := .running } }
  | capture {records : List (Nat × Record K V)} {db' : DBImpl K V} :
      db.phase = .running → db.capture records = some db' →
      Stepped s db (.capture records) { s with db := some db' }
  | addRecord {w : Writing K V} : db.writing = some w → w.logged = false →
      Stepped s db .addRecord { s with
        db := some { db with writing := some { w with logged := true } }
        disk := s.disk.addRecord db.log w.batch
        appended := s.appended ++ [(db.logfileNumber, w.batch)] }
  | insert {db' : DBImpl K V} : db.insert = some db' →
      Stepped s db .insert { s with db := some db' }
  | close {db' : DBImpl K V} {b : Batch K V} : db.close = some (db', b) →
      Stepped s db .close { s with
        db := some db', acknowledged := s.acknowledged ++ [(db.logfileNumber, b)] }
  | switchMemTable {family : Nat} {db' : DBImpl K V} {disk' : Disk K V} :
      db.phase = .running → db.writing = none →
      db.switchMemTable s.disk family = some (db', disk') →
      Stepped s db (.switchMemTable family) (s.update (db', disk'))
  | compactMemTable {family : Nat} {db' : DBImpl K V} {disk' : Disk K V} :
      db.phase = .running → db.compactMemTable s.disk family = some (db', disk') →
      Stepped s db (.compactMemTable family) (s.update (db', disk'))
  | removeObsoleteFiles : db.phase = .running →
      Stepped s db .removeObsoleteFiles { s with db := some (db.removeObsoleteFiles s.disk) }
  | removeFile {i : Nat} {db' : DBImpl K V} {disk' : Disk K V} :
      db.removeFile s.disk i = some (db', disk') →
      Stepped s db (.removeFile i) (s.update (db', disk'))
  | dropColumnFamily {family : Nat} {db' : DBImpl K V} {disk' : Disk K V} :
      db.phase = .running → db.dropColumnFamily s.disk family = some (db', disk') →
      Stepped s db (.dropColumnFamily family) (s.update (db', disk'))

/-- What an action does, guards included. -/
theorem stepped_of_stepDB (h : s.stepDB db a = some s') : Stepped s db a s' := by
  cases a with
  | openDB => cases h
  | crash =>
    cases h
    exact .crash
  | createColumnFamily name =>
    simp only [State.stepDB] at h
    split at h
    · rename_i hphase
      obtain ⟨r, hr, rfl⟩ := Option.map_eq_some_iff.1 h
      exact .createColumnFamily (.inl hphase) hr
    · rename_i first names hphase
      split at h
      · rename_i hfirst
        obtain ⟨r, hr, rfl⟩ := Option.map_eq_some_iff.1 h
        exact .createColumnFamily (.inr ⟨hfirst.2, names, hfirst.1 ▸ hphase⟩) hr
      · cases h
    · cases h
  | commitColumnFamily i =>
    simp only [State.stepDB] at h
    split at h
    · rename_i hphase
      obtain ⟨r, hr, rfl⟩ := Option.map_eq_some_iff.1 h
      refine .commitColumnFamily (.inl ⟨hphase, rfl⟩) ?_
      rw [← hphase]
      exact hr
    · rename_i first names hphase
      obtain ⟨r, hr, rfl⟩ := Option.map_eq_some_iff.1 h
      exact .commitColumnFamily (.inr ⟨first, names, hphase, rfl⟩) hr
    · cases h
  | recoverLogs reuseLogs full =>
    simp only [State.stepDB] at h
    split at h
    · rename_i hphase
      obtain ⟨r, hr, rfl⟩ := Option.map_eq_some_iff.1 h
      exact .recoverLogs hphase hr
    · cases h
  | editManifest =>
    simp only [State.stepDB] at h
    split at h
    · rename_i id ids hphase
      obtain ⟨r, hr, rfl⟩ := Option.map_eq_some_iff.1 h
      exact .editManifest hphase hr
    · cases h
  | finishOpen =>
    simp only [State.stepDB] at h
    split at h
    · rename_i hphase
      cases h
      exact .finishOpen hphase
    · cases h
  | capture records =>
    simp only [State.stepDB] at h
    split at h
    · rename_i hphase
      obtain ⟨db', hr, rfl⟩ := Option.map_eq_some_iff.1 h
      exact .capture hphase hr
    · cases h
  | addRecord =>
    simp only [State.stepDB] at h
    split at h
    · rename_i w hw
      split at h
      · cases h
      · rename_i hlogged
        cases h
        exact .addRecord hw (Bool.not_eq_true _ ▸ hlogged)
    · cases h
  | insert =>
    obtain ⟨db', hr, rfl⟩ := Option.map_eq_some_iff.1 h
    exact .insert hr
  | close =>
    obtain ⟨⟨db', b⟩, hr, rfl⟩ := Option.map_eq_some_iff.1 h
    exact .close hr
  | switchMemTable family =>
    simp only [State.stepDB] at h
    split at h
    · rename_i hphase
      split at h
      · rename_i hw
        obtain ⟨r, hr, rfl⟩ := Option.map_eq_some_iff.1 h
        exact .switchMemTable hphase (Option.isNone_iff_eq_none.1 hw) hr
      · cases h
    · cases h
  | compactMemTable family =>
    simp only [State.stepDB] at h
    split at h
    · rename_i hphase
      obtain ⟨r, hr, rfl⟩ := Option.map_eq_some_iff.1 h
      exact .compactMemTable hphase hr
    · cases h
  | removeObsoleteFiles =>
    simp only [State.stepDB] at h
    split at h
    · rename_i hphase
      cases h
      exact .removeObsoleteFiles hphase
    · cases h
  | removeFile i =>
    obtain ⟨r, hr, rfl⟩ := Option.map_eq_some_iff.1 h
    exact .removeFile hr
  | dropColumnFamily family =>
    simp only [State.stepDB] at h
    split at h
    · rename_i hphase
      obtain ⟨r, hr, rfl⟩ := Option.map_eq_some_iff.1 h
      exact .dropColumnFamily hphase hr
    · cases h

/-- A step is one of a process, or an opening. -/
theorem step_cases (h : (system K V).step s a = some s') :
    (∃ db, s.db = some db ∧ Stepped s db a s') ∨
      s.db = none ∧ ∃ names createMissing saveManifest db,
        s.disk.openDB names createMissing saveManifest = some db ∧ s' = { s with db := some db } := by
  simp only [system, State.step] at h
  split at h
  · rename_i db hdb
    exact .inl ⟨db, hdb, stepped_of_stepDB h⟩
  · rename_i hdb
    split at h
    · obtain ⟨db, hopen, rfl⟩ := Option.map_eq_some_iff.1 h
      exact .inr ⟨hdb, _, _, _, db, hopen, rfl⟩
    · cases h

end

end LevelDb.Database
