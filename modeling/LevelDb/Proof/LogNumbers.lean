import LevelDb.Proof.Names

/-!
# Log numbers and file numbers

`VersionSet::LogAndApply` asserts of an edit with a log number that it is not below the log number
the `VersionSet` has, and below its next file number. Log numbers are file numbers of the default
family, whose counter the others know nothing of.

* `calls`, `calls_spec`: the calls of `LogAndApply` with a log number in a step.
* `log_le_calls`: the first assertion holds of every call.
* `Ordered`, `asserts_of_ordered`: the steps after which the second one holds, too.
* `fails_of_not_ordered`: after any other step it can fail.
-/

namespace LevelDb.Database

open Transition

variable {K V : Type} [LinearOrder K]

/-! ## The calls -/

/-- The assertions of `LogAndApply` on an edit with this log number. -/
structure VersionSet.Asserts (v : VersionSet K V) (logNumber : Nat) : Prop where
  log_le : v.logNumber ≤ logNumber
  lt_next : logNumber < v.nextFileNumber

/-- `DB::Open` edits the manifest of the family. -/
def DBImpl.edits (db : DBImpl K V) (cf : ColumnFamily K V) : Bool :=
  db.saveManifest || (db.recoveryEdits cf.id).isSome || cf.versions.logNumber == 0

/-- The calls of `LogAndApply` with a log number that a possible step makes: the family, its
`VersionSet` at the call and the log number. -/
def State.calls (s : State K V) (a : Action K V) : List (Nat × VersionSet K V × Nat) :=
  match s.db with
  | none => []
  | some db =>
    match a with
    | .createColumnFamily _ => [(db.nextFamilyId, VersionSet.newDB.recover, db.logfileNumber)]
    | .compactMemTable f => (db.live? f).toList.map fun cf =>
      (f, { cf.versions with nextFileNumber := cf.versions.nextFileNumber + 1 }, cf.memLogNumber)
    | .editManifest =>
      match db.phase with
      | .editing (id :: _) => ((db.find? id).toList.filter db.edits).map fun cf =>
        (id, cf.versions, (db.startMemTable cf).memLogNumber)
      | _ => []
    | _ => []

section
variable {s s' : State K V} {db db' : DBImpl K V} {disk disk' : Disk K V} {a : Action K V}
  {appended acknowledged : List (Nat × Batch K V)} {cf cf' : ColumnFamily K V} {f : Nat}

omit [LinearOrder K] in
theorem startMemTable_versions (db : DBImpl K V) (cf : ColumnFamily K V) :
    (db.startMemTable cf).versions = cf.versions := by
  rw [DBImpl.startMemTable]
  split <;> rfl

omit [LinearOrder K] in
theorem startMemTable_id (db : DBImpl K V) (cf : ColumnFamily K V) :
    (db.startMemTable cf).id = cf.id := by
  rw [DBImpl.startMemTable]
  split <;> rfl

omit [LinearOrder K] in
theorem editManifest_some (h : db.editManifest disk f = some (db', disk')) :
    ∃ cf, db.find? f = some cf ∧
      (db.edits cf = true ∧ (∃ versions,
          versions = cf.versions.logAndApply ((db.recoveryEdits f).getD [])
            (db.startMemTable cf).memLogNumber ∧
          db' = db.set f { db.startMemTable cf with versions } ∧
          disk' = { disk with manifests := Function.update disk.manifests f versions }) ∨
        db.edits cf = false ∧ db' = db.set f (db.startMemTable cf) ∧ disk' = disk) := by
  obtain ⟨cf, hfind, heq⟩ := Option.map_eq_some_iff.1 h
  refine ⟨cf, hfind, ?_⟩
  obtain ⟨-, rfl⟩ := find?_some hfind
  have hversions := startMemTable_versions db cf
  simp only [hversions] at heq
  split at heq
  · rename_i hedits
    cases heq
    exact .inl ⟨hedits, _, rfl, rfl, rfl⟩
  · rename_i hedits
    cases heq
    exact .inr ⟨Bool.not_eq_true _ ▸ hedits, rfl, rfl⟩

/-- **The calls are all that changes the manifests.** -/
theorem calls_spec (h : (system K V).step s a = some s') :
    (∀ c ∈ s.calls a, ∃ tables,
      s'.disk.manifests c.1 = c.2.1.logAndApply tables c.2.2) ∧
    ∀ f, (∀ c ∈ s.calls a, c.1 ≠ f) → s'.disk.manifests f = s.disk.manifests f := by
  rcases step_cases h with ⟨db, hdb, hstep⟩ | ⟨hdb, _, _, _, _, -, rfl⟩
  swap
  · rw [State.calls, hdb]
    exact ⟨by simp, fun _ _ => rfl⟩
  unfold State.calls
  rw [hdb]
  cases hstep with
  | createColumnFamily _ hcreate =>
    rw [DBImpl.createColumnFamily] at hcreate
    split at hcreate
    · cases hcreate
      simp only [List.mem_singleton, forall_eq]
      refine ⟨⟨[], Function.update_self ..⟩, fun f hf => Function.update_of_ne (Ne.symm hf) ..⟩
    · cases hcreate
  | @compactMemTable f _ _ _ hcompact =>
    obtain ⟨cf, hfind, hcompact⟩ := Option.bind_eq_some_iff.1 hcompact
    obtain ⟨imm, -, heq⟩ := Option.map_eq_some_iff.1 hcompact
    cases heq
    simp only [hfind, Option.toList_some, List.map_singleton, List.mem_singleton, forall_eq]
    exact ⟨⟨_, Function.update_self ..⟩, fun f hf => Function.update_of_ne (Ne.symm hf) ..⟩
  | @editManifest id ids _ _ hphase hedit =>
    obtain ⟨cf, hfind, hedit⟩ := editManifest_some hedit
    have hfind' : db.find? id = some cf := hfind
    simp only [hphase, hfind', Option.toList_some]
    rcases hedit with ⟨hedits, _, rfl, -, rfl⟩ | ⟨hedits, -, rfl⟩
    · have hedits' : db.edits cf = true := hedits
      simp only [List.filter_cons_of_pos hedits', List.filter_nil, List.map_singleton,
        List.mem_singleton, forall_eq]
      exact ⟨⟨_, Function.update_self ..⟩, fun f hf => Function.update_of_ne (Ne.symm hf) ..⟩
    · have hedits' : ¬ db.edits cf = true := Bool.not_eq_true _ ▸ hedits
      simp only [List.filter_cons_of_neg hedits', List.filter_nil, List.map_nil]
      exact ⟨by simp, fun _ _ => rfl⟩
  | recoverLogs _ hrecover =>
    refine ⟨by simp, fun f _ => ?_⟩
    rw [DBImpl.recoverLogs] at hrecover
    split at hrecover
    · obtain ⟨cf, -, -, rfl, -⟩ := switchLog_some hrecover
      rfl
    · cases hrecover
      rfl
  | switchMemTable _ _ hswitch =>
    refine ⟨by simp, fun f _ => ?_⟩
    obtain ⟨⟨db1, disk1⟩, hswitch, h⟩ := Option.bind_eq_some_iff.1 hswitch
    obtain ⟨cf, -, -, rfl, -⟩ := switchLog_some hswitch
    obtain ⟨cf', -, h⟩ := Option.bind_eq_some_iff.1 h
    split at h
    · cases h
      rfl
    · cases h
  | commitColumnFamily _ hcommit =>
    obtain ⟨new, -, heq⟩ := Option.map_eq_some_iff.1 hcommit
    cases heq
    exact ⟨by simp, fun _ _ => rfl⟩
  | dropColumnFamily _ hdrop =>
    obtain ⟨cf, -, hdrop⟩ := Option.bind_eq_some_iff.1 hdrop
    split at hdrop
    · cases hdrop
      exact ⟨by simp, fun _ _ => rfl⟩
    · cases hdrop
  | removeFile hremove =>
    obtain ⟨k, -, -, rfl⟩ := removeFile_some hremove
    exact ⟨by simp, fun _ _ => rfl⟩
  | _ => exact ⟨by simp, fun _ _ => rfl⟩

/-- The first assertion holds of every call. -/
theorem log_le_calls (hinv : Inv s) (h : (system K V).step s a = some s') :
    ∀ c ∈ s.calls a, c.2.1.logNumber ≤ c.2.2 := by
  rcases step_cases h with ⟨db, hdb, hstep⟩ | ⟨hdb, _, _, _, _, -, rfl⟩
  swap
  · rw [State.calls, hdb]
    nofun
  unfold State.calls
  rw [hdb]
  cases hstep with
  | createColumnFamily _ _ =>
    simp only [List.mem_singleton, forall_eq]
    exact Nat.zero_le _
  | compactMemTable hphase hcompact =>
    obtain ⟨cf, hfind, -⟩ := Option.bind_eq_some_iff.1 hcompact
    obtain ⟨hcf, -, hlive⟩ := live?_some hfind
    obtain ⟨n, hr⟩ := hinv.running hdb hphase
    simp only [hfind, Option.toList_some, List.map_singleton, List.mem_singleton, forall_eq]
    exact (hr.sound cf hcf hlive).log_le
  | @editManifest id ids _ _ hphase hedit =>
    obtain ⟨n, he⟩ := hinv.editing hdb hphase
    simp only [hphase]
    intro c hc
    obtain ⟨cf, hfound, rfl⟩ := List.mem_map.1 hc
    obtain ⟨hcf, hid⟩ := find?_some (Option.mem_toList.1 (List.mem_of_mem_filter hfound))
    have hstart : (db.startMemTable cf).memLogNumber = cf.start n := by
      rw [startMemTable_eq he.logging.log]
    show cf.versions.logNumber ≤ (db.startMemTable cf).memLogNumber
    rw [hstart]
    exact (he.unedited cf hcf (hid ▸ List.mem_cons_self)).log_le
  | _ => nofun

end

/-! ## The counters -/

/-- What is known of file numbers and logs in every run. -/
structure Counted (s : State K V) : Prop where
  manifests : ∀ f, 2 ≤ (s.disk.manifests f).nextFileNumber
  logs : ∀ l ∈ s.disk.logs, 3 ≤ l.number
  families : ∀ db, s.db = some db → ∀ cf ∈ db.cfs ++ db.creating, 3 ≤ cf.versions.nextFileNumber

/-- The family came out of the other one, and not with a new immutable memtable. -/
structure Later (cf c : ColumnFamily K V) : Prop where
  id : c.id = cf.id
  next : cf.versions.nextFileNumber ≤ c.versions.nextFileNumber
  imm : c.imm = none ∨ c.imm = cf.imm ∧ c.memLogNumber = cf.memLogNumber

section
variable {s s' : State K V} {db db' : DBImpl K V} {disk disk' : Disk K V} {a : Action K V}
  {appended acknowledged : List (Nat × Batch K V)} {cf cf' : ColumnFamily K V} {f : Nat}

omit [LinearOrder K] in
theorem Later.refl (cf : ColumnFamily K V) : Later cf cf := ⟨rfl, le_rfl, .inr ⟨rfl, rfl⟩⟩

omit [LinearOrder K] in
theorem later_set (hcf : cf ∈ db.cfs) (h : Later cf cf') {c : ColumnFamily K V}
    (hc : c ∈ (db.set f cf').cfs) : ∃ c0 ∈ db.cfs, Later c0 c := by
  rcases mem_set hc with rfl | ⟨hc, -⟩
  · exact ⟨cf, hcf, h⟩
  · exact ⟨c, hc, Later.refl c⟩

omit [LinearOrder K] in
theorem later_map {g : ColumnFamily K V → ColumnFamily K V} (hcfs : db'.cfs = db.cfs.map g)
    (hg : ∀ cf ∈ db.cfs, Later cf (g cf)) {c : ColumnFamily K V} (hc : c ∈ db'.cfs) :
    ∃ cf ∈ db.cfs, Later cf c := by
  rw [hcfs] at hc
  obtain ⟨cf, hcf, rfl⟩ := List.mem_map.1 hc
  exact ⟨cf, hcf, hg cf hcf⟩

/-- The log that is opened has a number of the default family's, which moves on. -/
theorem later_switchLog (hn : Named appended disk db) (h : db.switchLog disk = some (db', disk')) :
    ∃ dflt ∈ db.cfs, dflt.id = 0 ∧ db'.log = some dflt.versions.nextFileNumber ∧
      disk'.logs = disk.logs ++ [⟨dflt.versions.nextFileNumber, []⟩] ∧
      db'.creating = db.creating ∧ db'.cfs = db.cfs.map fun cf =>
        if cf.id = 0 then cf.setNextFileNumber (cf.versions.nextFileNumber + 1) else cf := by
  obtain ⟨dflt, hdflt, hzero, rfl, rfl⟩ := switchLog_some h
  refine ⟨dflt, hdflt, hzero, rfl, rfl, rfl, List.map_congr_left fun cf hcf => ?_⟩
  by_cases h0 : cf.id = 0
  · rw [if_pos h0, if_pos h0, hn.eq_of_id hcf hdflt (h0.trans hzero.symm)]
  · rw [if_neg h0, if_neg h0]

/-- What a step does to the families: one that it gives a new immutable memtable has its log number
from the default family. -/
theorem Stepped.later (hinv : Inv s) (hdb : s.db = some db) (hstep : Stepped s db a s')
    (hdb' : s'.db = some db') {c : ColumnFamily K V} (hc : c ∈ db'.cfs) :
    (∃ cf ∈ db.cfs, Later cf c) ∨ c ∈ db.creating ∧ c.imm = none ∨
      ∃ f, a = .switchMemTable f ∧ ∃ dflt ∈ db.cfs, dflt.id = 0 ∧ ∃ cf ∈ db.cfs, cf.id = f ∧
        c.memLogNumber = dflt.versions.nextFileNumber ∧
        cf.versions.nextFileNumber ≤ c.versions.nextFileNumber := by
  have hn := hinv.named db hdb
  cases hstep with
  | crash => cases hdb'
  | createColumnFamily _ hcreate =>
    obtain ⟨-, -, -, -, new, -, rfl⟩ := named_createColumnFamily hn hinv.stored hcreate
    cases hdb'
    exact .inl ⟨c, hc, Later.refl c⟩
  | commitColumnFamily hphase hcommit =>
    obtain ⟨new, hnew, heq⟩ := Option.map_eq_some_iff.1 hcommit
    cases heq
    cases hdb'
    rcases (List.mem_orderedInsert _).1 hc with rfl | hc
    · have hnew' := List.mem_of_getElem? hnew
      exact .inr (.inl ⟨hnew', (hn.fresh _ hnew').imm⟩)
    · exact .inl ⟨c, hc, Later.refl c⟩
  | @recoverLogs reuseLogs full _ _ hphase hrecover =>
    have hcreating := hinv.creating hdb hphase
    obtain ⟨g, hg, hall⟩ := readLogs_spec hn hinv.stored hcreating reuseLogs full
    have hlater : ∀ cf ∈ db.cfs, Later cf (g cf) := fun cf hcf =>
      have hsame := (hall cf hcf).1
      ⟨hsame.id, hsame.next, .inl (hsame.imm.trans (hcreating.imm cf hcf))⟩
    cases hdb'
    rw [DBImpl.recoverLogs] at hrecover
    split at hrecover
    · obtain ⟨dflt, hdflt, hzero, rfl, rfl⟩ := switchLog_some hrecover
      rcases mem_set hc with rfl | ⟨hc, -⟩
      · obtain ⟨cf, hcf, hcf'⟩ := later_map hg hlater hdflt
        exact .inl ⟨cf, hcf, hcf'.id, hcf'.next.trans (Nat.le_succ _), hcf'.imm⟩
      · exact .inl (later_map hg hlater hc)
    · cases hrecover
      exact .inl (later_map hg hlater hc)
  | @editManifest id ids _ _ hphase hedit =>
    obtain ⟨n, he⟩ := hinv.editing hdb hphase
    obtain ⟨cf, hfind, hedit⟩ := editManifest_some hedit
    obtain ⟨hcf, hid⟩ := find?_some hfind
    have himm := (he.unedited cf hcf (hid ▸ List.mem_cons_self)).imm
    have hstarted : DBImpl.startMemTable { db with phase := .editing ids } cf = _ :=
      startMemTable_eq he.logging.log
    cases hdb'
    rcases hedit with ⟨-, _, rfl, rfl, -⟩ | ⟨-, rfl, -⟩
    · rw [hstarted] at hc
      refine .inl (later_set hcf ?_ hc)
      exact ⟨rfl, le_rfl, .inl himm⟩
    · rw [hstarted] at hc
      refine .inl (later_set hcf ?_ hc)
      exact ⟨rfl, le_rfl, .inl himm⟩
  | finishOpen => cases hdb'; exact .inl ⟨c, hc, Later.refl c⟩
  | capture _ hcapture =>
    obtain ⟨-, -, rfl⟩ := capture_some hcapture
    cases hdb'
    exact .inl ⟨c, hc, Later.refl c⟩
  | addRecord => cases hdb'; exact .inl ⟨c, hc, Later.refl c⟩
  | insert hinsert =>
    obtain ⟨w, -, -, -, rfl⟩ := insert_some hinsert
    cases hdb'
    refine .inl (later_map rfl (fun cf _ => ?_) hc)
    obtain ⟨mem, heq⟩ := insertInto_eq w cf
    rw [heq]
    exact ⟨rfl, le_rfl, .inr ⟨rfl, rfl⟩⟩
  | close hclose =>
    obtain ⟨w, -, -, -, rfl⟩ := close_some hclose
    cases hdb'
    refine .inl (later_map rfl (fun cf _ => ?_) hc)
    exact ⟨rfl, le_rfl, .inr ⟨rfl, rfl⟩⟩
  | @switchMemTable f _ _ hphase hw hswitch =>
    obtain ⟨db1, cf, hlog, hfind, -, rfl⟩ := switchMemTable_some hswitch
    obtain ⟨dflt, hdflt, hzero, hnumber, -, -, hcfs⟩ := later_switchLog hn hlog
    obtain ⟨hcf, hid, -⟩ := live?_some hfind
    cases hdb'
    have hlater : ∀ cf ∈ db.cfs, Later cf
        (if cf.id = 0 then cf.setNextFileNumber (cf.versions.nextFileNumber + 1) else cf) := by
      intro cf hcf
      split
      · exact ⟨rfl, Nat.le_succ _, .inr ⟨rfl, rfl⟩⟩
      · exact Later.refl cf
    rcases mem_set hc with rfl | ⟨hc, -⟩
    · obtain ⟨cf0, hcf0, hlater0⟩ := later_map hcfs hlater hcf
      refine .inr (.inr ⟨f, rfl, dflt, hdflt, hzero, cf0, hcf0, hlater0.id.symm.trans hid, ?_,
        hlater0.next⟩)
      show db1.logfileNumber = _
      rw [DBImpl.logfileNumber, hnumber]
      rfl
    · exact .inl (later_map hcfs hlater hc)
  | compactMemTable hphase hcompact =>
    obtain ⟨cf, imm, _, hfind, -, rfl, rfl, -⟩ := compactMemTable_some hcompact
    cases hdb'
    refine .inl (later_set (live?_some hfind).1 ?_ hc)
    exact ⟨rfl, Nat.le_succ _, .inl rfl⟩
  | removeObsoleteFiles => cases hdb'; exact .inl ⟨c, hc, Later.refl c⟩
  | removeFile hremove =>
    obtain ⟨k, -, rfl, -⟩ := removeFile_some hremove
    cases hdb'
    exact .inl ⟨c, hc, Later.refl c⟩
  | dropColumnFamily hphase hdrop =>
    obtain ⟨-, -, -, -, cf, cf', hcf, -, heq, rfl⟩ := named_dropColumnFamily hn hinv.stored hdrop
    cases hdb'
    refine .inl (later_set hcf ?_ hc)
    rw [heq]
    exact ⟨rfl, le_rfl, .inl rfl⟩

/-- A log that a step makes has a number of the default family's. -/
theorem Stepped.logs (hinv : Inv s) (hdb : s.db = some db) (hstep : Stepped s db a s') {l : LogFile K V}
    (hl : l ∈ s'.disk.logs) :
    (∃ l0 ∈ s.disk.logs, l0.number = l.number) ∨
      ∃ cf ∈ db.cfs, cf.versions.nextFileNumber ≤ l.number := by
  have hn := hinv.named db hdb
  cases hstep with
  | createColumnFamily _ hcreate =>
    obtain ⟨-, -, hlogs, -⟩ := named_createColumnFamily hn hinv.stored hcreate
    exact .inl ⟨l, hlogs ▸ hl, rfl⟩
  | commitColumnFamily hphase hcommit =>
    obtain ⟨new, -, heq⟩ := Option.map_eq_some_iff.1 hcommit
    cases heq
    exact .inl ⟨l, hl, rfl⟩
  | @recoverLogs reuseLogs full _ _ hphase hrecover =>
    obtain ⟨g, hg, hall⟩ := readLogs_spec hn hinv.stored (hinv.creating hdb hphase) reuseLogs full
    rw [DBImpl.recoverLogs] at hrecover
    split at hrecover
    · obtain ⟨dflt, hdflt, hzero, rfl, rfl⟩ := switchLog_some hrecover
      rcases List.mem_append.1 hl with hl | hl
      · exact .inl ⟨l, hl, rfl⟩
      · rw [List.mem_singleton.1 hl]
        obtain ⟨cf, hcf, rfl⟩ := List.mem_map.1 (hg ▸ hdflt)
        exact .inr ⟨cf, hcf, (hall cf hcf).1.next⟩
    · cases hrecover
      exact .inl ⟨l, hl, rfl⟩
  | editManifest hphase hedit =>
    obtain ⟨cf, -, hedit⟩ := editManifest_some hedit
    rcases hedit with ⟨-, _, rfl, -, rfl⟩ | ⟨-, -, rfl⟩
    · exact .inl ⟨l, hl, rfl⟩
    · exact .inl ⟨l, hl, rfl⟩
  | addRecord =>
    obtain ⟨l0, hl0, rfl⟩ := List.mem_map.1 hl
    exact .inl ⟨l0, hl0, (addRecord_number _ _ l0).symm⟩
  | switchMemTable hphase hw hswitch =>
    obtain ⟨db1, cf, hlog, -, -, rfl⟩ := switchMemTable_some hswitch
    obtain ⟨dflt, hdflt, -, -, hlogs, -⟩ := later_switchLog hn hlog
    have hl' : l ∈ s.disk.logs ++ [⟨dflt.versions.nextFileNumber, []⟩] := hlogs ▸ hl
    rcases List.mem_append.1 hl' with hl | hl
    · exact .inl ⟨l, hl, rfl⟩
    · rw [List.mem_singleton.1 hl]
      exact .inr ⟨dflt, hdflt, le_rfl⟩
  | compactMemTable hphase hcompact =>
    obtain ⟨cf, imm, _, -, -, -, -, rfl⟩ := compactMemTable_some hcompact
    exact .inl ⟨l, hl, rfl⟩
  | removeFile hremove =>
    obtain ⟨k, -, -, rfl⟩ := removeFile_some hremove
    exact .inl ⟨l, List.mem_of_mem_filter hl, rfl⟩
  | dropColumnFamily hphase hdrop =>
    obtain ⟨-, -, hlogs, -⟩ := named_dropColumnFamily hn hinv.stored hdrop
    exact .inl ⟨l, hlogs ▸ hl, rfl⟩
  | _ => exact .inl ⟨l, hl, rfl⟩

/-- A family whose creation starts has the next file number 3. -/
theorem Stepped.creating (hstep : Stepped s db a s') (hdb' : s'.db = some db')
    {c : ColumnFamily K V} (hc : c ∈ db'.creating) :
    c ∈ db.creating ∨ c.versions.nextFileNumber = 3 := by
  cases hstep with
  | crash => cases hdb'
  | createColumnFamily _ hcreate =>
    rw [DBImpl.createColumnFamily] at hcreate
    split at hcreate
    · cases hcreate
      cases hdb'
      rcases List.mem_append.1 hc with hc | hc
      · exact .inl hc
      · rw [List.mem_singleton.1 hc]
        exact .inr rfl
    · cases hcreate
  | commitColumnFamily hphase hcommit =>
    obtain ⟨new, -, heq⟩ := Option.map_eq_some_iff.1 hcommit
    cases heq
    cases hdb'
    exact .inl (List.mem_of_mem_eraseIdx hc)
  | recoverLogs hphase hrecover =>
    have hframe := fun reuseLogs full => (@readLogs_frame _ _ _ s.disk db reuseLogs full).1
    cases hdb'
    rw [DBImpl.recoverLogs] at hrecover
    split at hrecover
    · obtain ⟨dflt, -, -, rfl, rfl⟩ := switchLog_some hrecover
      exact .inl (hframe _ _ ▸ hc)
    · cases hrecover
      exact .inl (hframe _ _ ▸ hc)
  | editManifest hphase hedit =>
    obtain ⟨cf, -, hedit⟩ := editManifest_some hedit
    cases hdb'
    rcases hedit with ⟨-, _, rfl, rfl, -⟩ | ⟨-, rfl, -⟩
    · exact .inl hc
    · exact .inl hc
  | capture _ hcapture =>
    obtain ⟨-, -, rfl⟩ := capture_some hcapture
    cases hdb'
    exact .inl hc
  | insert hinsert =>
    obtain ⟨w, -, -, -, rfl⟩ := insert_some hinsert
    cases hdb'
    exact .inl hc
  | close hclose =>
    obtain ⟨w, -, -, -, rfl⟩ := close_some hclose
    cases hdb'
    exact .inl hc
  | switchMemTable hphase hw hswitch =>
    obtain ⟨db1, cf, hlog, -, -, rfl⟩ := switchMemTable_some hswitch
    obtain ⟨dflt, -, -, rfl, rfl⟩ := switchLog_some hlog
    cases hdb'
    exact .inl hc
  | compactMemTable hphase hcompact =>
    obtain ⟨cf, imm, _, -, -, -, rfl, -⟩ := compactMemTable_some hcompact
    cases hdb'
    exact .inl hc
  | removeFile hremove =>
    obtain ⟨k, -, rfl, -⟩ := removeFile_some hremove
    cases hdb'
    exact .inl hc
  | dropColumnFamily hphase hdrop =>
    obtain ⟨cf, -, hdrop⟩ := Option.bind_eq_some_iff.1 hdrop
    split at hdrop
    · cases hdrop
      cases hdb'
      exact .inl hc
    · cases hdrop
  | _ =>
    cases hdb'
    exact .inl hc

omit [LinearOrder K] in
/-- The calls come from a counter past the number of the first manifest. -/
theorem next_calls (hcount : Counted s) : ∀ c ∈ s.calls a, 2 ≤ c.2.1.nextFileNumber := by
  unfold State.calls
  split
  · nofun
  rename_i db hdb
  have hfamilies : ∀ cf ∈ db.cfs, 2 ≤ cf.versions.nextFileNumber := fun cf hcf =>
    (Nat.le_succ 2).trans (hcount.families db hdb cf (List.mem_append_left _ hcf))
  split
  · simp [VersionSet.recover, VersionSet.newDB]
  · intro c hc
    obtain ⟨cf, hfound, rfl⟩ := List.mem_map.1 hc
    have hcf := (live?_some (Option.mem_toList.1 hfound)).1
    exact (hfamilies cf hcf).trans (Nat.le_succ _)
  · split
    · intro c hc
      obtain ⟨cf, hfound, rfl⟩ := List.mem_map.1 hc
      exact hfamilies cf (find?_some (Option.mem_toList.1 (List.mem_of_mem_filter hfound))).1
    · nofun
  · nofun

/-- A step keeps what is known of the numbers. -/
theorem counted_step (hinv : Inv s) (hcount : Counted s) (h : (system K V).step s a = some s') :
    Counted s' := by
  obtain ⟨hcalls, hother⟩ := calls_spec h
  have hnext := next_calls hcount (a := a)
  have hmanifests : ∀ f, 2 ≤ (s'.disk.manifests f).nextFileNumber := by
    intro f
    by_cases hf : ∀ c ∈ s.calls a, c.1 ≠ f
    · rw [hother f hf]
      exact hcount.manifests f
    · push Not at hf
      obtain ⟨c, hc, rfl⟩ := hf
      obtain ⟨tables, heq⟩ := hcalls c hc
      rw [heq]
      exact hnext c hc
  rcases step_cases h with ⟨db, hdb, hstep⟩ | ⟨hdb, _, _, _, db, hopen, rfl⟩
  · have hfamilies := hcount.families db hdb
    refine ⟨hmanifests, fun l hl => ?_, fun db' hdb' c hc => ?_⟩
    · rcases hstep.logs hinv hdb hl with ⟨l0, hl0, heq⟩ | ⟨cf, hcf, hle⟩
      · exact heq ▸ hcount.logs l0 hl0
      · exact (hfamilies cf (List.mem_append_left _ hcf)).trans hle
    · rcases List.mem_append.1 hc with hc | hc
      · rcases hstep.later hinv hdb hdb' hc with ⟨cf, hcf, hlater⟩ | ⟨hc, -⟩ |
          ⟨f, -, dflt, -, -, cf, hcf, -, -, hle⟩
        · exact (hfamilies cf (List.mem_append_left _ hcf)).trans hlater.next
        · exact hfamilies c (List.mem_append_right _ hc)
        · exact (hfamilies cf (List.mem_append_left _ hcf)).trans hle
      · rcases hstep.creating hdb' hc with hc | hthree
        · exact hfamilies c (List.mem_append_right _ hc)
        · exact hthree.ge
  · refine ⟨hcount.manifests, hcount.logs, fun db' hdb' c hc => ?_⟩
    cases hdb'
    rw [Disk.openDB] at hopen
    split at hopen
    · cases hopen
      simp only [List.append_nil] at hc
      obtain ⟨f, -, rfl⟩ := List.mem_map.1 hc
      exact Nat.succ_le_succ (hcount.manifests f.1)
    · cases hopen

theorem counted_reachable (h : (system K V).Reachable s) : Counted s := by
  refine System.ReachableBy.invariant_of (fun _ => inv_reachable) h (fun s hs => ?_)
    fun s a s' hinv hcount _ hstep => counted_step hinv hcount hstep
  rw [show s = State.empty from hs]
  exact ⟨fun _ => le_rfl, nofun, nofun⟩

/-! ## The second assertion -/

/-- No family is created while the database is open; where `DB::Open` opens its log for a family it
will edit the manifest of, the default family's next file number is below that family's; and where a
memtable is switched, it is not above. -/
def State.Ordered (s : State K V) (a : Action K V) : Prop :=
  match s.db with
  | none => True
  | some db =>
    match a with
    | .createColumnFamily _ => db.phase ≠ .running
    | .recoverLogs reuseLogs full =>
      let read := db.readLogs s.disk reuseLogs full
      ∀ dflt ∈ read.cfs, dflt.id = 0 → ∀ cf ∈ read.cfs, cf.id ≠ 0 → cf.mem.isNone = true →
        read.edits cf = true → dflt.versions.nextFileNumber < cf.versions.nextFileNumber
    | .switchMemTable f => ∀ dflt ∈ db.cfs, dflt.id = 0 → ∀ cf ∈ db.cfs, cf.id = f →
        dflt.versions.nextFileNumber ≤ cf.versions.nextFileNumber
    | _ => True

instance (s : State K V) (a : Action K V) : Decidable (s.Ordered a) :=
  match h : s.db with
  | none => .isTrue (by simp [State.Ordered, h])
  | some db =>
    match a with
    | .createColumnFamily _ => decidable_of_iff (db.phase ≠ .running) (by simp [State.Ordered, h])
    | .recoverLogs reuseLogs full =>
      let read := db.readLogs s.disk reuseLogs full
      decidable_of_iff (∀ dflt ∈ read.cfs, dflt.id = 0 → ∀ cf ∈ read.cfs, cf.id ≠ 0 →
        cf.mem.isNone = true → read.edits cf = true →
          dflt.versions.nextFileNumber < cf.versions.nextFileNumber) (by simp [State.Ordered, h, read])
    | .switchMemTable f =>
      decidable_of_iff (∀ dflt ∈ db.cfs, dflt.id = 0 → ∀ cf ∈ db.cfs, cf.id = f →
        dflt.versions.nextFileNumber ≤ cf.versions.nextFileNumber) (by simp [State.Ordered, h])
    | .openDB .. | .commitColumnFamily _ | .editManifest | .finishOpen | .capture _ | .addRecord
    | .insert | .close | .compactMemTable _ | .removeObsoleteFiles | .removeFile _
    | .dropColumnFamily _ | .crash => .isTrue (by simp [State.Ordered, h])

/-- The numbers of the edits to come are file numbers the family has passed. -/
structure Paced (db : DBImpl K V) : Prop where
  imm : ∀ cf ∈ db.cfs, cf.imm.isSome = true → cf.memLogNumber ≤ cf.versions.nextFileNumber
  edit : ∀ ids, db.phase = .editing ids → ∀ cf ∈ db.cfs, cf.id ∈ ids → db.edits cf = true →
    cf.start db.logfileNumber < cf.versions.nextFileNumber

omit [LinearOrder K] in
theorem start_of_none (h : cf.mem = none) (n : Nat) : cf.start n = n := by
  rw [ColumnFamily.start, h]

omit [LinearOrder K] in
theorem start_of_some {m : List (Nat × Record K V)} (h : cf.mem = some m) (n : Nat) :
    cf.start n = cf.memLogNumber := by
  rw [ColumnFamily.start, h]

/-- `DB::Open` has read the logs and opened one. -/
theorem paced_recoverLogs {reuseLogs : Bool} {full : Nat → List (Nat × Record K V) → Bool}
    (hinv : Inv s) (hdb : s.db = some db) (hphase : db.phase = .creating [])
    (hfamilies : ∀ cf ∈ db.cfs, 3 ≤ cf.versions.nextFileNumber)
    (hordered : s.Ordered (.recoverLogs reuseLogs full))
    (h : db.recoverLogs s.disk reuseLogs full = some (db', disk')) : Paced db' := by
  have hcreating := hinv.creating hdb hphase
  obtain ⟨g, hg, hall⟩ := readLogs_spec (hinv.named db hdb) hinv.stored hcreating reuseLogs full
  simp only [State.Ordered, hdb] at hordered
  rw [DBImpl.recoverLogs] at h
  generalize db.readLogs s.disk reuseLogs full = read at h hg hall hordered
  have himm : ∀ c ∈ read.cfs, c.imm = none := by
    intro c hc
    obtain ⟨cf, hcf, rfl⟩ := List.mem_map.1 (hg ▸ hc)
    exact (hall cf hcf).1.imm.trans (hcreating.imm cf hcf)
  split at h
  · -- a new log, for all families but those created just now
    rename_i hnone
    rw [Option.isNone_iff_eq_none] at hnone
    obtain ⟨dflt, hdflt, hzero, rfl, rfl⟩ := switchLog_some h
    have hstart : ∀ c ∈ read.cfs, c.mem = none ∨
        c.start dflt.versions.nextFileNumber < c.versions.nextFileNumber := by
      intro c hc
      obtain ⟨cf, hcf, rfl⟩ := List.mem_map.1 (hg ▸ hc)
      obtain ⟨hsame, -, hfed⟩ := hall cf hcf
      rw [hnone] at hfed
      rcases hfed with ⟨-, hmem, hnumber, -⟩ | ⟨_, _, _, hlog, _⟩
      · rcases hcreating.mem cf hcf with hmem0 | ⟨hfresh, hzero0⟩
        · exact .inl (hmem.trans hmem0)
        · right
          have h3 := (hfamilies cf hcf).trans hsame.next
          rw [start_of_some (hmem.trans hfresh.mem), hnumber, hfresh.start, hzero0]
          omega
      · cases hlog
    refine ⟨fun c hc hsome => ?_, fun ids hids c hc hin hedits => ?_⟩
    · have hc0 : c.imm = none := by
        rcases mem_set hc with rfl | ⟨hc, -⟩
        · exact himm dflt hdflt
        · exact himm c hc
      rw [hc0] at hsome
      cases hsome
    · show c.start dflt.versions.nextFileNumber < _
      rcases mem_set hc with rfl | ⟨hc, hne⟩
      · show dflt.start dflt.versions.nextFileNumber < dflt.versions.nextFileNumber + 1
        rcases hstart dflt hdflt with hmem | hlt
        · rw [start_of_none hmem]
          exact Nat.lt_succ_self _
        · exact Nat.lt_succ_of_lt hlt
      · rcases hstart c hc with hmem | hlt
        · rw [start_of_none hmem]
          exact hordered dflt hdflt hzero c hc hne (Option.isNone_iff_eq_none.2 hmem) hedits
        · exact hlt
  · -- the last log is open again, its number is used
    rename_i hsome
    cases h
    refine ⟨fun c hc hsome => ?_, fun ids hids c hc hin hedits => ?_⟩
    · rw [himm c hc] at hsome
      cases hsome
    · obtain ⟨cf, hcf, rfl⟩ := List.mem_map.1 (hg ▸ hc)
      obtain ⟨-, hnumbers, hfed⟩ := hall cf hcf
      rcases hfed with ⟨hnone, -⟩ | ⟨before, l, hlogs, -, -, hmem, hnumber, -⟩
      · exact absurd (Option.isNone_iff_eq_none.2 hnone) hsome
      · rw [start_of_some hmem, hnumber]
        exact hnumbers l (hlogs ▸ List.mem_append_right before (List.mem_singleton_self l))

/-- A state in which `DB::Open` has manifests to edit comes from one of these steps. -/
theorem Stepped.editing (hinv : Inv s) (hdb : s.db = some db) (hstep : Stepped s db a s')
    (hdb' : s'.db = some db') {ids : List Nat} (hphase : db'.phase = .editing ids) :
    (∃ reuseLogs full, a = .recoverLogs reuseLogs full) ∨ a = .editManifest ∨
      db.phase = .editing ids ∧ db'.cfs = db.cfs ∧ db'.edits = db.edits ∧ db'.log = db.log := by
  cases hstep with
  | crash => cases hdb'
  | recoverLogs => exact .inl ⟨_, _, rfl⟩
  | editManifest => exact .inr (.inl rfl)
  | createColumnFamily hphase0 hcreate =>
    rw [DBImpl.createColumnFamily] at hcreate
    split at hcreate
    · cases hcreate
      cases hdb'
      rcases hphase0 with hphase0 | ⟨-, names, hphase0⟩
      · cases hphase0.symm.trans hphase
      · cases hphase0.symm.trans hphase
    · cases hcreate
  | commitColumnFamily hphase0 hcommit =>
    obtain ⟨new, -, heq⟩ := Option.map_eq_some_iff.1 hcommit
    cases heq
    cases hdb'
    rcases hphase0 with ⟨-, rfl⟩ | ⟨_, _, -, rfl⟩
    · cases hphase
    · cases hphase
  | finishOpen =>
    cases hdb'
    cases hphase
  | capture hphase0 hcapture =>
    cases hdb'
    rw [capture_phase hcapture] at hphase
    cases hphase0.symm.trans hphase
  | addRecord hw _ =>
    have hphase0 := hinv.running_of_writing hdb hw
    cases hdb'
    cases hphase0.symm.trans hphase
  | insert hinsert =>
    obtain ⟨w, hw, -⟩ := Option.bind_eq_some_iff.1 hinsert
    have hphase0 := hinv.running_of_writing hdb hw
    cases hdb'
    rw [insert_phase hinsert] at hphase
    cases hphase0.symm.trans hphase
  | close hclose =>
    obtain ⟨w, hw, -⟩ := Option.bind_eq_some_iff.1 hclose
    have hphase0 := hinv.running_of_writing hdb hw
    cases hdb'
    rw [close_phase hclose] at hphase
    cases hphase0.symm.trans hphase
  | switchMemTable hphase0 _ hswitch =>
    cases hdb'
    have hphase' := switchMemTable_phase hswitch
    cases (hphase0.symm.trans hphase'.symm).trans hphase
  | compactMemTable hphase0 hcompact =>
    cases hdb'
    have hphase' := compactMemTable_phase hcompact
    cases (hphase0.symm.trans hphase'.symm).trans hphase
  | removeObsoleteFiles hphase0 =>
    cases hdb'
    cases hphase0.symm.trans hphase
  | removeFile hremove =>
    obtain ⟨k, -, rfl, -⟩ := removeFile_some hremove
    cases hdb'
    exact .inr (.inr ⟨hphase, rfl, rfl, rfl⟩)
  | dropColumnFamily hphase0 hdrop =>
    obtain ⟨cf, -, hdrop⟩ := Option.bind_eq_some_iff.1 hdrop
    split at hdrop
    · cases hdrop
      cases hdb'
      cases hphase0.symm.trans hphase
    · cases hdrop

/-- A step in order keeps the pace. -/
theorem paced_stepped (hinv : Inv s) (hcount : Counted s) (hdb : s.db = some db) (hpaced : Paced db)
    (hordered : s.Ordered a) (hstep : Stepped s db a s') (hdb' : s'.db = some db') : Paced db' := by
  refine ⟨fun c hc hsome => ?_, fun ids hphase' c hc hin hedits => ?_⟩
  · rcases hstep.later hinv hdb hdb' hc with ⟨cf, hcf, hlater⟩ | ⟨-, hnone⟩ |
      ⟨f, rfl, dflt, hdflt, hzero, cf, hcf, hid, hnumber, hle⟩
    · rcases hlater.imm with hnone | ⟨himm, hnumber⟩
      · rw [hnone] at hsome
        cases hsome
      · rw [himm] at hsome
        rw [hnumber]
        exact (hpaced.imm cf hcf hsome).trans hlater.next
    · rw [hnone] at hsome
      cases hsome
    · simp only [State.Ordered, hdb] at hordered
      rw [hnumber]
      exact (hordered dflt hdflt hzero cf hcf hid).trans hle
  · rcases hstep.editing hinv hdb hdb' hphase' with ⟨reuseLogs, full, rfl⟩ | rfl | ⟨hphase, hcfs, heq, hlog⟩
    · cases hstep with
      | recoverLogs hphase hrecover =>
        cases hdb'
        have hfamilies : ∀ cf ∈ db.cfs, 3 ≤ cf.versions.nextFileNumber := fun cf hcf =>
          hcount.families db hdb cf (List.mem_append_left _ hcf)
        exact (paced_recoverLogs hinv hdb hphase hfamilies hordered hrecover).edit ids hphase' c hc hin
          hedits
    · cases hstep with
      | @editManifest id ids0 _ _ hphase hedit =>
        cases hdb'
        obtain ⟨_, he⟩ := hinv.editing hdb hphase
        obtain ⟨hout, -⟩ := List.nodup_cons.1 he.nodup
        have hids : ids0 = ids := Phase.editing.inj ((editManifest_phase hedit).symm.trans hphase')
        obtain ⟨cf, hfind, hedit⟩ := editManifest_some hedit
        obtain ⟨-, hid⟩ := find?_some hfind
        -- the family that is done is none of those to come
        rcases hedit with ⟨-, _, rfl, rfl, -⟩ | ⟨-, rfl, -⟩
        · rcases mem_set hc with rfl | ⟨hc, -⟩
          · exact absurd (hids ▸ hid ▸ (startMemTable_id _ cf ▸ hin)) hout
          · exact hpaced.edit _ hphase c hc (List.mem_cons_of_mem _ (hids ▸ hin)) hedits
        · rcases mem_set hc with rfl | ⟨hc, -⟩
          · exact absurd (hids ▸ hid ▸ (startMemTable_id _ cf ▸ hin)) hout
          · exact hpaced.edit _ hphase c hc (List.mem_cons_of_mem _ (hids ▸ hin)) hedits
    · rw [heq] at hedits
      rw [DBImpl.logfileNumber, hlog]
      exact hpaced.edit ids hphase c (hcfs ▸ hc) hin hedits

omit [LinearOrder K] in
theorem paced_openDB {names : List String} {createMissing saveManifest : Bool}
    (h : disk.openDB names createMissing saveManifest = some db) : Paced db := by
  rw [Disk.openDB] at h
  split at h
  · cases h
    refine ⟨fun c hc hsome => ?_, by simp⟩
    obtain ⟨f, -, rfl⟩ := List.mem_map.1 hc
    cases hsome
  · cases h

theorem paced_reachable (h : (system K V).ReachableBy State.Ordered s) (hdb : s.db = some db) :
    Paced db := by
  have hall : ∀ db, s.db = some db → Paced db := by
    refine System.ReachableBy.invariant_of (P := fun s => ∀ db, s.db = some db → Paced db)
      (fun s hs => And.intro (inv_reachable hs) (counted_reachable hs)) h (fun s hs => ?_)
      fun s a s' hs hpaced hordered hstep db' hdb' => ?_
    · rw [show s = State.empty from hs]
      nofun
    · rcases step_cases hstep with ⟨db, hdb, hstep⟩ | ⟨-, _, _, _, db, hopen, rfl⟩
      · exact paced_stepped hs.1 hs.2 hdb (hpaced db hdb) hordered hstep hdb'
      · cases hdb'
        exact paced_openDB hopen
  exact hall db hdb

/-! ## Steps out of order -/

/-- A step can make a call that does not meet the assertions. -/
def State.Fails (s : State K V) : Prop :=
  ∃ a s', (system K V).step s a = some s' ∧ ∃ c ∈ s.calls a, ¬ c.2.1.Asserts c.2.2

omit [LinearOrder K] in
theorem exists_find? {ids : List Nat} (hids : ∀ id ∈ ids, id ∈ db.cfs.map (·.id)) (hf : f ∈ ids) :
    ∃ c, db.find? f = some c := by
  obtain ⟨c, hc, hid⟩ := List.mem_map.1 (hids f hf)
  exact Option.isSome_iff_exists.1 (List.find?_isSome.2 ⟨c, hc, decide_eq_true hid⟩)

omit [LinearOrder K] in
theorem mem_ids_set {id : Nat} (hid : cf'.id = f) (h : id ∈ db.cfs.map (·.id)) :
    id ∈ (db.set f cf').cfs.map (·.id) := by
  obtain ⟨c, hc, rfl⟩ := List.mem_map.1 h
  by_cases hcf : c.id = f
  · exact List.mem_map.2 ⟨cf', List.mem_map.2 ⟨c, hc, if_pos hcf⟩, hid.trans hcf.symm⟩
  · exact List.mem_map.2 ⟨c, List.mem_map.2 ⟨c, hc, if_neg hcf⟩, rfl⟩

omit [LinearOrder K] in
theorem live?_set (hcf : cf ∈ db.cfs) (hid : cf.id = f) (hid' : cf'.id = f)
    (hlive : cf'.dropped = false) : (db.set f cf').live? f = some cf' := by
  have hmem : cf' ∈ (db.set f cf').cfs := List.mem_map.2 ⟨cf, hcf, if_pos hid⟩
  obtain ⟨c, hc⟩ : ∃ c, (db.set f cf').live? f = some c :=
    Option.isSome_iff_exists.1 (List.find?_isSome.2 ⟨cf', hmem, by simp [hid', hlive]⟩)
  obtain ⟨hin, heq, -⟩ := live?_some hc
  rcases mem_set hin with rfl | ⟨-, hne⟩
  · exact hc
  · exact absurd heq hne

/-- A family waits for its edit with a number it has not passed: the edits come one after the other. -/
theorem fails_of_waiting (hinv : Inv s) (hdb : s.db = some db) {ids : List Nat}
    (hphase : db.phase = .editing ids) (hids : ∀ id ∈ ids, id ∈ db.cfs.map (·.id))
    (hcf : cf ∈ db.cfs) (hin : cf.id ∈ ids) (hedits : db.edits cf = true)
    (hle : cf.versions.nextFileNumber ≤ (db.startMemTable cf).memLogNumber) :
    ∃ s1, (system K V).StepsBy (fun _ _ => True) s s1 ∧ s1.Fails := by
  induction ids generalizing s db with
  | nil => cases hin
  | cons f ids ih =>
    obtain ⟨c, hfind⟩ := exists_find? hids (List.mem_cons_self (a := f))
    obtain ⟨hc, hid⟩ := find?_some hfind
    obtain ⟨⟨db1, disk1⟩, hr⟩ : ∃ r, { db with phase := .editing ids }.editManifest s.disk f = some r :=
      ⟨_, Option.map_eq_some_iff.2 ⟨c, hfind, rfl⟩⟩
    have hstep : (system K V).step s .editManifest = some (s.update (db1, disk1)) := by
      show State.step s .editManifest = _
      simp only [State.step, State.stepDB, hdb, hphase, hr, Option.map_some]
    by_cases heq : cf.id = f
    · -- its turn
      have hsame := (hinv.named db hdb).eq_of_id hcf hc (heq.trans hid.symm)
      refine ⟨s, .refl, .editManifest, _, hstep, (f, cf.versions, (db.startMemTable cf).memLogNumber),
        ?_, fun hasserts => absurd hasserts.lt_next (not_lt.2 hle)⟩
      unfold State.calls
      simp only [hdb, hphase, hfind, Option.toList_some, ← hsame, List.filter_cons_of_pos hedits,
        List.filter_nil, List.map_singleton, List.mem_singleton]
    · have hin' : cf.id ∈ ids := (List.mem_cons.1 hin).resolve_left heq
      have hids' : ∀ id ∈ ids, id ∈ db.cfs.map (·.id) := fun id hin => hids id (List.mem_cons_of_mem f hin)
      have hphase1 : db1.phase = .editing ids := editManifest_phase hr
      have hmem {c' : ColumnFamily K V} : cf ∈ (db.set f c').cfs :=
        List.mem_map.2 ⟨cf, hcf, if_neg heq⟩
      obtain ⟨c0, hfind0, hr⟩ := editManifest_some hr
      have hid0 : c0.id = f := (find?_some hfind0).2
      have hinv' := inv_step hinv hstep
      obtain ⟨s1, hsteps, hfails⟩ : ∃ s1,
          (system K V).StepsBy (fun _ _ => True) (s.update (db1, disk1)) s1 ∧ s1.Fails := by
        rcases hr with ⟨-, _, rfl, rfl, -⟩ | ⟨-, rfl, -⟩
        · refine ih hinv' rfl hphase1 (fun id hin => mem_ids_set ?_ (hids' id hin)) hmem hin' hedits hle
          exact (startMemTable_id _ c0).trans hid0
        · refine ih hinv' rfl hphase1 (fun id hin => mem_ids_set ?_ (hids' id hin)) hmem hin' hedits hle
          exact (startMemTable_id _ c0).trans hid0
      exact ⟨s1, (System.StepsBy.single trivial hstep).trans hsteps, hfails⟩

/-- A new log takes the default family's next number. Another family without a memtable whose edit is
to come then has that number for its own, and has passed it. -/
theorem fails_of_recoverLogs (hinv : Inv s) (hinv' : Inv (s.update (db', disk'))) (hdb : s.db = some db)
    (hphase : db.phase = .creating []) {reuseLogs : Bool}
    {full : Nat → List (Nat × Record K V) → Bool}
    (hrecover : db.recoverLogs s.disk reuseLogs full = some (db', disk'))
    (hordered : ¬ s.Ordered (.recoverLogs reuseLogs full)) :
    ∃ s1, (system K V).StepsBy (fun _ _ => True) (s.update (db', disk')) s1 ∧ s1.Fails := by
  have hn := hinv.named db hdb
  simp only [State.Ordered, hdb] at hordered
  push Not at hordered
  obtain ⟨dflt, hdflt, hzero, cf, hcf, hne, hmem, hedits, hle⟩ := hordered
  obtain ⟨g, hg, hall⟩ := readLogs_spec hn hinv.stored (hinv.creating hdb hphase) reuseLogs full
  obtain ⟨-, -, -, -, hphase'⟩ := @readLogs_frame _ _ _ s.disk db reuseLogs full
  rw [DBImpl.recoverLogs] at hrecover
  generalize db.readLogs s.disk reuseLogs full = read at hrecover hg hall hphase' hdflt hcf hedits
  have hids : (read.cfs.map (·.id)).Nodup := by
    have heq : read.cfs.map (·.id) = db.cfs.map (·.id) := by
      rw [hg, List.map_map]
      exact List.map_congr_left fun cf hcf => (hall cf hcf).1.id
    rw [heq]
    exact hn.cfs_nodup
  split at hrecover
  · obtain ⟨dflt', hdflt', hzero', rfl, rfl⟩ := switchLog_some hrecover
    obtain rfl : dflt = dflt' := DBImpl.eq_of_id hids hdflt hdflt' (hzero.trans hzero'.symm)
    refine fails_of_waiting hinv' rfl hphase' (fun id hid => mem_ids_set hzero hid)
      (List.mem_map.2 ⟨cf, hcf, if_neg hne⟩) (List.mem_map_of_mem hcf) hedits ?_
    rw [DBImpl.startMemTable, Option.isNone_iff_eq_none.1 hmem]
    exact hle
  · -- the last log is open again: no family lacks a memtable
    rename_i hsome
    obtain ⟨cf0, hcf0, rfl⟩ := List.mem_map.1 (hg ▸ hcf)
    rcases (hall cf0 hcf0).2.2 with ⟨hnone, -⟩ | ⟨_, _, -, -, -, hmem', -⟩
    · exact absurd (Option.isNone_iff_eq_none.2 hnone) hsome
    · rw [hmem'] at hmem
      cases hmem

/-- A memtable's new log takes the default family's next number. If the family has passed it, the edit
of its flush fails. -/
theorem fails_of_switchMemTable (hinv : Inv s) (hdb : s.db = some db) (hphase : db.phase = .running)
    {f : Nat} (hswitch : db.switchMemTable s.disk f = some (db', disk'))
    (hordered : ¬ s.Ordered (.switchMemTable f)) : (s.update (db', disk')).Fails := by
  have hn := hinv.named db hdb
  simp only [State.Ordered, hdb] at hordered
  push Not at hordered
  obtain ⟨dflt, hdflt, hzero, cf, hcf, hid, hlt⟩ := hordered
  obtain ⟨n, hr⟩ := hinv.running hdb hphase
  have hswitch0 := hswitch
  obtain ⟨⟨db1, disk1⟩, hswitch, h⟩ := Option.bind_eq_some_iff.1 hswitch
  obtain ⟨dflt', hdflt', hzero', hlog, -, -, hcfs⟩ := later_switchLog hn hswitch
  obtain rfl : dflt = dflt' := hn.eq_of_id hdflt hdflt' (hzero.trans hzero'.symm)
  have hne : cf.id ≠ 0 := fun h0 => by
    rw [hn.eq_of_id hcf hdflt (h0.trans hzero.symm)] at hlt
    exact absurd hlt (lt_irrefl _)
  obtain ⟨c, hfind, h⟩ := Option.bind_eq_some_iff.1 h
  obtain ⟨hc, hid', hlive⟩ := live?_some hfind
  -- the family is as it was before the new log
  obtain rfl : c = cf := by
    rw [hcfs] at hc
    obtain ⟨c0, hc0, rfl⟩ := List.mem_map.1 hc
    split at hid'
    · rename_i h0
      exact absurd (hid.trans (hid'.symm.trans h0)) hne
    · rename_i h0
      rw [if_neg h0]
      exact hn.eq_of_id hc0 hcf (hid'.trans hid.symm)
  split at h
  swap
  · cases h
  obtain ⟨hset, -⟩ := Prod.mk.inj (Option.some.inj h)
  obtain ⟨mem, hmem, -⟩ := (hr.sound c hcf hlive).mem
  have hnumber : db1.logfileNumber = dflt.versions.nextFileNumber := by
    rw [DBImpl.logfileNumber, hlog]
    rfl
  have hfind' := @live?_set _ _ db1 _ { c with
    imm := c.mem, immLogNumber := c.memLogNumber
    mem := some [], memLogNumber := db1.logfileNumber } _ hc hid' hid' hlive
  rw [hset] at hfind'
  have hphase' : db'.phase = .running := (switchMemTable_phase hswitch0).trans hphase
  -- its flush
  obtain ⟨r, hcompact⟩ : ∃ r, db'.compactMemTable disk' f = some r :=
    ⟨_, Option.bind_eq_some_iff.2 ⟨_, hfind', Option.map_eq_some_iff.2 ⟨mem, hmem, rfl⟩⟩⟩
  refine ⟨.compactMemTable f, (s.update (db', disk')).update r, ?_,
    (f, { c.versions with nextFileNumber := c.versions.nextFileNumber + 1 }, db1.logfileNumber), ?_,
    fun hasserts => ?_⟩
  · show State.step (s.update (db', disk')) (.compactMemTable f) = _
    simp only [State.step, State.stepDB, State.update, hphase', hcompact, Option.map_some]
  · simp only [State.calls, State.update, hfind', Option.toList_some, List.map_singleton,
      List.mem_singleton]
  · have hlt' : db1.logfileNumber < c.versions.nextFileNumber + 1 := hasserts.lt_next
    omega

/-- **A step out of order** makes a call that fails, or one can follow. -/
theorem fails_of_not_ordered (h : (system K V).Reachable s) (hordered : ¬ s.Ordered a)
    (hstep : (system K V).step s a = some s') :
    s.Fails ∨ ∃ s1, (system K V).StepsBy (fun _ _ => True) s' s1 ∧ s1.Fails := by
  have hinv := inv_reachable h
  have hcount := counted_reachable h
  have hinv' := inv_step hinv hstep
  rcases step_cases hstep with ⟨db, hdb, hstepped⟩ | ⟨hdb, _, _, _, _, -, rfl⟩
  swap
  · exact absurd (by simp [State.Ordered, hdb]) hordered
  cases hstepped with
  | createColumnFamily hphase _ =>
    -- the open log has a number of at least 3
    simp only [State.Ordered, hdb, ne_eq, not_not] at hordered
    obtain ⟨n, hr⟩ := hinv.running hdb hordered
    obtain ⟨l, hl, hnumber⟩ := hr.logging.present
    have hn3 := hcount.logs l hl
    refine .inl ⟨_, _, hstep, (db.nextFamilyId, VersionSet.newDB.recover, db.logfileNumber), ?_,
      fun hasserts => ?_⟩
    · simp only [State.calls, hdb, List.mem_singleton]
    · have hlt : db.logfileNumber < 3 := hasserts.lt_next
      rw [DBImpl.logfileNumber, hr.logging.log, Option.getD_some] at hlt
      omega
  | recoverLogs hphase hrecover =>
    exact .inr (fails_of_recoverLogs hinv hinv' hdb hphase hrecover hordered)
  | switchMemTable hphase _ hswitch =>
    exact .inr ⟨_, .refl, fails_of_switchMemTable hinv hdb hphase hswitch hordered⟩
  | _ => exact absurd (by simp [State.Ordered, hdb]) hordered

/-- **The assertions of `LogAndApply` in runs in order**: they hold of every call with a log number. -/
theorem asserts_of_ordered (h : (system K V).ReachableBy State.Ordered s) (hordered : s.Ordered a)
    (hstep : (system K V).step s a = some s') : ∀ c ∈ s.calls a, c.2.1.Asserts c.2.2 := by
  have hinv := inv_reachable h.reachable
  have hlog := log_le_calls hinv hstep
  refine fun c hc => ⟨hlog c hc, ?_⟩
  rcases step_cases hstep with ⟨db, hdb, hstepped⟩ | ⟨hdb, _, _, _, _, -, rfl⟩
  swap
  · rw [State.calls, hdb] at hc
    cases hc
  have hpaced := paced_reachable h hdb
  unfold State.calls at hc
  rw [hdb] at hc
  cases hstepped with
  | createColumnFamily hphase _ =>
    -- in `DB::Open`, before any log is open
    simp only [State.Ordered, hdb] at hordered
    rcases hphase with hphase | ⟨-, names, hphase⟩
    · exact absurd hphase hordered
    · rw [List.mem_singleton.1 hc]
      show db.logfileNumber < 3
      rw [DBImpl.logfileNumber, (hinv.creating hdb hphase).log]
      decide
  | compactMemTable hphase hcompact =>
    obtain ⟨cf, hfind, hcompact⟩ := Option.bind_eq_some_iff.1 hcompact
    obtain ⟨imm, himm, -⟩ := Option.map_eq_some_iff.1 hcompact
    simp only [hfind, Option.toList_some, List.map_singleton, List.mem_singleton] at hc
    rw [hc]
    exact Nat.lt_succ_of_le (hpaced.imm cf (live?_some hfind).1 (by rw [himm]; rfl))
  | @editManifest id ids _ _ hphase hedit =>
    obtain ⟨n, he⟩ := hinv.editing hdb hphase
    simp only [hphase] at hc
    obtain ⟨cf, hfound, rfl⟩ := List.mem_map.1 hc
    obtain ⟨hfound, hedits⟩ := List.mem_filter.1 hfound
    obtain ⟨hcf, hid⟩ := find?_some (Option.mem_toList.1 hfound)
    have hlt := hpaced.edit _ hphase cf hcf (hid ▸ List.mem_cons_self) hedits
    rw [DBImpl.logfileNumber, he.logging.log] at hlt
    show (db.startMemTable cf).memLogNumber < cf.versions.nextFileNumber
    rw [startMemTable_eq he.logging.log]
    exact hlt
  | _ => cases hc

end

/-- **The assertions of `LogAndApply`.** In runs in order they hold of every call with a log number;
the first one holds in every run; and after a step out of order a call can come that fails. -/
theorem logAndApply_asserts :
    (∀ (s s' : State K V) (a : Action K V), (system K V).ReachableBy State.Ordered s → s.Ordered a →
      (system K V).step s a = some s' → ∀ c ∈ s.calls a, c.2.1.Asserts c.2.2) ∧
    (∀ (s s' : State K V) (a : Action K V), (system K V).Reachable s →
      (system K V).step s a = some s' → ∀ c ∈ s.calls a, c.2.1.logNumber ≤ c.2.2) ∧
    ∀ (s s' : State K V) (a : Action K V), (system K V).Reachable s → ¬ s.Ordered a →
      (system K V).step s a = some s' →
      s.Fails ∨ ∃ s1, (system K V).StepsBy (fun _ _ => True) s' s1 ∧ s1.Fails :=
  ⟨fun _ _ _ h hordered hstep => asserts_of_ordered h hordered hstep,
    fun _ _ _ h hstep => log_le_calls (inv_reachable h) hstep,
    fun _ _ _ h hordered hstep => fails_of_not_ordered h hordered hstep⟩

/-- A crash in `DB::Open` leaves a family whose counter is ahead of the default one's; its memtable is
switched after the next opening. -/
def aheadRun : List (Action (Fin 3) Nat) :=
  [.openDB ["default", "a"] true true, .createColumnFamily "a", .commitColumnFamily 0, .crash,
    .openDB ["default", "a"] false true, .recoverLogs false fullFromTwo, .editManifest, .editManifest,
    .finishOpen, .switchMemTable 1]

theorem logAndApply_asserts_aheadRun : ∃ s s', (system (Fin 3) Nat).runBy State.Ordered State.empty
    aheadRun = some s ∧ (system (Fin 3) Nat).step s (.compactMemTable 1) = some s' ∧
      (s.calls (.compactMemTable 1)).map (fun c => (c.1, c.2.1.nextFileNumber, c.2.2)) = [(1, 5, 4)] ∧
      ∀ c ∈ s.calls (.compactMemTable 1), c.2.1.Asserts c.2.2 := by
  have hrun : ((system (Fin 3) Nat).runBy State.Ordered State.empty aheadRun).any (fun s =>
      (s.step (.compactMemTable 1)).isSome && (s.calls (.compactMemTable 1)).map
        (fun c => (c.1, c.2.1.nextFileNumber, c.2.2)) = [(1, 5, 4)]) = true := by decide +kernel
  obtain ⟨s, hs, hany⟩ := (Option.any_eq_true _ _).1 hrun
  simp only [Bool.and_eq_true, decide_eq_true_eq] at hany
  obtain ⟨s', hs'⟩ := Option.isSome_iff_exists.1 hany.1
  have hinit : (system (Fin 3) Nat).ReachableBy State.Ordered State.empty := .init rfl
  have hordered : s.Ordered (.compactMemTable 1) := by
    unfold State.Ordered
    split <;> exact trivial
  exact ⟨s, s', hs, hs', hany.2, (logAndApply_asserts).1 s s' _ (hinit.runBy hs) hordered hs'⟩

/-- **Creating a family while the database is open**: its file numbers start at 3, the number of the
first log. -/
theorem not_logAndApply_asserts : ¬ ∀ (s s' : State (Fin 3) Nat) (a : Action (Fin 3) Nat),
    (system (Fin 3) Nat).Reachable s → (system (Fin 3) Nat).step s a = some s' →
      ∀ c ∈ s.calls a, c.2.1.Asserts c.2.2 := by
  intro hall
  have hrun : ((system (Fin 3) Nat).run State.empty openRun).any (fun s =>
      (s.step (.createColumnFamily "a")).isSome && (s.calls (.createColumnFamily "a")).any
        fun c => decide (c.2.1.nextFileNumber ≤ c.2.2)) = true := by decide +kernel
  obtain ⟨s, hs, hany⟩ := (Option.any_eq_true _ _).1 hrun
  rw [Bool.and_eq_true, List.any_eq_true] at hany
  obtain ⟨hsome, c, hc, hle⟩ := hany
  obtain ⟨s', hs'⟩ := Option.isSome_iff_exists.1 hsome
  have hinit : (system (Fin 3) Nat).Reachable State.empty := .init rfl
  have hasserts := hall s s' _ (hinit.run hs) hs' c hc
  exact absurd hasserts.lt_next (not_lt.2 (of_decide_eq_true hle))

end LevelDb.Database
