import LevelDb.Proof.Catalog
import LevelDb.Proof.Reopen

/-!
# Names of families

A process goes through most steps with its families' ids, names and marks as they are (`Stepped.kin`);
creations and drops change them, and rewrite FAMILIES. The ids are distinct, and FAMILIES names each
live family once, in every run. The names are distinct in the runs in which no creation starts while
another of the same name is under way: the name is checked before the manifest is written with the
mutex given up, and not again. The file is read back as it was written in the runs in which no family
is recorded under a name with a newline, and no id is handed out once the counter has wrapped around
(`Legible.reads`). In the runs in which both are so, FAMILIES tells the live families apart
(`registered_reachable`).
-/

namespace LevelDb.Database

open Transition

variable {K V : Type} [LinearOrder K]

/-! ## Labels -/

/-- Ids, names and drop marks of the families. -/
def DBImpl.labels (db : DBImpl K V) : List (Nat × String × Bool) :=
  db.cfs.map fun cf => (cf.id, cf.name, cf.dropped)

/-- The names that are taken or will be. -/
def DBImpl.names (db : DBImpl K V) : List String :=
  ((db.cfs.filter fun cf => cf.dropped = false) ++ db.creating).map (·.name)

/-- The families are as before, but for what is in them. -/
structure Kin (db db' : DBImpl K V) : Prop where
  labels : db'.labels = db.labels
  creating : db'.creating = db.creating
  next : db'.nextFamilyId = db.nextFamilyId

section
variable {appended acknowledged : List (Nat × Batch K V)} {disk disk' : Disk K V}
  {db db' db'' : DBImpl K V} {f : Nat} {cf cf' : ColumnFamily K V} {s s' : State K V}

omit [LinearOrder K] in
theorem Kin.trans (h : Kin db db') (h' : Kin db' db'') : Kin db db'' :=
  ⟨h'.labels.trans h.labels, h'.creating.trans h.creating, h'.next.trans h.next⟩

omit [LinearOrder K] in
theorem kin_map {g : ColumnFamily K V → ColumnFamily K V} (hcfs : db'.cfs = db.cfs.map g)
    (hg : ∀ cf ∈ db.cfs, (g cf).id = cf.id ∧ (g cf).name = cf.name ∧ (g cf).dropped = cf.dropped)
    (hcreating : db'.creating = db.creating) (hnext : db'.nextFamilyId = db.nextFamilyId) :
    Kin db db' := by
  refine ⟨?_, hcreating, hnext⟩
  rw [DBImpl.labels, DBImpl.labels, hcfs, List.map_map]
  refine List.map_congr_left fun cf hcf => ?_
  obtain ⟨h1, h2, h3⟩ := hg cf hcf
  rw [Function.comp_apply, h1, h2, h3]

omit [LinearOrder K] in
theorem kin_set (hids : (db.cfs.map (·.id)).Nodup) (hcf : cf ∈ db.cfs) (hid : cf'.id = cf.id)
    (hname : cf'.name = cf.name) (hdropped : cf'.dropped = cf.dropped) :
    Kin db (db.set cf.id cf') := by
  refine kin_map rfl (fun c hc => ?_) rfl rfl
  by_cases heq : c.id = cf.id
  · rw [if_pos heq, DBImpl.eq_of_id hids hc hcf heq]
    exact ⟨hid, hname, hdropped⟩
  · rw [if_neg heq]
    exact ⟨rfl, rfl, rfl⟩

omit [LinearOrder K] in
theorem Kin.ids (h : Kin db db') : db'.cfs.map (·.id) = db.cfs.map (·.id) := by
  have hids : ∀ d : DBImpl K V, d.cfs.map (·.id) = d.labels.map (·.1) := fun d => by
    rw [DBImpl.labels, List.map_map]
    rfl
  rw [hids, hids, h.labels]

omit [LinearOrder K] in
theorem names_eq (db : DBImpl K V) : db.names =
    ((db.labels.filter fun l => l.2.2 = false).map fun l => l.2.1) ++ db.creating.map (·.name) := by
  rw [DBImpl.names, DBImpl.labels, List.map_append, List.filter_map, List.map_map]
  rfl

omit [LinearOrder K] in
theorem Kin.names (h : Kin db db') : db'.names = db.names := by
  rw [names_eq, names_eq, h.labels, h.creating]

/-! ## What keeps the labels -/

omit [LinearOrder K] in
theorem kin_switchLog (hids : (db.cfs.map (·.id)).Nodup)
    (h : db.switchLog disk = some (db', disk')) : Kin db db' ∧ disk'.families = disk.families := by
  obtain ⟨cf, hcf, hzero, rfl, rfl⟩ := switchLog_some h
  rw [← hzero]
  have hset : Kin db (db.set cf.id (cf.setNextFileNumber (cf.versions.nextFileNumber + 1))) :=
    kin_set hids hcf rfl rfl rfl
  exact ⟨⟨hset.labels, hset.creating, hset.next⟩, rfl⟩

theorem kin_recoverLogs (hn : Named appended disk db) (hs : Stored appended disk)
    (hc : Creating appended disk db) {reuseLogs : Bool}
    {full : Nat → List (Nat × Record K V) → Bool}
    (h : db.recoverLogs disk reuseLogs full = some (db', disk')) :
    Kin db db' ∧ disk'.families = disk.families := by
  obtain ⟨g, hg, hall⟩ := readLogs_spec hn hs hc reuseLogs full
  obtain ⟨hcreating, hnext, -⟩ := @readLogs_frame _ _ _ disk db reuseLogs full
  have hread : Kin db (db.readLogs disk reuseLogs full) := kin_map hg
    (fun cf hcf => ⟨(hall cf hcf).1.id, (hall cf hcf).1.name, (hall cf hcf).1.dropped⟩) hcreating
    hnext
  rw [DBImpl.recoverLogs] at h
  split at h
  · obtain ⟨hkin, hfamilies⟩ := kin_switchLog (hread.ids ▸ hn.cfs_nodup) h
    exact ⟨hread.trans hkin, hfamilies⟩
  · cases h
    exact ⟨hread, rfl⟩

omit [LinearOrder K] in
theorem kin_editManifest (hids : (db.cfs.map (·.id)).Nodup)
    (h : db.editManifest disk f = some (db', disk')) :
    Kin db db' ∧ disk'.families = disk.families := by
  obtain ⟨cf, hfind, heq⟩ := Option.map_eq_some_iff.1 h
  obtain ⟨hcf, rfl⟩ := find?_some hfind
  have hstarted : ∃ mem number,
      db.startMemTable cf = { cf with mem := mem, memLogNumber := number } := by
    rw [DBImpl.startMemTable]
    split
    · exact ⟨_, _, rfl⟩
    · exact ⟨cf.mem, cf.memLogNumber, rfl⟩
  obtain ⟨mem, number, hstarted⟩ := hstarted
  simp only [hstarted] at heq
  split at heq
  · cases heq
    exact ⟨kin_set hids hcf rfl rfl rfl, rfl⟩
  · cases heq
    exact ⟨kin_set hids hcf rfl rfl rfl, rfl⟩

omit [LinearOrder K] in
theorem kin_switchMemTable (hids : (db.cfs.map (·.id)).Nodup)
    (h : db.switchMemTable disk f = some (db', disk')) :
    Kin db db' ∧ disk'.families = disk.families := by
  obtain ⟨db1, cf, hswitch, hfind, -, rfl⟩ := switchMemTable_some h
  obtain ⟨hkin, hfamilies⟩ := kin_switchLog hids hswitch
  obtain ⟨hcf, rfl, -⟩ := live?_some hfind
  exact ⟨hkin.trans (kin_set (hkin.ids ▸ hids) hcf rfl rfl rfl), hfamilies⟩

omit [LinearOrder K] in
theorem kin_compactMemTable (hids : (db.cfs.map (·.id)).Nodup)
    (h : db.compactMemTable disk f = some (db', disk')) :
    Kin db db' ∧ disk'.families = disk.families := by
  obtain ⟨cf, imm, _, hfind, -, -, rfl, rfl⟩ := compactMemTable_some h
  obtain ⟨hcf, rfl, -⟩ := live?_some hfind
  exact ⟨kin_set hids hcf rfl rfl rfl, rfl⟩

omit [LinearOrder K] in
theorem kin_capture {records : List (Nat × Record K V)} (h : db.capture records = some db') :
    Kin db db' := by
  obtain ⟨-, -, rfl⟩ := capture_some h
  exact ⟨rfl, rfl, rfl⟩

theorem kin_insert (h : db.insert = some db') : Kin db db' := by
  obtain ⟨w, -, -, -, rfl⟩ := insert_some h
  refine kin_map rfl (fun cf _ => ?_) rfl rfl
  obtain ⟨mem, heq⟩ := insertInto_eq w cf
  rw [heq]
  exact ⟨rfl, rfl, rfl⟩

omit [LinearOrder K] in
theorem kin_close {b : Batch K V} (h : db.close = some (db', b)) : Kin db db' := by
  obtain ⟨w, -, -, -, rfl⟩ := close_some h
  exact kin_map rfl (fun _ _ => ⟨rfl, rfl, rfl⟩) rfl rfl

/-- Creation and drop apart, a step of a process keeps the families and FAMILIES. -/
theorem Stepped.kin (hinv : Inv s) (hdb : s.db = some db) {a : Action K V}
    (hstep : Stepped s db a s') (hcrash : a ≠ .crash)
    (hcreate : ∀ name, a ≠ .createColumnFamily name) (hcommit : ∀ i, a ≠ .commitColumnFamily i)
    (hdrop : ∀ f, a ≠ .dropColumnFamily f) :
    ∃ db', s'.db = some db' ∧ Kin db db' ∧ s'.disk.families = s.disk.families := by
  have hn := hinv.named db hdb
  cases hstep with
  | crash => exact absurd rfl hcrash
  | createColumnFamily => exact absurd rfl (hcreate _)
  | commitColumnFamily => exact absurd rfl (hcommit _)
  | dropColumnFamily => exact absurd rfl (hdrop _)
  | recoverLogs hphase hrecover =>
    exact ⟨_, rfl, kin_recoverLogs hn hinv.stored (hinv.creating hdb hphase) hrecover⟩
  | @editManifest id ids db' disk' hphase hedit =>
    have hids : (({ db with phase := .editing ids } : DBImpl K V).cfs.map (·.id)).Nodup :=
      hn.cfs_nodup
    obtain ⟨⟨h1, h2, h3⟩, h4⟩ := kin_editManifest hids hedit
    exact ⟨_, rfl, ⟨h1, h2, h3⟩, h4⟩
  | finishOpen => exact ⟨_, rfl, ⟨rfl, rfl, rfl⟩, rfl⟩
  | capture _ hcapture => exact ⟨_, rfl, kin_capture hcapture, rfl⟩
  | addRecord => exact ⟨_, rfl, ⟨rfl, rfl, rfl⟩, rfl⟩
  | insert hinsert => exact ⟨_, rfl, kin_insert hinsert, rfl⟩
  | close hclose => exact ⟨_, rfl, kin_close hclose, rfl⟩
  | switchMemTable _ _ hswitch => exact ⟨_, rfl, kin_switchMemTable hn.cfs_nodup hswitch⟩
  | compactMemTable _ hcompact => exact ⟨_, rfl, kin_compactMemTable hn.cfs_nodup hcompact⟩
  | removeObsoleteFiles => exact ⟨_, rfl, ⟨rfl, rfl, rfl⟩, rfl⟩
  | removeFile hremove =>
    obtain ⟨k, -, rfl, rfl⟩ := removeFile_some hremove
    exact ⟨_, rfl, ⟨rfl, rfl, rfl⟩, rfl⟩

/-! ## Distinct names -/

/-- Names are distinct, on the disk and in the process, and the default family has its own. -/
structure Distinct (s : State K V) : Prop where
  families : ("default" :: s.disk.families.map (·.2)).Nodup
  names : ∀ db, s.db = some db → db.names.Nodup
  default : ∀ db, s.db = some db → ∀ l ∈ db.labels, l.1 = 0 → l.2.1 = "default"

omit [LinearOrder K] in
theorem mem_labels {l : Nat × String × Bool} :
    l ∈ db.labels ↔ ∃ cf ∈ db.cfs, (cf.id, cf.name, cf.dropped) = l := List.mem_map

/-- FAMILIES as `WriteFamilies` leaves it. -/
theorem Named.families_nodup (hn : Named appended disk db) (hnames : db.names.Nodup)
    (hdefault : ∀ l ∈ db.labels, l.1 = 0 → l.2.1 = "default") :
    ("default" :: disk.families.map (·.2)).Nodup := by
  obtain ⟨dflt, hdflt, hzero, hlive⟩ := hn.default
  have hname : dflt.name = "default" := hdefault _ (mem_labels.2 ⟨dflt, hdflt, rfl⟩) hzero
  rw [DBImpl.names, List.map_append] at hnames
  have hnodup := hnames.of_append_left
  rw [hn.families, List.nodup_cons]
  constructor
  · intro hin
    obtain ⟨p, hp, heq⟩ := List.mem_map.1 hin
    obtain ⟨cf, hcf, hne, hlive', rfl⟩ := mem_onDisk.1 hp
    have hsame : cf = dflt := List.inj_on_of_nodup_map hnodup
      (List.mem_filter.2 ⟨hcf, decide_eq_true hlive'⟩)
      (List.mem_filter.2 ⟨hdflt, decide_eq_true hlive⟩) (Eq.trans heq hname.symm)
    exact hne (hsame ▸ hzero)
  · rw [DBImpl.onDisk, List.map_map]
    refine hnodup.sublist ((List.monotone_filter_right _ fun cf hcf => ?_).map _)
    exact decide_eq_true (of_decide_eq_true hcf).2

omit [LinearOrder K] in
theorem createColumnFamily_some {name : String}
    (h : db.createColumnFamily disk name = some (db', disk')) :
    name ≠ "default" ∧ (∀ cf ∈ db.cfs, cf.dropped = false → cf.name ≠ name) ∧
      disk'.families = disk.families ∧
      ∃ new, new.name = name ∧ new.id = db.nextFamilyId ∧ db' = { db with
        nextFamilyId := db.nextFamilyId + 1, creating := db.creating ++ [new] } := by
  rw [DBImpl.createColumnFamily] at h
  split at h
  · rename_i hfree
    cases h
    exact ⟨hfree.1, hfree.2, rfl, _, rfl, rfl, rfl⟩
  · cases h

omit [LinearOrder K] in
theorem names_createColumnFamily {name : String} (hnames : db.names.Nodup)
    (halone : ∀ cf ∈ db.creating, cf.name ≠ name)
    (h : db.createColumnFamily disk name = some (db', disk')) : db'.names.Nodup := by
  obtain ⟨-, hfree, -, new, rfl, -, rfl⟩ := createColumnFamily_some h
  have hnew : new.name ∉ db.names := by
    intro hin
    obtain ⟨cf, hcf, heq⟩ := List.mem_map.1 hin
    rcases List.mem_append.1 hcf with hcf | hcf
    · obtain ⟨hcf, hlive⟩ := List.mem_filter.1 hcf
      exact hfree cf hcf (of_decide_eq_true hlive) heq
    · exact halone cf hcf heq
  show (((db.cfs.filter fun cf => cf.dropped = false) ++ (db.creating ++ [new])).map (·.name)).Nodup
  rw [← List.append_assoc, List.map_append, List.map_singleton, ← List.concat_eq_append]
  exact hnames.concat hnew

omit [LinearOrder K] in
/-- A family joins the live ones. -/
theorem live_orderedInsert (cfs : List (ColumnFamily K V)) (hlive : cf.dropped = false) :
    ((cfs.orderedInsert (fun a b => a.id ≤ b.id) cf).filter fun cf => cf.dropped = false).Perm
      (cf :: cfs.filter fun cf => cf.dropped = false) :=
  ((List.perm_orderedInsert _ _ _).filter _).trans
    (.of_eq (List.filter_cons_of_pos (decide_eq_true hlive)))

theorem names_commitColumnFamily (hn : Named appended disk db) {i : Nat}
    (h : db.commitColumnFamily disk i = some (db', disk')) :
    db'.names.Perm db.names ∧ ∀ c ∈ db'.cfs, c ∈ db.creating ∨ c ∈ db.cfs := by
  obtain ⟨new, hnew, heq⟩ := Option.map_eq_some_iff.1 h
  cases heq
  have hin : new ∈ db.creating := List.mem_of_getElem? hnew
  have hperm := live_orderedInsert db.cfs (hn.fresh new hin).dropped
  refine ⟨(perm_move hnew hperm).map _, fun c hc => ?_⟩
  rcases (List.mem_orderedInsert _).1 hc with rfl | hc
  · exact .inl hin
  · exact .inr hc

/-- What a map takes out of a filter only makes the rest shorter. -/
theorem filter_map_sublist {α : Type} {l : List α} {g : α → α} {p : α → Bool}
    (h : ∀ a ∈ l, p (g a) = true → g a = a) : ((l.map g).filter p).Sublist (l.filter p) := by
  induction l with
  | nil => exact .slnil
  | cons a l ih =>
    have htail := ih fun b hb => h b (List.mem_cons_of_mem _ hb)
    rw [List.map_cons]
    by_cases hp : p (g a) = true
    · rw [List.filter_cons_of_pos hp]
      have heq := h a List.mem_cons_self hp
      rw [heq] at hp ⊢
      rw [List.filter_cons_of_pos hp]
      exact htail.cons_cons a
    · rw [List.filter_cons_of_neg hp]
      exact htail.trans ((List.sublist_cons_self a l).filter p)

omit [LinearOrder K] in
/-- A drop takes a name away. -/
theorem names_drop (hdropped : cf'.dropped = true) : (db.set f cf').names.Sublist db.names := by
  refine ((filter_map_sublist fun c _ hlive => ?_).append_right _).map _
  have hlive' := of_decide_eq_true hlive
  split at hlive'
  · exact absurd (hdropped.symm.trans hlive') (by decide)
  · rename_i hne
    exact if_neg hne

/-- The name of the family whose creation starts. -/
def Action.newName : Action K V → Option String
  | .createColumnFamily name => some name
  | _ => none

/-- No creation of this name is under way. -/
def State.Alone (s : State K V) (a : Action K V) : Prop :=
  ∀ name ∈ a.newName, ∀ db ∈ s.db, ∀ cf ∈ db.creating, cf.name ≠ name

instance (s : State K V) (a : Action K V) : Decidable (s.Alone a) :=
  inferInstanceAs (Decidable (∀ name ∈ a.newName, ∀ db ∈ s.db, ∀ cf ∈ db.creating, cf.name ≠ name))

theorem distinct_stepped (hinv : Inv s) (hinv' : Inv s') (h : Distinct s) (hdb : s.db = some db)
    {a : Action K V} (halone : s.Alone a) (hstep : Stepped s db a s') : Distinct s' := by
  have hn := hinv.named db hdb
  have hnames := h.names db hdb
  have hdefault := h.default db hdb
  have of_some : ∀ {db' : DBImpl K V}, s'.db = some db' → db'.names.Nodup →
      (∀ l ∈ db'.labels, l.1 = 0 → l.2.1 = "default") → Distinct s' := by
    intro db' hdb' hnames' hdefault'
    refine ⟨(hinv'.named db' hdb').families_nodup hnames' hdefault', fun d hd => ?_, fun d hd => ?_⟩
    · rw [hdb'] at hd
      cases hd
      exact hnames'
    · rw [hdb'] at hd
      cases hd
      exact hdefault'
  cases a with
  | crash =>
    cases hstep
    exact ⟨h.families, nofun, nofun⟩
  | createColumnFamily name =>
    cases hstep with
    | createColumnFamily _ hcreate =>
      have hnames' := names_createColumnFamily hnames (halone name rfl db hdb) hcreate
      obtain ⟨-, -, -, new, -, -, rfl⟩ := createColumnFamily_some hcreate
      exact of_some rfl hnames' hdefault
  | commitColumnFamily i =>
    cases hstep with
    | @commitColumnFamily i phase db' disk' _ hcommit =>
      have hn0 : Named s.appended s.disk { db with phase := phase } := hn.congr rfl rfl rfl
      obtain ⟨hperm, hcfs⟩ := names_commitColumnFamily hn0 hcommit
      refine of_some rfl (hperm.nodup_iff.2 hnames) fun l hl hzero => ?_
      obtain ⟨c, hc, rfl⟩ := mem_labels.1 hl
      rcases hcfs c hc with hnew | hc
      · obtain ⟨dflt, hdflt, hzero', -⟩ := hn.default
        exact absurd (hzero'.trans hzero.symm) (hn.ne_creating hdflt hnew)
      · exact hdefault _ (mem_labels.2 ⟨c, hc, rfl⟩) hzero
  | dropColumnFamily f =>
    cases hstep with
    | dropColumnFamily _ hdrop =>
      obtain ⟨-, -, -, -, cf, cf', hcf, rfl, hcf', rfl⟩ := named_dropColumnFamily hn hinv.stored hdrop
      refine of_some rfl (hnames.sublist (names_drop (by rw [hcf']))) fun l hl hzero => ?_
      obtain ⟨c, hc, rfl⟩ := mem_labels.1 hl
      rcases mem_set hc with rfl | ⟨hc, -⟩
      · have hname := hdefault (cf.id, cf.name, cf.dropped) (mem_labels.2 ⟨cf, hcf, rfl⟩)
        rw [hcf'] at hzero ⊢
        exact hname hzero
      · exact hdefault _ (mem_labels.2 ⟨c, hc, rfl⟩) hzero
  | _ =>
    obtain ⟨db', hdb', hkin, -⟩ := hstep.kin hinv hdb (by nofun) (by nofun) (by nofun) (by nofun)
    refine of_some hdb' (hkin.names ▸ hnames) ?_
    rw [hkin.labels]
    exact hdefault

theorem distinct_openDB (h : Distinct s) (hs : Stored s.appended s.disk) {names : List String}
    {createMissing saveManifest : Bool}
    (hopen : s.disk.openDB names createMissing saveManifest = some db) :
    Distinct { s with db := some db } := by
  rw [Disk.openDB] at hopen
  split at hopen
  swap
  · cases hopen
  cases hopen
  refine ⟨h.families, fun db' hdb' => ?_, fun db' hdb' l hl hzero => ?_⟩
  · cases hdb'
    rw [DBImpl.names, List.append_nil, List.filter_eq_self.2, List.map_map]
    · exact h.families
    · intro cf hcf
      obtain ⟨p, -, rfl⟩ := List.mem_map.1 hcf
      rfl
  · cases hdb'
    obtain ⟨cf, hcf, rfl⟩ := mem_labels.1 hl
    obtain ⟨p, hp, rfl⟩ := List.mem_map.1 hcf
    rcases List.mem_cons.1 hp with rfl | hp
    · rfl
    · exact absurd (hzero ▸ List.mem_map_of_mem hp) (List.nodup_cons.1 hs.nodup).1

/-- **Names stay distinct**, of families there are and of families under creation, in a run in which
no creation starts while another of the same name is under way. -/
theorem distinct_reachable (h : (system K V).ReachableBy State.Alone s) : Distinct s := by
  refine System.ReachableBy.invariant_of (fun _ => inv_reachable) h (fun s hs => ?_)
    fun s a s' hinv hd halone hstep => ?_
  · rw [show s = State.empty from hs]
    exact ⟨List.nodup_singleton _, nofun, nofun⟩
  · have hinv' := inv_step hinv hstep
    rcases step_cases hstep with ⟨db, hdb, hstepped⟩ |
      ⟨-, names, createMissing, saveManifest, db, hopen, rfl⟩
    · exact distinct_stepped hinv hinv' hd hdb halone hstepped
    · exact distinct_openDB hd hinv.stored hopen

/-- FAMILIES and the live families, in any run: the ids are distinct, and FAMILIES names each live
family but the default one, once. -/
theorem families_reachable (h : (system K V).Reachable s) (hdb : s.db = some db) :
    ((db.cfs.filter fun cf => cf.dropped = false).map (·.id)).Nodup ∧
      s.disk.families = db.onDisk ∧ (s.disk.families.map (·.1)).Nodup := by
  have hinv := inv_reachable h
  have hn := hinv.named db hdb
  exact ⟨hn.cfs_nodup.sublist (List.filter_sublist.map _), hn.families,
    (List.nodup_cons.1 hinv.stored.nodup).2⟩

/-! ## FAMILIES in bytes -/

/-- A family that FAMILIES records has a name in one line, and ids are handed out before
`next_family_id_` wraps around. -/
def State.Plain (s : State K V) : Action K V → Prop
  | .createColumnFamily _ => ∀ db ∈ s.db, db.nextFamilyId < 2 ^ 32
  | .commitColumnFamily i => ∀ db ∈ s.db, ∀ cf ∈ db.creating[i]?, '\n' ∉ cf.name.toList
  | _ => True

instance (s : State K V) : ∀ a, Decidable (s.Plain a)
  | .createColumnFamily _ => inferInstanceAs (Decidable (∀ db ∈ s.db, db.nextFamilyId < 2 ^ 32))
  | .commitColumnFamily i =>
    inferInstanceAs (Decidable (∀ db ∈ s.db, ∀ cf ∈ db.creating[i]?, '\n' ∉ cf.name.toList))
  | .openDB .. | .recoverLogs .. | .editManifest | .finishOpen | .capture _ | .addRecord | .insert
  | .close | .switchMemTable _ | .compactMemTable _ | .removeObsoleteFiles | .removeFile _
  | .dropColumnFamily _ | .crash => inferInstanceAs (Decidable True)

/-- FAMILIES can be read back, now and when it is written next. -/
structure Legible (s : State K V) : Prop where
  families : ∀ f ∈ s.disk.families, f.1 < 2 ^ 32 ∧ '\n' ∉ f.2.toList
  cfs : ∀ db, s.db = some db → ∀ l ∈ db.labels, l.1 ≠ 0 → l.1 < 2 ^ 32 ∧ '\n' ∉ l.2.1.toList
  creating : ∀ db, s.db = some db → ∀ cf ∈ db.creating, cf.id < 2 ^ 32

/-- `ReadFamilies` undoes `WriteFamilies`. -/
theorem Legible.reads (h : Legible s) (hs : Stored s.appended s.disk) :
    Catalog.readFamilies (some s.disk.familiesFile) =
      .ok (s.disk.entries, Catalog.uint32 s.disk.nextFamilyId) := by
  refine (Catalog.readFamilies_writeFamilies (fun f hf => ?_) (Nat.mod_lt _ (by decide))).2 fun f hf => ?_
  · obtain ⟨p, hp, rfl⟩ := List.mem_map.1 hf
    have hne : p.1 ≠ 0 := fun hzero =>
      (List.nodup_cons.1 hs.nodup).1 (hzero ▸ List.mem_map_of_mem hp)
    exact ⟨Nat.pos_of_ne_zero hne, (h.families p hp).1⟩
  · obtain ⟨p, hp, rfl⟩ := List.mem_map.1 hf
    exact (h.families p hp).2

/-- FAMILIES names what is in the process. -/
theorem legible_of_some (hn : Named appended s.disk db) (hdb : s.db = some db)
    (hcfs : ∀ l ∈ db.labels, l.1 ≠ 0 → l.1 < 2 ^ 32 ∧ '\n' ∉ l.2.1.toList)
    (hcreating : ∀ cf ∈ db.creating, cf.id < 2 ^ 32) : Legible s := by
  refine ⟨fun f hf => ?_, fun d hd => ?_, fun d hd => ?_⟩
  · rw [hn.families] at hf
    obtain ⟨cf, hcf, hne, -, rfl⟩ := mem_onDisk.1 hf
    exact hcfs _ (mem_labels.2 ⟨cf, hcf, rfl⟩) hne
  · rw [hdb] at hd
    cases hd
    exact hcfs
  · rw [hdb] at hd
    cases hd
    exact hcreating

theorem legible_stepped (hinv : Inv s) (hinv' : Inv s') (h : Legible s) (hdb : s.db = some db)
    {a : Action K V} (hplain : s.Plain a) (hstep : Stepped s db a s') : Legible s' := by
  have hn := hinv.named db hdb
  have hcfs := h.cfs db hdb
  have hcreating := h.creating db hdb
  cases a with
  | crash =>
    cases hstep
    exact ⟨h.families, fun _ hd => (by cases hd), fun _ hd => (by cases hd)⟩
  | createColumnFamily name =>
    cases hstep with
    | createColumnFamily _ hcreate =>
      obtain ⟨-, -, -, new, -, hid, rfl⟩ := createColumnFamily_some hcreate
      refine legible_of_some (hinv'.named _ rfl) rfl hcfs fun cf hcf => ?_
      obtain hcf | hcf := List.mem_append.1 hcf
      · exact hcreating cf hcf
      · rw [List.mem_singleton.1 hcf, hid]
        exact hplain db hdb
  | commitColumnFamily i =>
    cases hstep with
    | @commitColumnFamily i phase db' disk' _ hcommit =>
      obtain ⟨new, hnew, heq⟩ := Option.map_eq_some_iff.1 hcommit
      cases heq
      have hin : new ∈ db.creating := List.mem_of_getElem? hnew
      refine legible_of_some (hinv'.named _ rfl) rfl (fun l hl hne => ?_) fun cf hcf => ?_
      · obtain ⟨c, hc, rfl⟩ := mem_labels.1 hl
        obtain rfl | hc := (List.mem_orderedInsert _).1 hc
        · exact ⟨hcreating c hin, hplain db hdb c hnew⟩
        · exact hcfs _ (mem_labels.2 ⟨c, hc, rfl⟩) hne
      · exact hcreating cf (List.mem_of_mem_eraseIdx hcf)
  | dropColumnFamily f =>
    cases hstep with
    | dropColumnFamily _ hdrop =>
      obtain ⟨-, -, -, -, cf, cf', hcf, rfl, hcf', rfl⟩ := named_dropColumnFamily hn hinv.stored hdrop
      refine legible_of_some (hinv'.named _ rfl) rfl (fun l hl hne => ?_) hcreating
      obtain ⟨c, hc, rfl⟩ := mem_labels.1 hl
      obtain rfl | hc := mem_set hc
      · have hlabel := hcfs (cf.id, cf.name, cf.dropped) (mem_labels.2 ⟨cf, hcf, rfl⟩)
        rw [hcf'] at hne ⊢
        exact hlabel hne
      · exact hcfs _ (mem_labels.2 ⟨c, hc.1, rfl⟩) hne
  | _ =>
    obtain ⟨db', hdb', hkin, -⟩ := hstep.kin hinv hdb (by simp) (by simp) (by simp) (by simp)
    refine legible_of_some (hinv'.named db' hdb') hdb' ?_ ?_
    · rw [hkin.labels]
      exact hcfs
    · rw [hkin.creating]
      exact hcreating

omit [LinearOrder K] in
theorem legible_openDB (h : Legible s) {names : List String} {createMissing saveManifest : Bool}
    (hopen : s.disk.openDB names createMissing saveManifest = some db) :
    Legible { s with db := some db } := by
  rw [Disk.openDB] at hopen
  split at hopen
  swap
  · cases hopen
  cases hopen
  refine ⟨h.families, fun d hd l hl hne => ?_, fun d hd cf hcf => ?_⟩
  · cases hd
    obtain ⟨cf, hcf, rfl⟩ := mem_labels.1 hl
    obtain ⟨p, hp, rfl⟩ := List.mem_map.1 hcf
    obtain rfl | hp := List.mem_cons.1 hp
    · exact absurd rfl hne
    · exact h.families p hp
  · cases hd
    cases hcf

/-- **One step** of the database. -/
theorem legible_step (hinv : Inv s) (h : Legible s) {a : Action K V} (hplain : s.Plain a)
    (hstep : s.step a = some s') : Legible s' := by
  obtain ⟨db, hdb, hstepped⟩ | ⟨-, names, createMissing, saveManifest, db, hopen, rfl⟩ :=
    step_cases hstep
  · exact legible_stepped hinv (inv_step hinv hstep) h hdb hplain hstepped
  · exact legible_openDB h hopen

omit [LinearOrder K] in
theorem legible_empty : Legible (State.empty : State K V) :=
  ⟨fun _ hf => (by cases hf), fun _ hd => (by cases hd), fun _ hd => (by cases hd)⟩

theorem legible_reachable (h : (system K V).ReachableBy State.Plain s) : Legible s := by
  refine System.ReachableBy.invariant_of (fun _ => inv_reachable) h (fun s hs => ?_)
    fun s a s' hinv hl hplain hstep => legible_step hinv hl hplain hstep
  rw [show s = State.empty from hs]
  exact legible_empty

/-! ## How FAMILIES tells the families apart -/

/-- How FAMILIES tells the live families apart. -/
structure Registered (disk : Disk K V) (db : DBImpl K V) : Prop where
  ids : ((db.cfs.filter fun cf => cf.dropped = false).map (·.id)).Nodup
  ids_lt : ∀ cf ∈ db.cfs, cf.dropped = false → cf.id < 2 ^ 32
  names : ((db.cfs.filter fun cf => cf.dropped = false).map (·.name)).Nodup
  /-- `DB::Open` and `ListColumnFamilies` read the file back as these families. -/
  reads : Catalog.readFamilies (some disk.familiesFile) =
    .ok (disk.entries, Catalog.uint32 disk.nextFamilyId)
  once : ∀ cf ∈ db.cfs, cf.dropped = false → cf.id ≠ 0 →
    disk.families.filter (fun p => p.1 = cf.id ∨ p.2 = cf.name) = [(cf.id, cf.name)]
  live : ∀ p ∈ disk.families, ∃ cf ∈ db.cfs, cf.dropped = false ∧ (cf.id, cf.name) = p
  /-- A creation that goes on has a name nobody has, or is about to have. -/
  creating : ((db.cfs.filter fun cf => cf.dropped = false).map (·.name) ++
    db.creating.map (·.name)).Nodup

/-- No creation starts while another of its name is under way, or with an id that was handed out
before, and none is recorded under a name that FAMILIES cannot hold. -/
def State.Apart (s : State K V) (a : Action K V) : Prop := s.Alone a ∧ s.Plain a

instance (s : State K V) (a : Action K V) : Decidable (s.Apart a) :=
  inferInstanceAs (Decidable (s.Alone a ∧ s.Plain a))

/-- A pair is the only one with its parts. -/
theorem filter_eq_singleton {α β : Type} [DecidableEq α] [DecidableEq β] {l : List (α × β)} {p : α × β}
    (h1 : (l.map (·.1)).Nodup) (h2 : (l.map (·.2)).Nodup) (hp : p ∈ l) :
    l.filter (fun q => q.1 = p.1 ∨ q.2 = p.2) = [p] := by
  have hsame : ∀ q ∈ l, decide (q.1 = p.1 ∨ q.2 = p.2) = decide (q = p) := by
    intro q hq
    rw [decide_eq_decide]
    constructor
    · rintro (heq | heq)
      · exact List.inj_on_of_nodup_map h1 hq hp heq
      · exact List.inj_on_of_nodup_map h2 hq hp heq
    · exact fun heq => .inl (congrArg Prod.fst heq)
  rw [List.filter_congr hsame, List.filter_eq, List.count_eq_one_of_mem h1.of_map hp]
  rfl

/-- **Ids and names of live families are distinct**, and the file names each of them but the default
one, once, in a run in which no creation starts while another of the same name is under way, none is
recorded under a name with a newline, and no id is handed out once the counter has wrapped around; the
creations under way have names of their own, so at most one of a name goes through. -/
theorem registered_reachable (h : (system K V).ReachableBy State.Apart s) (hdb : s.db = some db) :
    Registered s.disk db := by
  obtain ⟨hids, hfamilies, hnodup⟩ := families_reachable h.reachable hdb
  have hd := distinct_reachable (h.mono fun _ _ hapart => hapart.1)
  have hl := legible_reachable (h.mono fun _ _ hapart => hapart.2)
  have hnames := hd.names db hdb
  rw [DBImpl.names, List.map_append] at hnames
  have hlive : ∀ p ∈ s.disk.families, ∃ cf ∈ db.cfs, cf.dropped = false ∧ (cf.id, cf.name) = p := by
    intro p hp
    rw [hfamilies] at hp
    obtain ⟨cf, hcf, -, hlive, heq⟩ := mem_onDisk.1 hp
    exact ⟨cf, hcf, hlive, heq⟩
  refine ⟨hids, fun cf hcf _ => ?_, hnames.of_append_left, hl.reads (inv_reachable h.reachable).stored,
    fun cf hcf hlive hne => ?_, hlive, hnames⟩
  · by_cases hzero : cf.id = 0
    · rw [hzero]
      exact Nat.two_pow_pos 32
    · exact (hl.cfs db hdb _ (mem_labels.2 ⟨cf, hcf, rfl⟩) hzero).1
  · exact filter_eq_singleton hnodup (List.nodup_cons.1 hd.families).2
      (hfamilies ▸ mem_onDisk.2 ⟨cf, hcf, hne, hlive, rfl⟩)

/-- A creation under way can go through. -/
theorem step_commitColumnFamily (hdb : s.db = some db) (hphase : db.phase = .running) {i : Nat}
    (hcf : db.creating[i]? = some cf) :
    ∃ s', (system K V).step s (.commitColumnFamily i) = some s' ∧ s'.db = some { db with
      cfs := db.cfs.orderedInsert (fun a b => a.id ≤ b.id) cf
      creating := db.creating.eraseIdx i } := by
  obtain ⟨db', disk', hcommit, hdb'⟩ : ∃ db' disk',
      db.commitColumnFamily s.disk i = some (db', disk') ∧ db' = { db with
        cfs := db.cfs.orderedInsert (fun a b => a.id ≤ b.id) cf
        creating := db.creating.eraseIdx i } :=
    ⟨_, _, Option.map_eq_some_iff.2 ⟨cf, hcf, rfl⟩, rfl⟩
  refine ⟨s.update (db', disk'), ?_, congrArg some hdb'⟩
  simp only [system, State.step, State.stepDB, hdb, hphase]
  rw [hcommit]
  rfl

/-- **Two creations of one name** that are both past the check can both go through. -/
theorem overlap_commits (hinv : Inv s) (hdb : s.db = some db) (hphase : db.phase = .running)
    {name : String} (hcreate : db.createColumnFamily s.disk name = some (db', disk'))
    (halone : ¬ s.Alone (.createColumnFamily name)) : ∃ i j s1 s2 db2,
      (system K V).step (s.update (db', disk')) (.commitColumnFamily i) = some s1 ∧
      (system K V).step s1 (.commitColumnFamily j) = some s2 ∧ s2.db = some db2 ∧
      ¬ ((db2.cfs.filter fun cf => cf.dropped = false).map (·.name)).Nodup := by
  have hn := hinv.named db hdb
  obtain ⟨-, hn', -⟩ := named_createColumnFamily hn hinv.stored hcreate
  obtain ⟨-, -, -, new, rfl, -, hdb'⟩ := createColumnFamily_some hcreate
  have hcreating : db'.creating = db.creating ++ [new] := by rw [hdb']
  obtain ⟨cf, hcf, hname⟩ : ∃ cf ∈ db.creating, cf.name = new.name := by
    simp only [State.Alone, Action.newName, Option.mem_def, hdb, Option.some.injEq] at halone
    by_contra hnone
    refine halone fun name heq d hd cf hcf hname => hnone ⟨cf, ?_, ?_⟩
    · rw [hd]
      exact hcf
    · rw [hname, heq]
  obtain ⟨i, hi, rfl⟩ := List.getElem_of_mem hcf
  have hfirst : db'.creating[i]? = some db.creating[i] := by
    rw [hcreating, List.getElem?_append_left hi, List.getElem?_eq_getElem hi]
  have hlast : (db'.creating.eraseIdx i)[db.creating.length - 1]? = some new := by
    rw [hcreating, List.eraseIdx_append_of_lt_length hi, List.getElem?_append_right,
      List.length_eraseIdx_of_lt hi, Nat.sub_self]
    · rfl
    · rw [List.length_eraseIdx_of_lt hi]
  obtain ⟨s1, hstep1, hdb1⟩ := step_commitColumnFamily
    (show (s.update (db', disk')).db = some db' from rfl)
    ((congrArg DBImpl.phase hdb').trans hphase) hfirst
  obtain ⟨s2, hstep2, hdb2⟩ := step_commitColumnFamily hdb1
    ((congrArg DBImpl.phase hdb').trans hphase) hlast
  refine ⟨i, db.creating.length - 1, s1, s2, _, hstep1, hstep2, hdb2, fun hnodup => ?_⟩
  have hlive1 : db.creating[i].dropped = false := (hn.fresh _ hcf).dropped
  have hlive2 : new.dropped = false :=
    (hn'.fresh new (hcreating ▸ List.mem_append_right _ (List.mem_singleton_self _))).dropped
  have hperm := (live_orderedInsert (db'.cfs.orderedInsert (fun a b => a.id ≤ b.id) db.creating[i])
    hlive2).trans ((live_orderedInsert db'.cfs hlive1).cons new)
  have htwo := ((hperm.map (·.name)).nodup_iff).1 hnodup
  rw [List.map_cons, List.map_cons, List.nodup_cons] at htwo
  exact htwo.1 (hname ▸ List.mem_cons_self)

end

/-- A database with no families yet. -/
def openRun : List (Action (Fin 3) Nat) :=
  [.openDB [] true true, .recoverLogs false fullFromTwo, .editManifest, .finishOpen]

/-- A family is created, dropped and created again, while another is under creation. -/
def createRun : List (Action (Fin 3) Nat) :=
  openRun ++ [.createColumnFamily "a", .createColumnFamily "b", .commitColumnFamily 0,
    .dropColumnFamily 1, .createColumnFamily "a", .commitColumnFamily 1]

theorem registered_createRun : ∃ s db, (system (Fin 3) Nat).runBy State.Apart State.empty createRun = some s ∧
    s.db = some db ∧ db.onDisk = [(3, "a")] ∧ db.creating.length = 1 ∧ Registered s.disk db := by
  have hrun : ((system (Fin 3) Nat).runBy State.Apart State.empty createRun).any (fun s =>
      s.db.any fun db => db.onDisk = [(3, "a")] && db.creating.length = 1) = true := by decide +kernel
  obtain ⟨s, hs, hany⟩ := (Option.any_eq_true _ _).1 hrun
  obtain ⟨db, hdb, hall⟩ := (Option.any_eq_true _ _).1 hany
  simp only [Bool.and_eq_true, decide_eq_true_eq] at hall
  have hinit : (system (Fin 3) Nat).ReachableBy State.Apart State.empty := .init rfl
  exact ⟨s, db, hs, hdb, hall.1, hall.2, registered_reachable (hinit.runBy hs) hdb⟩

/-- **Two clients create a family of one name**: both get one. -/
theorem not_registered : ¬ ∀ (s : State (Fin 3) Nat) db, (system (Fin 3) Nat).Reachable s →
    s.db = some db → Registered s.disk db := by
  intro hall
  have hrun : ((system (Fin 3) Nat).run State.empty (openRun ++ [.createColumnFamily "a",
      .createColumnFamily "a", .commitColumnFamily 0, .commitColumnFamily 0])).any (fun s =>
        s.db.any fun db => !decide ((db.cfs.filter fun cf => cf.dropped = false).map
          (·.name)).Nodup) = true := by decide +kernel
  obtain ⟨s, hs, hany⟩ := (Option.any_eq_true _ _).1 hrun
  obtain ⟨db, hdb, htwo⟩ := (Option.any_eq_true _ _).1 hany
  have hinit : (system (Fin 3) Nat).Reachable State.empty := .init rfl
  have hregistered := hall s db (hinit.run hs) hdb
  rw [Bool.not_eq_true', decide_eq_false_iff_not] at htwo
  exact htwo hregistered.names

end LevelDb.Database
