import LevelDb.Db.Counter
import LevelDb.Proof.Process
import Mathlib.Data.List.Perm.Basic

/-!
# Recovery is exact

Each action keeps the invariants of disk and process: one lemma for each. A crash keeps the disk, and
`DB::Open` builds the rest from it. `contents_eq` is the result: a live family holds the records of
all appended batches addressed to it, each once and in order.
-/

namespace LevelDb.Database

open Journal Transition

variable {K V : Type} [LinearOrder K]

section
variable {appended acknowledged : List (Nat × Batch K V)} {disk disk' : Disk K V}
  {db db' : DBImpl K V} {f n : Nat} {ids : List Nat} {cf : ColumnFamily K V}

/-! ## Frames -/

/-- A step that changes the families, but not the logs. -/
theorem Logging.map (h : Logging appended disk db n) {g : ColumnFamily K V → ColumnFamily K V}
    (hcfs : db'.cfs = db.cfs.map g)
    (hg : ∀ cf ∈ db.cfs, (g cf).id = cf.id ∧ ((g cf).dropped = false → cf.dropped = false) ∧
      cf.versions.logNumber ≤ (g cf).versions.logNumber ∧
      cf.versions.nextFileNumber ≤ (g cf).versions.nextFileNumber)
    (hlog : db'.log = db.log) (hlogs : disk'.logs = disk.logs)
    (hcreating : db'.creating = db.creating) (hobsolete : db'.obsolete = db.obsolete) :
    Logging appended disk' db' n := by
  have hfrom : ∀ cf' ∈ db'.cfs, ∃ cf ∈ db.cfs, g cf = cf' := fun cf' hcf' =>
    List.mem_map.1 (hcfs ▸ hcf')
  refine ⟨hlog.trans h.log, hlogs ▸ h.present, hlogs ▸ h.newest, fun cf' hcf' hzero => ?_,
    hcreating ▸ h.creating, fun k hk => ?_⟩
  · obtain ⟨cf, hcf, rfl⟩ := hfrom cf' hcf'
    obtain ⟨hid, -, -, hnext⟩ := hg cf hcf
    exact (h.next cf hcf (hid ▸ hzero)).trans_le hnext
  · obtain ⟨hlt, hall⟩ := h.obsolete k (hobsolete ▸ hk)
    refine ⟨hlt, fun cf' hcf' hlive hle => ?_⟩
    obtain ⟨cf, hcf, rfl⟩ := hfrom cf' hcf'
    obtain ⟨hid, hdropped, hnumber, -⟩ := hg cf hcf
    rw [hid]
    exact hall cf hcf (hdropped hlive) (hnumber.trans hle)

/-- The same of a step that changes one family. -/
theorem Logging.set (h : Logging appended disk db n) (hn : Named appended disk db)
    {cf' : ColumnFamily K V} (hcf : cf ∈ db.cfs) (hcfs : db'.cfs = (db.set cf.id cf').cfs)
    (hid : cf'.id = cf.id) (hdropped : cf'.dropped = false → cf.dropped = false)
    (hnumber : cf.versions.logNumber ≤ cf'.versions.logNumber)
    (hnext : cf.versions.nextFileNumber ≤ cf'.versions.nextFileNumber) (hlog : db'.log = db.log)
    (hlogs : disk'.logs = disk.logs) (hcreating : db'.creating = db.creating)
    (hobsolete : db'.obsolete = db.obsolete) : Logging appended disk' db' n := by
  refine h.map hcfs (fun c hc => ?_) hlog hlogs hcreating hobsolete
  by_cases heq : c.id = cf.id
  · rw [if_pos heq, hn.eq_of_id hc hcf heq]
    exact ⟨hid, hdropped, hnumber, hnext⟩
  · rw [if_neg heq]
    exact ⟨rfl, id, le_rfl, le_rfl⟩

theorem Logging.reached (h : Logging appended disk db n) : ∀ cf ∈ db.creating,
    cf.versions.logNumber = 0 ∨ ∃ l ∈ disk.logs, cf.versions.logNumber ≤ l.number := fun cf hcf => by
  obtain ⟨l, hl, heq⟩ := h.present
  exact .inr ⟨l, hl, heq ▸ h.creating cf hcf⟩

/-- Nothing of the newest log's records is in the later logs. -/
theorem Logging.last (h : Logging appended disk db n) (hs : Stored appended disk) :
    ∀ e ∈ appended, e.1 ≤ n := fun e he => by
  obtain ⟨l, hl, hle⟩ := hs.covered e he
  exact hle.trans (h.newest l hl)

/-- The manifest of a live family. -/
theorem Named.kept (hn : Named appended disk db) (hs : Stored appended disk) (hcf : cf ∈ db.cfs)
    (hlive : cf.dropped = false) : Kept appended disk.logs cf.id cf.versions :=
  (hs.kept cf.id (hn.mem_ids.2 ⟨cf, hcf, rfl, hlive⟩)).congr (hn.logNumber cf hcf hlive).symm
    (hn.tables cf hcf hlive).symm

/-- No record of a batch under way is of a family that has none in the logs. -/
theorem Running.pending_unused (hr : Running appended acknowledged disk db n)
    (hnone : ∀ e ∈ appended, e.2.recordsOf f = []) : pendingOf db.writing f = [] := by
  cases hw : db.writing with
  | none => rfl
  | some w =>
    rw [pendingOf]
    split
    · rename_i hlogged
      rw [Bool.and_eq_true] at hlogged
      obtain ⟨before, happ, -⟩ := (hr.writes w hw).last hlogged.1
      have hin : (n, w.batch) ∈ appended :=
        happ ▸ List.mem_append_right before (List.mem_singleton_self _)
      exact hnone _ hin
    · rfl

/-! ## Families come and go -/

/-- `CreateColumnFamilyLocked` up to the manifest. -/
theorem named_createColumnFamily (hn : Named appended disk db) (hs : Stored appended disk)
    {name : String} (h : db.createColumnFamily disk name = some (db', disk')) :
    Stored appended disk' ∧ Named appended disk' db' ∧ disk'.logs = disk.logs ∧
      (∀ cf ∈ db.cfs ++ db.creating, disk'.manifests cf.id = disk.manifests cf.id) ∧
      ∃ cf, cf.versions.logNumber = db.logfileNumber ∧ db' = { db with
        nextFamilyId := db.nextFamilyId + 1, creating := db.creating ++ [cf] } := by
  rw [DBImpl.createColumnFamily] at h
  split at h
  swap
  · cases h
  cases h
  have hids : ∀ g ∈ disk.ids, g ≠ db.nextFamilyId := fun g hg => by
    have := hs.lt_next g hg
    have := hn.next
    omega
  have hcfs : ∀ cf ∈ db.cfs, cf.id ≠ db.nextFamilyId := fun cf hcf => by
    have := hn.cfs_lt cf hcf
    have := hn.next
    omega
  have hcreating : ∀ cf ∈ db.creating, cf.id ≠ db.nextFamilyId := fun cf hcf =>
    (hn.creating_lt cf hcf).ne
  have hother : ∀ cf ∈ db.cfs ++ db.creating, cf.id ≠ db.nextFamilyId := fun cf hcf =>
    (List.mem_append.1 hcf).elim (hcfs cf) (hcreating cf)
  refine ⟨hs.setManifest fun hin => absurd rfl (hids _ hin), ?_, rfl,
    fun cf hcf => Function.update_of_ne (hother cf hcf) _ _, _, rfl, rfl⟩
  constructor
  · exact hn.families
  · exact hn.default
  · rw [← List.append_assoc, List.map_append, List.nodup_append]
    refine ⟨hn.nodup, List.nodup_singleton _, fun a ha b hb => ?_⟩
    rw [List.map_singleton, List.mem_singleton] at hb
    obtain ⟨cf, hcf, rfl⟩ := List.mem_map.1 ha
    rw [hb]
    exact hother cf hcf
  · exact hn.cfs_lt
  · intro cf hcf
    rcases List.mem_append.1 hcf with hcf | hcf
    · exact (hn.creating_lt cf hcf).trans (Nat.lt_succ_self _)
    · rw [List.mem_singleton.1 hcf]
      exact Nat.lt_succ_self _
  · exact hn.next.trans (Nat.le_succ _)
  · intro cf hcf hlive
    simp only [Function.update_of_ne (hcfs cf hcf)]
    exact hn.logNumber cf hcf hlive
  · intro cf hcf hlive
    simp only [Function.update_of_ne (hcfs cf hcf)]
    exact hn.tables cf hcf hlive
  · intro cf hcf
    rcases List.mem_append.1 hcf with hcf | hcf
    · exact (hn.fresh cf hcf).congr (Function.update_of_ne (hcreating cf hcf) _ _)
    · rw [List.mem_singleton.1 hcf]
      refine ⟨rfl, rfl, rfl, rfl, rfl, ?_, ?_, fun e he => recordsOf_eq_nil fun r hr => ?_⟩
      · simp only [Function.update_self]
      · simp only [Function.update_self]
        rfl
      · have := hs.known e he r hr
        have := hn.next
        show r.1 ≠ db.nextFamilyId
        omega

theorem creating_createColumnFamily (hn : Named appended disk db) (hs : Stored appended disk)
    (hc : Creating appended disk db) {name : String}
    (h : db.createColumnFamily disk name = some (db', disk')) : Creating appended disk' db' := by
  obtain ⟨-, -, -, hmanifest, new, hnumber, rfl⟩ := named_createColumnFamily hn hs h
  obtain ⟨h1, h2, h3, h4, h5, h6, h7, h8⟩ := hc
  refine ⟨h1, h2, h3, h4, h5, h6, fun cf hcf => ?_, fun cf hcf => ?_⟩
  · refine (h7 cf hcf).imp_right (And.imp_left fun hfresh => ?_)
    exact hfresh.congr (hmanifest cf (List.mem_append_left _ hcf))
  · rcases List.mem_append.1 hcf with hcf | hcf
    · exact h8 cf hcf
    · rw [List.mem_singleton.1 hcf, hnumber, DBImpl.logfileNumber, h1]
      rfl

theorem running_createColumnFamily (hn : Named appended disk db) (hs : Stored appended disk)
    (hr : Running appended acknowledged disk db n) {name : String}
    (h : db.createColumnFamily disk name = some (db', disk')) :
    Running appended acknowledged disk' db' n := by
  obtain ⟨-, -, hlogs, -, new, hnumber, rfl⟩ := named_createColumnFamily hn hs h
  obtain ⟨h1, h2, h3, h4, h5, h6⟩ := hr.logging
  refine ⟨⟨h1, hlogs ▸ h2, hlogs ▸ h3, h4, fun cf hcf => ?_, h6⟩, hr.sound, fun w hw => ?_⟩
  · rcases List.mem_append.1 hcf with hcf | hcf
    · exact h5 cf hcf
    · rw [List.mem_singleton.1 hcf, hnumber, DBImpl.logfileNumber, h1]
      rfl
  · obtain ⟨w1, w2, w3, w4⟩ := hr.writes w hw
    exact ⟨w1, w2, w3, w4⟩

/-- An item moves from one list to another. -/
theorem perm_move {α : Type} {l l' m : List α} {i : Nat} {x : α} (hx : m[i]? = some x)
    (h : l'.Perm (x :: l)) : (l' ++ m.eraseIdx i).Perm (l ++ m) := by
  have hsplit : (x :: m.eraseIdx i).Perm m := by
    obtain ⟨hi, rfl⟩ := List.getElem?_eq_some_iff.1 hx
    exact List.getElem_cons_eraseIdx_perm hi
  exact (h.append_right _).trans (List.perm_middle.symm.trans (hsplit.append_left _))

/-- The rest of `CreateColumnFamilyLocked`: the families of the new FAMILIES are the live ones. -/
theorem named_commitColumnFamily (hn : Named appended disk db) (hs : Stored appended disk) {i : Nat}
    (hreached : ∀ cf ∈ db.creating,
      cf.versions.logNumber = 0 ∨ ∃ l ∈ disk.logs, cf.versions.logNumber ≤ l.number)
    (h : db.commitColumnFamily disk i = some (db', disk')) :
    Stored appended disk' ∧ Named appended disk' db' ∧ disk'.logs = disk.logs ∧
      disk'.manifests = disk.manifests ∧
      ∃ cf cfs, cf ∈ db.creating ∧ (∀ c, c ∈ cfs ↔ c = cf ∨ c ∈ db.cfs) ∧
        db' = { db with cfs, creating := db.creating.eraseIdx i } := by
  obtain ⟨new, hnew, heq⟩ := Option.map_eq_some_iff.1 h
  cases heq
  have hin : new ∈ db.creating := List.mem_of_getElem? hnew
  have hmem : ∀ c, c ∈ db.cfs.orderedInsert (fun a b => a.id ≤ b.id) new ↔ c = new ∨ c ∈ db.cfs :=
    fun c => List.mem_orderedInsert _
  have hfresh := hn.fresh new hin
  have hperm : (db.cfs.orderedInsert (fun a b => a.id ≤ b.id) new).Perm (new :: db.cfs) :=
    List.perm_orderedInsert _ _ _
  have hmoved : (db.cfs.orderedInsert (fun a b => a.id ≤ b.id) new ++ db.creating.eraseIdx i).Perm
      (db.cfs ++ db.creating) := perm_move hnew hperm
  have hnodup : ((db.cfs.orderedInsert (fun a b => a.id ≤ b.id) new ++
      db.creating.eraseIdx i).map (·.id)).Nodup := (hmoved.map _).nodup_iff.2 hn.nodup
  have hlt : ∀ c ∈ db.cfs.orderedInsert (fun a b => a.id ≤ b.id) new, c.id < db.nextFamilyId := by
    intro c hc
    rcases (hmem c).1 hc with rfl | hc
    · exact hn.creating_lt _ hin
    · exact (hn.cfs_lt c hc).trans_le hn.next
  refine ⟨hs.setFamilies (onDisk_nodup (List.map_append ▸ hnodup).of_append_left) hn.next
    (fun g hg => ?_) (fun g hg => ?_), ⟨rfl, ?_, hnodup, hlt, ?_, le_rfl, ?_, ?_, ?_⟩, rfl, rfl, new, _,
    hin, hmem, rfl⟩
  · obtain ⟨p, hp, rfl⟩ := List.mem_map.1 hg
    obtain ⟨c, hc, -, -, rfl⟩ := mem_onDisk.1 hp
    exact hlt c hc
  · obtain ⟨p, hp, rfl⟩ := List.mem_map.1 hg
    obtain ⟨c, hc, -, hlive, rfl⟩ := mem_onDisk.1 hp
    rcases (hmem c).1 hc with rfl | hc
    · refine kept_of_fresh hfresh.stored hfresh.unused ?_
      show (disk.manifests c.id).logNumber = 0 ∨ ∃ l ∈ disk.logs, (disk.manifests c.id).logNumber ≤ _
      rw [hfresh.logNumber]
      exact hreached _ hin
    · exact hs.kept c.id (hn.mem_ids.2 ⟨c, hc, rfl, hlive⟩)
  · obtain ⟨c, hc, h⟩ := hn.default
    exact ⟨c, (hmem c).2 (.inr hc), h⟩
  · exact fun c hc => hn.creating_lt c (List.mem_of_mem_eraseIdx hc)
  · intro c hc hlive
    rcases (hmem c).1 hc with rfl | hc
    · exact hfresh.logNumber
    · exact hn.logNumber c hc hlive
  · intro c hc hlive
    rcases (hmem c).1 hc with rfl | hc
    · exact hfresh.stored.trans hfresh.tables.symm
    · exact hn.tables c hc hlive
  · exact fun c hc => (hn.fresh c (List.mem_of_mem_eraseIdx hc)).congr rfl

theorem creating_commitColumnFamily (hn : Named appended disk db) (hs : Stored appended disk)
    (hc : Creating appended disk db) {i : Nat}
    (h : db.commitColumnFamily disk i = some (db', disk')) : Creating appended disk' db' := by
  obtain ⟨-, -, -, hmanifests, new, cfs, hnew, hmem, rfl⟩ :=
    named_commitColumnFamily hn hs (fun cf hcf => .inl (hc.creating cf hcf)) h
  have hfresh := hn.fresh new hnew
  obtain ⟨h1, h2, h3, h4, h5, h6, h7, h8⟩ := hc
  refine ⟨h1, h2, h3, h4, fun c hc => ?_, fun c hc => ?_, fun c hc => ?_,
    fun c hc => h8 c (List.mem_of_mem_eraseIdx hc)⟩
  · rcases (hmem c).1 hc with rfl | hc
    · exact hfresh.dropped
    · exact h5 c hc
  · rcases (hmem c).1 hc with rfl | hc
    · exact hfresh.imm
    · exact h6 c hc
  · rcases (hmem c).1 hc with rfl | hc
    · exact .inr ⟨hfresh.congr (by rw [hmanifests]), h8 c hnew⟩
    · exact (h7 c hc).imp_right (And.imp_left fun hfresh => hfresh.congr (by rw [hmanifests]))

theorem running_commitColumnFamily (hn : Named appended disk db) (hs : Stored appended disk)
    (hr : Running appended acknowledged disk db n) {i : Nat}
    (h : db.commitColumnFamily disk i = some (db', disk')) :
    Running appended acknowledged disk' db' n := by
  have hl := hr.logging
  obtain ⟨-, -, hlogs, -, new, cfs, hnew, hmem, rfl⟩ := named_commitColumnFamily hn hs hl.reached h
  have hfresh := hn.fresh new hnew
  refine ⟨⟨hl.log, hlogs ▸ hl.present, hlogs ▸ hl.newest, fun c hc hzero => ?_,
    fun c hc => hl.creating c (List.mem_of_mem_eraseIdx hc), fun k hk => ?_⟩, fun c hc hlive => ?_,
    fun w hw => ?_⟩
  · rcases (hmem c).1 hc with rfl | hc
    · obtain ⟨d, hd, hdzero, -⟩ := hn.default
      exact absurd (hdzero.trans hzero.symm) (hn.ne_creating hd hnew)
    · exact hl.next c hc hzero
  · obtain ⟨hlt, hall⟩ := hl.obsolete k hk
    refine ⟨hlt, fun c hc hlive hle => ?_⟩
    rcases (hmem c).1 hc with rfl | hc
    · exact recordsIn_unused _ hfresh.unused
    · exact hall c hc hlive hle
  · rcases (hmem c).1 hc with rfl | hc
    · refine ⟨⟨[], hfresh.mem, ?_⟩, ?_, hfresh.start.ge, ?_⟩
      · show [] ++ pendingOf db.writing c.id = _
        rw [hr.pending_unused hfresh.unused]
        exact (recordsIn_unused _ hfresh.unused).symm
      · rw [hfresh.imm]
        exact (recordsIn_unused _ hfresh.unused).symm
      · rw [hfresh.start]
        exact hl.creating c hnew
    · exact hr.sound c hc hlive
  · obtain ⟨w1, w2, w3, w4⟩ := hr.writes w hw
    refine ⟨fun r hr => ?_, fun c hc hlive hin => ?_, w3, w4⟩
    · obtain ⟨c, hc, heq⟩ := w1 r hr
      exact ⟨c, (hmem c).2 (.inr hc), heq⟩
    · rcases (hmem c).1 hc with rfl | hc
      · obtain ⟨r, hr, heq⟩ := hin
        obtain ⟨c', hc', heq'⟩ := w1 r hr
        exact absurd (heq'.trans heq) (hn.ne_creating hc' hnew)
      · exact w2 c hc hlive hin

/-- `DropColumnFamily`: the family is not on the disk any more, the others are. -/
theorem named_dropColumnFamily (hn : Named appended disk db) (hs : Stored appended disk)
    (h : db.dropColumnFamily disk f = some (db', disk')) :
    Stored appended disk' ∧ Named appended disk' db' ∧ disk'.logs = disk.logs ∧
      disk'.manifests = disk.manifests ∧ ∃ cf cf', cf ∈ db.cfs ∧ cf.id = f ∧
        cf' = { cf with dropped := true, mem := none, imm := none } ∧ db' = db.set cf.id cf' := by
  rw [DBImpl.dropColumnFamily] at h
  obtain ⟨cf, hfind, h⟩ := Option.bind_eq_some_iff.1 h
  obtain ⟨hcf, rfl⟩ := find?_some hfind
  split at h
  swap
  · cases h
  rename_i hne
  cases h
  generalize hcf' : { cf with dropped := true, mem := none, imm := none } = cf'
  have hids : (db.set cf.id cf').cfs.map (·.id) = db.cfs.map (·.id) := by
    rw [DBImpl.set, List.map_map]
    refine List.map_congr_left fun c _ => ?_
    rw [Function.comp_apply]
    split
    · rename_i heq
      rw [← hcf', heq]
    · rfl
  have hmem : ∀ c ∈ (db.set cf.id cf').cfs, c.dropped = false → c ∈ db.cfs ∧ c.id ≠ cf.id := by
    intro c hc hlive
    rcases mem_set hc with rfl | hc
    · rw [← hcf'] at hlive
      cases hlive
    · exact hc
  have hlt : ∀ g ∈ db.cfs.map (·.id), g < db.nextFamilyId := by
    intro g hg
    obtain ⟨c, hc, rfl⟩ := List.mem_map.1 hg
    exact (hn.cfs_lt c hc).trans_le hn.next
  have hcfs_lt : ∀ c ∈ (db.set cf.id cf').cfs, c.id < db.nextFamilyId := fun c hc =>
    hlt c.id (hids ▸ List.mem_map_of_mem hc)
  refine ⟨hs.setFamilies (onDisk_nodup (by rw [hids]; exact hn.cfs_nodup)) hn.next (fun g hg => ?_)
    (fun g hg => ?_), ⟨rfl, ?_, ?_, hcfs_lt, hn.creating_lt, le_rfl, ?_, ?_, ?_⟩, rfl, rfl, cf, cf',
    hcf, rfl, hcf'.symm, rfl⟩
  · obtain ⟨p, hp, rfl⟩ := List.mem_map.1 hg
    obtain ⟨c, hc, -, -, rfl⟩ := mem_onDisk.1 hp
    exact hcfs_lt c hc
  · obtain ⟨p, hp, rfl⟩ := List.mem_map.1 hg
    obtain ⟨c, hc, -, hlive, rfl⟩ := mem_onDisk.1 hp
    exact hs.kept c.id (hn.mem_ids.2 ⟨c, (hmem c hc hlive).1, rfl, hlive⟩)
  · obtain ⟨c, hc, hzero, hlive⟩ := hn.default
    refine ⟨c, List.mem_map.2 ⟨c, hc, if_neg ?_⟩, hzero, hlive⟩
    rw [hzero]
    exact hne.symm
  · show (((db.set cf.id cf').cfs ++ db.creating).map (·.id)).Nodup
    rw [List.map_append, hids, ← List.map_append]
    exact hn.nodup
  · exact fun c hc hlive => hn.logNumber c (hmem c hc hlive).1 hlive
  · exact fun c hc hlive => hn.tables c (hmem c hc hlive).1 hlive
  · exact fun c hc => (hn.fresh c hc).congr rfl

theorem running_dropColumnFamily (hn : Named appended disk db) (hs : Stored appended disk)
    (hr : Running appended acknowledged disk db n)
    (h : db.dropColumnFamily disk f = some (db', disk')) :
    Running appended acknowledged disk' db' n := by
  obtain ⟨-, -, hlogs, -, cf, cf', hcf, rfl, hcf', rfl⟩ := named_dropColumnFamily hn hs h
  have hlive' : cf'.dropped = true := by rw [hcf']
  have hmem : ∀ c ∈ (db.set cf.id cf').cfs, c.dropped = false → c ∈ db.cfs := by
    intro c hc hlive
    rcases mem_set hc with rfl | hc
    · exact absurd (hlive.symm.trans hlive') (by decide)
    · exact hc.1
  refine ⟨hr.logging.set hn hcf rfl ?_ ?_ ?_ ?_ rfl hlogs rfl rfl, fun c hc hlive => ?_,
    fun w hw => ?_⟩
  · rw [hcf']
  · exact fun hlive => absurd (hlive.symm.trans hlive') (by decide)
  · rw [hcf']
  · rw [hcf']
  · exact hr.sound c (hmem c hc hlive) hlive
  · obtain ⟨w1, w2, w3, w4⟩ := hr.writes w hw
    refine ⟨fun r hr => ?_, fun c hc hlive => w2 c (hmem c hc hlive) hlive, w3, w4⟩
    obtain ⟨c, hc, heq⟩ := w1 r hr
    by_cases hid : c.id = cf.id
    · refine ⟨cf', List.mem_map.2 ⟨c, hc, if_pos hid⟩, ?_⟩
      rw [hcf', ← heq, hid]
    · exact ⟨c, List.mem_map.2 ⟨c, hc, if_neg hid⟩, heq⟩

/-! ## Logs and memtables -/

/-- `SwitchLog`: the new log is the newest. -/
theorem switchLog_spec (hn : Named appended disk db) (hs : Stored appended disk)
    (hnext : ∀ cf ∈ db.cfs, cf.id = 0 → ∀ l ∈ disk.logs, l.number < cf.versions.nextFileNumber)
    (hcreating : ∀ cf ∈ db.creating,
      cf.versions.logNumber = 0 ∨ ∃ l ∈ disk.logs, cf.versions.logNumber ≤ l.number)
    (hobsolete : ∀ k ∈ db.obsolete, (∃ l ∈ disk.logs, k < l.number) ∧
      ∀ cf ∈ db.cfs, cf.dropped = false → cf.versions.logNumber ≤ k →
        recordsIn cf.id (segment k appended) = [])
    (h : db.switchLog disk = some (db', disk')) :
    Stored appended disk' ∧ Named appended disk' db' ∧
      ∃ (number : Nat) (m : ColumnFamily K V → Nat),
        Logging appended disk' db' number ∧ (∀ l ∈ disk.logs, l.number < number) ∧
        db' = { db with
          cfs := db.cfs.map fun cf => cf.setNextFileNumber (m cf)
          log := some number } := by
  obtain ⟨cf, hfind, heq⟩ := Option.map_eq_some_iff.1 h
  obtain ⟨hcf, hzero⟩ := find?_some hfind
  cases heq
  have hlogs := hnext cf hcf hzero
  obtain ⟨m, hset, hm⟩ : ∃ m : ColumnFamily K V → Nat,
      (db.set 0 { cf with versions :=
        { cf.versions with nextFileNumber := cf.versions.nextFileNumber + 1 } }).cfs =
          db.cfs.map (fun c => c.setNextFileNumber (m c)) ∧
        m cf = cf.versions.nextFileNumber + 1 := by
    refine ⟨fun c => if c.id = 0 then c.versions.nextFileNumber + 1 else c.versions.nextFileNumber,
      List.map_congr_left fun c hc => ?_, if_pos hzero⟩
    by_cases h0 : c.id = 0
    · simp only [h0, if_true]
      rw [hn.eq_of_id hc hcf (h0.trans hzero.symm)]
      rfl
    · simp only [h0, if_false]
      rfl
  refine ⟨hs.addLog hlogs, hn.map hset (fun c _ => ⟨rfl, rfl, rfl⟩) rfl rfl rfl rfl
    (fun c hc hlive => ⟨hn.logNumber c hc hlive, hn.tables c hc hlive⟩) fun _ _ => rfl,
    cf.versions.nextFileNumber, m, ⟨rfl, ?_, ?_, ?_, ?_, ?_⟩, hlogs, ?_⟩
  · exact ⟨_, List.mem_append_right _ (List.mem_singleton_self _), rfl⟩
  · intro l hl
    rcases List.mem_append.1 hl with hl | hl
    · exact (hlogs l hl).le
    · rw [List.mem_singleton.1 hl]
  · intro c hc h0
    obtain ⟨c, hc', rfl⟩ := List.mem_map.1 (hset ▸ hc)
    rw [hn.eq_of_id hc' hcf (Eq.trans h0 hzero.symm)]
    exact hm.symm ▸ Nat.lt_succ_self _
  · intro c hc
    rcases hcreating c hc with h0 | ⟨l, hl, hle⟩
    · exact h0 ▸ Nat.zero_le _
    · exact hle.trans (hlogs l hl).le
  · intro k hk
    obtain ⟨⟨l, hl, hlt⟩, hall⟩ := hobsolete k hk
    refine ⟨hlt.trans (hlogs l hl), fun c hc => ?_⟩
    obtain ⟨c, hc', rfl⟩ := List.mem_map.1 (hset ▸ hc)
    exact hall c hc'
  · rw [← hset]
    rfl

/-- The same of the running process. -/
theorem Logging.switchLog (hl : Logging appended disk db n) (hn : Named appended disk db)
    (hs : Stored appended disk) (h : db.switchLog disk = some (db', disk')) :
    Stored appended disk' ∧ Named appended disk' db' ∧
      ∃ (number : Nat) (m : ColumnFamily K V → Nat),
        Logging appended disk' db' number ∧ (∀ l ∈ disk.logs, l.number < number) ∧
        db' = { db with
          cfs := db.cfs.map fun cf => cf.setNextFileNumber (m cf)
          log := some number } := by
  obtain ⟨l, hlast, hnumber⟩ := hl.present
  exact switchLog_spec hn hs
    (fun cf hcf hzero l hl' => (hl.newest l hl').trans_lt (hl.next cf hcf hzero)) hl.reached
    (fun k hk => (hl.obsolete k hk).imp_left fun hlt => ⟨l, hlast, hnumber ▸ hlt⟩) h

/-- Of an older log a family knows as much on a newer one. -/
theorem Sound.mono {pending : List (Nat × Record K V)} {n' : Nat} (h : Sound appended n pending cf)
    (hle : n ≤ n') : Sound appended n' pending cf :=
  ⟨h.mem, h.imm, h.log_le, h.mem_le.trans hle⟩

/-- `MakeRoomForWrite`: the memtable becomes the immutable one, up to the new log. -/
theorem running_switchMemTable (hn : Named appended disk db) (hs : Stored appended disk)
    (hr : Running appended acknowledged disk db n) (hw : db.writing = none)
    (h : db.switchMemTable disk f = some (db', disk')) :
    Stored appended disk' ∧ Named appended disk' db' ∧
      ∃ n', Running appended acknowledged disk' db' n' := by
  have hl := hr.logging
  obtain ⟨l, hlast, hnumber⟩ := hl.present
  obtain ⟨db1, cf, hswitch, hfind, himm, rfl⟩ := switchMemTable_some h
  obtain ⟨hs1, hn1, number, m, hl1, hlt, hdb1⟩ := hl.switchLog hn hs hswitch
  have hn_lt : n < number := hnumber ▸ hlt l hlast
  have hsound : ∀ c ∈ db1.cfs, c.dropped = false → Sound appended n [] c := by
    intro c hc hlive
    rw [hdb1] at hc
    obtain ⟨c0, hc0, rfl⟩ := List.mem_map.1 hc
    have h0 := hr.sound c0 hc0 hlive
    rw [hw] at h0
    exact ⟨h0.mem, h0.imm, h0.log_le, h0.mem_le⟩
  obtain ⟨hcf, rfl, hlive⟩ := live?_some hfind
  refine ⟨hs1, hn1.set hcf rfl rfl rfl rfl rfl rfl rfl rfl (hn1.logNumber cf hcf hlive)
    (hn1.tables cf hcf hlive) fun _ _ => rfl, number, hl1.set hn1 hcf rfl rfl (fun _ => hlive) le_rfl
    le_rfl rfl rfl rfl rfl, fun c hc hlive' => ?_, fun w hw' => ?_⟩
  · show Sound appended number (pendingOf db1.writing c.id) c
    have hpending : pendingOf db1.writing c.id = [] := by
      rw [hdb1, hw]
      rfl
    rw [hpending]
    rcases mem_set hc with rfl | ⟨hc, -⟩
    · obtain ⟨⟨mem, hmem, hrecords⟩, himm', hlog_le, hmem_le⟩ := hsound cf hcf hlive
      have hnumber' : db1.logfileNumber = number := by rw [DBImpl.logfileNumber, hl1.log]; rfl
      have hnone : since number appended = [] := since_eq_nil fun e he =>
        (hl.last hs e he).trans_lt hn_lt
      refine ⟨⟨[], rfl, ?_⟩, ?_, ?_, hnumber'.le⟩
      · rw [hnumber', hnone]
        rfl
      · -- all it had, up to the new log
        show cf.mem.getD [] = recordsIn cf.id (between cf.versions.logNumber db1.logfileNumber appended)
        rw [List.append_nil] at hrecords
        rw [himm] at himm'
        rw [hnumber', hmem, Option.getD_some, hrecords,
          ← List.append_nil (between cf.versions.logNumber number appended), ← hnone,
          between_append_since hs.sorted (hlog_le.trans (hmem_le.trans hn_lt.le)),
          ← between_append_since hs.sorted hlog_le, recordsIn_append, ← himm']
        rfl
      · rw [hnumber']
        exact hlog_le.trans (hmem_le.trans hn_lt.le)
    · exact (hsound c hc hlive').mono hn_lt.le
  · rw [hdb1] at hw'
    exact absurd (hw.symm.trans hw') (nomatch ·)

/-- `CompactMemTable`: the immutable memtable becomes a table, and the manifest starts where the
memtable does. -/
theorem running_compactMemTable (hn : Named appended disk db) (hs : Stored appended disk)
    (hr : Running appended acknowledged disk db n)
    (h : db.compactMemTable disk f = some (db', disk')) :
    Stored appended disk' ∧ Named appended disk' db' ∧
      Running appended acknowledged disk' db' n := by
  have hl := hr.logging
  obtain ⟨l, hlast, hnumber⟩ := hl.present
  obtain ⟨cf, imm, _, hfind, himm, rfl, rfl, rfl⟩ := compactMemTable_some h
  obtain ⟨hcf, rfl, hlive⟩ := live?_some hfind
  obtain ⟨hmem, himm', hlog_le, hmem_le⟩ := hr.sound cf hcf hlive
  have hkept := hn.kept hs hcf hlive
  refine ⟨hs.setManifest fun _ => ⟨?_, fun e he hle => hkept.needed e he (hlog_le.trans hle),
    .inr ⟨l, hlast, hnumber ▸ hmem_le⟩⟩, hn.set hcf rfl rfl rfl rfl rfl rfl rfl rfl ?_ ?_ fun g hg => ?_,
    hl.set hn hcf rfl rfl id hlog_le (Nat.le_succ _) rfl rfl rfl rfl, fun c hc hlive' => ?_,
    fun w hw => ?_⟩
  · rw [himm, Option.getD_some] at himm'
    show (cf.versions.tables ++ DBImpl.writeLevel0Table [] imm).flatten =
      recordsIn cf.id (below cf.memLogNumber appended)
    rw [List.flatten_append, DBImpl.writeLevel0Table_flatten, hkept.tables, himm',
      ← below_append_between hs.sorted hlog_le, recordsIn_append]
    rfl
  · simp only [Function.update_self]
  · simp only [Function.update_self]
  · exact Function.update_of_ne hg _ _
  · rcases mem_set hc with rfl | ⟨hc, -⟩
    · refine ⟨hmem, ?_, le_rfl, hmem_le⟩
      show [] = recordsIn cf.id (between cf.memLogNumber cf.memLogNumber appended)
      rw [between_self]
      rfl
    · exact hr.sound c hc hlive'
  · obtain ⟨w1, w2, w3, w4⟩ := hr.writes w hw
    refine ⟨fun r hr => ?_, fun c hc hlive' hin => ?_, w3, w4⟩
    · obtain ⟨c, hc, heq⟩ := w1 r hr
      by_cases hid : c.id = cf.id
      · exact ⟨_, List.mem_map.2 ⟨c, hc, if_pos hid⟩, hid.symm.trans heq⟩
      · exact ⟨c, List.mem_map.2 ⟨c, hc, if_neg hid⟩, heq⟩
    · rcases mem_set hc with rfl | ⟨hc, -⟩
      · exact w2 cf hcf hlive hin
      · exact w2 c hc hlive' hin

/-! ## Old logs -/

theorem foldl_min_le {l : List Nat} {a : Nat} :
    l.foldl min a ≤ a ∧ ∀ x ∈ l, l.foldl min a ≤ x := by
  induction l generalizing a with
  | nil => exact ⟨le_rfl, nofun⟩
  | cons y l ih =>
    obtain ⟨h1, h2⟩ := ih (a := min a y)
    refine ⟨h1.trans (Nat.min_le_left _ _), fun x hx => ?_⟩
    rcases List.mem_cons.1 hx with rfl | hx
    · exact h1.trans (Nat.min_le_right _ _)
    · exact h2 x hx

omit [LinearOrder K] in
/-- No family needs a log before `OldestLiveLog`. -/
theorem oldestLiveLog_le : db.oldestLiveLog ≤ db.logfileNumber ∧
    ∀ cf ∈ db.cfs, cf.dropped = false → db.oldestLiveLog ≤ cf.versions.logNumber := by
  rw [DBImpl.oldestLiveLog]
  refine ⟨foldl_min_le.1, fun cf hcf hlive => ?_⟩
  have hin : cf.neededLog ∈ (db.cfs.filter fun cf => cf.dropped = false).map (·.neededLog) :=
    List.mem_map_of_mem (List.mem_filter.2 ⟨hcf, decide_eq_true hlive⟩)
  refine (foldl_min_le.2 _ hin).trans ?_
  rw [ColumnFamily.neededLog]
  split
  · exact Nat.min_le_left _ _
  · exact Nat.min_le_left _ _
  · exact le_rfl

/-- `RemoveObsoleteFiles` picks logs before all that live families need. -/
theorem running_removeObsoleteFiles (hn : Named appended disk db)
    (hr : Running appended acknowledged disk db n) :
    Named appended disk (db.removeObsoleteFiles disk) ∧
      Running appended acknowledged disk (db.removeObsoleteFiles disk) n := by
  obtain ⟨h1, h2, h3, h4, h5, h6⟩ := hr.logging
  refine ⟨⟨hn.families, hn.default, hn.nodup, hn.cfs_lt, hn.creating_lt, hn.next, hn.logNumber,
    hn.tables, hn.fresh⟩, ⟨h1, h2, h3, h4, h5, fun k hk => ?_⟩, hr.sound, fun w hw => ?_⟩
  · rcases List.mem_append.1 hk with hk | hk
    · exact h6 k hk
    · have hlt : k < db.oldestLiveLog := of_decide_eq_true (List.mem_filter.1 hk).2
      refine ⟨hlt.trans_le (oldestLiveLog_le.1.trans_eq ?_), fun cf hcf hlive hle => ?_⟩
      · rw [DBImpl.logfileNumber, h1]
        rfl
      · have hneeded : db.oldestLiveLog ≤ cf.versions.logNumber := oldestLiveLog_le.2 cf hcf hlive
        omega
  · obtain ⟨w1, w2, w3, w4⟩ := hr.writes w hw
    exact ⟨w1, w2, w3, w4⟩

/-- An obsolete log is removed. -/
theorem named_removeFile (hn : Named appended disk db) (hs : Stored appended disk)
    (hl : Logging appended disk db n) {i : Nat} (h : db.removeFile disk i = some (db', disk')) :
    Stored appended disk' ∧ Named appended disk' db' ∧ Logging appended disk' db' n := by
  obtain ⟨k, hk, rfl, rfl⟩ := removeFile_some h
  obtain ⟨hlt, hall⟩ := hl.obsolete k hk
  obtain ⟨l, hlast, hnumber⟩ := hl.present
  refine ⟨hs.removeLog ⟨l, hlast, hnumber ▸ hlt⟩ fun g hg hle => ?_, ⟨hn.families, hn.default,
    hn.nodup, hn.cfs_lt, hn.creating_lt, hn.next, hn.logNumber, hn.tables,
    fun cf hcf => (hn.fresh cf hcf).congr rfl⟩, hl.log, ⟨l, ?_, hnumber⟩,
    fun l' hl' => hl.newest l' (List.mem_of_mem_filter hl'), hl.next, hl.creating,
    fun k' hk' => hl.obsolete k' (List.mem_of_mem_eraseIdx hk')⟩
  · obtain ⟨cf, hcf, rfl, hlive⟩ := hn.mem_ids.1 hg
    exact hall cf hcf hlive (hn.logNumber cf hcf hlive ▸ hle)
  · refine List.mem_filter.2 ⟨hlast, decide_eq_true ?_⟩
    omega

/-! ## Writing -/

/-- The leader captures the memtables of the live families. -/
theorem running_capture (hn : Named appended disk db)
    (hr : Running appended acknowledged disk db n) {records : List (Nat × Record K V)}
    (h : db.capture records = some db') :
    Named appended disk db' ∧ Running appended acknowledged disk db' n := by
  rw [DBImpl.capture] at h
  split at h
  swap
  · cases h
  rename_i hcond
  obtain ⟨hnone, hfind⟩ := hcond
  cases h
  obtain ⟨h1, h2, h3, h4, h5, h6⟩ := hr.logging
  refine ⟨⟨hn.families, hn.default, hn.nodup, hn.cfs_lt, hn.creating_lt, hn.next, hn.logNumber,
    hn.tables, hn.fresh⟩, ⟨h1, h2, h3, h4, h5, h6⟩, fun cf hcf hlive => ?_, fun w hw => ?_⟩
  · have h0 := hr.sound cf hcf hlive
    rw [Option.isNone_iff_eq_none.1 hnone] at h0
    exact h0
  · cases hw
    refine ⟨fun r hr => ?_, fun cf hcf hlive _ => ?_, by simp, by simp⟩
    · obtain ⟨cf, hcf⟩ := Option.isSome_iff_exists.1 (hfind r hr)
      exact ⟨cf, find?_some hcf⟩
    · exact List.mem_map_of_mem (List.mem_filter.2 ⟨hcf, decide_eq_true hlive⟩)

omit [LinearOrder K] in
theorem addRecord_number (log : Option Nat) (b : Batch K V) (l : LogFile K V) :
    (if some l.number = log then { l with batches := l.batches ++ [b] } else l).number =
      l.number := by
  split <;> rfl

omit [LinearOrder K] in
theorem mem_addRecord {log : Option Nat} {b : Batch K V} {l : LogFile K V} (hl : l ∈ disk.logs) :
    ∃ l' ∈ (disk.addRecord log b).logs, l'.number = l.number :=
  ⟨_, List.mem_map_of_mem hl, addRecord_number log b l⟩

omit [LinearOrder K] in
theorem of_mem_addRecord {log : Option Nat} {b : Batch K V} {l : LogFile K V}
    (hl : l ∈ (disk.addRecord log b).logs) : ∃ l' ∈ disk.logs, l'.number = l.number := by
  obtain ⟨l', hl', rfl⟩ := List.mem_map.1 hl
  exact ⟨l', hl', (addRecord_number log b l').symm⟩

/-- The batch goes to the log. -/
theorem running_addRecord (hn : Named appended disk db) (hs : Stored appended disk)
    (hr : Running appended acknowledged disk db n) {w : Writing K V} (hw : db.writing = some w)
    (hlogged : w.logged = false) (hack : acknowledged.Sublist appended) :
    Stored (appended ++ [(db.logfileNumber, w.batch)]) (disk.addRecord db.log w.batch) ∧
      Named (appended ++ [(db.logfileNumber, w.batch)]) (disk.addRecord db.log w.batch)
        { db with writing := some { w with logged := true } } ∧
      Running (appended ++ [(db.logfileNumber, w.batch)]) acknowledged
        (disk.addRecord db.log w.batch) { db with writing := some { w with logged := true } } n := by
  obtain ⟨h1, h2, h3, h4, h5, h6⟩ := hr.logging
  obtain ⟨w1, w2, w3, w4⟩ := hr.writes w hw
  have hnumber : db.logfileNumber = n := by
    rw [DBImpl.logfileNumber, h1]
    rfl
  have hlast := hr.logging.last hs
  refine ⟨?_, ?_, ?_⟩
  · rw [hnumber, Disk.addRecord, h1]
    refine hs.addRecord h2 hlast (fun g hg => ?_) fun r hr => ?_
    · obtain ⟨cf, hcf, rfl, hlive⟩ := hn.mem_ids.1 hg
      have h0 := hr.sound cf hcf hlive
      rw [hn.logNumber cf hcf hlive]
      exact h0.log_le.trans h0.mem_le
    · obtain ⟨cf, hcf, heq⟩ := w1 r hr
      exact heq ▸ hn.cfs_lt cf hcf
  · refine ⟨hn.families, hn.default, hn.nodup, hn.cfs_lt, hn.creating_lt, hn.next, hn.logNumber,
      hn.tables, fun cf hcf => ?_⟩
    obtain ⟨f1, f2, f3, f4, f5, f6, f7, f8⟩ := hn.fresh cf hcf
    refine ⟨f1, f2, f3, f4, f5, f6, f7, fun e he => ?_⟩
    rcases List.mem_append.1 he with he | he
    · exact f8 e he
    · rw [List.mem_singleton.1 he]
      refine recordsOf_eq_nil fun r hr heq => ?_
      obtain ⟨c, hc, heq'⟩ := w1 r hr
      exact hn.ne_creating hc hcf (heq'.trans heq)
  · refine ⟨⟨h1, ?_, fun l hl => ?_, h4, h5, fun k hk => ?_⟩, fun cf hcf hlive => ?_, fun w' hw' => ?_⟩
    · obtain ⟨l, hl, heq⟩ := h2
      obtain ⟨l', hl', heq'⟩ := mem_addRecord hl
      exact ⟨l', hl', heq'.trans heq⟩
    · obtain ⟨l0, hl0, heq⟩ := of_mem_addRecord hl
      exact heq ▸ h3 l0 hl0
    · obtain ⟨hlt, hall⟩ := h6 k hk
      refine ⟨hlt, fun cf hcf hlive hle => ?_⟩
      rw [hnumber, segment_concat_ne hlt.ne']
      exact hall cf hcf hlive hle
    · obtain ⟨⟨mem, hmem, hrecords⟩, himm, hlog_le, hmem_le⟩ := hr.sound cf hcf hlive
      rw [hnumber]
      refine ⟨⟨mem, hmem, ?_⟩, ?_, hlog_le, hmem_le⟩
      · have hinserted : w.inserted = false := by
          by_contra hin
          rw [Bool.not_eq_false] at hin
          exact absurd (w3 hin) (by rw [hlogged]; decide)
        rw [since_concat hmem_le, recordsIn_append, recordsIn_singleton, ← hrecords, hw]
        simp [pendingOf, hlogged, hinserted]
      · rw [between_concat hmem_le]
        exact himm
    · cases hw'
      refine ⟨w1, w2, fun _ => rfl, fun _ => ⟨appended, ?_, hack⟩⟩
      rw [hnumber]

theorem insertInto_eq (w : Writing K V) (cf : ColumnFamily K V) :
    ∃ mem, DBImpl.insertInto w cf = { cf with mem := mem } := by
  rw [DBImpl.insertInto]
  split
  · exact ⟨_, rfl⟩
  · exact ⟨cf.mem, rfl⟩

/-- The batch goes to the memtables. -/
theorem running_insert (hn : Named appended disk db)
    (hr : Running appended acknowledged disk db n) (h : db.insert = some db') :
    Named appended disk db' ∧ Running appended acknowledged disk db' n := by
  obtain ⟨w, hw, hlogged, hinserted, rfl⟩ := insert_some h
  obtain ⟨w1, w2, w3, w4⟩ := hr.writes w hw
  refine ⟨hn.map rfl (fun cf _ => ?_) rfl rfl rfl rfl (fun cf hcf hlive => ?_) fun _ _ => rfl,
    hr.logging.map rfl (fun cf _ => ?_) rfl rfl rfl rfl, fun c hc hlive => ?_, fun w' hw' => ?_⟩
  · obtain ⟨mem, heq⟩ := insertInto_eq w cf
    rw [heq]
    exact ⟨rfl, rfl, rfl⟩
  · obtain ⟨mem, heq⟩ := insertInto_eq w cf
    rw [heq]
    exact ⟨hn.logNumber cf hcf hlive, hn.tables cf hcf hlive⟩
  · obtain ⟨mem, heq⟩ := insertInto_eq w cf
    rw [heq]
    exact ⟨rfl, id, le_rfl, le_rfl⟩
  · obtain ⟨cf, hcf, rfl⟩ := List.mem_map.1 hc
    obtain ⟨mem', heq⟩ := insertInto_eq w cf
    have hlive0 : cf.dropped = false := by
      rw [heq] at hlive
      exact hlive
    obtain ⟨⟨mem, hmem, hrecords⟩, himm, hlog_le, hmem_le⟩ := hr.sound cf hcf hlive0
    have hpending : pendingOf db.writing cf.id = w.batch.recordsOf cf.id := by
      rw [hw]
      simp [pendingOf, hlogged, hinserted]
    rw [hpending] at hrecords
    have hnone : ∀ f, pendingOf (some { w with inserted := true }) f = [] := fun f => by
      simp [pendingOf]
    rw [hnone, DBImpl.insertInto]
    split
    · exact ⟨⟨mem ++ w.batch.recordsOf cf.id, by rw [hmem]; rfl, by rw [List.append_nil]; exact hrecords⟩,
        himm, hlog_le, hmem_le⟩
    · rename_i hout
      have hrest : w.batch.recordsOf cf.id = [] := recordsOf_eq_nil fun r hr heq =>
        hout (w2 cf hcf hlive0 ⟨r, hr, heq⟩)
      rw [hrest] at hrecords
      exact ⟨⟨mem, hmem, hrecords⟩, himm, hlog_le, hmem_le⟩
  · cases hw'
    refine ⟨fun r hr => ?_, fun c hc hlive hin => ?_, fun _ => hlogged, w4⟩
    · obtain ⟨cf, hcf, heq⟩ := w1 r hr
      obtain ⟨mem, heq'⟩ := insertInto_eq w cf
      refine ⟨_, List.mem_map_of_mem hcf, ?_⟩
      rw [heq', ← heq]
    · obtain ⟨cf, hcf, rfl⟩ := List.mem_map.1 hc
      obtain ⟨mem, heq'⟩ := insertInto_eq w cf
      rw [heq'] at hlive hin ⊢
      exact w2 cf hcf hlive hin

/-- The batch is acknowledged. -/
theorem running_close (hn : Named appended disk db) (hr : Running appended acknowledged disk db n)
    {b : Batch K V} (h : db.close = some (db', b)) :
    Named appended disk db' ∧
      Running appended (acknowledged ++ [(db.logfileNumber, b)]) disk db' n ∧
      (acknowledged ++ [(db.logfileNumber, b)]).Sublist appended := by
  obtain ⟨w, hw, hinserted, rfl, rfl⟩ := close_some h
  obtain ⟨w1, w2, w3, w4⟩ := hr.writes w hw
  have hnumber : db.logfileNumber = n := by
    rw [DBImpl.logfileNumber, hr.logging.log]
    rfl
  refine ⟨hn.map rfl (fun cf _ => ⟨rfl, rfl, rfl⟩) rfl rfl rfl rfl (fun cf hcf hlive =>
    ⟨hn.logNumber cf hcf hlive, hn.tables cf hcf hlive⟩) fun _ _ => rfl,
    ⟨hr.logging.map rfl (fun cf _ => ⟨rfl, id, le_rfl, le_rfl⟩) rfl rfl rfl rfl,
      fun c hc hlive => ?_, nofun⟩, ?_⟩
  · obtain ⟨cf, hcf, rfl⟩ := List.mem_map.1 hc
    have h0 := hr.sound cf hcf hlive
    have hpending : pendingOf db.writing cf.id = [] := by
      rw [hw]
      simp [pendingOf, hinserted]
    rw [hpending] at h0
    exact ⟨h0.mem, h0.imm, h0.log_le, h0.mem_le⟩
  · obtain ⟨before, happ, hsub⟩ := w4 (w3 hinserted)
    rw [happ, hnumber]
    exact hsub.append_right _

/-! ## Opening -/

/-- `DB::Open` finds the families of FAMILIES, with their manifests. -/
theorem creating_openDB (hs : Stored appended disk) {names : List String}
    {createMissing saveManifest : Bool} (h : disk.openDB names createMissing saveManifest = some db) :
    Named appended disk db ∧ Creating appended disk db ∧ ∃ missing, db.phase = .creating missing := by
  rw [Disk.openDB] at h
  split at h
  swap
  · cases h
  cases h
  have hids : (((0, "default") :: disk.families).map fun f =>
      ColumnFamily.ofManifest f.1 f.2 (disk.manifests f.1)).map (·.id) = disk.ids := by
    rw [List.map_map]
    rfl
  refine ⟨⟨?_, ?_, ?_, fun cf hcf => ?_, nofun, le_rfl, fun cf hcf _ => ?_, fun cf hcf _ => ?_, nofun⟩,
    ⟨rfl, rfl, rfl, fun _ => rfl, fun cf hcf => ?_, fun cf hcf => ?_, fun cf hcf => .inl ?_, nofun⟩, _,
    rfl⟩
  · -- no family of FAMILIES has the id of the default one
    have hne : ∀ p ∈ disk.families, p.1 ≠ 0 := fun p hp hzero =>
      (List.nodup_cons.1 hs.nodup).1 (hzero ▸ List.mem_map_of_mem hp)
    rw [DBImpl.onDisk, List.map_cons, List.filter_cons_of_neg (by simp [ColumnFamily.ofManifest]),
      List.filter_eq_self.2, List.map_map]
    · exact (List.map_id _).symm
    · intro cf hcf
      obtain ⟨p, hp, rfl⟩ := List.mem_map.1 hcf
      exact decide_eq_true ⟨hne p hp, rfl⟩
  · exact ⟨_, List.mem_cons_self, rfl, rfl⟩
  · rw [List.append_nil, hids]
    exact hs.nodup
  · exact hs.lt_next cf.id (hids ▸ List.mem_map_of_mem hcf)
  all_goals
    obtain ⟨p, -, rfl⟩ := List.mem_map.1 hcf
    rfl

/-- The records of the logs are in the edit, and the memtable starts on a new log. -/
theorem unedited_replayed (hs : Stored appended disk) (hkept : Kept appended disk.logs cf.id cf.versions)
    {m : Nat} (hm : m ≤ cf.versions.logNumber)
    (hmem : cf.mem = none ∨ Fresh appended disk cf ∧ cf.versions.logNumber = 0) (himm : cf.imm = none)
    {cf' : ColumnFamily K V} (hsame : DBImpl.Same cf cf') (hmem' : cf'.mem = cf.mem)
    (hnumber : cf'.memLogNumber = cf.memLogNumber)
    {edit : Option (List (List (Nat × Record K V)))}
    (hedit : editRecords edit = DBImpl.readOf cf.id cf.versions.logNumber
      (disk.logs.filter fun l => m ≤ l.number))
    (hlt : ∀ l ∈ disk.logs, l.number < n) : Unedited appended n edit cf' := by
  have hlast : ∀ e ∈ appended, e.1 < n := fun e he => by
    obtain ⟨l, hl, hle⟩ := hs.covered e he
    exact hle.trans_lt (hlt l hl)
  rw [readOf_logs hs hkept hm] at hedit
  rcases hmem with hnone | ⟨hfresh, hzero⟩
  · have hstart : cf'.start n = n := by
      rw [ColumnFamily.start, hmem', hnone]
    refine ⟨?_, ?_, hsame.imm.trans himm, ?_, hstart.le⟩
    · rw [hstart, hsame.tables, hsame.id, hkept.tables, hedit, ← recordsIn_append,
        below_append_since hs.sorted, below_eq_map hlast]
    · rw [hmem', hnone, hstart, since_eq_nil hlast]
      rfl
    · rw [hstart, hsame.logNumber]
      rcases hkept.reached with hzero | ⟨l, hl, hle⟩
      · exact hzero ▸ Nat.zero_le n
      · exact hle.trans (hlt l hl).le
  · have hstart : cf'.start n = 0 := by
      rw [ColumnFamily.start, hmem', hfresh.mem, hnumber, ← hzero]
      exact hfresh.start
    refine ⟨?_, ?_, hsame.imm.trans himm, ?_, hstart ▸ Nat.zero_le n⟩
    · rw [hedit, hsame.tables, hfresh.tables, hsame.id]
      exact (recordsIn_unused _ hfresh.unused).trans (recordsIn_unused _ hfresh.unused).symm
    · rw [hmem', hfresh.mem, hsame.id]
      exact (recordsIn_unused _ hfresh.unused).symm
    · rw [hsame.logNumber, hzero]
      exact Nat.zero_le _

/-- The last log is open again, and its records are in the memtable. -/
theorem unedited_reused (hs : Stored appended disk) (hkept : Kept appended disk.logs cf.id cf.versions)
    {m : Nat} (hm : m ≤ cf.versions.logNumber) (himm : cf.imm = none) {cf' : ColumnFamily K V}
    (hsame : DBImpl.Same cf cf') {before : List (LogFile K V)} {l : LogFile K V}
    (hlogs : (disk.logs.filter fun l => m ≤ l.number) = before ++ [l])
    (hmem : cf'.mem = some (DBImpl.readOf cf.id cf.versions.logNumber [l]))
    (hnumber : cf'.memLogNumber = l.number) {edit : Option (List (List (Nat × Record K V)))}
    (hedit : editRecords edit = DBImpl.readOf cf.id cf.versions.logNumber before)
    (hlast : ∀ l' ∈ disk.logs, l'.number ≤ l.number) : Unedited appended l.number edit cf' := by
  have hle : cf.versions.logNumber ≤ l.number := by
    rcases hkept.reached with hzero | ⟨l', hl', hle⟩
    · exact hzero ▸ Nat.zero_le _
    · exact hle.trans (hlast l' hl')
  obtain ⟨hbefore, hone⟩ := readOf_reused hs hkept hm hlogs hle fun e he => by
    obtain ⟨l', hl', hle⟩ := hs.covered e he
    exact hle.trans (hlast l' hl')
  have hstart : cf'.start l.number = l.number := by
    rw [ColumnFamily.start, hmem]
    exact hnumber
  refine ⟨?_, ?_, hsame.imm.trans himm, ?_, hstart.le⟩
  · rw [hstart, hsame.tables, hsame.id, hkept.tables, hedit, hbefore, ← recordsIn_append,
      below_append_between hs.sorted hle]
  · rw [hmem, hstart, hsame.id, Option.getD_some, hone]
  · rw [hstart, hsame.logNumber]
    exact hle

/-- No log is newer than all that are read. -/
theorem le_read (hkept : Kept appended disk.logs cf.id cf.versions) {m : Nat}
    (hm : m ≤ cf.versions.logNumber) {l : LogFile K V} (hl : l ∈ disk.logs) :
    ∃ l' ∈ disk.logs.filter fun l => m ≤ l.number, l.number ≤ l'.number := by
  by_cases hle : m ≤ l.number
  · exact ⟨l, List.mem_filter.2 ⟨hl, decide_eq_true hle⟩, le_rfl⟩
  · rcases hkept.reached with hzero | ⟨l', hl', hle'⟩
    · omega
    · exact ⟨l', List.mem_filter.2 ⟨hl', decide_eq_true (hm.trans hle')⟩, by omega⟩

omit [LinearOrder K] in
theorem minLog_le (hcf : cf ∈ db.cfs) : db.minLog ≤ cf.versions.logNumber :=
  foldl_min_le.2 _ (List.mem_map_of_mem hcf)

/-- What `Recover` does to the families. -/
theorem readLogs_spec (hn : Named appended disk db) (hs : Stored appended disk)
    (hc : Creating appended disk db) (reuseLogs : Bool) (full : Nat → List (Nat × Record K V) → Bool) :
    ∃ g : ColumnFamily K V → ColumnFamily K V,
      (db.readLogs disk reuseLogs full).cfs = db.cfs.map g ∧
      ∀ cf ∈ db.cfs, DBImpl.Same cf (g cf) ∧
        (∀ l ∈ disk.logs.filter fun l => db.minLog ≤ l.number,
          l.number < (g cf).versions.nextFileNumber) ∧
        DBImpl.Fed (disk.logs.filter fun l => db.minLog ≤ l.number)
          (db.readLogs disk reuseLogs full).log
          ((db.readLogs disk reuseLogs full).recoveryEdits cf.id) cf (g cf) := by
  -- the logs are in order already
  have hsort : ((disk.logs.filter fun l => db.minLog ≤ l.number).insertionSort
      fun a b => a.number ≤ b.number) = disk.logs.filter fun l => db.minLog ≤ l.number :=
    ((hs.logs.filter _).imp fun hab => Nat.le_of_lt hab).insertionSort_eq
  rw [DBImpl.readLogs, hsort]
  generalize (disk.logs.filter fun l => db.minLog ≤ l.number) = logs
  generalize hstart : (⟨db.cfs, db.creating, db.nextFamilyId, db.log,
    (db.cfs.map fun cf => cf.versions.lastSequence).foldl max 0, db.recoveryEdits, db.saveManifest,
    db.phase, db.writing, db.obsolete⟩ : DBImpl K V) = start
  have hcfs : start.cfs = db.cfs := hstart ▸ rfl
  have hread : ∀ cf ∈ start.cfs, editRecords (start.recoveryEdits cf.id) =
      DBImpl.readOf cf.id cf.versions.logNumber [] := fun cf _ => by
    rw [← hstart]
    show editRecords (db.recoveryEdits cf.id) = _
    rw [hc.edits]
    rfl
  obtain ⟨g, hg, hall⟩ := DBImpl.recoverLogFiles_spec reuseLogs full (hcfs ▸ hn.cfs_nodup)
    (hcfs ▸ hc.live) (hstart ▸ hc.log) hread logs
  rw [hcfs] at hg hall
  refine ⟨fun cf => DBImpl.setLastSequence (max (g cf).versions.lastSequence
    (DBImpl.recoverLogFiles reuseLogs full start logs).lastSequence) (g cf), ?_, fun cf hcf => ?_⟩
  · show List.map _ (DBImpl.recoverLogFiles reuseLogs full start logs).cfs = _
    rw [hg, List.map_map]
    rfl
  · obtain ⟨⟨h1, h2, h3, h4, h5, h6, h7⟩, hnumbers, hfed⟩ := hall cf hcf
    exact ⟨⟨h1, h2, h3, h4, h5, h6, h7⟩, hnumbers, hfed⟩

theorem readLogs_frame (reuseLogs : Bool) (full : Nat → List (Nat × Record K V) → Bool) :
    (db.readLogs disk reuseLogs full).creating = db.creating ∧
      (db.readLogs disk reuseLogs full).nextFamilyId = db.nextFamilyId ∧
      (db.readLogs disk reuseLogs full).writing = db.writing ∧
      (db.readLogs disk reuseLogs full).obsolete = db.obsolete ∧
      (db.readLogs disk reuseLogs full).phase =
        .editing ((db.readLogs disk reuseLogs full).cfs.map fun cf => cf.id) := by
  obtain ⟨h1, h2, h3, h4⟩ := DBImpl.recoverLogFiles_frame reuseLogs full _
  refine ⟨h1, h2, h3, h4, ?_⟩
  rw [DBImpl.readLogs, List.map_map]
  rfl

/-- Reading the logs keeps the families as they are named. -/
theorem named_readLogs (hn : Named appended disk db) (hs : Stored appended disk)
    (hc : Creating appended disk db) (reuseLogs : Bool) (full : Nat → List (Nat × Record K V) → Bool) :
    Named appended disk (db.readLogs disk reuseLogs full) := by
  obtain ⟨g, hg, hall⟩ := readLogs_spec hn hs hc reuseLogs full
  obtain ⟨hcreating, hnext, -⟩ := @readLogs_frame _ _ _ disk db reuseLogs full
  have hsame : ∀ cf ∈ db.cfs, DBImpl.Same cf (g cf) := fun cf hcf => (hall cf hcf).1
  exact hn.map hg
    (fun cf hcf => ⟨(hsame cf hcf).id, (hsame cf hcf).name, (hsame cf hcf).dropped⟩) hcreating hnext
    rfl rfl (fun cf hcf hlive => by
      rw [(hsame cf hcf).logNumber, (hsame cf hcf).tables]
      exact ⟨hn.logNumber cf hcf hlive, hn.tables cf hcf hlive⟩) fun _ _ => rfl

/-- After it the numbers of the logs are used. -/
theorem used_readLogs (hn : Named appended disk db) (hs : Stored appended disk)
    (hc : Creating appended disk db) (reuseLogs : Bool) (full : Nat → List (Nat × Record K V) → Bool) :
    ∀ c ∈ (db.readLogs disk reuseLogs full).cfs, ∀ l ∈ disk.logs,
      l.number < c.versions.nextFileNumber := by
  obtain ⟨g, hg, hall⟩ := readLogs_spec hn hs hc reuseLogs full
  intro c hc' l hl
  obtain ⟨cf, hcf, rfl⟩ := List.mem_map.1 (hg ▸ hc')
  obtain ⟨l', hl', hle⟩ := le_read (hn.kept hs hcf (hc.live cf hcf)) (minLog_le hcf) hl
  exact hle.trans_lt ((hall cf hcf).2.1 l' hl')

/-- The last log read is the last there is. -/
theorem le_last (hs : Stored appended disk) (hkept : Kept appended disk.logs cf.id cf.versions)
    {m : Nat} (hm : m ≤ cf.versions.logNumber) {before : List (LogFile K V)} {last : LogFile K V}
    (hlogs : (disk.logs.filter fun l => m ≤ l.number) = before ++ [last]) {l : LogFile K V}
    (hl : l ∈ disk.logs) : l.number ≤ last.number := by
  obtain ⟨l', hl', hle⟩ := le_read hkept hm hl
  rw [hlogs] at hl'
  rcases List.mem_append.1 hl' with hl' | hl'
  · have hsorted := hs.logs.filter fun l => m ≤ l.number
    rw [hlogs, List.pairwise_append] at hsorted
    exact hle.trans (hsorted.2.2 l' hl' last (List.mem_singleton_self _)).le
  · exact List.mem_singleton.1 hl' ▸ hle

/-- The log that is open again was read last, into the family's memtable. -/
theorem reused_of_fed {logs : List (LogFile K V)} {edit : Option (List (List (Nat × Record K V)))}
    {cf' : ColumnFamily K V} (hfed : DBImpl.Fed logs (some n) edit cf cf') :
    ∃ before l, l.number = n ∧ logs = before ++ [l] ∧
      cf'.mem = some (DBImpl.readOf cf.id cf.versions.logNumber [l]) ∧
      cf'.memLogNumber = l.number ∧
      editRecords edit = DBImpl.readOf cf.id cf.versions.logNumber before := by
  rcases hfed with ⟨hnone, -⟩ | ⟨before, l, h1, h2, -, h4, h5, h6⟩
  · cases hnone
  · exact ⟨before, l, (Option.some.inj h2).symm, h1, h4, h5, h6⟩

/-- `DB::Open` reads the logs and opens one. -/
theorem editing_recoverLogs (hn : Named appended disk db) (hs : Stored appended disk)
    (hc : Creating appended disk db) {reuseLogs : Bool}
    {full : Nat → List (Nat × Record K V) → Bool}
    (h : db.recoverLogs disk reuseLogs full = some (db', disk')) :
    Stored appended disk' ∧ Named appended disk' db' ∧
      ∃ ids n, db'.phase = .editing ids ∧ Editing appended disk' db' n ids := by
  obtain ⟨dflt, hdflt, -⟩ := hn.default
  obtain ⟨g, hg, hall⟩ := readLogs_spec hn hs hc reuseLogs full
  obtain ⟨hcreating, -, hwriting, hobsolete, hphase⟩ :=
    @readLogs_frame _ _ _ disk db reuseLogs full
  have hnread := named_readLogs hn hs hc reuseLogs full
  have hused := used_readLogs hn hs hc reuseLogs full
  rw [DBImpl.recoverLogs] at h
  generalize db.readLogs disk reuseLogs full = read at *
  have hsame : ∀ cf ∈ db.cfs, DBImpl.Same cf (g cf) := fun cf hcf => (hall cf hcf).1
  have hfrom : ∀ c ∈ read.cfs, ∃ cf ∈ db.cfs, g cf = c := fun c hc => List.mem_map.1 (hg ▸ hc)
  have hkept : ∀ cf ∈ db.cfs, Kept appended disk.logs cf.id cf.versions := fun cf hcf =>
    hn.kept hs hcf (hc.live cf hcf)
  have hcreating0 : ∀ c ∈ read.creating, c.versions.logNumber = 0 := hcreating ▸ hc.creating
  have hobsolete0 : read.obsolete = [] := hobsolete.trans hc.obsolete
  split at h
  · -- a new log
    rename_i hnone
    rw [Option.isNone_iff_eq_none] at hnone
    obtain ⟨hs', hn', number, m, hl, hlt, rfl⟩ := switchLog_spec hnread hs
      (fun c hc' _ => hused c hc') (fun c hc' => .inl (hcreating0 c hc')) (by rw [hobsolete0]; nofun) h
    refine ⟨hs', hn', _, number, hphase, hl, hwriting.trans hc.writing, fun c hc' => ?_,
      hnread.cfs_nodup, fun c hc' _ => ?_, fun c hc' hout => ?_⟩
    · obtain ⟨c, hc0, rfl⟩ := List.mem_map.1 hc'
      obtain ⟨cf, hcf, rfl⟩ := hfrom c hc0
      exact (hsame cf hcf).dropped.trans (hc.live cf hcf)
    · obtain ⟨c, hc0, rfl⟩ := List.mem_map.1 hc'
      obtain ⟨cf, hcf, rfl⟩ := hfrom c hc0
      obtain ⟨-, -, hfed⟩ := hall cf hcf
      rw [hnone] at hfed
      rcases hfed with ⟨-, hmem, hnumber, hedit⟩ | ⟨_, _, _, hlog, _⟩
      · obtain ⟨h1, h2, h3, h4, h5⟩ := unedited_replayed hs (hkept cf hcf) (minLog_le hcf)
          (hc.mem cf hcf) (hc.imm cf hcf) (hsame cf hcf) hmem hnumber hedit hlt
        rw [← (hsame cf hcf).id] at h1
        exact ⟨h1, h2, h3, h4, h5⟩
      · exact absurd hlog (nomatch ·)
    · obtain ⟨c, hc0, rfl⟩ := List.mem_map.1 hc'
      exact absurd (List.mem_map_of_mem hc0) hout
  · -- the last log is open again
    rename_i hsome
    obtain ⟨rfl, rfl⟩ := Prod.mk.inj (Option.some.inj h)
    obtain ⟨n, hlog⟩ := Option.ne_none_iff_exists'.1 fun hnone => hsome (Option.isNone_iff_eq_none.2 hnone)
    rw [hlog] at hall
    obtain ⟨before, last, rfl, hlogs, -⟩ := reused_of_fed (hall dflt hdflt).2.2
    have hlast : ∀ l ∈ disk.logs, l.number ≤ last.number := fun l hl =>
      le_last hs (hkept dflt hdflt) (minLog_le hdflt) hlogs hl
    have hin : last ∈ disk.logs := List.mem_of_mem_filter
      (hlogs ▸ List.mem_append_right before (List.mem_singleton_self last))
    refine ⟨hs, hnread, _, last.number, hphase, ⟨hlog, ⟨last, hin, rfl⟩, hlast, fun c hc' _ =>
      hused c hc' last hin, fun c hc' => (hcreating0 c hc').trans_le (Nat.zero_le _),
      by rw [hobsolete0]; nofun⟩, hwriting.trans hc.writing, fun c hc' => ?_, hnread.cfs_nodup,
      fun c hc' _ => ?_, fun c hc' hout => absurd (List.mem_map_of_mem hc') hout⟩
    · obtain ⟨cf, hcf, rfl⟩ := hfrom c hc'
      exact (hsame cf hcf).dropped.trans (hc.live cf hcf)
    · obtain ⟨cf, hcf, rfl⟩ := hfrom c hc'
      obtain ⟨before', l, hnumber, hlogs', hmem, hmemlog, hedit⟩ := reused_of_fed (hall cf hcf).2.2
      have hunedited := unedited_reused hs (hkept cf hcf) (minLog_le hcf) (hc.imm cf hcf)
        (hsame cf hcf) hlogs' hmem hmemlog hedit fun l' hl' => (hlast l' hl').trans_eq hnumber.symm
      rw [(hsame cf hcf).id, ← hnumber]
      exact hunedited

/-- A family of `DB::Open` is done. -/
theorem Editing.set (he : Editing appended disk db n (f :: ids)) (hn : Named appended disk db)
    {cf' : ColumnFamily K V} (hcf : cf ∈ db.cfs) (hcfs : db'.cfs = (db.set cf.id cf').cfs)
    (hf : cf.id = f) (hid : cf'.id = cf.id) (hdropped : cf'.dropped = cf.dropped)
    (hnumber : cf.versions.logNumber ≤ cf'.versions.logNumber)
    (hnext : cf.versions.nextFileNumber ≤ cf'.versions.nextFileNumber)
    (hsound : Sound appended n [] cf') (hlog : db'.log = db.log) (hlogs : disk'.logs = disk.logs)
    (hcreating : db'.creating = db.creating) (hobsolete : db'.obsolete = db.obsolete)
    (hwriting : db'.writing = db.writing) (hedits : db'.recoveryEdits = db.recoveryEdits) :
    Editing appended disk' db' n ids := by
  obtain ⟨hout, hnodup⟩ := List.nodup_cons.1 he.nodup
  refine ⟨he.logging.set hn hcf hcfs hid (fun h => hdropped.symm.trans h) hnumber hnext hlog hlogs
    hcreating hobsolete, hwriting.trans he.writing, fun c hc => ?_, hnodup, fun c hc hin => ?_,
    fun c hc hin => ?_⟩
  · rcases mem_set (hcfs ▸ hc) with rfl | ⟨hc, -⟩
    · exact hdropped.trans (he.live cf hcf)
    · exact he.live c hc
  · rcases mem_set (hcfs ▸ hc) with rfl | ⟨hc, -⟩
    · exact absurd (hf ▸ hid ▸ hin) hout
    · rw [hedits]
      exact he.unedited c hc (List.mem_cons_of_mem _ hin)
  · rcases mem_set (hcfs ▸ hc) with rfl | ⟨hc, hne⟩
    · exact hsound
    · refine he.sound c hc fun hin' => ?_
      rcases List.mem_cons.1 hin' with heq | hin'
      · exact hne (heq.trans hf.symm)
      · exact hin hin'

omit [LinearOrder K] in
theorem startMemTable_eq (hlog : db.log = some n) : db.startMemTable cf =
    { cf with mem := some (cf.mem.getD []), memLogNumber := cf.start n } := by
  rw [DBImpl.startMemTable, ColumnFamily.start, DBImpl.logfileNumber, hlog]
  cases hcase : cf.mem with
  | none => rfl
  | some m =>
    simp only [Option.getD_some]
    rw [← hcase]

/-- `DB::Open` edits the manifest of a family: its tables are those up to its memtable. -/
theorem editing_editManifest (hn : Named appended disk db) (hs : Stored appended disk)
    (he : Editing appended disk db n (f :: ids)) (h : db.editManifest disk f = some (db', disk')) :
    Stored appended disk' ∧ Named appended disk' db' ∧ Editing appended disk' db' n ids := by
  obtain ⟨cf, hfind, heq⟩ := Option.map_eq_some_iff.1 h
  obtain ⟨hcf, rfl⟩ := find?_some hfind
  have hl := he.logging
  obtain ⟨l, hlast, hnumber⟩ := hl.present
  have hlive := he.live cf hcf
  obtain ⟨htables, hmem, himm, hlog_le, hstart_le⟩ := he.unedited cf hcf List.mem_cons_self
  have hkept := hn.kept hs hcf hlive
  have hstarted : db.startMemTable cf =
      { cf with mem := some (cf.mem.getD []), memLogNumber := cf.start n } :=
    startMemTable_eq hl.log
  simp only [hstarted] at heq
  split at heq
  · -- the manifest starts where the memtable does
    cases heq
    have hflat : (cf.versions.tables ++ (db.recoveryEdits cf.id).getD []).flatten =
        recordsIn cf.id (below (cf.start n) appended) := by
      rw [List.flatten_append]
      exact htables
    refine ⟨hs.setManifest fun _ => ⟨hflat, fun e he hle => hkept.needed e he (hlog_le.trans hle),
      .inr ⟨l, hlast, hnumber ▸ hstart_le⟩⟩, hn.set hcf rfl rfl rfl rfl rfl rfl rfl rfl ?_ ?_
      fun g hg => Function.update_of_ne hg _ _, he.set hn hcf rfl rfl rfl rfl hlog_le le_rfl
      ⟨⟨_, rfl, ?_⟩, ?_, le_rfl, hstart_le⟩ rfl rfl rfl rfl rfl rfl⟩
    · simp only [Function.update_self]
    · simp only [Function.update_self]
    · rw [List.append_nil]
      exact hmem
    · show cf.imm.getD [] = recordsIn cf.id (between (cf.start n) (cf.start n) appended)
      rw [himm, between_self]
      rfl
  · -- nothing was recovered for it
    rename_i hkeep
    cases heq
    simp only [Bool.or_eq_true, not_or, Option.not_isSome_iff_eq_none] at hkeep
    refine ⟨hs, hn.set hcf rfl rfl rfl rfl rfl rfl rfl rfl (hn.logNumber cf hcf hlive)
      (hn.tables cf hcf hlive) fun _ _ => rfl, he.set hn hcf rfl rfl rfl rfl le_rfl le_rfl
      ⟨⟨_, rfl, ?_⟩, ?_, hlog_le, hstart_le⟩ rfl rfl rfl rfl rfl rfl⟩
    · rw [List.append_nil]
      exact hmem
    · show cf.imm.getD [] = recordsIn cf.id (between cf.versions.logNumber (cf.start n) appended)
      rw [hkeep.1.2, hkept.tables, ← below_append_between hs.sorted hlog_le, recordsIn_append] at htables
      rw [himm]
      exact List.append_cancel_left htables

end

/-! ## Every step -/

section
variable {s s' : State K V} {db db' : DBImpl K V} {disk' : Disk K V}

theorem inv_empty : Inv (State.empty : State K V) :=
  ⟨stored_empty, .slnil, nofun, nofun⟩

theorem inv_of_some (hdb : s.db = some db) (hs : Stored s.appended s.disk)
    (hack : s.acknowledged.Sublist s.appended) (hn : Named s.appended s.disk db)
    (hp : Phased s.appended s.acknowledged s.disk db) : Inv s := by
  refine ⟨hs, hack, fun db' hdb' => ?_, fun db' hdb' => ?_⟩
  all_goals
    rw [hdb] at hdb'
    cases hdb'
    assumption

theorem Inv.creating (h : Inv s) (hdb : s.db = some db) {names : List String}
    (hphase : db.phase = .creating names) : Creating s.appended s.disk db := by
  have hp := h.phased db hdb
  rw [Phased, hphase] at hp
  exact hp

theorem Inv.editing (h : Inv s) (hdb : s.db = some db) {ids : List Nat}
    (hphase : db.phase = .editing ids) : ∃ n, Editing s.appended s.disk db n ids := by
  have hp := h.phased db hdb
  rw [Phased, hphase] at hp
  exact hp

theorem Inv.running (h : Inv s) (hdb : s.db = some db) (hphase : db.phase = .running) :
    ∃ n, Running s.appended s.acknowledged s.disk db n := by
  have hp := h.phased db hdb
  rw [Phased, hphase] at hp
  exact hp

/-- Nothing is written before `DB::Open` is done. -/
theorem Inv.running_of_writing (h : Inv s) (hdb : s.db = some db) {w : Writing K V}
    (hw : db.writing = some w) : db.phase = .running := by
  cases hphase : db.phase with
  | creating names => exact absurd (hw.symm.trans (h.creating hdb hphase).writing) (nomatch ·)
  | editing ids =>
    obtain ⟨n, he⟩ := h.editing hdb hphase
    exact absurd (hw.symm.trans he.writing) (nomatch ·)
  | running => rfl

theorem Logging.setPhase {appended : List (Nat × Batch K V)} {disk : Disk K V} {n : Nat}
    (h : Logging appended disk db n) (phase : Phase) : Logging appended disk { db with phase } n :=
  ⟨h.log, h.present, h.newest, h.next, h.creating, h.obsolete⟩

theorem Running.setPhase {appended acknowledged : List (Nat × Batch K V)} {disk : Disk K V} {n : Nat}
    (h : Running appended acknowledged disk db n) (phase : Phase) :
    Running appended acknowledged disk { db with phase } n := by
  refine ⟨h.logging.setPhase phase, h.sound, fun w hw => ?_⟩
  obtain ⟨w1, w2, w3, w4⟩ := h.writes w hw
  exact ⟨w1, w2, w3, w4⟩

theorem phased_running {appended acknowledged : List (Nat × Batch K V)} {disk : Disk K V} {n : Nat}
    (hphase : db.phase = .running) (hr : Running appended acknowledged disk db n) :
    Phased appended acknowledged disk db := by
  rw [Phased, hphase]
  exact ⟨n, hr⟩

/-- A step of the running process on its own. -/
theorem Inv.update (h : Inv s) {n : Nat} (hs : Stored s.appended disk')
    (hn : Named s.appended disk' db') (hphase : db'.phase = .running)
    (hr : Running s.appended s.acknowledged disk' db' n) : Inv (s.update (db', disk')) :=
  inv_of_some rfl hs h.acknowledged hn (phased_running hphase hr)

omit [LinearOrder K] in
theorem editManifest_phase {disk : Disk K V} {f : Nat} (h : db.editManifest disk f = some (db', disk')) :
    db'.phase = db.phase := by
  obtain ⟨cf, -, heq⟩ := Option.map_eq_some_iff.1 h
  dsimp only at heq
  split at heq
  · cases heq
    rfl
  · cases heq
    rfl

omit [LinearOrder K] in
theorem capture_phase {records : List (Nat × Record K V)} (h : db.capture records = some db') :
    db'.phase = db.phase := by
  obtain ⟨-, -, rfl⟩ := capture_some h
  rfl

theorem insert_phase (h : db.insert = some db') : db'.phase = db.phase := by
  obtain ⟨w, -, -, -, rfl⟩ := insert_some h
  rfl

omit [LinearOrder K] in
theorem close_phase {b : Batch K V} (h : db.close = some (db', b)) : db'.phase = db.phase := by
  obtain ⟨w, -, -, -, rfl⟩ := close_some h
  rfl

omit [LinearOrder K] in
theorem switchLog_phase {disk : Disk K V} (h : db.switchLog disk = some (db', disk')) :
    db'.phase = db.phase := by
  obtain ⟨cf, -, -, -, rfl⟩ := switchLog_some h
  rfl

omit [LinearOrder K] in
theorem switchMemTable_phase {disk : Disk K V} {f : Nat}
    (h : db.switchMemTable disk f = some (db', disk')) : db'.phase = db.phase := by
  obtain ⟨db1, cf, hswitch, -, -, rfl⟩ := switchMemTable_some h
  have hphase : db1.phase = db.phase := switchLog_phase hswitch
  exact hphase

omit [LinearOrder K] in
theorem compactMemTable_phase {disk : Disk K V} {f : Nat}
    (h : db.compactMemTable disk f = some (db', disk')) : db'.phase = db.phase := by
  obtain ⟨cf, imm, _, -, -, -, rfl, -⟩ := compactMemTable_some h
  rfl

/-- **A step of the process** keeps the invariant. -/
theorem inv_stepped (h : Inv s) (hdb : s.db = some db) {a : Action K V} (hstep : Stepped s db a s') :
    Inv s' := by
  have hn := h.named db hdb
  cases hstep with
  | crash => exact ⟨h.stored, h.acknowledged, nofun, nofun⟩
  | createColumnFamily hphase hcreate =>
    obtain ⟨hs', hn', -, -, new, -, heq⟩ := named_createColumnFamily hn h.stored hcreate
    have hsame := congrArg DBImpl.phase heq
    rcases hphase with hphase | ⟨-, names, hphase⟩
    · obtain ⟨n, hr⟩ := h.running hdb hphase
      exact h.update hs' hn' (hsame.trans hphase) (running_createColumnFamily hn h.stored hr hcreate)
    · refine inv_of_some rfl hs' h.acknowledged hn' ?_
      rw [Phased, hsame.trans hphase]
      exact creating_createColumnFamily hn h.stored (h.creating hdb hphase) hcreate
  | @commitColumnFamily i phase db' disk' hphase hcommit =>
    have hn0 : Named s.appended s.disk { db with phase := phase } := hn.congr rfl rfl rfl
    rcases hphase with ⟨hphase, rfl⟩ | ⟨name, names, hphase, rfl⟩
    · obtain ⟨n, hr⟩ := h.running hdb hphase
      have hr0 := hr.setPhase .running
      obtain ⟨hs', hn', -, -, new, cfs, -, -, heq⟩ :=
        named_commitColumnFamily hn0 h.stored hr0.logging.reached hcommit
      exact h.update hs' hn' (congrArg DBImpl.phase heq)
        (running_commitColumnFamily hn0 h.stored hr0 hcommit)
    · have hc := h.creating hdb hphase
      have hc0 : Creating s.appended s.disk { db with phase := .creating names } :=
        ⟨hc.log, hc.writing, hc.obsolete, hc.edits, hc.live, hc.imm, hc.mem, hc.creating⟩
      obtain ⟨hs', hn', -, -, new, cfs, -, -, heq⟩ := named_commitColumnFamily hn0 h.stored
        (fun cf hcf => .inl (hc.creating cf hcf)) hcommit
      refine inv_of_some rfl hs' h.acknowledged hn' ?_
      rw [Phased, show db'.phase = .creating names from congrArg DBImpl.phase heq]
      exact creating_commitColumnFamily hn0 h.stored hc0 hcommit
  | recoverLogs hphase hrecover =>
    obtain ⟨hs', hn', ids, n, hphase', he⟩ :=
      editing_recoverLogs hn h.stored (h.creating hdb hphase) hrecover
    refine inv_of_some rfl hs' h.acknowledged hn' ?_
    rw [Phased, hphase']
    exact ⟨n, he⟩
  | @editManifest id ids db' disk' hphase hedit =>
    obtain ⟨n, he⟩ := h.editing hdb hphase
    have hn0 : Named s.appended s.disk { db with phase := .editing ids } := hn.congr rfl rfl rfl
    have he0 : Editing s.appended s.disk { db with phase := .editing ids } n (id :: ids) :=
      ⟨he.logging.setPhase _, he.writing, he.live, he.nodup, he.unedited, he.sound⟩
    obtain ⟨hs', hn', he'⟩ := editing_editManifest hn0 h.stored he0 hedit
    refine inv_of_some rfl hs' h.acknowledged hn' ?_
    rw [Phased, editManifest_phase hedit]
    exact ⟨n, he'⟩
  | finishOpen hphase =>
    obtain ⟨n, he⟩ := h.editing hdb hphase
    refine inv_of_some rfl h.stored h.acknowledged (hn.congr rfl rfl rfl) (phased_running rfl
      ⟨he.logging.setPhase .running, fun cf hcf _ => ?_, fun w hw => ?_⟩)
    · show Sound s.appended n (pendingOf db.writing cf.id) cf
      rw [he.writing]
      exact he.sound cf hcf List.not_mem_nil
    · exact absurd (he.writing.symm.trans hw) (nomatch ·)
  | capture hphase hcapture =>
    obtain ⟨n, hr⟩ := h.running hdb hphase
    obtain ⟨hn', hr'⟩ := running_capture hn hr hcapture
    exact inv_of_some rfl h.stored h.acknowledged hn'
      (phased_running ((capture_phase hcapture).trans hphase) hr')
  | addRecord hw hlogged =>
    have hphase := h.running_of_writing hdb hw
    obtain ⟨n, hr⟩ := h.running hdb hphase
    obtain ⟨hs', hn', hr'⟩ := running_addRecord hn h.stored hr hw hlogged h.acknowledged
    exact inv_of_some rfl hs' (h.acknowledged.trans (List.sublist_append_left _ _)) hn'
      (phased_running hphase hr')
  | insert hinsert =>
    obtain ⟨w, hw, -⟩ := insert_some hinsert
    have hphase := h.running_of_writing hdb hw
    obtain ⟨n, hr⟩ := h.running hdb hphase
    obtain ⟨hn', hr'⟩ := running_insert hn hr hinsert
    exact inv_of_some rfl h.stored h.acknowledged hn'
      (phased_running ((insert_phase hinsert).trans hphase) hr')
  | close hclose =>
    obtain ⟨w, hw, -⟩ := close_some hclose
    have hphase := h.running_of_writing hdb hw
    obtain ⟨n, hr⟩ := h.running hdb hphase
    obtain ⟨hn', hr', hack⟩ := running_close hn hr hclose
    exact inv_of_some rfl h.stored hack hn' (phased_running ((close_phase hclose).trans hphase) hr')
  | switchMemTable hphase hw hswitch =>
    obtain ⟨n, hr⟩ := h.running hdb hphase
    obtain ⟨hs', hn', n', hr'⟩ := running_switchMemTable hn h.stored hr hw hswitch
    exact h.update hs' hn' ((switchMemTable_phase hswitch).trans hphase) hr'
  | compactMemTable hphase hcompact =>
    obtain ⟨n, hr⟩ := h.running hdb hphase
    obtain ⟨hs', hn', hr'⟩ := running_compactMemTable hn h.stored hr hcompact
    exact h.update hs' hn' ((compactMemTable_phase hcompact).trans hphase) hr'
  | removeObsoleteFiles hphase =>
    obtain ⟨n, hr⟩ := h.running hdb hphase
    obtain ⟨hn', hr'⟩ := running_removeObsoleteFiles hn hr
    exact inv_of_some rfl h.stored h.acknowledged hn' (phased_running hphase hr')
  | @removeFile i db' disk' hremove =>
    obtain ⟨k, hk, heq, -⟩ := removeFile_some hremove
    cases hphase : db.phase with
    | creating names =>
      rw [(h.creating hdb hphase).obsolete] at hk
      exact absurd hk List.not_mem_nil
    | editing ids =>
      obtain ⟨n, he⟩ := h.editing hdb hphase
      obtain ⟨hs', hn', hl'⟩ := named_removeFile hn h.stored he.logging hremove
      refine inv_of_some rfl hs' h.acknowledged hn' ?_
      rw [Phased, show db'.phase = .editing ids from (congrArg DBImpl.phase heq).trans hphase]
      subst heq
      exact ⟨n, hl', he.writing, he.live, he.nodup, he.unedited, he.sound⟩
    | running =>
      obtain ⟨n, hr⟩ := h.running hdb hphase
      obtain ⟨hs', hn', hl'⟩ := named_removeFile hn h.stored hr.logging hremove
      subst heq
      refine h.update hs' hn' hphase ⟨hl', hr.sound, fun w hw => ?_⟩
      obtain ⟨w1, w2, w3, w4⟩ := hr.writes w hw
      exact ⟨w1, w2, w3, w4⟩
  | dropColumnFamily hphase hdrop =>
    obtain ⟨n, hr⟩ := h.running hdb hphase
    obtain ⟨hs', hn', -, -, cf, cf', -, -, -, heq⟩ := named_dropColumnFamily hn h.stored hdrop
    exact h.update hs' hn' ((congrArg DBImpl.phase heq).trans hphase)
      (running_dropColumnFamily hn h.stored hr hdrop)

/-- **Every step** keeps it. -/
theorem inv_step (h : Inv s) {a : Action K V} (hstep : (system K V).step s a = some s') :
    Inv s' := by
  rcases step_cases hstep with ⟨db, hdb, hstepped⟩ | ⟨-, names, createMissing, saveManifest, db, hopen, rfl⟩
  · exact inv_stepped h hdb hstepped
  · obtain ⟨hn, hc, missing, hphase⟩ := creating_openDB h.stored hopen
    refine inv_of_some rfl h.stored h.acknowledged hn ?_
    rw [Phased, hphase]
    exact hc

theorem inv_reachable (h : (system K V).Reachable s) : Inv s :=
  h.invariant (fun s hs => by rw [show s = State.empty from hs]; exact inv_empty)
    fun _ _ _ h hstep => inv_step h hstep

/-- A live family's tables and memtables lack the records that are not inserted yet. -/
theorem Inv.contents (h : Inv s) (hdb : s.db = some db) (hphase : db.phase = .running)
    {cf : ColumnFamily K V} (hcf : cf ∈ db.cfs) (hlive : cf.dropped = false) :
    cf.contents ++ pendingOf db.writing cf.id = recordsIn cf.id (s.appended.map (·.2)) := by
  obtain ⟨n, hr⟩ := h.running hdb hphase
  have hkept := (h.named db hdb).kept h.stored hcf hlive
  obtain ⟨⟨mem, hmem, hrecords⟩, himm, hlog_le, -⟩ := hr.sound cf hcf hlive
  have hsorted := h.stored.sorted
  calc cf.contents ++ pendingOf db.writing cf.id
      = cf.versions.tables.flatten ++ cf.imm.getD [] ++ (mem ++ pendingOf db.writing cf.id) := by
        rw [ColumnFamily.contents, hmem, Option.getD_some, List.append_assoc]
    _ = recordsIn cf.id (below cf.memLogNumber s.appended) ++
          recordsIn cf.id (since cf.memLogNumber s.appended) := by
        rw [hkept.tables, himm, ← recordsIn_append, below_append_between hsorted hlog_le, hrecords]
    _ = recordsIn cf.id (s.appended.map (·.2)) := by
        rw [← recordsIn_append, below_append_since hsorted]

end

/-- Memtables are full from the second record on. -/
def fullFromTwo (_ : Nat) (mem : List (Nat × Record (Fin 3) Nat)) : Bool := 2 ≤ mem.length

def writeRun (records : List (Nat × Record (Fin 3) Nat)) : List (Action (Fin 3) Nat) :=
  [.capture records, .addRecord, .insert, .close]

/-- Two families, a flush of one of them, and a crash; then a crash while `DB::Open` edits the
manifests, and a third opening. -/
def crashRun : List (Action (Fin 3) Nat) :=
  [.openDB [] true true, .recoverLogs false fullFromTwo, .editManifest, .finishOpen,
    .createColumnFamily "a", .commitColumnFamily 0] ++ writeRun [(0, .put 0 1), (1, .merge 1 2)] ++
  [.switchMemTable 1] ++ writeRun [(1, .merge 1 3), (0, .put 1 1)] ++
  [.compactMemTable 1, .removeObsoleteFiles] ++ writeRun [(1, .merge 1 4), (1, .merge 2 5)] ++
  [.crash, .openDB ["default", "a", "b"] true true, .createColumnFamily "b", .commitColumnFamily 0,
    .recoverLogs false fullFromTwo, .editManifest, .crash,
    .openDB ["b", "default", "a"] true true, .recoverLogs true fullFromTwo, .editManifest,
    .editManifest, .editManifest, .finishOpen]

end LevelDb.Database
