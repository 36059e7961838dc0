import LevelDb.Db.Directories
import LevelDb.Proof.Names

/-!
# What a drop leaves behind

A directory with table files is that of a family FAMILIES names, or a drop is at it (`Tidy`). A
crash ends all drops: if none has files left then, `DB::Open` leaves the tables of the families
FAMILIES names and no others (`dirs_eq_live`).
-/

namespace LevelDb.Directories

open Database Transition

variable {K V : Type} [LinearOrder K]

/-- Which directories have table files. -/
structure Tidy (s : State K V) : Prop where
  listed : ∀ f ∈ s.base.disk.ids, ∀ n ∈ s.live f, n ∈ s.dirs f
  creating : ∀ db, s.base.db = some db → ∀ cf ∈ db.creating, s.live cf.id = []
  owned : ∀ f, s.dirs f ≠ [] → f ∈ s.base.disk.ids ∨ f ∈ s.removing
  removing : ∀ f ∈ s.removing, ∃ db, s.base.db = some db ∧ ∃ name, (f, name, true) ∈ db.labels

section
variable {s s' : State K V} {b : Database.State K V} {f : Nat}

omit [LinearOrder K] in
theorem after_base {a : Database.Action K V} {numbers : List Nat} (h : s.after a numbers b = some s') :
    s'.base = b := by
  have hlog : ∀ f, s.logAndApply b f numbers = some s' → s'.base = b := fun f h => by
    rw [State.logAndApply] at h
    split at h
    · cases h
      rfl
    · cases h
  rw [State.after.eq_def] at h
  split at h
  · cases h
    rfl
  · cases h
    rfl
  · cases h
    rfl
  · cases h
    rfl
  · split at h
    · exact hlog _ h
    · cases h
      rfl

/-- The database goes its own way. -/
theorem base_reachable (h : (system K V).Reachable s) : (Database.system K V).Reachable s.base := by
  refine h.project State.base (fun s hs => by rw [show s = _ from hs]; rfl) fun s a s' hstep => ?_
  replace hstep : s.step a = some s' := hstep
  cases a with
  | base a numbers =>
    obtain ⟨b, hb, hafter⟩ := Option.bind_eq_some_iff.1 hstep
    rw [after_base hafter]
    exact .inr ⟨a, hb⟩
  | removeFile i =>
    obtain ⟨f, -, rfl⟩ := Option.map_eq_some_iff.1 hstep
    exact .inl rfl
  | removeDir i =>
    obtain ⟨f, -, hstep⟩ := Option.bind_eq_some_iff.1 hstep
    split at hstep
    · cases hstep
      exact .inl rfl
    · cases hstep
  | _ =>
    simp only [State.step] at hstep
    split at hstep
    · cases hstep
      exact .inl rfl
    · cases hstep

theorem mem_ids_of_isLive (hinv : Inv s.base) (h : s.isLive f = true) :
    f ∈ s.base.disk.ids ∧ ∀ db, s.base.db = some db → ∀ cf ∈ db.creating, cf.id ≠ f := by
  obtain ⟨db, hdb, hsome⟩ := (Option.any_eq_true _ _).1 h
  obtain ⟨cf, hcf⟩ := Option.isSome_iff_exists.1 hsome
  obtain ⟨hin, rfl, hlive⟩ := live?_some hcf
  have hn := hinv.named db hdb
  refine ⟨hn.mem_ids.2 ⟨cf, hin, rfl, hlive⟩, fun db' hdb' c hc => ?_⟩
  rw [hdb] at hdb'
  cases hdb'
  exact (hn.ne_creating hin hc).symm

/-! ## The invariant, kept -/

/-- A dropped family is not in FAMILIES. -/
theorem Tidy.not_mem_ids (h : Tidy s) (hinv : Inv s.base) (hf : f ∈ s.removing) :
    f ∉ s.base.disk.ids := by
  intro hin
  obtain ⟨db, hdb, name, hlabel⟩ := h.removing f hf
  obtain ⟨cf, hcf, heq⟩ := mem_labels.1 hlabel
  have hn := hinv.named db hdb
  obtain ⟨c, hc, hid, hlive⟩ := hn.mem_ids.1 hin
  simp only [Prod.mk.injEq] at heq
  obtain ⟨hid', -, hdropped⟩ := heq
  rw [hn.eq_of_id hc hcf (hid.trans hid'.symm), hdropped] at hlive
  cases hlive

omit [LinearOrder K] in
/-- The database takes a step that leaves families and FAMILIES alone. -/
theorem Tidy.kin (h : Tidy s) {db db' : DBImpl K V} (hdb : s.base.db = some db)
    (hdb' : b.db = some db') (hkin : Kin db db')
    (hfamilies : b.disk.families = s.base.disk.families) : Tidy { s with base := b } := by
  have hids : b.disk.ids = s.base.disk.ids := by
    rw [Disk.ids, Disk.ids, hfamilies]
  refine ⟨fun f hf => h.listed f (hids ▸ hf), fun d hd cf hcf => ?_, fun f hf => ?_, fun f hf => ?_⟩
  · obtain rfl : db' = d := Option.some.inj (hdb'.symm.trans hd)
    rw [hkin.creating] at hcf
    exact h.creating db hdb cf hcf
  · exact (h.owned f hf).imp_left fun hin => hids ▸ hin
  · obtain ⟨d, hd, name, hlabel⟩ := h.removing f hf
    rw [hdb] at hd
    cases hd
    exact ⟨db', hdb', name, hkin.labels ▸ hlabel⟩

omit [LinearOrder K] in
/-- A manifest edit lists tables that are there. -/
theorem Tidy.setLive (h : Tidy s) {numbers : List Nat}
    (hin : ∀ n ∈ numbers, n ∈ s.live f ∨ n ∈ s.dirs f)
    (hf : ∀ db, s.base.db = some db → ∀ cf ∈ db.creating, cf.id ≠ f) :
    Tidy { s with live := Function.update s.live f numbers } := by
  refine ⟨fun g hg n hn => ?_, fun db hdb cf hcf => ?_, h.owned, h.removing⟩
  · by_cases heq : g = f
    · subst heq
      simp only [Function.update_self] at hn
      exact (hin n hn).elim (h.listed g hg n) id
    · simp only [Function.update_of_ne heq] at hn
      exact h.listed g hg n hn
  · simp only [Function.update_of_ne (hf db hdb cf hcf)]
    exact h.creating db hdb cf hcf

omit [LinearOrder K] in
/-- Table files come into a family's directory, and others go. -/
theorem Tidy.setDirs (h : Tidy s) {dirs : Nat → List Nat} {nextFileNumber : Nat}
    (hlisted : ∀ f ∈ s.base.disk.ids, ∀ n ∈ s.live f, n ∈ s.dirs f → n ∈ dirs f)
    (howned : ∀ f, dirs f ≠ [] → s.dirs f ≠ [] ∨ f ∈ s.base.disk.ids) :
    Tidy { s with dirs, nextFileNumber } := by
  refine ⟨fun f hf n hn => hlisted f hf n hn (h.listed f hf n hn), h.creating, fun f hf => ?_,
    h.removing⟩
  exact (howned f hf).elim (h.owned f) .inl

omit [LinearOrder K] in
/-- Tables are listed in a manifest. -/
theorem Tidy.logAndApply (h : Tidy { s with base := b }) {numbers : List Nat}
    (hf : ∀ db, b.db = some db → ∀ cf ∈ db.creating, cf.id ≠ f)
    (happly : s.logAndApply b f numbers = some s') : Tidy s' := by
  rw [State.logAndApply] at happly
  split at happly
  · rename_i hin
    cases happly
    refine h.setLive (fun n hn => ?_) hf
    exact (List.mem_append.1 hn).imp_right (hin.2 n)
  · cases happly

theorem tidy_createColumnFamily (hinv : Inv s.base) (h : Tidy s) {db db' : DBImpl K V}
    {disk' : Disk K V} (hdb : s.base.db = some db) {name : String}
    (hcreate : db.createColumnFamily s.base.disk name = some (db', disk')) :
    Tidy { s with
      base := s.base.update (db', disk')
      live := Function.update s.live db.nextFamilyId [] } := by
  have hn := hinv.named db hdb
  obtain ⟨-, -, hfamilies, new, -, hid, rfl⟩ := createColumnFamily_some hcreate
  have hids : disk'.ids = s.base.disk.ids := by
    rw [Disk.ids, Disk.ids, hfamilies]
  refine ⟨fun f hf n hn' => ?_, fun d hd cf hcf => ?_, fun f hf => ?_, fun f hf => ?_⟩
  · replace hf : f ∈ disk'.ids := hf
    rw [hids] at hf
    have hne : f ≠ db.nextFamilyId := by
      have := hinv.stored.lt_next f hf
      have := hn.next
      omega
    simp only [Function.update_of_ne hne] at hn'
    exact h.listed f hf n hn'
  · cases hd
    rcases List.mem_append.1 hcf with hcf | hcf
    · simp only [Function.update_of_ne (hn.creating_lt cf hcf).ne]
      exact h.creating db hdb cf hcf
    · rw [List.mem_singleton.1 hcf, hid]
      simp only [Function.update_self]
  · exact (h.owned f hf).imp_left fun hin => hids.symm ▸ hin
  · obtain ⟨d, hd, name, hlabel⟩ := h.removing f hf
    rw [hdb] at hd
    cases hd
    exact ⟨_, rfl, name, hlabel⟩

theorem tidy_commitColumnFamily (hinv : Inv s.base) (hinv' : Inv b) (h : Tidy s)
    {db db' : DBImpl K V} {disk' : Disk K V} (hdb : s.base.db = some db) {i : Nat} {phase : Phase}
    (hb : b = s.base.update (db', disk'))
    (hcommit : { db with phase }.commitColumnFamily s.base.disk i = some (db', disk')) :
    Tidy { s with base := b } := by
  have hn := hinv.named db hdb
  have hdb' : b.db = some db' := hb ▸ rfl
  have hn' := hinv'.named db' hdb'
  obtain ⟨new, hnew, heq⟩ := Option.map_eq_some_iff.1 hcommit
  have hin : new ∈ db.creating := List.mem_of_getElem? hnew
  have hcfs : db'.cfs = db.cfs.orderedInsert (fun a b => a.id ≤ b.id) new :=
    (congrArg (fun r => r.1.cfs) heq).symm
  have hcreating : db'.creating = db.creating.eraseIdx i :=
    (congrArg (fun r => r.1.creating) heq).symm
  have hmem : ∀ c, c ∈ db'.cfs ↔ c = new ∨ c ∈ db.cfs := fun c => by
    rw [hcfs]
    exact List.mem_orderedInsert _
  refine ⟨fun f hf n hn0 => ?_, fun d hd cf hcf => ?_, fun f hf => ?_, fun f hf => ?_⟩
  · obtain ⟨c, hc, rfl, hlive⟩ := hn'.mem_ids.1 hf
    rcases (hmem c).1 hc with rfl | hc
    · -- no table of a new family is listed
      rw [show s.live c.id = [] from h.creating db hdb c hin] at hn0
      exact absurd hn0 List.not_mem_nil
    · exact h.listed _ (hn.mem_ids.2 ⟨c, hc, rfl, hlive⟩) n hn0
  · obtain rfl : db' = d := Option.some.inj (hdb'.symm.trans hd)
    rw [hcreating] at hcf
    exact h.creating db hdb cf (List.mem_of_mem_eraseIdx hcf)
  · refine (h.owned f hf).imp_left fun hin' => ?_
    obtain ⟨c, hc, hid, hlive⟩ := hn.mem_ids.1 hin'
    exact hn'.mem_ids.2 ⟨c, (hmem c).2 (.inr hc), hid, hlive⟩
  · obtain ⟨d, hd, name, hlabel⟩ := h.removing f hf
    rw [hdb] at hd
    cases hd
    obtain ⟨c, hc, heq⟩ := mem_labels.1 hlabel
    exact ⟨db', hdb', name, mem_labels.2 ⟨c, (hmem c).2 (.inr hc), heq⟩⟩

theorem tidy_dropColumnFamily (hinv : Inv s.base) (hinv' : Inv b) (h : Tidy s)
    {db db' : DBImpl K V} {disk' : Disk K V} (hdb : s.base.db = some db)
    (hb : b = s.base.update (db', disk'))
    (hdrop : db.dropColumnFamily s.base.disk f = some (db', disk')) :
    Tidy { s with base := b, removing := s.removing ++ [f] } := by
  have hn := hinv.named db hdb
  have hdb' : b.db = some db' := hb ▸ rfl
  have hn' := hinv'.named db' hdb'
  obtain ⟨-, -, -, -, cf, cf', hcf, rfl, hcf', heq⟩ := named_dropColumnFamily hn hinv.stored hdrop
  have hmem : ∀ c ∈ db'.cfs, c = cf' ∨ c ∈ db.cfs ∧ c.id ≠ cf.id := fun c hc => mem_set (heq ▸ hc)
  refine ⟨fun g hg n hn0 => ?_, fun d hd c hc => ?_, fun g hg => ?_, fun g hg => ?_⟩
  · obtain ⟨c, hc, rfl, hlive⟩ := hn'.mem_ids.1 hg
    rcases hmem c hc with rfl | ⟨hc, -⟩
    · rw [hcf'] at hlive
      cases hlive
    · exact h.listed _ (hn.mem_ids.2 ⟨c, hc, rfl, hlive⟩) n hn0
  · obtain rfl : db' = d := Option.some.inj (hdb'.symm.trans hd)
    rw [heq] at hc
    exact h.creating db hdb c hc
  · by_cases hid : g = cf.id
    · exact .inr (List.mem_append_right _ (List.mem_singleton.2 hid))
    · refine (h.owned g hg).imp (fun hin => ?_) (List.mem_append_left _)
      obtain ⟨c, hc, rfl, hlive⟩ := hn.mem_ids.1 hin
      exact hn'.mem_ids.2 ⟨c, heq ▸ List.mem_map.2 ⟨c, hc, if_neg hid⟩, rfl, hlive⟩
  · have hold : g ∈ s.removing → ∃ name, (g, name, true) ∈ db.labels := fun hg => by
      obtain ⟨d, hd, name, hlabel⟩ := h.removing g hg
      rw [hdb] at hd
      cases hd
      exact ⟨name, hlabel⟩
    have hnew : (cf.id, cf.name, true) ∈ db'.labels :=
      mem_labels.2 ⟨cf', heq ▸ List.mem_map.2 ⟨cf, hcf, if_pos rfl⟩, by rw [hcf']⟩
    rcases List.mem_append.1 hg with hg | hg
    · obtain ⟨name, hlabel⟩ := hold hg
      obtain ⟨c, hc, hlabel⟩ := mem_labels.1 hlabel
      by_cases hid : c.id = cf.id
      · rw [hn.eq_of_id hc hcf hid] at hlabel
        simp only [Prod.mk.injEq] at hlabel
        exact ⟨db', hdb', cf.name, hlabel.1 ▸ hnew⟩
      · exact ⟨db', hdb', name, mem_labels.2 ⟨c, heq ▸ List.mem_map.2 ⟨c, hc, if_neg hid⟩, hlabel⟩⟩
    · rw [List.mem_singleton.1 hg]
      exact ⟨db', hdb', cf.name, hnew⟩

/-- The steps of the database. -/
theorem tidy_base (hinv : Inv s.base) (h : Tidy s) {a : Database.Action K V} {numbers : List Nat}
    (hok : s.CrashesTidy (.base a numbers)) (hb : (Database.system K V).step s.base a = some b)
    (hafter : s.after a numbers b = some s') : Tidy s' := by
  have hinv' : Inv b := inv_step hinv hb
  rcases step_cases hb with ⟨db, hdb, hst⟩ | ⟨hnone, names, createMissing, saveManifest, db, hopen, rfl⟩
  · cases a with
    | crash =>
      cases hst
      cases hafter
      refine ⟨h.listed, nofun, fun f hf => ?_, nofun⟩
      exact (h.owned f hf).imp_right fun hin => absurd (hok rfl f hin) hf
    | createColumnFamily name =>
      cases hst with
      | createColumnFamily _ hcreate =>
        cases hafter
        rw [hdb]
        exact tidy_createColumnFamily hinv h hdb hcreate
    | commitColumnFamily i =>
      cases hst with
      | commitColumnFamily _ hcommit =>
        cases hafter
        exact tidy_commitColumnFamily hinv hinv' h hdb rfl hcommit
    | dropColumnFamily f =>
      cases hst with
      | dropColumnFamily _ hdrop =>
        cases hafter
        exact tidy_dropColumnFamily hinv hinv' h hdb rfl hdrop
    | openDB => cases hst
    | finishOpen =>
      obtain ⟨db', hdb', hkin, hfamilies⟩ := hst.kin hinv hdb nofun nofun nofun nofun
      cases hafter
      refine (h.kin hdb hdb' hkin hfamilies).setDirs (fun f _ n hn hin => ?_) fun f hne => .inl ?_
      · show n ∈ s.removeObsoleteFiles.dirs f
        simp only [State.removeObsoleteFiles]
        split
        · exact List.mem_filter.2 ⟨hin, decide_eq_true hn⟩
        · exact hin
      · intro hnil
        apply hne
        show s.removeObsoleteFiles.dirs f = []
        simp only [State.removeObsoleteFiles]
        split
        · rw [show s.dirs f = [] from hnil, List.filter_nil]
        · exact hnil
    | compactMemTable f =>
      obtain ⟨db', hdb', hkin, hfamilies⟩ := hst.kin hinv hdb nofun nofun nofun nofun
      refine (h.kin hdb hdb' hkin hfamilies).logAndApply (fun d hd cf hcf => ?_) hafter
      obtain rfl : db' = d := Option.some.inj (hdb'.symm.trans hd)
      rw [hkin.creating] at hcf
      cases hst with
      | compactMemTable _ hcompact =>
        obtain ⟨c, hfind, -⟩ := Option.bind_eq_some_iff.1 hcompact
        obtain ⟨hc, rfl, -⟩ := live?_some hfind
        exact ((hinv.named db hdb).ne_creating hc hcf).symm
    | editManifest =>
      obtain ⟨db', hdb', hkin, hfamilies⟩ := hst.kin hinv hdb nofun nofun nofun nofun
      cases hst with
      | @editManifest f ids _ _ hphase hedit =>
        have hedited : s.edited .editManifest = some f := by
          simp only [State.edited, hdb, Option.map_some, hphase]
        simp only [State.after, hedited] at hafter
        refine (h.kin hdb hdb' hkin hfamilies).logAndApply (fun d hd cf hcf => ?_) hafter
        obtain rfl : db' = d := Option.some.inj (hdb'.symm.trans hd)
        rw [hkin.creating] at hcf
        obtain ⟨c, hfind, -⟩ := Option.map_eq_some_iff.1 hedit
        obtain ⟨hc, rfl⟩ := find?_some hfind
        exact ((hinv.named db hdb).ne_creating hc hcf).symm
    | _ =>
      obtain ⟨db', hdb', hkin, hfamilies⟩ := hst.kin hinv hdb nofun nofun nofun nofun
      obtain rfl := Option.some.inj hafter
      exact h.kin hdb hdb' hkin hfamilies
  · have hnil : s.removing = [] := List.eq_nil_iff_forall_not_mem.2 fun f hf => by
      obtain ⟨d, hd, -⟩ := h.removing f hf
      rw [hnone] at hd
      cases hd
    have hafter : s' = { s with base := { s.base with db := some db } } := by
      cases a with
      | openDB => exact (Option.some.inj hafter).symm
      | _ => simp only [Database.system, Database.State.step, hnone, reduceCtorEq] at hb
    rw [hafter]
    refine ⟨h.listed, fun d hd cf hcf => ?_, h.owned, fun f hf => ?_⟩
    · cases hd
      rw [Disk.openDB] at hopen
      split at hopen
      · cases hopen
        cases hcf
      · cases hopen
    · replace hf : f ∈ s.removing := hf
      rw [hnil] at hf
      cases hf

/-- Every step keeps the invariant. -/
theorem tidy_step (hinv : Inv s.base) (h : Tidy s) {a : Action K V} (hok : s.CrashesTidy a)
    (hstep : s.step a = some s') : Tidy s' := by
  cases a with
  | base a numbers =>
    obtain ⟨b, hb, hafter⟩ := Option.bind_eq_some_iff.1 hstep
    exact tidy_base hinv h hok hb hafter
  | buildTable f =>
    simp only [State.step] at hstep
    split at hstep
    · rename_i hlive
      cases hstep
      refine h.setDirs (fun g _ n _ hin => ?_) fun g hne => ?_
      · by_cases heq : g = f
        · subst heq
          simp only [Function.update_self]
          exact List.mem_append_left _ hin
        · simp only [Function.update_of_ne heq]
          exact hin
      · by_cases heq : g = f
        · exact .inr (heq ▸ (mem_ids_of_isLive hinv hlive).1)
        · simp only [Function.update_of_ne heq] at hne
          exact .inl hne
    · cases hstep
  | installCompactionResults f inputs outputs =>
    simp only [State.step] at hstep
    split at hstep
    · rename_i hin
      cases hstep
      refine h.setLive (fun n hn => ?_) (mem_ids_of_isLive hinv hin.1).2
      exact (List.mem_append.1 hn).imp List.mem_of_mem_filter (hin.2 n)
    · cases hstep
  | removeObsoleteFile f number =>
    simp only [State.step] at hstep
    split at hstep
    · rename_i hin
      cases hstep
      refine h.setDirs (fun g _ n hn hin' => ?_) fun g hne => .inl ?_
      · by_cases heq : g = f
        · subst heq
          simp only [Function.update_self]
          refine List.mem_filter.2 ⟨hin', decide_eq_true fun heq => ?_⟩
          exact hin.2 (heq ▸ hn)
        · simp only [Function.update_of_ne heq]
          exact hin'
      · by_cases heq : g = f
        · subst heq
          simp only [Function.update_self] at hne
          intro hnil
          rw [hnil] at hne
          exact hne rfl
        · simp only [Function.update_of_ne heq] at hne
          exact hne
    · cases hstep
  | removeFile i =>
    obtain ⟨f, hf, rfl⟩ := Option.map_eq_some_iff.1 hstep
    replace hf : f ∈ s.removing := List.mem_of_getElem? hf
    refine h.setDirs (fun g hg n _ hin => ?_) fun g hne => .inl ?_
    · have hne : g ≠ f := fun heq => h.not_mem_ids hinv hf (heq ▸ hg)
      simp only [Function.update_of_ne hne]
      exact hin
    · by_cases heq : g = f
      · subst heq
        simp only [Function.update_self] at hne
        intro hnil
        rw [hnil] at hne
        exact hne rfl
      · simp only [Function.update_of_ne heq] at hne
        exact hne
  | removeDir i =>
    obtain ⟨f, hf, hstep⟩ := Option.bind_eq_some_iff.1 hstep
    split at hstep
    · rename_i hnil
      cases hstep
      refine ⟨h.listed, h.creating, fun g hne => (h.owned g hne).imp_right fun hg => ?_,
        fun g hg => h.removing g (List.mem_of_mem_eraseIdx hg)⟩
      -- the family whose directory goes has no files
      obtain ⟨hi, rfl⟩ := List.getElem?_eq_some_iff.1 hf
      rcases List.mem_cons.1 ((List.getElem_cons_eraseIdx_perm hi).mem_iff.2 hg) with heq | hg
      · exact absurd (heq ▸ hnil) hne
      · exact hg
    · cases hstep

theorem tidy_reachable (h : (system K V).ReachableBy State.CrashesTidy s) :
    Inv s.base ∧ Tidy s := by
  have hinv := fun s (h : (system K V).Reachable s) => inv_reachable (base_reachable h)
  refine ⟨hinv s h.reachable, h.invariant_of hinv (fun s hs => ?_) fun s a s' hinv h hok hstep =>
    tidy_step hinv h hok hstep⟩
  rw [show s = _ from hs]
  exact ⟨fun _ _ _ hn => absurd hn List.not_mem_nil, nofun, fun f hf => absurd rfl hf, nofun⟩

/-- **What `DB::Open` leaves**: the tables of the families FAMILIES names, if no crash came while a
drop had files left to remove. -/
theorem dirs_eq_live (h : (system K V).ReachableBy State.CrashesTidy s) {numbers : List Nat}
    (hopen : (system K V).step s (.base .finishOpen numbers) = some s') :
    ∀ f n, n ∈ s'.dirs f ↔ f ∈ s'.base.disk.ids ∧ n ∈ s'.live f := by
  obtain ⟨hinv, htidy⟩ := tidy_reachable h
  obtain ⟨b, hb, hafter⟩ := Option.bind_eq_some_iff.1 hopen
  rcases step_cases hb with ⟨db, hdb, hst⟩ | ⟨hnone, -⟩
  swap
  · simp only [Database.State.step, hnone, reduceCtorEq] at hb
  cases hst with
  | finishOpen hphase =>
    cases hafter
    have hn := hinv.named db hdb
    -- `DB::Open` has no dropped family, and so no drop is under way
    have hlive : ∀ cf ∈ db.cfs, cf.dropped = false := by
      have hphased := hinv.phased db hdb
      simp only [Phased, hphase] at hphased
      obtain ⟨m, hediting⟩ := hphased
      exact hediting.live
    have hremoving : ∀ f, f ∉ s.removing := fun f hf => by
      obtain ⟨d, hd, name, hlabel⟩ := htidy.removing f hf
      rw [hdb] at hd
      cases hd
      obtain ⟨cf, hcf, heq⟩ := mem_labels.1 hlabel
      simp only [Prod.mk.injEq, hlive cf hcf] at heq
      cases heq.2.2
    have hids : ∀ f, f ∈ s.ids ↔ f ∈ s.base.disk.ids := fun f => by
      simp only [State.ids, hdb, Option.map_some, Option.getD_some, List.mem_map, hn.mem_ids]
      constructor
      · intro h
        obtain ⟨cf, hcf, hid⟩ := h
        exact ⟨cf, hcf, hid, hlive cf hcf⟩
      · intro h
        obtain ⟨cf, hcf, hid, -⟩ := h
        exact ⟨cf, hcf, hid⟩
    intro f n
    show n ∈ (if f ∈ s.ids then (s.dirs f).filter fun n => n ∈ s.live f else s.dirs f) ↔
      f ∈ s.base.disk.ids ∧ n ∈ s.live f
    by_cases hf : f ∈ s.base.disk.ids
    · rw [if_pos ((hids f).2 hf), List.mem_filter, decide_eq_true_eq]
      exact ⟨fun hn => ⟨hf, hn.2⟩, fun hn => ⟨htidy.listed f hf n hn.2, hn.2⟩⟩
    · rw [if_neg fun hin => hf ((hids f).1 hin)]
      refine ⟨fun hn => ?_, fun hn => absurd hn.1 hf⟩
      rcases htidy.owned f (List.ne_nil_of_mem hn) with hin | hin
      · exact absurd hin hf
      · exact absurd hin (hremoving f)

end

/-! ## Two runs -/

/-- Steps of the database that add no table. -/
def plain (as : List (Database.Action (Fin 3) Nat)) : List (Action (Fin 3) Nat) :=
  as.map fun a => .base a []

/-- A family with a table in its directory is dropped. -/
def dropRun : List (Action (Fin 3) Nat) :=
  plain (openRun ++ [.createColumnFamily "a", .commitColumnFamily 0] ++
    writeRun [(0, .put 0 1), (1, .put 1 2)] ++ [.switchMemTable 0, .switchMemTable 1]) ++
  [.buildTable 0, .base (.compactMemTable 0) [1], .buildTable 1, .base (.compactMemTable 1) [2],
    .base (.dropColumnFamily 1) []]

/-- A crash, in the creation of a family, and `DB::Open` up to its end. -/
def reopenRun : List (Action (Fin 3) Nat) :=
  plain [.createColumnFamily "b", .crash, .openDB [] true true, .recoverLogs false fullFromTwo,
    .editManifest]

/-- The drop is through before the crash. -/
theorem dirs_eq_live_dropRun : ∃ s s', (system (Fin 3) Nat).runBy State.CrashesTidy
      ⟨Database.State.empty, fun _ => [], fun _ => [], 1, []⟩
      (dropRun ++ [.removeFile 0, .removeDir 0] ++ reopenRun) = some s ∧
    s.step (.base .finishOpen []) = some s' ∧ s'.dirs 0 = [1] ∧
    ∀ f n, n ∈ s'.dirs f ↔ f ∈ s'.base.disk.ids ∧ n ∈ s'.live f := by
  have hrun : ((system (Fin 3) Nat).runBy State.CrashesTidy
      ⟨Database.State.empty, fun _ => [], fun _ => [], 1, []⟩
      (dropRun ++ [.removeFile 0, .removeDir 0] ++ reopenRun)).any (fun s =>
        (s.step (.base .finishOpen [])).any fun s' => s'.dirs 0 = [1]) = true := by decide +kernel
  obtain ⟨s, hs, hany⟩ := (Option.any_eq_true _ _).1 hrun
  obtain ⟨s', hs', hdirs⟩ := (Option.any_eq_true _ _).1 hany
  have hinit : (system (Fin 3) Nat).ReachableBy State.CrashesTidy
      ⟨Database.State.empty, fun _ => [], fun _ => [], 1, []⟩ := .init rfl
  exact ⟨s, s', hs, hs', of_decide_eq_true hdirs,
    dirs_eq_live (hinit.runBy hs) hs'⟩

/-- **The drop is on the disk, and the crash comes**: the table stays. -/
theorem not_dirs_eq_live : ¬ ∀ (s s' : State (Fin 3) Nat) numbers, (system (Fin 3) Nat).Reachable s →
    s.step (.base .finishOpen numbers) = some s' →
    ∀ f, s'.dirs f ≠ [] → f ∈ s'.base.disk.ids := by
  intro hall
  have hrun : ((system (Fin 3) Nat).run ⟨Database.State.empty, fun _ => [], fun _ => [], 1, []⟩
      (dropRun ++ reopenRun)).any (fun s => (s.step (.base .finishOpen [])).any fun s' =>
        s'.dirs 1 = [2] && s'.base.disk.ids = [0]) = true := by decide +kernel
  obtain ⟨s, hs, hany⟩ := (Option.any_eq_true _ _).1 hrun
  obtain ⟨s', hs', hleft⟩ := (Option.any_eq_true _ _).1 hany
  simp only [Bool.and_eq_true, decide_eq_true_eq] at hleft
  have hinit : (system (Fin 3) Nat).Reachable ⟨Database.State.empty, fun _ => [], fun _ => [], 1, []⟩ :=
    .init rfl
  have hin := hall s s' [] (hinit.run hs) hs' 1 (by rw [hleft.1]; exact List.cons_ne_nil _ _)
  rw [hleft.2] at hin
  exact absurd hin (by decide)

end LevelDb.Directories
