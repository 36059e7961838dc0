import LevelDb.Db.Errors
import LevelDb.Proof.Names

/-!
# What a failed creation or drop leaves

As long as FAMILIES is written when it has to be, and can hold what is written (`State.Plain`), a call
that fails changes nothing (`Kept`): the live families are as they were, with all that is in them, the
family whose creation failed is in none of the lists, now or later, FAMILIES is read back as it was,
and `DB::Open` with the names of the live families goes through and finds their records. Where
`WriteFamilies` fails, the process is ahead of FAMILIES (`kept_iff`).
-/

namespace LevelDb.Errors

open Database Transition

variable {K V : Type} [LinearOrder K]

/-! ## `DB::Open` goes through -/

section
variable {s s' : Database.State K V} {db db' : DBImpl K V} {f : Nat}

theorem run_cons {a : Database.Action K V} {as : List (Database.Action K V)} {s1 : Database.State K V}
    (hstep : s.step a = some s1) (hrun : (Database.system K V).run s1 as = some s') :
    (Database.system K V).run s (a :: as) = some s' := by
  show (if True then (Database.State.step s a).bind _ else none) = _
  rw [if_pos trivial, hstep]
  exact hrun

/-- `db` goes on to `db'` with nothing lost. -/
structure Continues (s : Database.State K V) (db : DBImpl K V) (s' : Database.State K V)
    (db' : DBImpl K V) : Prop where
  kin : Kin db db'
  appended : s'.appended = s.appended
  acknowledged : s'.acknowledged = s.acknowledged

omit [LinearOrder K] in
theorem find?_isSome (hf : f ∈ db.cfs.map (·.id)) : ∃ cf, db.find? f = some cf := by
  obtain ⟨cf, hcf, hid⟩ := List.mem_map.1 hf
  exact Option.isSome_iff_exists.1 (List.find?_isSome.2 ⟨cf, hcf, decide_eq_true hid⟩)

/-- The manifests are edited, and the database is open. -/
theorem run_editManifests (h : Inv s) (hdb : s.db = some db) {ids : List Nat}
    (hphase : db.phase = .editing ids) (hids : ∀ f ∈ ids, f ∈ db.cfs.map (·.id)) :
    ∃ s' db', (Database.system K V).run s
        (List.replicate ids.length .editManifest ++ [.finishOpen]) = some s' ∧
      Inv s' ∧ s'.db = some db' ∧ db'.phase = .running ∧ db'.writing = none ∧
      Continues s db s' db' := by
  induction ids generalizing s db with
  | nil =>
    obtain ⟨n, he⟩ := h.editing hdb hphase
    have hstep : s.step .finishOpen =
        some { s with db := some { db with phase := .running } } := by
      simp only [Database.State.step, Database.State.stepDB, hdb, hphase]
    exact ⟨_, _, run_cons hstep rfl, inv_step h hstep, rfl, rfl, he.writing, ⟨rfl, rfl, rfl⟩, rfl, rfl⟩
  | cons f ids ih =>
    obtain ⟨cf, hcf⟩ := find?_isSome (hids f List.mem_cons_self)
    obtain ⟨r, hr⟩ : ∃ r, { db with phase := .editing ids }.editManifest s.disk f = some r :=
      ⟨_, Option.map_eq_some_iff.2 ⟨cf, hcf, rfl⟩⟩
    have hstep : s.step .editManifest = some (s.update r) := by
      simp only [Database.State.step, Database.State.stepDB, hdb, hphase, hr, Option.map_some]
    have hst : Stepped s db .editManifest (s.update r) := .editManifest hphase hr
    obtain ⟨db1, hdb1, hkin, -⟩ := hst.kin h hdb (by simp) (by simp) (by simp) (by simp)
    have hphase1 : db1.phase = .editing ids := by
      obtain rfl : r.1 = db1 := Option.some.inj hdb1
      exact editManifest_phase hr
    obtain ⟨s', db', hrun, hinv', hdb', hphase', hw, hcont⟩ := ih (inv_step h hstep) hdb1 hphase1
      fun g hg => hkin.ids ▸ hids g (List.mem_cons_of_mem f hg)
    exact ⟨s', db', run_cons hstep hrun, hinv', hdb', hphase', hw, hkin.trans hcont.kin,
      hcont.appended, hcont.acknowledged⟩

/-- Opening by these names, a family's manifest at a time. -/
def opening (n : Nat) (names : List String) (createMissing saveManifest reuseLogs : Bool)
    (full : Nat → List (Nat × Record K V) → Bool) : List (Database.Action K V) :=
  .openDB names createMissing saveManifest :: .recoverLogs reuseLogs full ::
    (List.replicate n .editManifest ++ [.finishOpen])

omit [LinearOrder K] in
/-- `DB::Open` finds the families it was asked for. -/
theorem openDB_some {disk : Disk K V} {names : List String} (hnodup : names.Nodup)
    (hnames : ∀ n, n ∈ names ↔ n = "default" ∨ n ∈ disk.families.map (·.2))
    (createMissing saveManifest : Bool) :
    ∃ db, disk.openDB names createMissing saveManifest = some db ∧ db.phase = .creating [] ∧
      db.labels = ((0, "default") :: disk.families).map (fun p => (p.1, p.2, false)) := by
  have hdefault : "default" ∈ names := (hnames _).2 (.inl rfl)
  have hall : ∀ p ∈ ((0, "default") :: disk.families), p.2 ∈ names := fun p hp => by
    rcases List.mem_cons.1 hp with rfl | hp
    · exact hdefault
    · exact (hnames _).2 (.inr (List.mem_map_of_mem hp))
  have hmissing : (names.filter fun n => n ∉ ((0, "default") :: disk.families).map (·.2)) = [] := by
    refine List.filter_eq_nil_iff.2 fun n hn => ?_
    rw [decide_eq_true_eq, not_not, List.map_cons, List.mem_cons]
    exact (hnames n).1 hn
  have hnil : names = [] → disk.families = [] := fun hnil => by
    rw [hnil] at hdefault
    cases hdefault
  refine ⟨_, if_pos ⟨hnil, fun _ => ⟨hnodup, hdefault, hall⟩, fun _ => hmissing⟩,
    congrArg Phase.creating hmissing, ?_⟩
  show List.map _ (List.map _ _) = _
  rw [List.map_map]
  rfl

/-- `DB::Open` reads the logs. -/
theorem recoverLogs_some (h : Inv s) (hdb : s.db = some db) (hphase : db.phase = .creating [])
    (reuseLogs : Bool) (full : Nat → List (Nat × Record K V) → Bool) :
    ∃ r, db.recoverLogs s.disk reuseLogs full = some r ∧
      r.1.phase = .editing (r.1.cfs.map (·.id)) := by
  have hn := h.named db hdb
  obtain ⟨g, hg, hall⟩ := readLogs_spec hn h.stored (h.creating hdb hphase) reuseLogs full
  obtain ⟨-, -, -, -, hread⟩ := @readLogs_frame _ _ _ s.disk db reuseLogs full
  have hids : (db.readLogs s.disk reuseLogs full).cfs.map (·.id) = db.cfs.map (·.id) := by
    rw [hg, List.map_map]
    exact List.map_congr_left fun cf hcf => (hall cf hcf).1.id
  rw [DBImpl.recoverLogs]
  split
  · obtain ⟨dflt, hdflt, hzero, -⟩ := hn.default
    obtain ⟨cf, hcf⟩ := @find?_isSome _ _ (db.readLogs s.disk reuseLogs full) 0
      (hids ▸ hzero ▸ List.mem_map_of_mem hdflt)
    obtain ⟨r, hr⟩ : ∃ r, (db.readLogs s.disk reuseLogs full).switchLog s.disk = some r :=
      ⟨_, Option.map_eq_some_iff.2 ⟨cf, hcf, rfl⟩⟩
    refine ⟨r, hr, ?_⟩
    obtain ⟨hkin, -⟩ := kin_switchLog (hids ▸ hn.cfs_nodup) hr
    rw [switchLog_phase hr, hkin.ids]
    exact hread
  · exact ⟨_, rfl, hread⟩

/-- **`DB::Open` goes through** with the names of the families on the disk. -/
theorem run_opening (h : Inv s) (hdb : s.db = none) {names : List String} (hnodup : names.Nodup)
    (hnames : ∀ n, n ∈ names ↔ n = "default" ∨ n ∈ s.disk.families.map (·.2))
    (createMissing saveManifest reuseLogs : Bool) (full : Nat → List (Nat × Record K V) → Bool) :
    ∃ n s' db', (Database.system K V).run s
        (opening n names createMissing saveManifest reuseLogs full) = some s' ∧
      Inv s' ∧ s'.db = some db' ∧ db'.phase = .running ∧ db'.writing = none ∧
      db'.labels = ((0, "default") :: s.disk.families).map (fun p => (p.1, p.2, false)) ∧
      s'.appended = s.appended ∧ s'.acknowledged = s.acknowledged := by
  obtain ⟨db0, hopen, hphase0, hlabels⟩ := openDB_some hnodup hnames createMissing saveManifest
  obtain ⟨s0, hstep0, rfl⟩ : ∃ s0, (Database.system K V).step s
      (.openDB names createMissing saveManifest) = some s0 ∧ s0 = { s with db := some db0 } := by
    refine ⟨_, ?_, rfl⟩
    show s.step _ = _
    simp only [Database.State.step, hdb, hopen, Option.map_some]
  have hinv0 := inv_step h hstep0
  obtain ⟨r, hr, hphase1⟩ := recoverLogs_some hinv0 rfl hphase0 reuseLogs full
  obtain ⟨s1, hstep1, rfl⟩ : ∃ s1, (Database.system K V).step { s with db := some db0 }
      (.recoverLogs reuseLogs full) = some s1 ∧ s1 = { s with db := some r.1, disk := r.2 } := by
    refine ⟨_, ?_, rfl⟩
    simp only [Database.system, Database.State.step, Database.State.stepDB, hphase0, hr,
      Option.map_some]
    rfl
  have hst := @Stepped.recoverLogs K V _ { s with db := some db0 } db0 reuseLogs full r.1 r.2
    hphase0 hr
  obtain ⟨db1, hdb1, hkin, -⟩ := hst.kin hinv0 rfl (by simp) (by simp) (by simp) (by simp)
  obtain rfl : r.1 = db1 := Option.some.inj hdb1
  obtain ⟨s', db', hrun, hinv', hdb', hphase', hw, hcont⟩ :=
    run_editManifests (inv_step hinv0 hstep1) rfl hphase1 fun f hf => hf
  exact ⟨_, s', db', run_cons hstep0 (run_cons hstep1 hrun), hinv', hdb', hphase', hw,
    hcont.kin.labels.trans (hkin.labels.trans hlabels), hcont.appended, hcont.acknowledged⟩

/-! ## The families a process forgets -/

/-- A creation that has failed is no longer under way, and its id is used up. -/
theorem named_forget {appended : List (Nat × Batch K V)} {disk : Disk K V}
    (hn : Named appended disk db) {creating : List (Database.ColumnFamily K V)} {next : Nat}
    (hsub : creating.Sublist db.creating) (hnext : db.nextFamilyId ≤ next) :
    Named appended disk { db with creating, nextFamilyId := next } := by
  refine ⟨hn.families, hn.default, ?_, hn.cfs_lt, fun cf hcf => ?_, hn.next.trans hnext,
    hn.logNumber, hn.tables, fun cf hcf => hn.fresh cf (hsub.subset hcf)⟩
  · exact hn.nodup.sublist ((hsub.append_left db.cfs).map _)
  · exact (hn.creating_lt cf (hsub.subset hcf)).trans_le hnext

theorem inv_forget (h : Inv s) (hdb : s.db = some db) (hphase : db.phase = .running)
    {creating : List (Database.ColumnFamily K V)} {next : Nat} (hsub : creating.Sublist db.creating)
    (hnext : db.nextFamilyId ≤ next) :
    Inv { s with db := some { db with creating, nextFamilyId := next } } := by
  obtain ⟨n, hr⟩ := h.running hdb hphase
  refine inv_of_some rfl h.stored h.acknowledged (named_forget (h.named db hdb) hsub hnext)
    (phased_running hphase ⟨⟨hr.logging.log, hr.logging.present, hr.logging.newest, hr.logging.next,
      fun cf hcf => hr.logging.creating cf (hsub.subset hcf), hr.logging.obsolete⟩, hr.sound,
      fun w hw => ?_⟩)
  obtain ⟨w1, w2, w3, w4⟩ := hr.writes w hw
  exact ⟨w1, w2, w3, w4⟩

end

section
variable {s s' : State K V}

/-- Failed creations have ids of their own. -/
structure Tracked (s : State K V) : Prop where
  none : s.base.db = none → s.failed = []
  failed : ∀ db, s.base.db = some db → ∀ f ∈ s.failed,
    f < db.nextFamilyId ∧ f ∉ (db.cfs ++ db.creating).map (·.id)

omit [LinearOrder K] in
theorem tracked_of_some {db : DBImpl K V} (hdb : s.base.db = some db)
    (hfailed : ∀ f ∈ s.failed, f < db.nextFamilyId ∧ f ∉ (db.cfs ++ db.creating).map (·.id)) :
    Tracked s := by
  refine ⟨fun hnone => ?_, fun d hd => ?_⟩
  · rw [hdb] at hnone
    cases hnone
  · rw [hdb] at hd
    cases hd
    exact hfailed

/-- A step of the database gives no family the id of a failed one. -/
theorem tracked_base (hinv : Inv s.base) (h : Tracked s) {a : Database.Action K V}
    {b : Database.State K V} {db : DBImpl K V} (hdb : s.base.db = some db)
    (hst : Stepped s.base db a b) :
    Tracked ⟨b, if b.db.isNone then [] else s.failed⟩ := by
  have hn := hinv.named db hdb
  have hfailed := h.failed db hdb
  have of_some : ∀ {db' : DBImpl K V}, b.db = some db' → db.nextFamilyId ≤ db'.nextFamilyId →
      (∀ f < db.nextFamilyId, f ∈ (db'.cfs ++ db'.creating).map (·.id) →
        f ∈ (db.cfs ++ db.creating).map (·.id)) →
      Tracked ⟨b, if b.db.isNone then [] else s.failed⟩ := by
    intro db' hdb' hnext hids
    refine tracked_of_some hdb' fun f hf => ?_
    rw [hdb', Option.isNone_some, if_neg Bool.false_ne_true] at hf
    obtain ⟨hlt, hnot⟩ := hfailed f hf
    exact ⟨hlt.trans_le hnext, fun hin => hnot (hids f hlt hin)⟩
  cases a with
  | crash =>
    cases hst
    exact ⟨fun _ => rfl, nofun⟩
  | createColumnFamily name =>
    cases hst with
    | createColumnFamily _ hcreate =>
      obtain ⟨-, -, -, new, -, hid, rfl⟩ := createColumnFamily_some hcreate
      refine of_some rfl (Nat.le_succ _) fun f hlt hin => ?_
      obtain ⟨cf, hcf, rfl⟩ := List.mem_map.1 hin
      rw [← List.append_assoc] at hcf
      rcases List.mem_append.1 hcf with hcf | hcf
      · exact List.mem_map_of_mem hcf
      · rw [List.mem_singleton.1 hcf, hid] at hlt
        omega
  | commitColumnFamily i =>
    cases hst with
    | @commitColumnFamily i phase db' disk' _ hcommit =>
      obtain ⟨new, hnew, heq⟩ := Option.map_eq_some_iff.1 hcommit
      cases heq
      have hperm : (db.cfs.orderedInsert (fun a b => a.id ≤ b.id) new).Perm (new :: db.cfs) :=
        List.perm_orderedInsert _ _ _
      exact of_some rfl le_rfl fun f _ hin => ((perm_move hnew hperm).map (·.id)).mem_iff.1 hin
  | dropColumnFamily f =>
    cases hst with
    | dropColumnFamily _ hdrop =>
      obtain ⟨-, -, -, -, cf, cf', hcf, rfl, hcf', rfl⟩ := named_dropColumnFamily hn hinv.stored hdrop
      refine of_some rfl le_rfl fun f _ hin => ?_
      rw [List.map_append, List.mem_append] at hin ⊢
      refine hin.imp_left fun hin => ?_
      obtain ⟨c, hc, rfl⟩ := List.mem_map.1 hin
      rcases mem_set hc with rfl | ⟨hc, -⟩
      · rw [hcf']
        show cf.id ∈ db.cfs.map (·.id)
        exact List.mem_map_of_mem hcf
      · exact List.mem_map_of_mem hc
  | _ =>
    obtain ⟨db', hdb', hkin, -⟩ := hst.kin hinv hdb nofun nofun nofun nofun
    refine of_some hdb' hkin.next.ge fun f _ hin => ?_
    rw [List.map_append, hkin.ids, hkin.creating, ← List.map_append] at hin
    exact hin

/-- The process keeps what every reachable state keeps, and knows the failed families no more. -/
theorem step_tracked (hinv : Inv s.base) (h : Tracked s) {a : Action K V} (hok : a.WritesFamilies)
    (hstep : s.step a = some s') : Inv s'.base ∧ Tracked s' := by
  cases hdb : s.base.db with
  | none =>
    cases a with
    | base a =>
      simp only [State.step, hdb] at hstep
      obtain ⟨b, hb, rfl⟩ := Option.map_eq_some_iff.1 hstep
      have hnil := h.none hdb
      refine ⟨inv_step hinv hb, fun _ => hnil, fun d _ f hf => ?_⟩
      replace hf : f ∈ s.failed := hf
      rw [hnil] at hf
      cases hf
    | _ => simp only [State.step, hdb, reduceCtorEq] at hstep
  | some db =>
    have hn := hinv.named db hdb
    simp only [State.step, hdb] at hstep
    split at hstep
    swap
    · cases hstep
    rename_i hphase
    cases a with
    | base a =>
      obtain ⟨b, hb, rfl⟩ := Option.map_eq_some_iff.1 hstep
      refine ⟨inv_step hinv hb, ?_⟩
      rcases step_cases hb with ⟨d, hd, hst⟩ | ⟨hnone, -⟩
      · exact tracked_base hinv h hd hst
      · rw [hdb] at hnone
        cases hnone
    | refuse =>
      cases hstep
      exact ⟨hinv, h⟩
    | failNewDB name =>
      obtain ⟨r, -, rfl⟩ := Option.map_eq_some_iff.1 hstep
      refine ⟨inv_forget hinv hdb (hphase rfl) (List.Sublist.refl _) (Nat.le_succ _),
        tracked_of_some rfl fun f hf => ?_⟩
      rcases List.mem_append.1 hf with hf | hf
      · exact (h.failed db hdb f hf).imp_left fun hlt => hlt.trans (Nat.lt_succ_self _)
      · rw [List.mem_singleton.1 hf]
        refine ⟨Nat.lt_succ_self _, fun hin => ?_⟩
        obtain ⟨cf, hcf, hid⟩ := List.mem_map.1 hin
        rcases List.mem_append.1 hcf with hcf | hcf
        · have hlt := (hn.cfs_lt cf hcf).trans_le hn.next
          omega
        · have hlt := hn.creating_lt cf hcf
          omega
    | failLogAndApply i =>
      obtain ⟨cf, hcf, rfl⟩ := Option.map_eq_some_iff.1 hstep
      have hsub : (db.creating.eraseIdx i).Sublist db.creating := List.eraseIdx_sublist _ _
      refine ⟨inv_forget hinv hdb (hphase rfl) hsub le_rfl, tracked_of_some rfl fun f hf => ?_⟩
      rcases List.mem_append.1 hf with hf | hf
      · refine (h.failed db hdb f hf).imp_right fun hnot hin => hnot ?_
        exact ((hsub.append_left db.cfs).map (·.id)).subset hin
      · rw [List.mem_singleton.1 hf]
        refine ⟨hn.creating_lt cf (List.mem_of_getElem? hcf), fun hin => ?_⟩
        have hperm : (cf :: (db.cfs ++ db.creating.eraseIdx i)).Perm (db.cfs ++ db.creating) :=
          perm_move hcf (.refl _)
        exact (List.nodup_cons.1 ((hperm.map (·.id)).nodup_iff.2 hn.nodup)).1 hin
    | failCreateWrite i => cases hok
    | failDropWrite f => cases hok

/-- A family that FAMILIES records has a name in one line, and ids are handed out before
`next_family_id_` wraps around. -/
def State.Plain (s : State K V) : Action K V → Prop
  | .base a => s.base.Plain a
  | .failNewDB _ => ∀ db ∈ s.base.db, db.nextFamilyId < 2 ^ 32
  | _ => True

instance (s : State K V) : ∀ a, Decidable (s.Plain a)
  | .base a => inferInstanceAs (Decidable (s.base.Plain a))
  | .failNewDB _ => inferInstanceAs (Decidable (∀ db ∈ s.base.db, db.nextFamilyId < 2 ^ 32))
  | .refuse | .failLogAndApply _ | .failCreateWrite _ | .failDropWrite _ =>
    inferInstanceAs (Decidable True)

/-- What FAMILIES has to record is written to it, and can be read back. -/
def State.Records (s : State K V) (a : Action K V) : Prop := a.WritesFamilies ∧ s.Plain a

instance (s : State K V) (a : Action K V) : Decidable (s.Records a) :=
  inferInstanceAs (Decidable (a.WritesFamilies ∧ s.Plain a))

/-- The calls that fail leave FAMILIES as it can be read. -/
theorem step_legible (hinv : Inv s.base) (h : Legible s.base) {a : Action K V} (hok : s.Records a)
    (hstep : s.step a = some s') : Legible s'.base := by
  obtain ⟨hwrites, hplain⟩ := hok
  cases hdb : s.base.db with
  | none =>
    cases a with
    | base a =>
      simp only [State.step, hdb] at hstep
      obtain ⟨b, hb, rfl⟩ := Option.map_eq_some_iff.1 hstep
      exact legible_step hinv h hplain hb
    | _ => simp only [State.step, hdb, reduceCtorEq] at hstep
  | some db =>
    simp only [State.step, hdb] at hstep
    split at hstep
    swap
    · cases hstep
    have hset : ∀ {next : Nat} {creating : List (Database.ColumnFamily K V)},
        (∀ cf ∈ creating, cf ∈ db.creating) →
        Legible { s.base with db := some { db with creating, nextFamilyId := next } } := by
      intro next creating hsub
      refine ⟨h.families, fun d hd => ?_, fun d hd cf hcf => ?_⟩
      · obtain rfl := Option.some.inj hd
        exact h.cfs db hdb
      · obtain rfl := Option.some.inj hd
        exact h.creating db hdb cf (hsub cf hcf)
    cases a with
    | base a =>
      obtain ⟨b, hb, rfl⟩ := Option.map_eq_some_iff.1 hstep
      exact legible_step hinv h hplain hb
    | refuse =>
      cases hstep
      exact h
    | failNewDB name =>
      obtain ⟨r, -, rfl⟩ := Option.map_eq_some_iff.1 hstep
      exact hset fun cf hcf => hcf
    | failLogAndApply i =>
      obtain ⟨cf, -, rfl⟩ := Option.map_eq_some_iff.1 hstep
      exact hset fun cf hcf => List.mem_of_mem_eraseIdx hcf
    | failCreateWrite i => cases hwrites
    | failDropWrite f => cases hwrites

theorem tracked_reachable (h : (system K V).ReachableBy State.Records s) :
    Inv s.base ∧ Tracked s ∧ Legible s.base := by
  refine h.invariant (P := fun s => Inv s.base ∧ Tracked s ∧ Legible s.base) (fun s hs => ?_)
    fun s a s' hs hok hstep => ?_
  · rw [show s = _ from hs]
    exact ⟨inv_empty, ⟨fun _ => rfl, nofun⟩, legible_empty⟩
  · obtain ⟨hinv, htracked⟩ := step_tracked hs.1 hs.2.1 hok.1 hstep
    exact ⟨hinv, htracked, step_legible hs.1 hs.2.2 hok hstep⟩

end

/-! ## What a failed call leaves -/

/-- The live families, with all that is in them. -/
def live (s : Database.State K V) : List (Database.ColumnFamily K V) :=
  (s.db.map fun db => db.cfs.filter fun cf => cf.dropped = false).getD []

/-- The database can be closed and opened by the names of these families, and has them then with the
records of all batches addressed to them. -/
def Reopens (families : List (Database.ColumnFamily K V)) (s : Database.State K V) : Prop :=
  ∀ names : List String, names.Nodup →
    (∀ n, n ∈ names ↔ n = "default" ∨ ∃ cf ∈ families, cf.id ≠ 0 ∧ cf.name = n) →
    ∀ createMissing saveManifest reuseLogs full, ∃ n s' db',
      (Database.system K V).run s
        (.crash :: opening n names createMissing saveManifest reuseLogs full) = some s' ∧
      s'.db = some db' ∧ db'.phase = .running ∧ s'.appended = s.appended ∧
      ∀ cf ∈ families, ∃ cf' ∈ db'.cfs, cf'.id = cf.id ∧ (cf.id ≠ 0 → cf'.name = cf.name) ∧
        cf'.dropped = false ∧ cf'.contents = recordsIn cf.id (s.appended.map (·.2))

/-- Nothing has changed for clients. -/
structure Kept (s s' : State K V) : Prop where
  live : live s'.base = live s.base
  families : s'.base.disk.families = s.base.disk.families
  file : s'.base.disk.familiesFile = s.base.disk.familiesFile
  /-- `DB::Open` reads the file as these families. -/
  reads : Catalog.readFamilies (some s'.base.disk.familiesFile) =
    .ok (s'.base.disk.entries, Catalog.uint32 s'.base.disk.nextFamilyId)
  appended : s'.base.appended = s.base.appended
  acknowledged : s.base.acknowledged.Sublist s'.base.appended
  reopens : Reopens (Errors.live s.base) s'.base

/-- Neither FAMILIES nor the process has the family. -/
def Absent (s : Database.State K V) (f : Nat) : Prop :=
  f ∉ s.disk.ids ∧ ∀ db, s.db = some db → f ∉ db.cfs.map (·.id)

section
variable {s s' : State K V} {b : Database.State K V} {db : DBImpl K V}

omit [LinearOrder K] in
theorem mem_live {cf : Database.ColumnFamily K V} (hdb : b.db = some db) :
    cf ∈ live b ↔ cf ∈ db.cfs ∧ cf.dropped = false := by
  simp only [live, hdb, Option.map_some, Option.getD_some, List.mem_filter, decide_eq_true_eq]

theorem reopens (h : Inv b) (hdb : b.db = some db) : Reopens (live b) b := by
  intro names hnodup hnames createMissing saveManifest reuseLogs full
  have hn := h.named db hdb
  have hcrash : b.step .crash = some { b with db := none } := by
    simp only [Database.State.step, Database.State.stepDB, hdb]
  have hondisk : ∀ n, n ∈ names ↔ n = "default" ∨ n ∈ b.disk.families.map (·.2) := fun n => by
    rw [hnames, hn.families, List.mem_map]
    refine or_congr_right ⟨fun h => ?_, fun h => ?_⟩
    · obtain ⟨cf, hcf, hne, hname⟩ := h
      obtain ⟨hcf, hlive⟩ := (mem_live hdb).1 hcf
      exact ⟨_, mem_onDisk.2 ⟨cf, hcf, hne, hlive, rfl⟩, hname⟩
    · obtain ⟨p, hp, hname⟩ := h
      obtain ⟨cf, hcf, hne, hlive, rfl⟩ := mem_onDisk.1 hp
      exact ⟨cf, (mem_live hdb).2 ⟨hcf, hlive⟩, hne, hname⟩
  have hclosed : Inv { b with db := none } := inv_step h hcrash
  obtain ⟨n, s', db', hrun, hinv', hdb', hphase', hw, hlabels, happended, -⟩ :=
    run_opening hclosed rfl hnodup hondisk createMissing saveManifest reuseLogs full
  refine ⟨n, s', db', run_cons hcrash hrun, hdb', hphase', happended, fun cf hcf => ?_⟩
  obtain ⟨hcf, hlive⟩ := (mem_live hdb).1 hcf
  obtain ⟨name, hname, hlabel⟩ : ∃ name, (cf.id ≠ 0 → name = cf.name) ∧
      (cf.id, name, false) ∈ db'.labels := by
    rw [hlabels]
    by_cases hzero : cf.id = 0
    · exact ⟨"default", fun hne => absurd hzero hne, hzero ▸ List.mem_cons_self⟩
    · refine ⟨cf.name, fun _ => rfl, List.mem_cons_of_mem _ ?_⟩
      rw [hn.families]
      exact List.mem_map_of_mem (mem_onDisk.2 ⟨cf, hcf, hzero, hlive, rfl⟩)
  obtain ⟨cf', hcf', heq⟩ := mem_labels.1 hlabel
  simp only [Prod.mk.injEq] at heq
  obtain ⟨hid', hname', hlive'⟩ := heq
  refine ⟨cf', hcf', hid', fun hne => hname'.trans (hname hne), hlive', ?_⟩
  have hcontents := hinv'.contents hdb' hphase' hcf' hlive'
  rw [hw, hid', happended] at hcontents
  exact (List.append_nil _).symm.trans hcontents

theorem absent_failed (hinv : Inv s.base) (h : Tracked s) {f : Nat} (hf : f ∈ s.failed) :
    Absent s.base f := by
  cases hdb : s.base.db with
  | none =>
    rw [h.none hdb] at hf
    cases hf
  | some db =>
    obtain ⟨-, hnot⟩ := h.failed db hdb f hf
    have hcfs : f ∉ db.cfs.map (·.id) := fun hin => hnot <| by
      rw [List.map_append]
      exact List.mem_append_left _ hin
    refine ⟨fun hin => ?_, fun d hd => ?_⟩
    · obtain ⟨cf, hcf, rfl, -⟩ := (hinv.named db hdb).mem_ids.1 hin
      exact hcfs (List.mem_map_of_mem hcf)
    · rw [hdb] at hd
      cases hd
      exact hcfs

/-- Where the live families are as before, they can be opened as before. -/
theorem kept_of_live (hinv : Inv s.base) (hinv' : Inv s'.base) (hl : Legible s'.base)
    (hdb : s'.base.db = some db) (hlive : live s'.base = live s.base)
    (hdisk : s'.base.disk = s.base.disk) (happended : s'.base.appended = s.base.appended) :
    Kept s s' := by
  refine ⟨hlive, congrArg Disk.families hdisk, congrArg Disk.familiesFile hdisk,
    hl.reads hinv'.stored, happended, ?_, hlive ▸ reopens hinv' hdb⟩
  rw [happended]
  exact hinv.acknowledged

/-- A failed `WriteFamilies` leaves a new family behind, -/
theorem not_kept_create (hinv : Inv s.base) (hdb : s.base.db = some db) {i : Nat}
    (hstep : s.stepDB db (.failCreateWrite i) = some s') : ¬ Kept s s' := by
  obtain ⟨new, hnew, hstep⟩ := Option.bind_eq_some_iff.1 hstep
  obtain ⟨r, hcommit, rfl⟩ := Option.map_eq_some_iff.1 hstep
  obtain ⟨new', hnew', rfl⟩ := Option.map_eq_some_iff.1 hcommit
  have hin : new' ∈ db.creating := List.mem_of_getElem? hnew'
  have hlength := (live_orderedInsert db.cfs ((hinv.named db hdb).fresh new' hin).dropped).length_eq
  intro hkept
  have hsame := congrArg List.length hkept.live
  simp only [live, hdb, Option.map_some, Option.getD_some] at hsame
  exact absurd (hlength.symm.trans hsame) (Nat.succ_ne_self _)

/-- and a drop's leaves one less. -/
theorem not_kept_drop (hdb : s.base.db = some db) {f : Nat}
    (hstep : s.stepDB db (.failDropWrite f) = some s') : ¬ Kept s s' := by
  obtain ⟨cf, hfind, hstep⟩ := Option.bind_eq_some_iff.1 hstep
  obtain ⟨r, hdrop, rfl⟩ := Option.map_eq_some_iff.1 hstep
  obtain ⟨cf', hfind', hdrop⟩ := Option.bind_eq_some_iff.1 hdrop
  obtain ⟨hcf, rfl, hlive⟩ := live?_some hfind
  split at hdrop
  swap
  · cases hdrop
  cases hdrop
  intro hkept
  have hin : cf ∈ live (s.setDB (db.set cf.id { cf' with
      dropped := true, mem := none, imm := none })).base := by
    refine hkept.live.symm ▸ (mem_live hdb).2 ⟨hcf, hlive⟩
  obtain ⟨hin, -⟩ := (mem_live rfl).1 hin
  rcases mem_set hin with heq | ⟨-, hne⟩
  · rw [heq] at hlive
    cases hlive
  · exact hne rfl

/-- **What a failed call leaves**, in a run in which FAMILIES was always written, with what it can
hold: the families whose creation has failed are gone, and the call has changed nothing exactly if it
did not fail to write FAMILIES. -/
theorem kept_iff (h : (system K V).ReachableBy State.Records s) :
    (∀ f ∈ s.failed, Absent s.base f) ∧
      ∀ a s', (system K V).step s a = some s' → a.fails = true → s.Plain a →
        (Kept s s' ↔ a.WritesFamilies) := by
  obtain ⟨hinv, htracked, hlegible⟩ := tracked_reachable h
  refine ⟨fun f hf => absent_failed hinv htracked hf, fun a s' hstep hfails hplain => ?_⟩
  have hkeep : a.WritesFamilies → Inv s'.base ∧ Legible s'.base := fun hok =>
    ⟨(step_tracked hinv htracked hok hstep).1, step_legible hinv hlegible ⟨hok, hplain⟩ hstep⟩
  cases hdb : s.base.db with
  | none =>
    cases a with
    | base a => cases hfails
    | _ => simp only [system, State.step, hdb, reduceCtorEq] at hstep
  | some db =>
    simp only [system, State.step, hdb] at hstep
    split at hstep
    swap
    · cases hstep
    cases a with
    | base a => cases hfails
    | refuse =>
      cases hstep
      exact iff_of_true (kept_of_live hinv hinv hlegible hdb rfl rfl rfl) trivial
    | failNewDB name =>
      obtain ⟨r, -, rfl⟩ := Option.map_eq_some_iff.1 hstep
      obtain ⟨hinv', hlegible'⟩ := hkeep trivial
      refine iff_of_true (kept_of_live hinv hinv' hlegible' rfl ?_ rfl rfl) trivial
      rw [live, live, hdb]
      rfl
    | failLogAndApply i =>
      obtain ⟨cf, -, rfl⟩ := Option.map_eq_some_iff.1 hstep
      obtain ⟨hinv', hlegible'⟩ := hkeep trivial
      refine iff_of_true (kept_of_live hinv hinv' hlegible' rfl ?_ rfl rfl) trivial
      rw [live, live, hdb]
      rfl
    | failCreateWrite i => exact iff_of_false (not_kept_create hinv hdb hstep) id
    | failDropWrite f => exact iff_of_false (not_kept_drop hdb hstep) id

end

/-! ## Two runs -/

/-- A family with a record, and creations that fail on the way. -/
def failingRun : List (Action (Fin 3) Nat) :=
  List.map Action.base (openRun ++ [.createColumnFamily "a", .commitColumnFamily 0] ++
      writeRun [(0, .put 0 1), (1, .put 1 2)]) ++
    [.failNewDB "b", .base (.createColumnFamily "b"), .failLogAndApply 0, .refuse]

theorem kept_iff_failingRun : ∃ s s', (system (Fin 3) Nat).runBy State.Records
      ⟨Database.State.empty, []⟩ failingRun = some s ∧
    (system (Fin 3) Nat).step s (.failNewDB "c") = some s' ∧ s.failed = [2, 3] ∧
    (live s.base).map (·.id) = [0, 1] ∧ (∀ f ∈ s.failed, Absent s.base f) ∧ Kept s s' := by
  have hrun : ((system (Fin 3) Nat).runBy State.Records
      ⟨Database.State.empty, []⟩ failingRun).any (fun s =>
        ((system (Fin 3) Nat).step s (.failNewDB "c")).isSome && s.failed = [2, 3] &&
          (live s.base).map (·.id) = [0, 1] && s.Plain (.failNewDB "c")) = true := by decide +kernel
  obtain ⟨s, hs, hany⟩ := (Option.any_eq_true _ _).1 hrun
  simp only [Bool.and_eq_true, decide_eq_true_eq] at hany
  obtain ⟨⟨⟨hsome, hfailed⟩, hlive⟩, hplain⟩ := hany
  obtain ⟨s', hs'⟩ := Option.isSome_iff_exists.1 hsome
  have hinit : (system (Fin 3) Nat).ReachableBy State.Records
      ⟨Database.State.empty, []⟩ := .init rfl
  obtain ⟨habsent, hkept⟩ := kept_iff (hinit.runBy hs)
  exact ⟨s, s', hs, hs', hfailed, hlive, habsent, (hkept _ s' hs' rfl hplain).2 trivial⟩

/-- **A creation fails when FAMILIES is written**: its family is among the live ones, and the next
creation records it. -/
theorem not_kept : ¬ ∀ (s s' : State (Fin 3) Nat) a, (system (Fin 3) Nat).Reachable s →
    (system (Fin 3) Nat).step s a = some s' → a.fails = true → Kept s s' := by
  intro hall
  have hrun : ((system (Fin 3) Nat).run ⟨Database.State.empty, []⟩
      (List.map Action.base (openRun ++ [.createColumnFamily "a"]))).any (fun s =>
        ((system (Fin 3) Nat).step s (.failCreateWrite 0)).any fun s' =>
          (live s.base).length = 1 && (live s'.base).length = 2) = true := by decide +kernel
  obtain ⟨s, hs, hany⟩ := (Option.any_eq_true _ _).1 hrun
  obtain ⟨s', hs', hlengths⟩ := (Option.any_eq_true _ _).1 hany
  simp only [Bool.and_eq_true, decide_eq_true_eq] at hlengths
  have hinit : (system (Fin 3) Nat).Reachable ⟨Database.State.empty, []⟩ := .init rfl
  have hkept := hall s s' _ (hinit.run hs) hs' rfl
  rw [hkept.live, hlengths.1] at hlengths
  exact absurd hlengths.2 (by decide)

end LevelDb.Errors
