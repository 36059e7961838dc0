import LevelDb.Db.StockRoom
import LevelDb.Proof.LogNumbers
import LevelDb.Proof.Switch

/-!
# With the default family alone, room is made as before

In a database that never had another family, the memtable starts at the log that is open, also when
`DB::Open` has reused the last log (`memLogNumber_eq`): the family never lags behind. Then each turn
of `MakeRoomForWrite` decides as the stock loop does from the same conditions (`turn_eq_stock`); only
the delay may come after the switch of the memtable where it used to come before.
-/

namespace LevelDb.Database

open Transition

variable {K V : Type} [LinearOrder K] {s s' : State K V} {db db' : DBImpl K V} {a : Action K V}

/-! ## The log numbers -/

/-- **The default family is the only one**, and its memtable is on the log that is open. -/
structure Sole (s : State K V) : Prop where
  families : s.disk.families = []
  creating : ∀ db, s.db = some db → db.creating = []
  ids : ∀ db, s.db = some db → db.cfs.map (·.id) = [0]
  unread : ∀ db, s.db = some db → ∀ names, db.phase = .creating names → ∀ cf ∈ db.cfs, cf.mem = none
  onLog : ∀ db, s.db = some db → ∀ cf ∈ db.cfs, cf.mem.isSome = true →
    cf.memLogNumber = db.logfileNumber

omit [LinearOrder K] in
theorem Sole.cfs_eq (h : Sole s) (hdb : s.db = some db) : ∃ cf, db.cfs = [cf] ∧ cf.id = 0 := by
  obtain ⟨cf, hcfs, hid⟩ := List.map_eq_singleton_iff.1 (h.ids db hdb)
  exact ⟨cf, hcfs, hid⟩

omit [LinearOrder K] in
/-- A step of the process that keeps the log, and the memtable where it starts. -/
theorem Sole.congr (h : Sole s) (hdb : s.db = some db) (hdb' : s'.db = some db')
    (hfamilies : s'.disk.families = s.disk.families) (hcreating : db'.creating = db.creating)
    (hlog : db'.logfileNumber = db.logfileNumber)
    (hphase : ∀ names, db'.phase = .creating names → db.phase = .creating names)
    {cf cf' : ColumnFamily K V} (hcfs : db.cfs = [cf]) (hcfs' : db'.cfs = [cf']) (hid : cf'.id = cf.id)
    (hmem : cf'.mem.isSome = true → cf.mem.isSome = true)
    (hstart : cf'.memLogNumber = cf.memLogNumber) : Sole s' := by
  have hcf : cf ∈ db.cfs := by simp [hcfs]
  refine ⟨hfamilies.trans h.families, ?_, ?_, ?_, ?_⟩
  · rintro _ heq
    obtain rfl := Option.some.inj (hdb'.symm.trans heq)
    exact hcreating.trans (h.creating db hdb)
  · rintro _ heq
    obtain rfl := Option.some.inj (hdb'.symm.trans heq)
    have hids := h.ids db hdb
    rw [hcfs] at hids
    rw [hcfs', List.map_singleton, hid]
    exact hids
  · rintro _ heq names hnames c hc
    obtain rfl := Option.some.inj (hdb'.symm.trans heq)
    rw [hcfs', List.mem_singleton] at hc
    have hnone := h.unread db hdb names (hphase names hnames) cf hcf
    rw [hc]
    cases hcase : cf'.mem with
    | none => rfl
    | some m => simp [hnone, hcase] at hmem
  · rintro _ heq c hc hsome
    obtain rfl := Option.some.inj (hdb'.symm.trans heq)
    rw [hcfs', List.mem_singleton] at hc
    subst hc
    rw [hstart, hlog]
    exact h.onLog db hdb cf hcf (hmem hsome)

omit [LinearOrder K] in
/-- A step after which the memtable, if there is one, starts at the log that is open. -/
theorem Sole.reopened (h : Sole s) (cf' : ColumnFamily K V) (hdb' : s'.db = some db')
    (hfamilies : s'.disk.families = s.disk.families) (hcreating : db'.creating = [])
    (hphase : ∀ names, db'.phase ≠ .creating names) (hcfs' : db'.cfs = [cf']) (hid : cf'.id = 0)
    (hstart : cf'.mem.isSome = true → cf'.memLogNumber = db'.logfileNumber) : Sole s' := by
  refine ⟨hfamilies.trans h.families, ?_, ?_, ?_, ?_⟩
  · rintro _ heq
    obtain rfl := Option.some.inj (hdb'.symm.trans heq)
    exact hcreating
  · rintro _ heq
    obtain rfl := Option.some.inj (hdb'.symm.trans heq)
    rw [hcfs', List.map_singleton, hid]
  · rintro _ heq names hnames
    obtain rfl := Option.some.inj (hdb'.symm.trans heq)
    exact absurd hnames (hphase names)
  · rintro _ heq c hc hsome
    obtain rfl := Option.some.inj (hdb'.symm.trans heq)
    rw [hcfs', List.mem_singleton] at hc
    subst hc
    exact hstart hsome

/-- `DB::Open` reads the logs: the memtable of a log that is used again starts at that log. -/
theorem Sole.recoverLogs (hinv : Inv s) (h : Sole s) (hdb : s.db = some db)
    (hphase : db.phase = .creating []) {reuseLogs : Bool}
    {full : Nat → List (Nat × Record K V) → Bool} {disk' : Disk K V}
    (hrecover : db.recoverLogs s.disk reuseLogs full = some (db', disk')) :
    Sole (s.update (db', disk')) := by
  obtain ⟨cf, hcfs, hid⟩ := h.cfs_eq hdb
  have hcf : cf ∈ db.cfs := by simp [hcfs]
  obtain ⟨g, hg, hall⟩ := readLogs_spec (hinv.named db hdb) hinv.stored (hinv.creating hdb hphase)
    reuseLogs full
  obtain ⟨hcreating, -, -, -, hread⟩ := @readLogs_frame _ _ _ s.disk db reuseLogs full
  obtain ⟨hsame, -, hfed⟩ := hall cf hcf
  have hnone := h.unread db hdb [] hphase cf hcf
  rw [hcfs, List.map_singleton] at hg
  rw [DBImpl.recoverLogs] at hrecover
  split at hrecover
  · rename_i hclosed
    obtain ⟨dflt, hdflt, -, rfl, rfl⟩ := switchLog_some hrecover
    rw [hg, List.mem_singleton] at hdflt
    subst hdflt
    refine h.reopened ((g cf).setNextFileNumber ((g cf).versions.nextFileNumber + 1)) rfl rfl
      (hcreating.trans (h.creating db hdb)) ?_ ?_ (hsame.id.trans hid) ?_
    · intro names hnames
      exact absurd (hread.symm.trans hnames) (by simp)
    · show (DBImpl.set _ _ _).cfs = _
      simp [DBImpl.set, hg, hsame.id, hid]
    · intro hsome
      rcases hfed with ⟨-, hmem, -⟩ | ⟨_, l, -, hopen, -⟩
      · have : (g cf).mem.isSome = true := hsome
        rw [hmem, hnone] at this
        cases this
      · rw [hopen] at hclosed
        cases hclosed
  · rename_i hopen
    cases hrecover
    refine h.reopened (g cf) rfl rfl (hcreating.trans (h.creating db hdb)) ?_ hg
      (hsame.id.trans hid) ?_
    · intro names hnames
      exact absurd (hread.symm.trans hnames) (by simp)
    · intro _
      rcases hfed with ⟨hlog, -⟩ | ⟨_, l, -, hlog, -, -, hstart, -⟩
      · rw [hlog] at hopen
        exact absurd rfl hopen
      · rw [hstart, DBImpl.logfileNumber, hlog]
        rfl

omit [LinearOrder K] in
/-- The one family is set to another. -/
theorem set_singleton {cf : ColumnFamily K V} (hcfs : db.cfs = [cf]) (cf' : ColumnFamily K V) :
    (db.set cf.id cf').cfs = [cf'] := by
  simp [DBImpl.set, hcfs]

omit [LinearOrder K] in
/-- The memtable is switched to a new log. -/
theorem Sole.switchMemTable (h : Sole s) (hdb : s.db = some db) (hphase : db.phase = .running)
    {f : Nat} {disk' : Disk K V} (hswitch : db.switchMemTable s.disk f = some (db', disk')) :
    Sole (s.update (db', disk')) := by
  obtain ⟨cf, hcfs, hid⟩ := h.cfs_eq hdb
  obtain ⟨db1, c, hlog, hfind, -, rfl⟩ := switchMemTable_some hswitch
  obtain ⟨dflt, hdflt, -, rfl, rfl⟩ := switchLog_some hlog
  rw [hcfs, List.mem_singleton] at hdflt
  subst hdflt
  have hset := set_singleton hcfs (dflt.setNextFileNumber (dflt.versions.nextFileNumber + 1))
  rw [hid] at hset
  obtain ⟨hc, hcid, -⟩ := live?_some hfind
  have hc' : c = dflt.setNextFileNumber (dflt.versions.nextFileNumber + 1) := by
    have hc0 : c ∈ (db.set 0 (dflt.setNextFileNumber (dflt.versions.nextFileNumber + 1))).cfs := hc
    rw [hset] at hc0
    exact List.mem_singleton.1 hc0
  subst hc'
  have hf : f = 0 := hcid.symm.trans hid
  subst hf
  have hcfs' := set_singleton hset
  rw [hcid] at hcfs'
  refine h.reopened _ rfl rfl (h.creating db hdb) ?_ (hcfs' _) hid fun _ => rfl
  intro names hnames
  exact absurd (hphase.symm.trans hnames) (by simp)

omit [LinearOrder K] in
/-- The manifest is edited; a family without a memtable gets one. -/
theorem Sole.editManifest (h : Sole s) (hdb : s.db = some db) {ids : List Nat} {f : Nat}
    {disk' : Disk K V}
    (hedit : ({ db with phase := .editing ids } : DBImpl K V).editManifest s.disk f =
      some (db', disk')) : Sole (s.update (db', disk')) := by
  obtain ⟨cf, hcfs, hid⟩ := h.cfs_eq hdb
  have hcf : cf ∈ db.cfs := by simp [hcfs]
  obtain ⟨c, hfind, heq⟩ := editManifest_some hedit
  obtain ⟨hc, rfl⟩ := find?_some hfind
  have hc' : c = cf := by
    have hc0 : c ∈ db.cfs := hc
    rwa [hcfs, List.mem_singleton] at hc0
  subst hc'
  have hset := @set_singleton K V { db with phase := .editing ids } c hcfs
  -- a memtable the logs have left is where it was; a new one is on the log that is open
  have hstart : (({ db with phase := .editing ids } : DBImpl K V).startMemTable c).memLogNumber =
      db.logfileNumber := by
    unfold DBImpl.startMemTable
    split
    · rfl
    · rename_i m hm
      exact h.onLog db hdb c hcf (by simp [hm])
  have hsame := startMemTable_id ({ db with phase := .editing ids } : DBImpl K V) c
  rcases heq with ⟨-, versions, -, rfl, rfl⟩ | ⟨-, rfl, rfl⟩
  · exact h.reopened _ rfl rfl (h.creating db hdb) nofun (hset _) (hsame.trans hid) fun _ => hstart
  · exact h.reopened _ rfl rfl (h.creating db hdb) nofun (hset _) (hsame.trans hid) fun _ => hstart

omit [LinearOrder K] in
/-- `DB::Open` of a disk without families. -/
theorem Sole.openDB (h : Sole s) {names : List String} {createMissing saveManifest : Bool}
    (hopen : s.disk.openDB names createMissing saveManifest = some db) :
    Sole { s with db := some db } := by
  rw [Disk.openDB] at hopen
  split at hopen
  · cases hopen
    simp only [h.families, List.map_cons, List.map_nil]
    refine ⟨h.families, ?_, ?_, ?_, ?_⟩
    · rintro _ ⟨⟩
      rfl
    · rintro _ ⟨⟩
      rfl
    · rintro _ ⟨⟩ _ _ cf hcf
      rw [List.mem_singleton.1 hcf]
      rfl
    · rintro _ ⟨⟩ cf hcf hsome
      rw [List.mem_singleton.1 hcf] at hsome
      cases hsome
  · cases hopen

/-- **One step** that creates no family. -/
theorem sole_step (hinv : Inv s) (h : Sole s) (hok : DefaultOnly s a)
    (hstep : (system K V).step s a = some s') : Sole s' := by
  rcases step_cases hstep with ⟨db, hdb, hstepped⟩ | ⟨hdb, names, createMissing, saveManifest, db,
    hopen, rfl⟩
  · obtain ⟨cf, hcfs, hid⟩ := h.cfs_eq hdb
    cases hstepped with
    | crash => exact ⟨h.families, nofun, nofun, nofun, nofun⟩
    | createColumnFamily => exact hok.elim
    | commitColumnFamily _ hcommit =>
      obtain ⟨new, hnew, -⟩ := Option.map_eq_some_iff.1 hcommit
      have : db.creating[_]? = some new := hnew
      rw [h.creating db hdb] at this
      cases this
    | recoverLogs hphase hrecover => exact h.recoverLogs hinv hdb hphase hrecover
    | editManifest _ hedit => exact h.editManifest hdb hedit
    | finishOpen hphase =>
      refine h.congr hdb rfl rfl rfl rfl ?_ hcfs hcfs rfl id rfl
      intro names hnames
      cases hnames
    | capture _ hcapture =>
      obtain ⟨-, -, rfl⟩ := capture_some hcapture
      exact h.congr hdb rfl rfl rfl rfl (fun _ h => h) hcfs hcfs rfl id rfl
    | addRecord => exact h.congr hdb rfl rfl rfl rfl (fun _ h => h) hcfs hcfs rfl id rfl
    | insert hinsert =>
      obtain ⟨w, -, -, -, rfl⟩ := insert_some hinsert
      have hmap : (db.cfs.map (DBImpl.insertInto w)) = [DBImpl.insertInto w cf] := by simp [hcfs]
      refine h.congr hdb rfl rfl rfl rfl (fun _ h => h) hcfs hmap ?_ ?_ ?_ <;>
        · unfold DBImpl.insertInto
          split <;> simp
    | close hclose =>
      obtain ⟨w, -, -, -, rfl⟩ := close_some hclose
      have hmap : db.cfs.map (DBImpl.setLastSequence (db.lastSequence + w.batch.records.length)) =
        [DBImpl.setLastSequence (db.lastSequence + w.batch.records.length) cf] := by simp [hcfs]
      exact h.congr hdb rfl rfl rfl rfl (fun _ h => h) hcfs hmap rfl id rfl
    | switchMemTable hphase _ hswitch => exact h.switchMemTable hdb hphase hswitch
    | compactMemTable hphase hcompact =>
      obtain ⟨c, imm, _, hfind, -, -, rfl, rfl⟩ := compactMemTable_some hcompact
      obtain ⟨hc, hcid, -⟩ := live?_some hfind
      rw [hcfs, List.mem_singleton] at hc
      subst hc
      subst hcid
      exact h.congr hdb rfl rfl rfl rfl (fun _ h => h) hcfs (set_singleton hcfs _) rfl id rfl
    | removeObsoleteFiles => exact h.congr hdb rfl rfl rfl rfl (fun _ h => h) hcfs hcfs rfl id rfl
    | removeFile hremove =>
      obtain ⟨k, -, rfl, rfl⟩ := removeFile_some hremove
      exact h.congr hdb rfl rfl rfl rfl (fun _ h => h) hcfs hcfs rfl id rfl
    | dropColumnFamily _ hdrop =>
      obtain ⟨c, hfind, hdrop⟩ := Option.bind_eq_some_iff.1 hdrop
      obtain ⟨hc, hcid⟩ := find?_some hfind
      rw [hcfs, List.mem_singleton] at hc
      subst hc
      rw [if_neg (by simp [← hcid, hid])] at hdrop
      cases hdrop
  · exact h.openDB hopen

/-- **In a database that never had another family**, the default one is on the log that is open. -/
theorem sole_reachable (h : (system K V).ReachableBy DefaultOnly s) : Sole s := by
  refine System.ReachableBy.invariant_of (fun _ => inv_reachable) h (fun s hs => ?_)
    fun s a s' hinv hsole hok hstep => sole_step hinv hsole hok hstep
  rw [show s = State.empty from hs]
  exact ⟨rfl, nofun, nofun, nofun, nofun⟩

/-- **The memtable starts at the log that is open**, whenever writes are possible. -/
theorem memLogNumber_eq (h : (system K V).ReachableBy DefaultOnly s) (hdb : s.db = some db)
    (hphase : db.phase = .running) : ∃ cf, db.cfs = [cf] ∧ cf.id = 0 ∧ cf.dropped = false ∧
      cf.mem.isSome = true ∧ cf.memLogNumber = db.logfileNumber := by
  have hinv := inv_reachable h.reachable
  have hsole := sole_reachable h
  obtain ⟨cf, hcfs, hid⟩ := hsole.cfs_eq hdb
  have hcf : cf ∈ db.cfs := by simp [hcfs]
  have hlive : cf.dropped = false := by
    obtain ⟨c, hc, -, hlive⟩ := (hinv.named db hdb).default
    rw [hcfs, List.mem_singleton] at hc
    rwa [← hc]
  have hphased := hinv.phased db hdb
  rw [Phased, hphase] at hphased
  obtain ⟨n, hrunning⟩ := hphased
  obtain ⟨m, hm, -⟩ := (hrunning.sound cf hcf hlive).mem
  have hsome : cf.mem.isSome = true := by simp [hm]
  exact ⟨cf, hcfs, hid, hlive, hsome, hsole.onLog db hdb cf hcf hsome⟩

end LevelDb.Database

namespace LevelDb.Room

/-! ## The two loops -/

variable {s : State} {cf : ColumnFamily} {c : Conditions} {l : Leader} {fresh usage : Nat}
  {batch : Option (List Nat)} {families : List Nat}

/-- What a leader knows on its way through the loop. -/
theorem Loops.known (h : Loops fresh batch c l) : (batch.isSome = true → l.force = false) ∧
    (batch = none → l.allowDelay = false ∧ (l.force = false → c.usage = fresh)) := by
  induction h with
  | start c =>
    cases batch with
    | none => exact ⟨nofun, fun _ => ⟨rfl, nofun⟩⟩
    | some families => exact ⟨fun _ => rfl, nofun⟩
  | released _ _ _ _ ih => exact ih
  | slept _ _ _ _ ih => exact ⟨ih.1, fun hnone => ⟨rfl, (ih.2 hnone).2⟩⟩
  | switched _ ih => exact ⟨fun _ => rfl, fun hnone => ⟨(ih.2 hnone).1, fun _ => rfl⟩⟩

/-- A family on the log that is open does not lag behind. -/
theorem lags_eq_false (h : cf.memLogNumber = s.logfileNumber) : s.lags cf = false := by
  unfold State.lags
  simp only [decide_eq_false_iff_not]
  omega

/-- **A turn for the default family alone**, if it is wanted. -/
theorem verdict_singleton (hcfs : s.cfs = [cf]) (hlive : cf.dropped = false) (hid : cf.id = 0)
    (hmem : cf.mem = some usage) (hlog : cf.memLogNumber = s.logfileNumber)
    (hwants : 0 ∈ families ∨ l.force = true) : s.verdict families l =
      if l.force = true ∨ cf.writeBufferSize < usage then
        if cf.imm = true ∨ kL0StopWritesTrigger ≤ cf.numLevel0Files then .wait
        else .switchMemTable 0
      else if l.allowDelay = true ∧ kL0SlowdownWritesTrigger ≤ cf.numLevel0Files then .sleep
      else .room := by
  have hwant : s.live.filter (s.wants families l.force) = [cf] := by
    have : s.wants families l.force cf = true := by
      rcases hwants with hbatch | hforce
      · simp [State.wants, hid, hbatch]
      · simp [State.wants, hid, hforce]
    simp [State.live, hcfs, hlive, this]
  have hfull : s.full l.force cf = decide (l.force = true ∨ cf.writeBufferSize < usage) := by
    simp [State.full, hid, hmem, ColumnFamily.overflows, lags_eq_false hlog]
  simp only [State.verdict, hwant, State.scan, hfull, decide_eq_false_iff_not]
  by_cases hneeds : l.force = true ∨ cf.writeBufferSize < usage
  · simp only [hneeds, not_true_eq_false, ↓reduceIte]
    by_cases himm : cf.imm = true
    · simp [himm]
    · by_cases hstop : kL0StopWritesTrigger ≤ cf.numLevel0Files
      · simp [himm, hstop]
      · simp [himm, hstop, hid]
  · simp [hneeds]

/-- A turn for no family: a null batch that has had its switch. -/
theorem verdict_nil (hcfs : s.cfs = [cf])
    (hlog : cf.memLogNumber = s.logfileNumber) (hforce : l.force = false) :
    s.verdict [] l = .room := by
  have hwant : s.live.filter (s.wants [] l.force) = [] := by
    refine List.filter_eq_nil_iff.2 fun cf' hcf' => ?_
    have : cf' = cf := by
      have := (List.mem_filter.1 hcf').1
      rwa [hcfs, List.mem_singleton] at this
    simp [State.wants, this, hforce, lags_eq_false hlog]
  simp [State.verdict, hwant, State.scan]

/-- What a turn comes to, in the stock loop too, when the delay is left aside. -/
def decision (c : Conditions) (force : Bool) : Turn :=
  match c.bgError with
  | some error => .yieldError error
  | none =>
    if force = true ∨ c.writeBufferSize < c.usage then
      if c.imm = true ∨ kL0StopWritesTrigger ≤ c.numLevel0Files then .wait
      else .switchMemTable
    else .room

theorem decision_ne_sleep (c : Conditions) (force : Bool) : decision c force ≠ .sleep := by
  unfold decision
  split
  · nofun
  · split
    · split <;> nofun
    · nofun

/-- The stock loop sleeps before it decides. -/
theorem stockTurn_decides (c : Conditions) (l : Leader) :
    Decides (fun allowDelay => stockTurn c { l with allowDelay }) (decision c l.force) := by
  have hfalse : stockTurn c { l with allowDelay := false } = decision c l.force := by
    unfold stockTurn decision
    cases c.bgError with
    | some error => rfl
    | none =>
      by_cases hneeds : l.force = true ∨ c.writeBufferSize < c.usage
      · have : ¬(l.force = false ∧ c.usage ≤ c.writeBufferSize) := by
          rintro ⟨hforce, husage⟩
          rcases hneeds with hforced | hover
          · simp [hforced] at hforce
          · omega
        simp only [hneeds, this, Bool.false_eq_true, false_and, ↓reduceIte]
        by_cases himm : c.imm = true <;> simp [himm]
      · have : l.force = false ∧ c.usage ≤ c.writeBufferSize := by
          simpa using hneeds
        simp [this]
  refine ⟨decision_ne_sleep c l.force, hfalse, ?_⟩
  unfold stockTurn at hfalse ⊢
  cases hcase : c.bgError with
  | some error => exact .inr (by simpa [hcase] using hfalse)
  | none =>
    by_cases hslow : kL0SlowdownWritesTrigger ≤ c.numLevel0Files
    · exact .inl (by simp [hslow])
    · exact .inr (by simpa [hcase, hslow] using hfalse)

/-- The loop with families decides the same, on the log that is open and for a batch of the default
family. -/
theorem turn_decides (hcfs : s.cfs = [cf]) (hlive : cf.dropped = false) (hid : cf.id = 0)
    (hmem : cf.mem = some c.usage) (hlog : cf.memLogNumber = s.logfileNumber) (himm : cf.imm = c.imm)
    (hfiles : cf.numLevel0Files = c.numLevel0Files)
    (hsize : cf.writeBufferSize = c.writeBufferSize) (hfresh : fresh ≤ c.writeBufferSize)
    (hbatch : ∀ families ∈ batch, families ≠ [] ∧ ∀ f ∈ families, f = 0)
    (hloops : Loops fresh batch c l) :
    Decides (fun allowDelay => s.turn c.bgError (batch.getD []) { l with allowDelay })
      (decision c l.force) := by
  obtain ⟨hforced, hnull⟩ := hloops.known
  by_cases hwants : 0 ∈ batch.getD [] ∨ l.force = true
  · have hturn (allowDelay : Bool) := @verdict_singleton s cf { l with allowDelay } c.usage
      (batch.getD []) hcfs hlive hid hmem hlog hwants
    simp only [himm, hfiles, hsize] at hturn
    refine ⟨decision_ne_sleep c l.force, ?_⟩
    unfold State.turn decision
    cases c.bgError with
    | some error => exact ⟨rfl, .inr rfl⟩
    | none =>
      simp only [hturn]
      by_cases hneeds : l.force = true ∨ c.writeBufferSize < c.usage
      · by_cases hblocked : c.imm = true ∨ kL0StopWritesTrigger ≤ c.numLevel0Files
        · simp [hneeds, hblocked]
        · simp [hneeds, hblocked]
      · by_cases hslow : kL0SlowdownWritesTrigger ≤ c.numLevel0Files
        · simp [hneeds, hslow]
        · simp [hneeds, hslow]
  · obtain ⟨hzero, hforce⟩ := not_or.1 hwants
    -- the batch is null, and its switch has left it a new memtable
    cases batch with
    | some families =>
      obtain ⟨hne, hall⟩ := hbatch families rfl
      obtain ⟨f, hf⟩ := List.exists_mem_of_ne_nil families hne
      exact absurd (hall f hf ▸ hf) hzero
    | none =>
      have hturn (allowDelay : Bool) := @verdict_nil s cf { l with allowDelay } hcfs hlog
        (Bool.not_eq_true _ ▸ hforce)
      have husage := (hnull rfl).2 (Bool.not_eq_true _ ▸ hforce)
      have hroom : ¬(l.force = true ∨ c.writeBufferSize < c.usage) := by
        rintro (hforce' | hover)
        · exact hforce hforce'
        · omega
      refine ⟨decision_ne_sleep c l.force, ?_⟩
      unfold State.turn decision
      cases c.bgError with
      | some error => exact ⟨rfl, .inr rfl⟩
      | none => simp [hturn, hroom]

/-- A turn that ends with room has it in the memtable. -/
theorem usage_le_of_room {force : Bool} (h : decision c force = .room) :
    c.usage ≤ c.writeBufferSize := by
  unfold decision at h
  split at h
  · cases h
  · split at h
    · split at h <;> cases h
    · rename_i hneeds
      omega

end LevelDb.Room

namespace LevelDb.Database

open Transition Room

variable {K V : Type} [LinearOrder K] {s : State K V} {db : DBImpl K V} {batch : Option (List Nat)}
  {fresh : Nat} {c : Conditions} {l : Leader}

/-- **With the default family alone, room is made as before**: its memtable is on the log that is
open; while writes are possible it never lags behind, and in each turn of a null batch, or of one with
records, both loops decide the same, wherever they sleep. They end with the memtable within its
limit. -/
theorem turn_eq_stock (h : (system K V).ReachableBy DefaultOnly s) (hdb : s.db = some db)
    (hbatch : ∀ families ∈ batch, families ≠ [] ∧ ∀ f ∈ families, f = 0)
    (hfresh : fresh ≤ minWriteBufferSize) (hsize : minWriteBufferSize ≤ c.writeBufferSize)
    (hloops : Loops fresh batch c l) :
    (∀ cf ∈ db.cfs, cf.mem.isSome = true → cf.memLogNumber = db.logfileNumber) ∧
    (db.phase = .running →
      (∃ cf, db.cfs = [cf] ∧ cf.mem.isSome = true) ∧
      (∀ cf ∈ (ofDBImpl db c).cfs, (ofDBImpl db c).lags cf = false) ∧
      ∃ decision,
        Decides (fun allowDelay =>
          (ofDBImpl db c).turn c.bgError (batch.getD []) { l with allowDelay }) decision ∧
        Decides (fun allowDelay => stockTurn c { l with allowDelay }) decision ∧
        (decision = .room → c.usage ≤ c.writeBufferSize)) := by
  refine ⟨(sole_reachable h).onLog db hdb, fun hphase => ?_⟩
  obtain ⟨cf, hcfs, hid, hlive, hsome, hlog⟩ := memLogNumber_eq h hdb hphase
  obtain ⟨m, hm⟩ := Option.isSome_iff_exists.1 hsome
  refine ⟨⟨cf, hcfs, hsome⟩, ?_, decision c l.force, ?_, stockTurn_decides c l, usage_le_of_room⟩
  · intro cf' hcf'
    obtain ⟨cf0, hcf0, rfl⟩ := List.mem_map.1 hcf'
    rw [hcfs, List.mem_singleton] at hcf0
    subst hcf0
    exact lags_eq_false hlog
  · have hcfs' : (ofDBImpl db c).cfs = _ := congrArg (List.map _) hcfs
    exact turn_decides hcfs' hlive hid (by simp [hm]) hlog rfl rfl rfl (hfresh.trans hsize) hbatch
      hloops

/-- A write, its flush, and a reopening that uses the last log again. -/
def reuseRun : List (Action (Fin 3) Nat) :=
  [.openDB [] true true, .recoverLogs false fun _ _ => false, .editManifest, .finishOpen,
    .capture [(0, .put 1 7)], .addRecord, .insert, .close, .switchMemTable 0, .compactMemTable 0,
    .capture [(0, .put 2 8)], .addRecord, .insert, .close, .crash,
    .openDB [] true false, .recoverLogs true fun _ _ => false, .editManifest, .finishOpen]

/-- A full memtable, and so many files on level 0 that the stock loop sleeps first. -/
def fullConditions : Conditions := ⟨70000, false, 9, none, 65536⟩

theorem turn_eq_stock_reuseRun : ∃ s db,
    (system (Fin 3) Nat).runBy DefaultOnly State.empty reuseRun = some s ∧ s.db = some db ∧
    db.logfileNumber = 4 ∧ (∀ cf ∈ db.cfs, cf.mem.isSome = true → cf.memLogNumber = 4) ∧
    ∃ decision,
      Decides (fun allowDelay =>
        (ofDBImpl db fullConditions).turn none [0] ⟨false, allowDelay⟩) decision ∧
      Decides (fun allowDelay => stockTurn fullConditions ⟨false, allowDelay⟩) decision := by
  have hrun : ((system (Fin 3) Nat).runBy DefaultOnly State.empty reuseRun).any (fun s =>
      s.db.any fun db => db.logfileNumber = 4 && db.phase = .running) = true := by decide +kernel
  obtain ⟨s, hs, hany⟩ := (Option.any_eq_true _ _).1 hrun
  obtain ⟨db, hdb, hall⟩ := (Option.any_eq_true _ _).1 hany
  simp only [Bool.and_eq_true, decide_eq_true_eq] at hall
  have hinit : (system (Fin 3) Nat).ReachableBy DefaultOnly State.empty := .init rfl
  have hbatch : ∀ families ∈ some [0], families ≠ [] ∧ ∀ f ∈ families, f = 0 := by
    rintro families ⟨⟩
    simp
  obtain ⟨hlog, hturn⟩ := turn_eq_stock (hinit.runBy hs) hdb hbatch
    (show 4104 ≤ minWriteBufferSize by decide)
    (show minWriteBufferSize ≤ fullConditions.writeBufferSize by decide) (.start fullConditions)
  obtain ⟨-, -, decision, hnew, hstock, -⟩ := hturn hall.2
  exact ⟨s, db, hs, hdb, hall.1, hall.1 ▸ hlog, decision, hnew, hstock⟩

end LevelDb.Database
