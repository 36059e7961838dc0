import LevelDb.Proof.Reopen

/-!
# Sequence numbers never go back

The last sequence number is rebuilt by `DB::Open` from the manifests and the logs. The default
family, which no drop takes away, answers for what was deleted: its manifest has seen the numbers of
all batches in logs before its log number, and the logs from there on are all there (`Numbered`). The
running process has the default family's number at least at its own, and its own above all batches
but one under way (`Counting`).
-/

namespace LevelDb.Database

open Journal Transition

variable {K V : Type} [LinearOrder K]

/-- No record of the batch has a number above `n`. -/
def Batch.UpTo (n : Nat) (b : Batch K V) : Prop := ∀ i < b.records.length, b.sequence + i ≤ n

omit [LinearOrder K] in
theorem Batch.UpTo.mono {m n : Nat} {b : Batch K V} (h : b.UpTo m) (hmn : m ≤ n) : b.UpTo n :=
  fun i hi => (h i hi).trans hmn

theorem le_of_mem_recordsOf {f n : Nat} {b : Batch K V} (h : b.UpTo n) {r : Nat × Record K V}
    (hr : r ∈ b.recordsOf f) : r.1 ≤ n := by
  obtain ⟨⟨⟨g, record⟩, seq⟩, hin, heq⟩ := List.mem_filterMap.1 hr
  obtain ⟨-, hsome⟩ := Option.ite_none_right_eq_some.1 heq
  cases hsome
  obtain ⟨hle, hlt, -⟩ := List.mem_zipIdx hin
  have := h (seq - b.sequence) (by omega)
  show seq ≤ n
  omega

theorem le_of_mem_recordsIn {f n : Nat} {bs : List (Batch K V)} (h : ∀ b ∈ bs, b.UpTo n)
    {r : Nat × Record K V} (hr : r ∈ recordsIn f bs) : r.1 ≤ n := by
  obtain ⟨b, hb, hr⟩ := List.mem_flatMap.1 hr
  exact le_of_mem_recordsOf (h b hb) hr

/-! ## Reading logs -/

namespace DBImpl

variable {full : Nat → List (Nat × Record K V) → Bool} {replaying : List Nat}

theorem maxSequence_foldl (r : Replay K V) (bs : List (Batch K V)) :
    r.maxSequence ≤ (bs.foldl (Replay.addRecord full replaying) r).maxSequence ∧
      ∀ b ∈ bs, b.UpTo (bs.foldl (Replay.addRecord full replaying) r).maxSequence := by
  induction bs generalizing r with
  | nil => exact ⟨le_rfl, nofun⟩
  | cons b bs ih =>
    obtain ⟨hle, hall⟩ := ih (r.addRecord full replaying b)
    have hstep : (r.addRecord full replaying b).maxSequence =
        max r.maxSequence (b.sequence + b.records.length - 1) := rfl
    rw [List.foldl_cons]
    refine ⟨by omega, fun b' hb' => ?_⟩
    rcases List.mem_cons.1 hb' with rfl | hb'
    · intro i hi
      omega
    · exact hall b' hb'

variable {db : DBImpl K V} (reuseLogs : Bool) (full : Nat → List (Nat × Record K V) → Bool)

theorem lastSequence_recoverLogFile (last : Bool) (log : LogFile K V) :
    db.lastSequence ≤ (recoverLogFile reuseLogs full last db log).lastSequence ∧
      ∀ b ∈ log.batches, b.UpTo (recoverLogFile reuseLogs full last db log).lastSequence := by
  rw [recoverLogFile]
  generalize (db.cfs.filter fun cf =>
    cf.dropped = false ∧ cf.versions.logNumber ≤ log.number).map (·.id) = replaying
  obtain ⟨hle, hall⟩ := @maxSequence_foldl _ _ _ full replaying
    ⟨fun _ => none, db.recoveryEdits, fun _ => 0, 0, db.lastSequence⟩ log.batches
  split
  · exact ⟨hle, hall⟩
  · exact ⟨hle, hall⟩

/-- **The loop of `Recover`** sees the number of every record in the logs. -/
theorem lastSequence_recoverLogFiles (logs : List (LogFile K V)) :
    db.lastSequence ≤ (recoverLogFiles reuseLogs full db logs).lastSequence ∧
      ∀ l ∈ logs, ∀ b ∈ l.batches,
        b.UpTo (recoverLogFiles reuseLogs full db logs).lastSequence := by
  induction logs generalizing db with
  | nil => exact ⟨le_rfl, nofun⟩
  | cons log logs ih =>
    obtain ⟨hle, hall⟩ := @lastSequence_recoverLogFile _ _ _ db reuseLogs full logs.isEmpty log
    rw [recoverLogFiles]
    obtain ⟨hle', hall'⟩ := @ih { recoverLogFile reuseLogs full logs.isEmpty db log with
      cfs := (recoverLogFile reuseLogs full logs.isEmpty db log).cfs.map (markFileNumberUsed log.number)
      saveManifest := true }
    refine ⟨hle.trans hle', fun l hl => ?_⟩
    rcases List.mem_cons.1 hl with rfl | hl
    · exact fun b hb => (hall b hb).mono hle'
    · exact hall' l hl

end DBImpl

/-! ## The invariant -/

/-- What the default family's manifest and the logs know of the numbers. -/
structure Numbered (appended : List (Nat × Batch K V)) (disk : Disk K V) : Prop where
  below : ∀ e ∈ appended, e.1 < (disk.manifests 0).logNumber →
    e.2.UpTo (disk.manifests 0).lastSequence
  present : ∀ e ∈ appended, (disk.manifests 0).logNumber ≤ e.1 → ∃ l ∈ disk.logs, l.number = e.1

/-- The batches appended before the one under way. -/
def settled (appended : List (Nat × Batch K V)) (w : Option (Writing K V)) :
    List (Nat × Batch K V) :=
  if w.any (·.logged) then appended.dropLast else appended

/-- What the process knows of the numbers. -/
structure Counting (appended : List (Nat × Batch K V)) (disk : Disk K V) (db : DBImpl K V) : Prop where
  default : ∀ cf ∈ db.cfs, cf.id = 0 → db.lastSequence ≤ cf.versions.lastSequence ∧
    (db.log = none → (disk.manifests 0).lastSequence ≤ cf.versions.lastSequence)
  settled : db.log ≠ none → ∀ e ∈ settled appended db.writing, e.2.UpTo db.lastSequence
  obsolete : ∀ k ∈ db.obsolete, ∀ cf ∈ db.cfs, cf.id = 0 → k < cf.versions.logNumber
  sequence : ∀ w, db.writing = some w → w.batch.sequence = db.lastSequence + 1

structure Sequenced (s : State K V) : Prop where
  numbered : Numbered s.appended s.disk
  counting : ∀ db, s.db = some db → Counting s.appended s.disk db

section
variable {appended appended' : List (Nat × Batch K V)} {disk disk' : Disk K V} {db db' : DBImpl K V}
  {s s' : State K V} {f n : Nat} {ids : List Nat}

omit [LinearOrder K] in
theorem Numbered.congr (h : Numbered appended disk)
    (hmanifest : disk'.manifests 0 = disk.manifests 0)
    (hlogs : ∀ l ∈ disk.logs, (disk.manifests 0).logNumber ≤ l.number →
      ∃ l' ∈ disk'.logs, l'.number = l.number) : Numbered appended disk' := by
  refine ⟨hmanifest ▸ h.below, fun e he hle => ?_⟩
  rw [hmanifest] at hle
  obtain ⟨l, hl, heq⟩ := h.present e he hle
  obtain ⟨l', hl', heq'⟩ := hlogs l hl (heq ▸ hle)
  exact ⟨l', hl', heq'.trans heq⟩

omit [LinearOrder K] in
/-- A manifest edit. -/
theorem Numbered.setManifest (h : Numbered appended disk) {v : VersionSet K V}
    (hv : f = 0 → (disk.manifests 0).logNumber ≤ v.logNumber ∧
      ∀ e ∈ appended, e.1 < v.logNumber → e.2.UpTo v.lastSequence) :
    Numbered appended { disk with manifests := Function.update disk.manifests f v } := by
  by_cases hf : f = 0
  · subst hf
    obtain ⟨hle, hall⟩ := hv rfl
    refine ⟨?_, ?_⟩
    · simp only [Function.update_self]
      exact hall
    · simp only [Function.update_self]
      exact fun e he hle' => h.present e he (hle.trans hle')
  · exact h.congr (Function.update_of_ne (Ne.symm hf) _ _) fun l hl _ => ⟨l, hl, rfl⟩

omit [LinearOrder K] in
/-- A step without a new number. -/
theorem Counting.frame (h : Counting appended disk db)
    (hcfs : ∀ c ∈ db'.cfs, c.id = 0 → ∃ cf ∈ db.cfs, cf.id = 0 ∧
      c.versions.lastSequence = cf.versions.lastSequence ∧
      cf.versions.logNumber ≤ c.versions.logNumber)
    (hlog : db'.log = none ↔ db.log = none) (hlast : db'.lastSequence = db.lastSequence)
    (hmanifest : db.log = none →
      (disk'.manifests 0).lastSequence = (disk.manifests 0).lastSequence)
    (hsettled : Database.settled appended' db'.writing = Database.settled appended db.writing)
    (hobsolete : ∀ k ∈ db'.obsolete, k ∈ db.obsolete)
    (hsequence : ∀ w, db'.writing = some w → w.batch.sequence = db.lastSequence + 1) :
    Counting appended' disk' db' := by
  refine ⟨fun c hc hzero => ?_, fun hopen => ?_, fun k hk c hc hzero => ?_, fun w hw => ?_⟩
  · obtain ⟨cf, hcf, hzero', heq, -⟩ := hcfs c hc hzero
    obtain ⟨h1, h2⟩ := h.default cf hcf hzero'
    rw [heq, hlast]
    refine ⟨h1, fun hnone => ?_⟩
    have hnone' := hlog.1 hnone
    rw [hmanifest hnone']
    exact h2 hnone'
  · rw [hsettled, hlast]
    exact h.settled fun hnone => hopen (hlog.2 hnone)
  · obtain ⟨cf, hcf, hzero', -, hle⟩ := hcfs c hc hzero
    exact (h.obsolete k (hobsolete k hk) cf hcf hzero').trans_le hle
  · rw [hlast]
    exact hsequence w hw

omit [LinearOrder K] in
/-- The same where the families' versions stay as they are. -/
theorem Counting.congr (h : Counting appended disk db) (hcfs : db'.cfs = db.cfs)
    (hlog : db'.log = db.log) (hlast : db'.lastSequence = db.lastSequence)
    (hmanifest : disk'.manifests 0 = disk.manifests 0)
    (hsettled : Database.settled appended' db'.writing = Database.settled appended db.writing)
    (hobsolete : ∀ k ∈ db'.obsolete, k ∈ db.obsolete)
    (hsequence : ∀ w, db'.writing = some w → w.batch.sequence = db.lastSequence + 1) :
    Counting appended' disk' db' :=
  h.frame (fun c hc hzero => ⟨c, hcfs ▸ hc, hzero, rfl, le_rfl⟩) (by rw [hlog]) hlast
    (fun _ => by rw [hmanifest]) hsettled hobsolete hsequence

/-- A batch in an older log is done. -/
theorem Running.mem_settled {acknowledged : List (Nat × Batch K V)}
    (hr : Running appended acknowledged disk db n) {e : Nat × Batch K V} (he : e ∈ appended)
    (hlt : e.1 < n) : e ∈ Database.settled appended db.writing := by
  rw [Database.settled]
  split
  · rename_i hany
    obtain ⟨w, hw, hlogged⟩ := (Option.any_eq_true _ _).1 hany
    obtain ⟨before, rfl, -⟩ := (hr.writes w hw).last hlogged
    rw [List.dropLast_concat]
    rcases List.mem_append.1 he with he | he
    · exact he
    · rw [List.mem_singleton.1 he] at hlt
      exact absurd hlt (Nat.lt_irrefl n)
  · exact he

/-! ## Opening -/

theorem le_foldl_max {l : List Nat} {a : Nat} : a ≤ l.foldl max a ∧ ∀ x ∈ l, x ≤ l.foldl max a := by
  induction l generalizing a with
  | nil => exact ⟨le_rfl, nofun⟩
  | cons y l ih =>
    obtain ⟨h1, h2⟩ := ih (a := max a y)
    refine ⟨(Nat.le_max_left _ _).trans h1, fun x hx => ?_⟩
    rcases List.mem_cons.1 hx with rfl | hx
    · exact (Nat.le_max_right _ _).trans h1
    · exact h2 x hx

/-- The default family's manifest, or a log, has seen each number. -/
theorem upTo_readLogs (hn : Named appended disk db) (hs : Stored appended disk)
    (hnum : Numbered appended disk) (hc : Creating appended disk db) (h : Counting appended disk db)
    (reuseLogs : Bool) (full : Nat → List (Nat × Record K V) → Bool) :
    ∀ e ∈ appended, e.2.UpTo (db.readLogs disk reuseLogs full).lastSequence := by
  obtain ⟨dflt, hdflt, hzero, hlive⟩ := hn.default
  generalize hstart : (⟨db.cfs, db.creating, db.nextFamilyId, db.log,
    (db.cfs.map fun cf => cf.versions.lastSequence).foldl max 0, db.recoveryEdits, db.saveManifest,
    db.phase, db.writing, db.obsolete⟩ : DBImpl K V) = start
  generalize hlogs : (disk.logs.filter fun l => db.minLog ≤ l.number).insertionSort
    (fun a b => a.number ≤ b.number) = logs
  have hread : (db.readLogs disk reuseLogs full).lastSequence =
      (DBImpl.recoverLogFiles reuseLogs full start logs).lastSequence := by
    rw [← hstart, ← hlogs]
    rfl
  obtain ⟨hle, hall⟩ := @DBImpl.lastSequence_recoverLogFiles _ _ _ start reuseLogs full logs
  rw [hread]
  intro e he
  have hlogNumber := hn.logNumber dflt hdflt hlive
  rw [hzero] at hlogNumber
  by_cases hbelow : e.1 < (disk.manifests 0).logNumber
  · -- from before the manifest
    refine (hnum.below e he hbelow).mono (((h.default dflt hdflt hzero).2 hc.log).trans ?_)
    refine le_trans ?_ hle
    rw [← hstart]
    exact le_foldl_max.2 _ (List.mem_map_of_mem hdflt)
  · -- from a log that is read
    obtain ⟨l, hl, heq⟩ := hnum.present e he (Nat.le_of_not_lt hbelow)
    have hmin : db.minLog ≤ l.number := by
      have := minLog_le hdflt
      omega
    refine hall l ?_ e.2 ?_
    · rw [← hlogs, List.mem_insertionSort]
      exact List.mem_filter.2 ⟨hl, decide_eq_true hmin⟩
    · rw [hs.batches l hl, mem_segment, heq]
      exact he

theorem counting_recoverLogs (hn : Named appended disk db) (hs : Stored appended disk)
    (hnum : Numbered appended disk) (hc : Creating appended disk db) (h : Counting appended disk db)
    {reuseLogs : Bool} {full : Nat → List (Nat × Record K V) → Bool}
    (hrecover : db.recoverLogs disk reuseLogs full = some (db', disk')) :
    Numbered appended disk' ∧ Counting appended disk' db' := by
  have hall := upTo_readLogs hn hs hnum hc h reuseLogs full
  have hcfs : ∀ cf ∈ (db.readLogs disk reuseLogs full).cfs,
      (db.readLogs disk reuseLogs full).lastSequence ≤ cf.versions.lastSequence := fun cf hcf => by
    obtain ⟨cf, -, rfl⟩ := List.mem_map.1 hcf
    exact Nat.le_max_right _ _
  obtain ⟨-, -, hwriting, hobsolete, -⟩ := @readLogs_frame _ _ _ disk db reuseLogs full
  rw [DBImpl.recoverLogs] at hrecover
  generalize db.readLogs disk reuseLogs full = read at hrecover hall hcfs hwriting hobsolete
  have hnone : read.writing = none := hwriting.trans hc.writing
  have hempty : read.obsolete = [] := hobsolete.trans hc.obsolete
  split at hrecover
  · obtain ⟨cf, hfind, heq⟩ := Option.map_eq_some_iff.1 hrecover
    obtain ⟨hcf, -⟩ := find?_some hfind
    cases heq
    refine ⟨hnum.congr rfl fun l hl _ => ⟨l, List.mem_append_left _ hl, rfl⟩,
      fun c hc' _ => ⟨?_, by simp⟩, fun _ e he => ?_, ?_, fun w hw => ?_⟩
    · rcases mem_set hc' with rfl | ⟨hc', -⟩
      · exact hcfs cf hcf
      · exact hcfs c hc'
    · refine hall e ?_
      have hsettled : settled appended read.writing = appended := by
        rw [hnone]
        rfl
      exact hsettled ▸ he
    · show ∀ k ∈ read.obsolete, _
      rw [hempty]
      exact List.forall_mem_nil _
    · cases hnone.symm.trans hw
  · rename_i hsome
    obtain ⟨rfl, rfl⟩ := Prod.mk.inj (Option.some.inj hrecover)
    refine ⟨hnum, fun c hc' _ => ⟨hcfs c hc', fun hlog => absurd (Option.isNone_iff_eq_none.2 hlog) hsome⟩,
      fun _ e he => ?_, ?_, fun w hw => ?_⟩
    · rw [hnone] at he
      exact hall e he
    · rw [hempty]
      exact List.forall_mem_nil _
    · cases hnone.symm.trans hw

omit [LinearOrder K] in
theorem counting_openDB {names : List String}
    {createMissing saveManifest : Bool} (h : disk.openDB names createMissing saveManifest = some db) :
    Counting appended disk db := by
  rw [Disk.openDB] at h
  split at h
  swap
  · cases h
  cases h
  refine ⟨fun cf hcf hzero => ⟨Nat.zero_le _, fun _ => ?_⟩, fun hopen => absurd rfl hopen, by simp,
    by simp⟩
  obtain ⟨p, hp, rfl⟩ := List.mem_map.1 hcf
  have hzero' : p.1 = 0 := hzero
  show _ ≤ (disk.manifests p.1).lastSequence
  rw [hzero']

omit [LinearOrder K] in
/-- A step that changes one family, whose versions see the same numbers. -/
theorem Counting.set (h : Counting appended disk db) {cf cf' : ColumnFamily K V} (hcf : cf ∈ db.cfs)
    (hcfs : db'.cfs = (db.set cf.id cf').cfs) (hid : cf'.id = cf.id)
    (hseen : cf'.versions.lastSequence = cf.versions.lastSequence)
    (hnumber : cf.versions.logNumber ≤ cf'.versions.logNumber) (hopen : db.log ≠ none)
    (hopen' : db'.log ≠ none) (hlast : db'.lastSequence = db.lastSequence)
    (hwriting : db'.writing = db.writing) (hobsolete : db'.obsolete = db.obsolete) :
    Counting appended disk' db' := by
  refine h.frame (fun c hc hzero => ?_) (iff_of_false hopen' hopen) hlast
    (fun hnone => absurd hnone hopen) (by rw [hwriting]) (fun k hk => hobsolete ▸ hk)
    fun w hw => h.sequence w (hwriting ▸ hw)
  rcases mem_set (hcfs ▸ hc) with rfl | ⟨hc, -⟩
  · exact ⟨cf, hcf, hid.symm.trans hzero, hseen, hnumber⟩
  · exact ⟨c, hc, hzero, rfl, le_rfl⟩

theorem counting_editManifest (hn : Named appended disk db) (hnum : Numbered appended disk)
    (he : Editing appended disk db n (f :: ids)) (h : Counting appended disk db)
    (hedit : db.editManifest disk f = some (db', disk')) :
    Numbered appended disk' ∧ Counting appended disk' db' := by
  obtain ⟨cf, hfind, heq⟩ := Option.map_eq_some_iff.1 hedit
  obtain ⟨hcf, rfl⟩ := find?_some hfind
  have hopen : db.log ≠ none := fun hnone => absurd (he.logging.log.symm.trans hnone) (nomatch ·)
  have hunedited := he.unedited cf hcf List.mem_cons_self
  have hstarted : db.startMemTable cf =
      { cf with mem := some (cf.mem.getD []), memLogNumber := cf.start n } :=
    startMemTable_eq he.logging.log
  simp only [hstarted] at heq
  split at heq
  · cases heq
    refine ⟨hnum.setManifest fun hzero => ⟨?_, fun e he' hlt => ?_⟩, h.set hcf rfl rfl rfl
      hunedited.log_le hopen hopen rfl rfl rfl⟩
    · rw [← hzero, hn.logNumber cf hcf (he.live cf hcf)]
      exact hunedited.log_le
    · have hall := h.settled hopen
      rw [he.writing] at hall
      exact (hall e he').mono (h.default cf hcf hzero).1
  · cases heq
    exact ⟨hnum, h.set hcf rfl rfl rfl le_rfl hopen hopen rfl rfl rfl⟩

/-! ## Running -/

/-- The manifest of the default family starts after batches that are done. -/
theorem counting_compactMemTable (hn : Named appended disk db) (hnum : Numbered appended disk)
    {acknowledged : List (Nat × Batch K V)} (hr : Running appended acknowledged disk db n)
    (h : Counting appended disk db) (hcompact : db.compactMemTable disk f = some (db', disk')) :
    Numbered appended disk' ∧ Counting appended disk' db' := by
  obtain ⟨cf, imm, _, hfind, -, rfl, rfl, rfl⟩ := compactMemTable_some hcompact
  obtain ⟨hcf, rfl, hlive⟩ := live?_some hfind
  have hopen : db.log ≠ none := fun hnone => absurd (hr.logging.log.symm.trans hnone) (nomatch ·)
  obtain ⟨-, -, hlog_le, hmem_le⟩ := hr.sound cf hcf hlive
  refine ⟨hnum.setManifest fun hzero => ⟨?_, fun e he hlt => ?_⟩, h.set hcf rfl rfl rfl
    hlog_le hopen hopen rfl rfl rfl⟩
  · rw [← hzero, hn.logNumber cf hcf hlive]
    exact hlog_le
  · have hlt' : e.1 < n := lt_of_lt_of_le hlt hmem_le
    exact (h.settled hopen e (hr.mem_settled he hlt')).mono (h.default cf hcf hzero).1

theorem counting_addRecord (hn : Named appended disk db) (hnum : Numbered appended disk)
    {acknowledged : List (Nat × Batch K V)} (hr : Running appended acknowledged disk db n)
    (h : Counting appended disk db) {w : Writing K V} (hw : db.writing = some w)
    (hlogged : w.logged = false) :
    Numbered (appended ++ [(db.logfileNumber, w.batch)]) (disk.addRecord db.log w.batch) ∧
      Counting (appended ++ [(db.logfileNumber, w.batch)]) (disk.addRecord db.log w.batch)
        { db with writing := some { w with logged := true } } := by
  obtain ⟨dflt, hdflt, hzero, hlive⟩ := hn.default
  have hnumber : db.logfileNumber = n := by
    rw [DBImpl.logfileNumber, hr.logging.log]
    rfl
  have hsettled : settled appended db.writing = appended := by
    rw [settled, hw, Option.any_some, hlogged]
    rfl
  refine ⟨⟨fun e he hlt => ?_, fun e he hle => ?_⟩,
    h.congr rfl rfl rfl rfl ?_ (fun _ hk => hk) fun w' hw' => ?_⟩
  · rcases List.mem_append.1 he with he | he
    · exact hnum.below e he hlt
    · -- the newest log is none of the old ones
      rw [List.mem_singleton.1 he, hnumber] at hlt
      have hle : (disk.manifests 0).logNumber ≤ n := by
        rw [← hzero, hn.logNumber dflt hdflt hlive]
        have h0 := hr.sound dflt hdflt hlive
        exact h0.log_le.trans h0.mem_le
      exact absurd hlt (Nat.not_lt.2 hle)
  · have hpresent : ∃ l ∈ disk.logs, l.number = e.1 := by
      rcases List.mem_append.1 he with he | he
      · exact hnum.present e he hle
      · rw [List.mem_singleton.1 he, hnumber]
        exact hr.logging.present
    obtain ⟨l, hl, heq⟩ := hpresent
    obtain ⟨l', hl', heq'⟩ := mem_addRecord hl
    exact ⟨l', hl', heq'.trans heq⟩
  · rw [hsettled]
    exact List.dropLast_concat
  · cases hw'
    exact h.sequence w hw

/-- The numbers of the batch are taken. -/
theorem counting_close {acknowledged : List (Nat × Batch K V)}
    (hr : Running appended acknowledged disk db n) (h : Counting appended disk db) {b : Batch K V}
    (hclose : db.close = some (db', b)) : Counting appended disk db' := by
  obtain ⟨w, hw, hinserted, rfl, rfl⟩ := close_some hclose
  have hw' := hr.writes w hw
  have hlogged := hw'.logged hinserted
  have hopen : db.log ≠ none := fun hnone => absurd (hr.logging.log.symm.trans hnone) (nomatch ·)
  refine ⟨fun c hc _ => ?_, fun _ e he => ?_, fun k hk c hc hzero => ?_, nofun⟩
  · obtain ⟨cf, -, rfl⟩ := List.mem_map.1 hc
    exact ⟨le_rfl, fun hnone => absurd hnone hopen⟩
  · obtain ⟨before, happ, -⟩ := hw'.last hlogged
    have hsettled : settled appended db.writing = before := by
      rw [settled, hw, Option.any_some, hlogged, if_pos rfl, happ, List.dropLast_concat]
    rcases List.mem_append.1 (happ ▸ he : e ∈ before ++ [(n, w.batch)]) with he | he
    · exact (h.settled hopen e (hsettled ▸ he)).mono (Nat.le_add_right _ _)
    · rw [List.mem_singleton.1 he]
      intro i hi
      have hsequence := h.sequence w hw
      show w.batch.sequence + i ≤ db.lastSequence + w.batch.records.length
      have hi' : i < w.batch.records.length := hi
      omega
  · obtain ⟨cf, hcf, rfl⟩ := List.mem_map.1 hc
    exact h.obsolete k hk cf hcf hzero

theorem counting_switchMemTable (hn : Named appended disk db) (hs : Stored appended disk)
    (hnum : Numbered appended disk) {acknowledged : List (Nat × Batch K V)}
    (hr : Running appended acknowledged disk db n) (h : Counting appended disk db)
    (hswitch : db.switchMemTable disk f = some (db', disk')) :
    Numbered appended disk' ∧ Counting appended disk' db' := by
  obtain ⟨db1, cf, hlog, hfind, -, rfl⟩ := switchMemTable_some hswitch
  have hopen : db.log ≠ none := fun hnone => absurd (hr.logging.log.symm.trans hnone) (nomatch ·)
  obtain ⟨-, -, number, m, hl1, -, hdb1⟩ := hr.logging.switchLog hn hs hlog
  have hopen1 : db1.log ≠ none := fun hnone => absurd (hl1.log.symm.trans hnone) (nomatch ·)
  have hnum1 : Numbered appended disk' := by
    obtain ⟨_, -, -, rfl, -⟩ := switchLog_some hlog
    exact hnum.congr rfl fun l hl _ => ⟨l, List.mem_append_left _ hl, rfl⟩
  have h1 : Counting appended disk' db1 := by
    refine h.frame (fun c hc hzero => ?_) (iff_of_false hopen1 hopen) (by rw [hdb1])
      (fun hnone => absurd hnone hopen) (by rw [hdb1]) (fun k hk => ?_) fun w hw => ?_
    · rw [hdb1] at hc
      obtain ⟨c, hc0, rfl⟩ := List.mem_map.1 hc
      exact ⟨c, hc0, hzero, rfl, le_rfl⟩
    · rw [hdb1] at hk
      exact hk
    · rw [hdb1] at hw
      exact h.sequence w hw
  obtain ⟨hcf, rfl, -⟩ := live?_some hfind
  exact ⟨hnum1, h1.set hcf rfl rfl rfl le_rfl hopen1 hopen1 rfl rfl rfl⟩

/-! ## Every step -/

theorem sequenced_stepped (hinv : Inv s) (h : Sequenced s) (hdb : s.db = some db) {a : Action K V}
    (hstep : Stepped s db a s') : Sequenced s' := by
  have hn := hinv.named db hdb
  have hnum := h.numbered
  have hcount := h.counting db hdb
  obtain ⟨dflt, hdflt, hzero, hlive⟩ := hn.default
  have of_some : ∀ {db' : DBImpl K V}, s'.db = some db' →
      Numbered s'.appended s'.disk ∧ Counting s'.appended s'.disk db' → Sequenced s' :=
    fun hdb' h => ⟨h.1, fun db'' hdb'' => by
      rw [hdb'] at hdb''
      cases hdb''
      exact h.2⟩
  cases hstep with
  | crash => exact ⟨hnum, nofun⟩
  | createColumnFamily _ hcreate =>
    obtain ⟨-, -, hlogs, hmanifest, new, -, rfl⟩ := named_createColumnFamily hn hinv.stored hcreate
    have hsame := hmanifest dflt (List.mem_append_left _ hdflt)
    rw [hzero] at hsame
    exact of_some rfl ⟨hnum.congr hsame fun l hl _ => ⟨l, hlogs ▸ hl, rfl⟩,
      hcount.congr rfl rfl rfl hsame rfl (fun _ hk => hk) hcount.sequence⟩
  | @commitColumnFamily i phase db' disk' hphase hcommit =>
    have hn0 : Named s.appended s.disk { db with phase := phase } := hn.congr rfl rfl rfl
    have hreached : ∀ cf ∈ db.creating, cf.versions.logNumber = 0 ∨
        ∃ l ∈ s.disk.logs, cf.versions.logNumber ≤ l.number := by
      rcases hphase with ⟨hphase, -⟩ | ⟨name, names, hphase, -⟩
      · obtain ⟨n, hr⟩ := hinv.running hdb hphase
        exact hr.logging.reached
      · exact fun cf hcf => .inl ((hinv.creating hdb hphase).creating cf hcf)
    obtain ⟨-, -, hlogs, hmanifests, new, cfs, hnew, hmem, rfl⟩ :=
      named_commitColumnFamily hn0 hinv.stored hreached hcommit
    refine of_some rfl ⟨hnum.congr (congrFun hmanifests 0) fun l hl _ => ⟨l, hlogs ▸ hl, rfl⟩,
      hcount.frame (fun c hc h0 => ?_) Iff.rfl rfl
        (fun _ => congrArg (fun m => (m 0).lastSequence) hmanifests) rfl (fun _ hk => hk)
        hcount.sequence⟩
    rcases (hmem c).1 hc with rfl | hc
    · exact absurd (hzero.trans h0.symm) (hn.ne_creating hdflt hnew)
    · exact ⟨c, hc, h0, rfl, le_rfl⟩
  | recoverLogs hphase hrecover =>
    exact of_some rfl (counting_recoverLogs hn hinv.stored hnum (hinv.creating hdb hphase) hcount
      hrecover)
  | @editManifest id ids db' disk' hphase hedit =>
    obtain ⟨n, he⟩ := hinv.editing hdb hphase
    have hn0 : Named s.appended s.disk { db with phase := .editing ids } := hn.congr rfl rfl rfl
    have he0 : Editing s.appended s.disk { db with phase := .editing ids } n (id :: ids) :=
      ⟨he.logging.setPhase _, he.writing, he.live, he.nodup, he.unedited, he.sound⟩
    exact of_some rfl (counting_editManifest hn0 hnum he0
      (hcount.congr rfl rfl rfl rfl rfl (fun _ hk => hk) hcount.sequence) hedit)
  | finishOpen hphase =>
    exact of_some rfl ⟨hnum, hcount.congr rfl rfl rfl rfl rfl (fun _ hk => hk) hcount.sequence⟩
  | capture hphase hcapture =>
    obtain ⟨hnone, -, rfl⟩ := capture_some hcapture
    refine of_some rfl ⟨hnum, hcount.congr rfl rfl rfl rfl ?_ (fun _ hk => hk) fun w hw => ?_⟩
    · rw [hnone]
      rfl
    · cases hw
      rfl
  | addRecord hw hlogged =>
    obtain ⟨n, hr⟩ := hinv.running hdb (hinv.running_of_writing hdb hw)
    exact of_some rfl (counting_addRecord hn hnum hr hcount hw hlogged)
  | insert hinsert =>
    obtain ⟨w, hw, -, -, rfl⟩ := insert_some hinsert
    refine of_some rfl ⟨hnum, hcount.frame (fun c hc h0 => ?_) Iff.rfl rfl (fun _ => rfl) ?_
      (fun _ hk => hk) fun w' hw' => ?_⟩
    · obtain ⟨cf, hcf, rfl⟩ := List.mem_map.1 hc
      obtain ⟨mem, heq⟩ := insertInto_eq w cf
      rw [heq] at h0 ⊢
      exact ⟨cf, hcf, h0, rfl, le_rfl⟩
    · rw [hw]
      rfl
    · cases hw'
      exact hcount.sequence w hw
  | close hclose =>
    obtain ⟨w, hw, -⟩ := close_some hclose
    obtain ⟨n, hr⟩ := hinv.running hdb (hinv.running_of_writing hdb hw)
    exact of_some rfl ⟨hnum, counting_close hr hcount hclose⟩
  | switchMemTable hphase hw hswitch =>
    obtain ⟨n, hr⟩ := hinv.running hdb hphase
    exact of_some rfl (counting_switchMemTable hn hinv.stored hnum hr hcount hswitch)
  | compactMemTable hphase hcompact =>
    obtain ⟨n, hr⟩ := hinv.running hdb hphase
    exact of_some rfl (counting_compactMemTable hn hnum hr hcount hcompact)
  | removeObsoleteFiles hphase =>
    refine of_some rfl ⟨hnum, hcount.default, hcount.settled, fun k hk c hc h0 => ?_, hcount.sequence⟩
    rcases List.mem_append.1 hk with hk | hk
    · exact hcount.obsolete k hk c hc h0
    · have hlt : k < db.oldestLiveLog := of_decide_eq_true (List.mem_filter.1 hk).2
      rw [hn.eq_of_id hc hdflt (h0.trans hzero.symm)]
      exact hlt.trans_le (oldestLiveLog_le.2 dflt hdflt hlive)
  | removeFile hremove =>
    obtain ⟨k, hk, rfl, rfl⟩ := removeFile_some hremove
    have hlt := hcount.obsolete k hk dflt hdflt hzero
    have hlog := hn.logNumber dflt hdflt hlive
    rw [hzero] at hlog
    refine of_some rfl ⟨hnum.congr rfl fun l hl hle => ⟨l, List.mem_filter.2 ⟨hl, decide_eq_true ?_⟩,
      rfl⟩, hcount.congr rfl rfl rfl rfl rfl (fun _ hk' => List.mem_of_mem_eraseIdx hk')
      hcount.sequence⟩
    omega
  | dropColumnFamily hphase hdrop =>
    obtain ⟨n, hr⟩ := hinv.running hdb hphase
    have hopen : db.log ≠ none := fun hnone =>
      absurd (hr.logging.log.symm.trans hnone) (nomatch ·)
    obtain ⟨-, -, hlogs, hmanifests, cf, cf', hcf, -, heq, rfl⟩ :=
      named_dropColumnFamily hn hinv.stored hdrop
    refine of_some rfl ⟨hnum.congr (congrFun hmanifests 0) fun l hl _ => ⟨l, hlogs ▸ hl, rfl⟩,
      hcount.set hcf rfl ?_ ?_ ?_ hopen hopen rfl rfl rfl⟩
    · rw [heq]
    · rw [heq]
    · rw [heq]

theorem sequenced_reachable (h : (system K V).Reachable s) : Sequenced s := by
  refine System.ReachableBy.invariant_of (fun _ => inv_reachable) h (fun s hs => ?_)
    fun s a s' hinv hseq _ hstep => ?_
  · rw [show s = State.empty from hs]
    exact ⟨⟨nofun, nofun⟩, nofun⟩
  · rcases step_cases hstep with ⟨db, hdb, hstepped⟩ | ⟨-, names, createMissing, saveManifest, db, hopen, rfl⟩
    · exact sequenced_stepped hinv hseq hdb hstepped
    · refine ⟨hseq.numbered, fun db' hdb' => ?_⟩
      cases hdb'
      exact counting_openDB hopen

/-- Acknowledged batches are done. -/
theorem Running.acknowledged_settled {acknowledged : List (Nat × Batch K V)}
    (hr : Running appended acknowledged disk db n) (hack : acknowledged.Sublist appended) :
    acknowledged.Sublist (settled appended db.writing) := by
  rw [settled]
  split
  · rename_i hany
    obtain ⟨w, hw, hlogged⟩ := (Option.any_eq_true _ _).1 hany
    obtain ⟨before, rfl, hsub⟩ := (hr.writes w hw).last hlogged
    rw [List.dropLast_concat]
    exact hsub
  · exact hack

/-- An entry is of a batch that is done, or of the one that was just inserted. -/
theorem mem_contents (hinv : Inv s) (hdb : s.db = some db) (hphase : db.phase = .running)
    {cf : ColumnFamily K V} (hcf : cf ∈ db.cfs) (hlive : cf.dropped = false)
    {r : Nat × Record K V} (hr : r ∈ cf.contents) :
    r ∈ recordsIn cf.id ((settled s.appended db.writing).map (·.2)) ∨
      ∃ w, db.writing = some w ∧ w.inserted = true ∧ r ∈ w.batch.recordsOf cf.id := by
  have hall := hinv.contents hdb hphase hcf hlive
  obtain ⟨n, hrun⟩ := hinv.running hdb hphase
  have hin : r ∈ recordsIn cf.id (s.appended.map (·.2)) := hall ▸ List.mem_append_left _ hr
  rw [settled]
  split
  · rename_i hany
    obtain ⟨w, hw, hlogged⟩ := (Option.any_eq_true _ _).1 hany
    obtain ⟨before, happ, -⟩ := (hrun.writes w hw).last hlogged
    rw [happ, List.map_append, recordsIn_append, List.map_singleton, recordsIn_singleton] at hin hall
    rw [happ, List.dropLast_concat]
    cases hinserted : w.inserted with
    | true =>
      rcases List.mem_append.1 hin with hin | hin
      · exact .inl hin
      · exact .inr ⟨w, hw, hinserted, hin⟩
    | false =>
      have hpending : pendingOf db.writing cf.id = w.batch.recordsOf cf.id := by
        rw [hw]
        simp [pendingOf, hlogged, hinserted]
      rw [hpending] at hall
      exact .inl (List.append_cancel_right hall ▸ hr)
  · exact .inl hin

/-- **Sequence numbers never go back.** Whatever was flushed, removed, dropped, and lost in crashes:
the last sequence number is at least that of every record of an acknowledged batch; the next write's
number is above it, and no entry of a table or memtable has a number above it but those of the batch
under way. -/
theorem lastSequence_ge (h : (system K V).Reachable s) (hdb : s.db = some db)
    (hphase : db.phase = .running) :
    (∀ e ∈ s.acknowledged, ∀ i < e.2.records.length, e.2.sequence + i ≤ db.lastSequence) ∧
      (∀ w, db.writing = some w → w.batch.sequence = db.lastSequence + 1) ∧
      ∀ cf ∈ db.cfs, cf.dropped = false → ∀ r ∈ cf.contents, r.1 ≤ db.lastSequence ∨
        ∃ w, db.writing = some w ∧ w.inserted = true ∧ r ∈ w.batch.recordsOf cf.id := by
  have hinv := inv_reachable h
  obtain ⟨n, hr⟩ := hinv.running hdb hphase
  have hcount := (sequenced_reachable h).counting db hdb
  have hsettled := hcount.settled fun hnone =>
    absurd (hr.logging.log.symm.trans hnone) (nomatch ·)
  refine ⟨fun e he => ?_, hcount.sequence, fun cf hcf hlive r hin => ?_⟩
  · exact hsettled e ((hr.acknowledged_settled hinv.acknowledged).subset he)
  · refine (mem_contents hinv hdb hphase hcf hlive hin).imp_left fun hold => ?_
    refine le_of_mem_recordsIn (fun b hb => ?_) hold
    obtain ⟨e, he, rfl⟩ := List.mem_map.1 hb
    exact hsettled e he

end

theorem lastSequence_ge_crashRun : ∃ s db, (system (Fin 3) Nat).run State.empty crashRun = some s ∧
    s.db = some db ∧ s.acknowledged.length = 3 ∧
    (∀ e ∈ s.acknowledged, ∀ i < e.2.records.length, e.2.sequence + i ≤ db.lastSequence) ∧
      (∀ w, db.writing = some w → w.batch.sequence = db.lastSequence + 1) ∧
      ∀ cf ∈ db.cfs, cf.dropped = false → ∀ r ∈ cf.contents, r.1 ≤ db.lastSequence ∨
        ∃ w, db.writing = some w ∧ w.inserted = true ∧ r ∈ w.batch.recordsOf cf.id := by
  have hrun : ((system (Fin 3) Nat).run State.empty crashRun).any (fun s => s.db.any fun db =>
      s.acknowledged.length = 3 && db.phase = .running) = true := by decide +kernel
  obtain ⟨s, hs, hany⟩ := (Option.any_eq_true _ _).1 hrun
  obtain ⟨db, hdb, hall⟩ := (Option.any_eq_true _ _).1 hany
  simp only [Bool.and_eq_true, decide_eq_true_eq] at hall
  have hinit : (system (Fin 3) Nat).Reachable State.empty := .init rfl
  exact ⟨s, db, hs, hdb, hall.1, lastSequence_ge (hinit.run hs) hdb hall.2⟩

end LevelDb.Database
