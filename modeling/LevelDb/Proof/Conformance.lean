import LevelDb.Proof.Checks
import LevelDb.Proof.Operations

/-!
# No conformance test fails

`never_fails`: whatever the seed and the length, every comparison of the runner with the database goes
well, with background work between the calls that stays out of the gaps between the inputs of a running
compaction, and as long as there are sequence numbers. The oracle's maps describe the histories of the
families (`Agrees`): those of now at the last number, and those of a snapshot at its number for as long
as it is held. What an operation has yet to do fits the families and the snapshots there will be when
its turn comes (`Due`).
-/

namespace LevelDb.Conf

open Mvcc Numerals

/-- The operator of the tests, which is part of the extensions. -/
def testOperator (ext : Bool) : Option (MergeOperator Text Text) :=
  if ext then some affineOperator else none

theorem testOperator_affine (ext : Bool) : AffineOnly (testOperator ext) := by
  intro op hop
  cases ext with
  | false => cases hop
  | true => exact (Option.some.inj hop).symm

theorem ConfWrite.Fits.writable {ext : Bool} {w : ConfWrite} (h : w.Fits ext) :
    w.Writable (testOperator ext) where
  id_lt := h.id_lt
  stop_lt := h.stop_lt
  operand hkind := by
    obtain ⟨rfl, hoperand⟩ := h.operand hkind
    exact ⟨rfl, hoperand⟩

/-! ## The oracle and the histories -/

abbrev Histories := List (Nat × List (Nat × Record Text Text))

/-- The maps describe the histories of the families up to a sequence number. -/
def Agrees (ext : Bool) (histories : Histories) (r : Nat) (models : ConfMaps) : Prop :=
  ∀ p ∈ histories, models.live p.1 = true → Describes (testOperator ext) p.2 r (models.m p.1)

variable {ext : Bool} {opts : Nat → Options Text Text}

/-- What a record of the batch is to the histories. -/
theorem Agrees.writeRecord {db db' : Stores Text Text} {models : ConfMaps} {w : FamilyWrite}
    (hsound : db.Sound opts) (h : Agrees ext db.histories db.lastSequence models)
    (hw : w.toConfWrite.Fits ext)
    (hstep : db.writeRecord opts (w.family, w.toConfWrite.record) = some db') :
    Agrees ext db'.histories db'.lastSequence
      { models with
        m := Function.update models.m w.family ((models.m w.family).apply w.toConfWrite) } := by
  obtain ⟨before, history, after, hold, hnew⟩ := Stores.histories_writeRecord hstep
  obtain ⟨-, -, -, -, -, -, -, -, -, -, -, hlast, -⟩ := Stores.writeRecord_some hstep
  have hseqs : ∀ p ∈ db.histories, ∀ r ∈ p.2, r.1 ≤ db.lastSequence := by
    intro p hp
    obtain ⟨c, hc, rfl⟩ := Stores.mem_histories.1 hp
    exact hsound.seqs c hc
  have hids : (db.histories.map (·.1)).Nodup := by
    have hids := hsound.ids
    simpa [Stores.histories, Function.comp_def] using hids
  intro p hp hlive
  rw [hlast]
  rw [hnew] at hp
  rw [hold] at h hseqs hids
  simp only [List.map_append, List.map_cons, List.nodup_append, List.nodup_cons, List.mem_map,
    List.mem_cons] at hids
  simp only [List.mem_append, List.mem_cons] at hp
  have hother : p ∈ before ++ (w.family, history) :: after → p.1 ≠ w.family →
      Describes (testOperator ext) p.2 (db.lastSequence + 1)
        (Function.update models.m w.family ((models.m w.family).apply w.toConfWrite) p.1) := by
    intro hp hne
    rw [Function.update_of_ne hne]
    exact (h p hp hlive).mono (hseqs p hp) (Nat.le_succ _)
  obtain hp | rfl | hp := hp
  · refine hother (List.mem_append_left _ hp) fun heq => ?_
    exact hids.2.2 p.1 ⟨p, hp, rfl⟩ w.family (.inl rfl) heq
  · have hmem : (w.family, history) ∈ before ++ (w.family, history) :: after := by simp
    have hthis : models.live w.family = true := hlive
    show Describes _ _ _ (Function.update models.m w.family _ w.family)
    rw [Function.update_self]
    exact (h _ hmem hthis).write (testOperator_affine ext) (hseqs _ hmem) hw.writable
  · refine hother (List.mem_append_right _ (List.mem_cons_of_mem _ hp)) fun heq => ?_
    exact hids.2.1.1 ⟨p, hp, heq⟩

/-- What was seen before is seen after. -/
theorem Agrees.later {db db' : Stores Text Text} {models : ConfMaps} {r : Nat}
    {w : Nat × Record Text Text} (h : Agrees ext db.histories r models) (hr : r ≤ db.lastSequence)
    (hstep : db.writeRecord opts w = some db') : Agrees ext db'.histories r models := by
  obtain ⟨before, history, after, hold, hnew⟩ := Stores.histories_writeRecord hstep
  intro p hp hlive
  rw [hnew] at hp
  rw [hold] at h
  simp only [List.mem_append, List.mem_cons] at hp
  obtain hp | rfl | hp := hp
  · exact h p (by simp [hp]) hlive
  · exact (h (w.1, history) (by simp) hlive).concat (by omega) w.2
  · exact h p (by simp [hp]) hlive

/-- Which families there are shows in the ids. -/
theorem exists_id_iff {cs cs' : List (Column Text Text)} (h : cs'.map (·.id) = cs.map (·.id)) (f : Nat) :
    (∃ c ∈ cs', c.id = f) ↔ ∃ c ∈ cs, c.id = f := by
  have hmem := congrArg (f ∈ ·) h
  simpa only [List.mem_map, eq_iff_iff] using hmem

theorem Conformance.opens_of_lives {db : Stores Text Text} {live : Nat → Bool}
    (h : ∀ f, live f = true ↔ ∃ c ∈ db.columns, c.id = f) : Conformance.opens db live = true := by
  unfold Conformance.opens
  rw [Bool.and_eq_true, List.all_eq_true, List.all_eq_true]
  refine ⟨fun c hc => (h c.id).2 ⟨c, hc, rfl⟩, fun f _ => ?_⟩
  cases hlive : live f with
  | false => rfl
  | true =>
    obtain ⟨c, hc, rfl⟩ := (h f).1 hlive
    simpa [Stores.column?, List.find?_isSome] using ⟨c, hc, rfl⟩

/-- What a batch leaves as it was. -/
structure Kept (ext : Bool) (db db' : Stores Text Text) : Prop where
  ids : db'.columns.map (·.id) = db.columns.map (·.id)
  snapshots : db'.snapshots = db.snapshots
  last_le : db.lastSequence ≤ db'.lastSequence
  /-- What was seen before is seen after. -/
  later : ∀ r ≤ db.lastSequence, ∀ models, Agrees ext db.histories r models →
    Agrees ext db'.histories r models

section
variable (hopts : ∀ id, (opts id).mergeOp = testOperator ext)
include hopts

theorem laws_of_tested : ∀ id op, (opts id).mergeOp = some op →
    ∀ k, Laws (op.fullMerge k) (op.partialMerge k) := by
  intro id op hop
  exact (testOperator_affine ext).laws op (hopts id ▸ hop)

/-- **A batch goes well**, and the oracle that takes it too describes what is there then. -/
theorem exists_write {db : Stores Text Text} (hsound : db.Sound opts) {models : ConfMaps}
    (hagrees : Agrees ext db.histories db.lastSequence models) {ws : List FamilyWrite}
    (hws : ∀ w ∈ ws, (∃ c ∈ db.columns, c.id = w.family) ∧ w.toConfWrite.Fits ext)
    (hroom : db.lastSequence + ws.length < kMaxSequenceNumber) :
    ∃ db', db.step opts (.write (ws.map fun w => (w.family, w.toConfWrite.record))) = some db' ∧
      db'.Sound opts ∧ Kept ext db db' ∧
      Agrees ext db'.histories db'.lastSequence { models with
        m := ws.foldl (fun m w => Function.update m w.family ((m w.family).apply w.toConfWrite))
          models.m } := by
  induction ws generalizing db models with
  | nil => exact ⟨db, rfl, hsound, ⟨rfl, rfl, le_rfl, fun _ _ _ h => h⟩, hagrees⟩
  | cons w ws ih =>
    obtain ⟨⟨hcolumn, hfits⟩, hrest⟩ := List.forall_mem_cons.1 hws
    rw [List.length_cons] at hroom
    obtain ⟨next, hnext⟩ := hsound.exists_writeRecord (laws_of_tested hopts)
      (w := (w.family, w.toConfWrite.record)) hcolumn (by omega)
    obtain ⟨before, c, after, c', hcs, hcs', -, hid, -, -, -, hlast, hsnapshots⟩ :=
      Stores.writeRecord_some hnext
    have hids : next.columns.map (·.id) = db.columns.map (·.id) := by simp [hcs, hcs', hid]
    obtain ⟨db', hstep, hsound', hkept, hagrees'⟩ := ih (hsound.writeRecord hnext)
      (hagrees.writeRecord hsound hfits hnext)
      (fun v hv => ⟨(exists_id_iff hids _).2 (hrest v hv).1, (hrest v hv).2⟩) (by omega)
    refine ⟨db', ?_, hsound', ⟨hkept.ids.trans hids, hkept.snapshots.trans hsnapshots,
      by have := hkept.last_le; omega, fun r hr m hm => ?_⟩, hagrees'⟩
    · simp only [Stores.step, List.map_cons, List.foldlM_cons, hnext] at hstep ⊢
      exact hstep
    · exact hkept.later r (by omega) m (hm.later hr hnext)

end

/-! ## Reads -/

section
variable {db : Stores Text Text} {models : ConfMaps} {c : Column Text Text} {r : Nat}
variable (hopts : ∀ id, (opts id).mergeOp = testOperator ext) (hsound : db.Sound opts)
  (hc : c ∈ db.columns) (hfew : Stores.Few c) (hr : db.Readable r)
include hopts hsound hc hfew hr

/-- The family serves its history at a sequence number there is a reader at. -/
theorem serves : (c.family.columnFamily (opts c.id)).Serves c.history r :=
  hsound.serves (laws_of_tested hopts) hc hfew hr

variable {model : ConfMap} (hmodel : Describes (testOperator ext) c.history r model)
include hmodel

theorem checkGet_ok {id : Nat} (hid : id < 10 ^ 8) :
    checkGet (c.family.columnFamily (opts c.id)) r model id = true := by
  have hget := (serves hopts hsound hc hfew hr).get_eq (confKey id)
  have hmerge : (c.family.columnFamily (opts c.id)).mergeOp = testOperator ext := hopts c.id
  rw [hmerge, hmodel.answerAt_eq hid] at hget
  unfold checkGet
  rw [hget]
  cases model[id]? with
  | none => rfl
  | some v => simp [reply]

/-- What an iterator goes through is the map. -/
theorem iterator_merges : ∃ ts,
    DBIter.Merges ((c.family.columnFamily (opts c.id)).newIterator r) ts ∧
      ((c.family.columnFamily (opts c.id)).newIterator r).contents ts = model.toList.map keyed := by
  have hserves := serves hopts hsound hc hfew hr
  have hmerge : (c.family.columnFamily (opts c.id)).mergeOp = testOperator ext := hopts c.id
  have hmerges : ∀ k, (Mvcc.read (foldOf (c.family.columnFamily (opts c.id)).mergeOp k)
      (opsAt c.history k r)).isSome = true := fun k => hmerge ▸ hmodel.merges k
  refine ⟨_, hserves.iterator_merges hmerges, ?_⟩
  rw [hserves.contents_eq_newest hmerges, hmerge, hmodel.mapAt_eq]

theorem checkScan_ok :
    checkScan ((c.family.columnFamily (opts c.id)).newIterator r) model = true := by
  obtain ⟨ts, hmerges, hcontents⟩ := iterator_merges hopts hsound hc hfew hr hmodel
  exact (checkScan_iff hmerges).2 hcontents

theorem checkWalk_ok' {start : Nat} (hstart : start < 10 ^ 8) (steps : Nat) (rng : ConfRng) :
    (checkWalk ((c.family.columnFamily (opts c.id)).newIterator r) model start steps rng).1 =
      true := by
  obtain ⟨ts, hmerges, hcontents⟩ := iterator_merges hopts hsound hc hfew hr hmodel
  refine checkWalk_ok hmerges hcontents (fun e he => ?_) hstart steps rng
  exact hmodel.lt e.1 e.2 (Std.TreeMap.mem_toList_iff_getElem?_eq_some.1 he)

end

/-! ## What an operation has yet to do -/

/-- The read is of a family there is, and compares with the map of its time. -/
def Due.Read (live : Nat → Bool) (models : ConfMaps) (snaps : List HeldSnap) (model : ConfMap)
    (family : Nat) (snapshot : Option Nat) : Prop :=
  live family = true ∧
    match snapshot with
    | none => model = models.m family
    | some seq => ∃ sn ∈ snaps, sn.seq = seq ∧ sn.models.live family = true ∧ model = sn.models.m family

/-- The tasks can be done in turn, with the maps and the snapshots there are when it comes to them, and
leave the families the generator is ahead with. What changes the families is the only task of its
operation. -/
def Due (ext : Bool) (ahead live : Nat → Bool) : ConfMaps → List HeldSnap → List Task → Prop
  | _, _, [] => ahead = live
  | models, snaps, .write op :: tasks =>
    op.kind = .write ∧ op.Fits ext live ∧ Due ext ahead live (models.apply op) snaps tasks
  | _, _, .create op :: tasks =>
    tasks = [] ∧ ahead = op.liveAfter live ∧ op.kind = .create ∧ op.Fits ext live
  | _, snaps, .drop op :: tasks =>
    tasks = [] ∧ ahead = op.liveAfter live ∧ op.kind = .drop ∧ op.Fits ext live ∧
      ∀ sn ∈ snaps, sn.models.live op.family = false
  | _, _, .getSnapshot :: tasks => tasks = [] ∧ ahead = live
  | models, snaps, .releaseSnapshot i :: tasks =>
    i < snaps.length ∧ Due ext ahead live models (snaps.eraseIdx i) tasks
  | models, _, .reopen :: tasks => Due ext ahead live models [] tasks
  | models, snaps, .gets model family snapshot _ :: tasks =>
    Due.Read live models snaps model family snapshot ∧ Due ext ahead live models snaps tasks
  | models, snaps, .scan model family snapshot :: tasks =>
    Due.Read live models snaps model family snapshot ∧ Due ext ahead live models snaps tasks
  | models, snaps, .walk model family start _ :: tasks =>
    Due.Read live models snaps model family none ∧ start < 10 ^ 8 ∧
      Due ext ahead live models snaps tasks

/-- What every reachable test keeps. -/
structure Inv (opts : Nat → Options Text Text) (ext : Bool) (s : Conformance) : Prop where
  sound : s.db.Sound opts
  ready : s.runner.gen.Ready
  extended : s.runner.gen.ext = ext
  lives : ∀ f, s.runner.live f = true ↔ ∃ c ∈ s.db.columns, c.id = f
  live : s.runner.models.live = s.runner.live
  agrees : Agrees ext s.db.histories s.db.lastSequence s.runner.models
  held : (s.runner.snaps.map (·.seq)).Perm s.db.snapshots
  snaps : ∀ sn ∈ s.runner.snaps, sn.seq ≤ s.db.lastSequence ∧
    Agrees ext s.db.histories sn.seq sn.models ∧
    ∀ f, sn.models.live f = true → s.runner.live f = true
  due : Due ext s.runner.gen.live s.runner.live s.runner.models s.runner.snaps s.runner.tasks
  ok : s.runner.ok = true

namespace Runner

variable {r : Runner} {ahead : Nat → Bool}

/-- A read of the runner's that can be made. -/
def IsRead (r : Runner) (snaps : List HeldSnap) (t : Task) : Prop :=
  ∃ model family snapshot, Due.Read r.live r.models snaps model family snapshot ∧
    ((∃ n, t = .gets model family snapshot n) ∨ t = .scan model family snapshot)

theorem due_of_reads {snaps : List HeldSnap} {tasks tasks' : List Task}
    (h : ∀ t ∈ tasks, r.IsRead snaps t) (h' : Due ext ahead r.live r.models snaps tasks') :
    Due ext ahead r.live r.models snaps (tasks ++ tasks') := by
  induction tasks with
  | nil => exact h'
  | cons t tasks ih =>
    obtain ⟨⟨model, family, snapshot, hread, ht⟩, hrest⟩ := List.forall_mem_cons.1 h
    obtain ⟨n, rfl⟩ | rfl := ht
    · exact ⟨hread, ih hrest⟩
    · exact ⟨hread, ih hrest⟩

theorem isRead_checkSnapshot {sn : HeldSnap} (hsn : sn ∈ r.snaps) :
    ∀ t ∈ r.checkSnapshot sn, r.IsRead r.snaps t := by
  intro t ht
  obtain ⟨f, hf, ht⟩ := List.mem_flatMap.1 ht
  obtain ⟨-, hlive⟩ := List.mem_filter.1 hf
  rw [Bool.and_eq_true] at hlive
  refine ⟨sn.models.m f, f, some sn.seq, ⟨hlive.2, sn, hsn, rfl, hlive.1, rfl⟩, ?_⟩
  simp only [List.mem_cons, List.not_mem_nil, or_false] at ht
  obtain rfl | rfl := ht
  · exact .inl ⟨16, rfl⟩
  · exact .inr rfl

theorem isRead_checkAll (snaps : List HeldSnap) (gets : Nat) :
    ∀ t ∈ r.checkAll gets, r.IsRead snaps t := by
  intro t ht
  obtain ⟨f, hf, rfl⟩ := List.mem_map.1 ht
  exact ⟨r.models.m f, f, none, ⟨(List.mem_filter.1 hf).2, rfl⟩, .inl ⟨gets, rfl⟩⟩

theorem isRead_scanAll (snaps : List HeldSnap) : ∀ t ∈ r.scanAll, r.IsRead snaps t := by
  intro t ht
  obtain ⟨f, hf, rfl⟩ := List.mem_map.1 ht
  exact ⟨r.models.m f, f, none, ⟨(List.mem_filter.1 hf).2, rfl⟩, .inr rfl⟩

/-- All snapshots are released, one after the other. -/
theorem due_release {live : Nat → Bool} {models : ConfMaps} (snaps : List HeldSnap)
    {tasks : List Task} (h : Due ext ahead live models [] tasks) :
    Due ext ahead live models snaps
      (List.replicate snaps.length (.releaseSnapshot 0) ++ tasks) := by
  induction snaps with
  | nil => exact h
  | cons sn snaps ih => exact ⟨Nat.succ_pos _, ih⟩

/-- The final checks. -/
theorem due_finish (h : ahead = r.live) : Due ext ahead r.live r.models r.snaps r.finish.tasks := by
  have hlast : Due ext ahead r.live r.models [] (r.scanAll ++ (r.scanAll ++ [])) :=
    due_of_reads (isRead_scanAll []) (due_of_reads (isRead_scanAll []) h)
  rw [List.append_nil] at hlast
  have hopened : Due ext ahead r.live r.models []
      (r.scanAll ++ .reopen :: (r.scanAll ++ r.scanAll)) := due_of_reads (isRead_scanAll []) hlast
  refine due_of_reads (fun t ht => ?_) (due_release r.snaps hopened)
  obtain ⟨sn, hsn, ht⟩ := List.mem_flatMap.1 ht
  exact isRead_checkSnapshot hsn t ht

end Runner

/-- The view of a family goes away. -/
theorem Agrees.forget {histories : Histories} {r : Nat} {models : ConfMaps}
    (h : Agrees ext histories r models) (family : Nat) :
    Agrees ext histories r { models with live := Function.update models.live family false } := by
  intro p hp hlive
  by_cases hfamily : p.1 = family
  · subst hfamily
    simp at hlive
  · exact h p hp (by simpa [hfamily] using hlive)

/-- **An operation is taken up**. -/
theorem Inv.start {s : Conformance} (h : Inv opts ext s) (htasks : s.runner.tasks = []) {op : ConfOp}
    {gen : ScenarioGen} (hnext : s.runner.gen.next s.runner.models.view = some (op, gen)) :
    Inv opts ext ⟨s.db, { s.runner with gen, opno := s.runner.opno + 1 }.start op⟩ := by
  have hdrawn := ScenarioGen.next_drawn h.ready hnext
  have hahead : s.runner.gen.live = s.runner.live := by
    have := h.due
    rw [htasks] at this
    exact this
  have hready := hdrawn.ready h.ready
  have hext : gen.ext = ext := hdrawn.ext.trans h.extended
  have hfits : op.Fits ext s.runner.live := h.extended ▸ hahead ▸ hdrawn.fits
  have hlive : gen.live = op.liveAfter s.runner.live := hahead ▸ hdrawn.live
  have hkeep : ∀ tasks, Due ext gen.live s.runner.live s.runner.models s.runner.snaps tasks →
      Inv opts ext ⟨s.db, { s.runner with gen, opno := s.runner.opno + 1, tasks }⟩ := fun tasks hdue =>
    ⟨h.sound, hready, hext, h.lives, h.live, h.agrees, h.held, h.snaps, hdue, h.ok⟩
  have hsame : op.kind ≠ .create → op.kind ≠ .drop → gen.live = s.runner.live := fun hcreate hdrop =>
    hlive.trans (ConfOp.liveAfter_eq hcreate hdrop _)
  have hread : op.kind ≠ .create →
      Due.Read s.runner.live s.runner.models s.runner.snaps (s.runner.models.m op.family) op.family
        none := fun hcreate => ⟨hfits.family hcreate, rfl⟩
  unfold Runner.start
  cases hkind : op.kind with
  | create => exact hkeep _ ⟨rfl, hlive, hkind, hfits⟩
  | drop =>
    refine ⟨h.sound, hready, hext, h.lives, h.live, h.agrees, ?_, fun sn hsn => ?_,
      ⟨rfl, hlive, hkind, hfits, fun sn hsn => ?_⟩, h.ok⟩
    · have hseqs : ((s.runner.forget op.family).snaps.map (·.seq)) = s.runner.snaps.map (·.seq) := by
        simp [Runner.forget, Function.comp_def]
      exact hseqs ▸ h.held
    · obtain ⟨old, hold, rfl⟩ := List.mem_map.1 hsn
      obtain ⟨hle, hagrees, hsub⟩ := h.snaps old hold
      refine ⟨hle, hagrees.forget op.family, fun f hf => hsub f ?_⟩
      by_cases hfamily : f = op.family
      · subst hfamily
        simp at hf
      · simpa [hfamily] using hf
    · obtain ⟨old, -, rfl⟩ := List.mem_map.1 hsn
      simp
  | write => exact hkeep _ ⟨hkind, hfits, hsame (by simp [hkind]) (by simp [hkind])⟩
  | gets => exact hkeep _ ⟨hread (by simp [hkind]), hsame (by simp [hkind]) (by simp [hkind])⟩
  | walk =>
    exact hkeep _ ⟨hread (by simp [hkind]), hfits.walk hkind,
      hsame (by simp [hkind]) (by simp [hkind])⟩
  | scan => exact hkeep _ ⟨hread (by simp [hkind]), hsame (by simp [hkind]) (by simp [hkind])⟩
  | snapTake => exact hkeep _ ⟨rfl, hsame (by simp [hkind]) (by simp [hkind])⟩
  | snapCheck =>
    have hahead := hsame (by simp [hkind]) (by simp [hkind])
    refine hkeep _ ?_
    cases hsn : s.runner.snaps[op.id]? with
    | none => exact hahead
    | some sn =>
      obtain ⟨hlt, -⟩ := List.getElem?_eq_some_iff.1 hsn
      exact Runner.due_of_reads (r := s.runner)
        (Runner.isRead_checkSnapshot (r := s.runner) (List.mem_of_getElem? hsn)) ⟨hlt, hahead⟩
  | reopen =>
    have hahead := hsame (by simp [hkind]) (by simp [hkind])
    have hdue : Due ext gen.live s.runner.live s.runner.models [] (s.runner.checkAll 24 ++ []) :=
      Runner.due_of_reads (Runner.isRead_checkAll [] 24) hahead
    rw [List.append_nil] at hdue
    exact hkeep _ hdue
  | compact =>
    have hahead := hsame (by simp [hkind]) (by simp [hkind])
    refine hkeep _ (Runner.due_of_reads (Runner.isRead_checkAll (r := s.runner) _ 24) ?_)
    cases hhead : s.runner.snaps.head? with
    | none => exact hahead
    | some sn =>
      have hdue : Due ext gen.live s.runner.live s.runner.models s.runner.snaps
          (s.runner.checkSnapshot sn ++ []) :=
        Runner.due_of_reads (Runner.isRead_checkSnapshot (List.mem_of_mem_head? hhead)) hahead
      rw [List.append_nil] at hdue
      exact hdue

/-! ## Tasks -/

/-- The numbers that the task to come uses up. -/
def Runner.room (r : Runner) : Nat :=
  match r.tasks with
  | .write op :: _ => op.writes.length
  | _ => 0

namespace Conformance

/-- The background work stays out of the gaps of running compactions; when the runner has its turn
there are not too many files on level 0, and numbers enough for what it writes. -/
def Calm (opts : Nat → Options Text Text) (s : Conformance) : Action → Prop
  | .work family a => Stores.OutsideGaps opts s.db (.work family a)
  | .turn _ => (∀ c ∈ s.db.columns, Stores.Few c) ∧
      s.db.lastSequence + s.runner.room < kMaxSequenceNumber

instance (opts : Nat → Options Text Text) (s : Conformance) : ∀ a, Decidable (Calm opts s a)
  | .work family a => inferInstanceAs (Decidable (Stores.OutsideGaps opts s.db (.work family a)))
  | .turn _ => inferInstanceAs (Decidable ((∀ c ∈ s.db.columns, Stores.Few c) ∧
      s.db.lastSequence + s.runner.room < kMaxSequenceNumber))

end Conformance

section
variable {s s' : Conformance} {op : ConfOp} {tasks : List Task}
  {recovery : Nat → List (Nat × Nat) × Nat}

theorem Inv.write (hopts : ∀ id, (opts id).mergeOp = testOperator ext) (h : Inv opts ext s)
    (htasks : s.runner.tasks = .write op :: tasks)
    (hroom : s.db.lastSequence + s.runner.room < kMaxSequenceNumber)
    (hstep : s.perform opts recovery (.write op) tasks = some s') : Inv opts ext s' := by
  have hdue := h.due
  rw [htasks] at hdue
  obtain ⟨hkind, hfits, hrest⟩ := hdue
  have hbatch : op.batch = op.writes.map fun w => (w.family, w.toConfWrite.record) := by
    unfold ConfOp.batch
    split
    · rename_i hsingle
      rw [List.take_of_length_le (hfits.single hsingle).le]
    · rfl
  have hwrites : ∀ w ∈ op.writes, (∃ c ∈ s.db.columns, c.id = w.family) ∧ w.toConfWrite.Fits ext :=
    fun w hw => ⟨(h.lives _).1 (hfits.writes w hw).1, (hfits.writes w hw).2⟩
  rw [Runner.room, htasks] at hroom
  obtain ⟨db, hdb, hsound, hkept, hagrees⟩ := exists_write hopts h.sound h.agrees hwrites hroom
  have hmem := exists_id_iff hkept.ids
  have hmodels : s.runner.models.apply op = { s.runner.models with
      m := op.writes.foldl (fun m w => Function.update m w.family ((m w.family).apply w.toConfWrite))
        s.runner.models.m } := by
    unfold ConfMaps.apply
    rw [hkind]
  simp only [Conformance.perform, hbatch, hdb, Option.elim_some, Option.some.injEq] at hstep
  subst hstep
  refine ⟨hsound, h.ready, h.extended, fun f => (h.lives f).trans (hmem f).symm, ?_, ?_, ?_, ?_, hrest,
    h.ok⟩
  · simp only [Runner.applied, hmodels]
    exact h.live
  · simp only [Runner.applied, hmodels]
    exact hagrees
  · rw [hkept.snapshots]
    exact h.held
  · intro sn hsn
    obtain ⟨hle, hsn, hsub⟩ := h.snaps sn hsn
    exact ⟨hle.trans hkept.last_le, hkept.later _ hle _ hsn, hsub⟩

theorem Inv.create (h : Inv opts ext s) (htasks : s.runner.tasks = .create op :: tasks)
    (hstep : s.perform opts recovery (.create op) tasks = some s') : Inv opts ext s' := by
  have hdue := h.due
  rw [htasks] at hdue
  obtain ⟨rfl, hahead, hkind, hfits⟩ := hdue
  have hdead := (hfits.create hkind).1
  have hnone : (s.db.column? op.family).isNone = true := by
    cases hcolumn : s.db.column? op.family with
    | none => rfl
    | some c =>
      have hlive := (h.lives op.family).2 ⟨c, Stores.column?_eq_some hcolumn⟩
      rw [hdead] at hlive
      cases hlive
  generalize hdb : (⟨s.db.columns ++ [⟨op.family, .empty, []⟩], s.db.lastSequence, s.db.snapshots⟩ :
    Stores Text Text) = db
  have hcreate : s.db.step opts (.createColumnFamily op.family) = some db :=
    (if_pos hnone).trans (congrArg some hdb)
  have hhistories : db.histories = s.db.histories ++ [(op.family, [])] := by
    simp [← hdb, Stores.histories]
  -- a family that is not there is in no view
  have hagrees : ∀ {r : Nat} {models models' : ConfMaps}, Agrees ext s.db.histories r models →
      (∀ f, f ≠ op.family → models'.m f = models.m f ∧ models'.live f = models.live f) →
      (models'.live op.family = true → models'.m op.family = ∅) →
      Agrees ext db.histories r models' := by
    intro r models models' hold hsame hnew p hp hlive
    rw [hhistories] at hp
    obtain hp | hp := List.mem_append.1 hp
    · have hne : p.1 ≠ op.family := by
        obtain ⟨c, hc, rfl⟩ := Stores.mem_histories.1 hp
        exact Stores.column?_eq_none hnone c hc
      obtain ⟨hm, hl⟩ := hsame p.1 hne
      exact hm ▸ hold p hp (hl ▸ hlive)
    · obtain rfl := List.mem_singleton.1 hp
      rw [hnew hlive]
      exact describes_nil
  have hmodels : s.runner.models.apply op = ⟨Function.update s.runner.models.m op.family ∅,
      Function.update s.runner.models.live op.family true⟩ := by
    unfold ConfMaps.apply
    rw [hkind]
  simp only [Conformance.perform, hcreate, Option.elim_some, Option.some.injEq] at hstep
  subst hstep
  refine ⟨h.sound.step (a := .createColumnFamily op.family) trivial hcreate, h.ready, h.extended,
    fun f => ?_, ?_, ?_, ?_, fun sn hsn => ?_, ?_, h.ok⟩
  · simp only [← hdb, List.mem_append, List.mem_singleton]
    by_cases hf : f = op.family
    · subst hf
      simp
    · rw [Function.update_of_ne hf, h.lives]
      constructor
      · intro hin
        obtain ⟨c, hc, hid⟩ := hin
        exact ⟨c, .inl hc, hid⟩
      · intro hin
        obtain ⟨c, hc | rfl, hid⟩ := hin
        · exact ⟨c, hc, hid⟩
        · exact absurd hid.symm hf
  · simp only [Runner.applied, hmodels, h.live]
  · simp only [Runner.applied, hmodels]
    rw [show db.lastSequence = s.db.lastSequence from hdb ▸ rfl]
    refine hagrees h.agrees (fun f hf => ?_) fun _ => ?_
    · simp [hf]
    · simp
  · exact hdb ▸ h.held
  · obtain ⟨hle, hold, hsub⟩ := h.snaps sn hsn
    refine ⟨hdb ▸ hle, hagrees hold (fun f _ => ⟨rfl, rfl⟩) fun hlive => ?_, fun f hf => ?_⟩
    · rw [hsub _ hlive] at hdead
      cases hdead
    · by_cases hfamily : f = op.family
      · simp [hfamily]
      · simp [hfamily, hsub f hf]
  · unfold ConfOp.liveAfter at hahead
    rw [hkind] at hahead
    exact hahead

theorem Inv.drop (h : Inv opts ext s) (htasks : s.runner.tasks = .drop op :: tasks)
    (hstep : s.perform opts recovery (.drop op) tasks = some s') : Inv opts ext s' := by
  have hdue := h.due
  rw [htasks] at hdue
  obtain ⟨rfl, hahead, hkind, hfits, hforgot⟩ := hdue
  obtain ⟨c, hc, hid⟩ := (h.lives op.family).1 (hfits.family (by simp [hkind]))
  have hsome : (s.db.column? op.family).isSome = true := by
    rw [← hid, Stores.column?_of_mem h.sound.ids hc]
    rfl
  generalize hdb : (⟨s.db.columns.filter fun c => c.id ≠ op.family, s.db.lastSequence,
    s.db.snapshots⟩ : Stores Text Text) = db
  have hdrop : s.db.step opts (.dropColumnFamily op.family) = some db :=
    (if_pos ⟨hfits.drop hkind, hsome⟩).trans (congrArg some hdb)
  have hhistories : ∀ p ∈ db.histories, p ∈ s.db.histories ∧ p.1 ≠ op.family := by
    intro p hp
    obtain ⟨c, hc, rfl⟩ := Stores.mem_histories.1 hp
    rw [← hdb] at hc
    obtain ⟨hmem, hne⟩ := List.mem_filter.1 hc
    exact ⟨Stores.mem_histories.2 ⟨c, hmem, rfl⟩, by simpa using hne⟩
  have hmodels : s.runner.models.apply op = ⟨Function.update s.runner.models.m op.family ∅,
      Function.update s.runner.models.live op.family false⟩ := by
    unfold ConfMaps.apply
    rw [hkind]
  simp only [Conformance.perform, hdrop, Option.elim_some, Option.some.injEq] at hstep
  subst hstep
  refine ⟨h.sound.step (a := .dropColumnFamily op.family) trivial hdrop, h.ready, h.extended,
    fun f => ?_, ?_, ?_, ?_, fun sn hsn => ?_, ?_, h.ok⟩
  · simp only [← hdb, List.mem_filter]
    by_cases hf : f = op.family
    · subst hf
      simp
    · rw [Function.update_of_ne hf, h.lives]
      constructor
      · intro hin
        obtain ⟨c, hc, rfl⟩ := hin
        exact ⟨c, ⟨hc, by simpa using hf⟩, rfl⟩
      · intro hin
        obtain ⟨c, hc, rfl⟩ := hin
        exact ⟨c, hc.1, rfl⟩
  · simp only [Runner.applied, hmodels, h.live]
  · simp only [Runner.applied, hmodels]
    rw [show db.lastSequence = s.db.lastSequence from hdb ▸ rfl]
    intro p hp hlive
    obtain ⟨hp, hne⟩ := hhistories p hp
    simp only [Function.update_of_ne hne] at hlive ⊢
    exact h.agrees p hp hlive
  · exact hdb ▸ h.held
  · obtain ⟨hle, hold, hsub⟩ := h.snaps sn hsn
    refine ⟨hdb ▸ hle, fun p hp => hold p (hhistories p hp).1, fun f hf => ?_⟩
    have hne : f ≠ op.family := by
      intro heq
      rw [heq, hforgot sn hsn] at hf
      cases hf
    simp [hne, hsub f hf]
  · unfold ConfOp.liveAfter at hahead
    rw [hkind] at hahead
    exact hahead

theorem Inv.getSnapshot (h : Inv opts ext s) (htasks : s.runner.tasks = .getSnapshot :: tasks)
    (hstep : s.perform opts recovery .getSnapshot tasks = some s') : Inv opts ext s' := by
  have hdue := h.due
  rw [htasks] at hdue
  obtain ⟨rfl, hahead⟩ := hdue
  have hsound := h.sound.step (a := .getSnapshot) trivial rfl
  simp only [Conformance.perform, Stores.step, Option.map_some, Option.some.injEq] at hstep
  subst hstep
  refine ⟨hsound, h.ready, h.extended, h.lives, h.live, h.agrees, ?_, fun sn hsn => ?_, hahead, h.ok⟩
  · simp only [List.map_append, List.map_cons, List.map_nil]
    exact h.held.append_right _
  · obtain hsn | hsn := List.mem_append.1 hsn
    · exact h.snaps sn hsn
    · obtain rfl := List.mem_singleton.1 hsn
      exact ⟨le_rfl, h.agrees, fun f hf => h.live ▸ hf⟩

theorem Inv.releaseSnapshot (h : Inv opts ext s) {i : Nat}
    (htasks : s.runner.tasks = .releaseSnapshot i :: tasks)
    (hstep : s.perform opts recovery (.releaseSnapshot i) tasks = some s') : Inv opts ext s' := by
  have hdue := h.due
  rw [htasks] at hdue
  obtain ⟨hlt, hdue⟩ := hdue
  obtain ⟨sn, hsn, hstep⟩ := Option.bind_eq_some_iff.1 hstep
  obtain ⟨db, hdb, rfl⟩ := Option.map_eq_some_iff.1 hstep
  have hsound := h.sound.step (a := .releaseSnapshot sn.seq) trivial hdb
  simp only [Stores.step] at hdb
  split at hdb
  · cases hdb
    refine ⟨hsound, h.ready, h.extended, h.lives, h.live, h.agrees, ?_, fun sn' hsn' => ?_, hdue, h.ok⟩
    · obtain ⟨hi, rfl⟩ := List.getElem?_eq_some_iff.1 hsn
      have hperm := (List.getElem_cons_eraseIdx_perm hi).map HeldSnap.seq
      have hcons := hperm.trans h.held
      exact (List.cons_perm_iff_perm_erase.1 hcons).2
    · exact h.snaps sn' (List.mem_of_mem_eraseIdx hsn')
  · cases hdb

theorem Inv.reopen (h : Inv opts ext s) (htasks : s.runner.tasks = .reopen :: tasks)
    (hstep : s.perform opts recovery .reopen tasks = some s') : Inv opts ext s' := by
  have hdue := h.due
  rw [htasks] at hdue
  obtain ⟨db, hdb, rfl⟩ := Option.map_eq_some_iff.1 hstep
  have hsound := h.sound.step (a := .reopen recovery) trivial hdb
  obtain ⟨hsame, -, hlast, hsnapshots⟩ := Stores.reopen_some hdb
  have hhistories : db.histories = s.db.histories := hsame
  have hids : db.columns.map (·.id) = s.db.columns.map (·.id) := by
    have hids := congrArg (List.map Prod.fst) hsame
    simpa only [List.map_map, Function.comp_def] using hids
  have hlives : ∀ f, s.runner.live f = true ↔ ∃ c ∈ db.columns, c.id = f := fun f =>
    (h.lives f).trans (exists_id_iff hids f).symm
  rw [if_pos (Conformance.opens_of_lives hlives)]
  refine ⟨hsound, h.ready, h.extended, hlives, h.live, ?_, ?_, by simp, hdue, h.ok⟩
  · rw [hhistories, hlast]
    exact h.agrees
  · rw [hsnapshots]
    exact .nil

/-- **What a read compares** is there, and the map is that of its history. -/
theorem Inv.read (h : Inv opts ext s) {model : ConfMap} {family : Nat} {snapshot : Option Nat}
    (hread : Due.Read s.runner.live s.runner.models s.runner.snaps model family snapshot) :
    ∃ c ∈ s.db.columns, s.reader opts family = some (c.family.columnFamily (opts c.id)) ∧
      s.db.Readable (s.sequence snapshot) ∧
      Describes (testOperator ext) c.history (s.sequence snapshot) model := by
  obtain ⟨hlive, hmodel⟩ := hread
  obtain ⟨c, hc, rfl⟩ := (h.lives family).1 hlive
  have hin : (c.id, c.history) ∈ s.db.histories := Stores.mem_histories.2 ⟨c, hc, rfl⟩
  refine ⟨c, hc, ?_, ?_⟩
  · rw [Conformance.reader, Stores.column?_of_mem h.sound.ids hc]
    rfl
  · cases snapshot with
    | none =>
      obtain rfl : model = s.runner.models.m c.id := hmodel
      exact ⟨.inr rfl, h.agrees _ hin (h.live ▸ hlive)⟩
    | some seq =>
      obtain ⟨sn, hsn, rfl, hsnlive, rfl⟩ := hmodel
      refine ⟨.inl (h.held.mem_iff.1 (List.mem_map_of_mem hsn)), (h.snaps sn hsn).2.1 _ hin hsnlive⟩

theorem below_lt_of_pos {r : ConfRng} {n : Nat} (hn : 0 < n) : (r.below n).1 < n := by
  unfold ConfRng.below
  rw [if_neg (by omega)]
  exact Nat.mod_lt _ hn


/-- The ids that are read have a key of their own. -/
theorem Inv.below_lt (h : Inv opts ext s) {id : Nat × ConfRng}
    (hid : s.runner.checkRng.below (s.runner.gen.shape.keys + 20) = id) : id.1 < 10 ^ 8 := by
  have hlt : (s.runner.checkRng.below (s.runner.gen.shape.keys + 20)).1 <
      s.runner.gen.shape.keys + 20 := below_lt_of_pos (Nat.succ_pos _)
  rw [hid] at hlt
  have hkeys := h.ready.le
  omega

theorem Inv.gets (hopts : ∀ id, (opts id).mergeOp = testOperator ext) (h : Inv opts ext s)
    {model : ConfMap} {family : Nat} {snapshot : Option Nat} {n : Nat}
    (htasks : s.runner.tasks = .gets model family snapshot n :: tasks)
    (hfew : ∀ c ∈ s.db.columns, Stores.Few c)
    (hstep : s.perform opts recovery (.gets model family snapshot n) tasks = some s') :
    Inv opts ext s' := by
  have hdue := h.due
  rw [htasks] at hdue
  obtain ⟨hread, hrest⟩ := hdue
  cases n with
  | zero =>
    obtain rfl := Option.some.inj hstep
    exact ⟨h.sound, h.ready, h.extended, h.lives, h.live, h.agrees, h.held, h.snaps, hrest, h.ok⟩
  | succ n =>
    obtain ⟨c, hc, hreader, hr, hmodel⟩ := h.read hread
    obtain ⟨id, hid⟩ : ∃ id, s.runner.checkRng.below (s.runner.gen.shape.keys + 20) = id := ⟨_, rfl⟩
    have hget := checkGet_ok hopts h.sound hc (hfew c hc) hr hmodel (h.below_lt hid)
    rw [Conformance.perform_gets opts s recovery model family snapshot n tasks hid, hreader,
      Option.any_some, if_pos hget] at hstep
    obtain rfl := Option.some.inj hstep
    exact ⟨h.sound, h.ready, h.extended, h.lives, h.live, h.agrees, h.held, h.snaps,
        ⟨hread, hrest⟩, h.ok⟩

theorem Inv.scan (hopts : ∀ id, (opts id).mergeOp = testOperator ext) (h : Inv opts ext s)
    {model : ConfMap} {family : Nat} {snapshot : Option Nat}
    (htasks : s.runner.tasks = .scan model family snapshot :: tasks)
    (hfew : ∀ c ∈ s.db.columns, Stores.Few c)
    (hstep : s.perform opts recovery (.scan model family snapshot) tasks = some s') :
    Inv opts ext s' := by
  have hdue := h.due
  rw [htasks] at hdue
  obtain ⟨hread, hrest⟩ := hdue
  obtain ⟨c, hc, hreader, hr, hmodel⟩ := h.read hread
  have hscan := checkScan_ok hopts h.sound hc (hfew c hc) hr hmodel
  simp only [Conformance.perform, hreader, Option.any_some, hscan, if_true,
    Option.some.injEq] at hstep
  subst hstep
  exact ⟨h.sound, h.ready, h.extended, h.lives, h.live, h.agrees, h.held, h.snaps, hrest, h.ok⟩

theorem Inv.walk (hopts : ∀ id, (opts id).mergeOp = testOperator ext) (h : Inv opts ext s)
    {model : ConfMap} {family start steps : Nat}
    (htasks : s.runner.tasks = .walk model family start steps :: tasks)
    (hfew : ∀ c ∈ s.db.columns, Stores.Few c)
    (hstep : s.perform opts recovery (.walk model family start steps) tasks = some s') :
    Inv opts ext s' := by
  have hdue := h.due
  rw [htasks] at hdue
  obtain ⟨hread, hstart, hrest⟩ := hdue
  obtain ⟨c, hc, hreader, hr, hmodel⟩ := h.read hread
  have hwalk := checkWalk_ok' hopts h.sound hc (hfew c hc) hr hmodel hstart steps s.runner.checkRng
  rw [Conformance.perform_walk recovery tasks hreader (Prod.ext hwalk rfl)] at hstep
  obtain rfl := Option.some.inj hstep
  exact ⟨h.sound, h.ready, h.extended, h.lives, h.live, h.agrees, h.held, h.snaps, hrest, h.ok⟩

/-- **One task** goes well. -/
theorem Inv.perform (hopts : ∀ id, (opts id).mergeOp = testOperator ext) (h : Inv opts ext s)
    {task : Task} (htasks : s.runner.tasks = task :: tasks)
    (hfew : ∀ c ∈ s.db.columns, Stores.Few c)
    (hroom : s.db.lastSequence + s.runner.room < kMaxSequenceNumber)
    (hstep : s.perform opts recovery task tasks = some s') : Inv opts ext s' := by
  cases task with
  | write op => exact h.write hopts htasks hroom hstep
  | create op => exact h.create htasks hstep
  | drop op => exact h.drop htasks hstep
  | getSnapshot => exact h.getSnapshot htasks hstep
  | releaseSnapshot i => exact h.releaseSnapshot htasks hstep
  | reopen => exact h.reopen htasks hstep
  | gets model family snapshot n => exact h.gets hopts htasks hfew hstep
  | scan model family snapshot => exact h.scan hopts htasks hfew hstep
  | walk model family start steps => exact h.walk hopts htasks hfew hstep

theorem Conformance.turn_cons (hok : s.runner.ok = true) {task : Task}
    (htasks : s.runner.tasks = task :: tasks) :
    s.turn opts recovery = s.perform opts recovery task tasks := by
  unfold Conformance.turn
  rw [if_pos hok, htasks]

theorem Conformance.turn_nil (hok : s.runner.ok = true) (htasks : s.runner.tasks = []) :
    s.turn opts recovery =
      if s.runner.finished = true then none else some ⟨s.db, s.runner.round⟩ := by
  unfold Conformance.turn
  rw [if_pos hok, htasks]

/-- **One step** of the test. -/
theorem Inv.step (hopts : ∀ id, (opts id).mergeOp = testOperator ext) (h : Inv opts ext s)
    {a : Conformance.Action} (ha : s.Calm opts a) (hstep : s.step opts a = some s') :
    Inv opts ext s' := by
  cases a with
  | work family a =>
    obtain ⟨db, hdb, rfl⟩ := Option.map_eq_some_iff.1 hstep
    have hsound := h.sound.step (a := .work family a) ha hdb
    have hhistories := Stores.histories_work hdb
    obtain ⟨before, c, after, c', hcs, hcs', -, hid, -, -, hlast, hsnapshots⟩ := Stores.work_some hdb
    have hids : db.columns.map (·.id) = s.db.columns.map (·.id) := by simp [hcs, hcs', hid]
    have hmem := exists_id_iff hids
    exact ⟨hsound, h.ready, h.extended, fun f => (h.lives f).trans (hmem f).symm, h.live,
      hhistories ▸ hlast ▸ h.agrees, hsnapshots ▸ h.held, hhistories ▸ hlast ▸ h.snaps, h.due, h.ok⟩
  | turn recovery =>
    obtain ⟨hfew, hroom⟩ := ha
    cases htasks : s.runner.tasks with
    | cons task tasks =>
      exact h.perform hopts htasks hfew hroom ((Conformance.turn_cons h.ok htasks).symm.trans hstep)
    | nil =>
      have hstep := (Conformance.turn_nil h.ok htasks).symm.trans hstep
      split at hstep
      · cases hstep
      · obtain rfl := Option.some.inj hstep
        unfold Runner.round
        cases hnext : s.runner.gen.next s.runner.models.view with
        | some next => exact h.start htasks hnext
        | none =>
          have hahead : s.runner.gen.live = s.runner.live := by
            have := h.due
            rw [htasks] at this
            exact this
          exact ⟨h.sound, h.ready, h.extended, h.lives, h.live, h.agrees, h.held, h.snaps,
            Runner.due_finish hahead, h.ok⟩

end

theorem inv_new (seed : UInt64) (ops : Nat) : Inv opts ext ⟨.new, .new seed ops ext⟩ where
  sound := Stores.sound_new
  ready := ScenarioGen.ready_new seed ops ext
  extended := rfl
  lives f := by simp [Runner.new, Stores.new, eq_comm]
  live := rfl
  agrees p hp _ := by
    obtain rfl : p = (0, []) := by simpa [Stores.histories, Stores.new] using hp
    exact describes_nil
  held := .nil
  snaps sn hsn := by simp [Runner.new] at hsn
  due := rfl
  ok := rfl

/-- **A task can be done**, if there is a way for the database to recover. -/
theorem Inv.exists_perform {s : Conformance} (h : Inv opts ext s) {task : Task} {tasks : List Task}
    (htasks : s.runner.tasks = task :: tasks) :
    ∃ recovery s', s.perform opts recovery task tasks = some s' := by
  cases task with
  | releaseSnapshot i =>
    have hdue := h.due
    rw [htasks] at hdue
    obtain ⟨hlt, -⟩ := hdue
    have hheld : s.runner.snaps[i].seq ∈ s.db.snapshots :=
      h.held.mem_iff.1 (List.mem_map_of_mem (List.getElem_mem hlt))
    refine ⟨fun _ => ([], 0), ?_⟩
    simp [Conformance.perform, Stores.step, List.getElem?_eq_getElem hlt, hheld]
  | reopen =>
    obtain ⟨recovery, db, hdb⟩ := Stores.exists_reopen opts s.db
    exact ⟨recovery, _, congrArg (Option.map _) hdb⟩
  | gets model family snapshot n =>
    cases n with
    | zero => exact ⟨fun _ => ([], 0), _, rfl⟩
    | succ n => exact ⟨fun _ => ([], 0), _, rfl⟩
  | write _ | create _ | drop _ | getSnapshot | scan _ _ _ | walk _ _ _ _ =>
    exact ⟨fun _ => ([], 0), _, rfl⟩

/-- The runner goes on until the final checks are made. -/
theorem Inv.exists_turn {s : Conformance} (h : Inv opts ext s)
    (hend : ¬(s.runner.finished = true ∧ s.runner.tasks = [])) :
    ∃ recovery s', s.turn opts recovery = some s' := by
  cases htasks : s.runner.tasks with
  | cons task tasks =>
    obtain ⟨recovery, s', hs'⟩ := h.exists_perform htasks
    exact ⟨recovery, s', (Conformance.turn_cons h.ok htasks).trans hs'⟩
  | nil =>
    have hmore : ¬s.runner.finished = true := fun hfinished => hend ⟨hfinished, htasks⟩
    exact ⟨fun _ => ([], 0), _, (Conformance.turn_nil h.ok htasks).trans (if_neg hmore)⟩

/-! ## The end of a test -/

section
variable {s s' : Conformance} {tasks : List Task} {recovery : Nat → List (Nat × Nat) × Nat}

/-- The turns that a task takes. -/
def Task.turns : Task → Nat
  | .gets _ _ _ n => n + 1
  | _ => 1

/-- What the runner has yet to do: operations, and tasks of the one it is at. -/
def Runner.left (r : Runner) : ℕ ×ₗ ℕ :=
  toLex (if r.finished then 0 else r.gen.ops - r.gen.done + 1, (r.tasks.map Task.turns).sum)

/-- What a task leaves of the plan. -/
structure Runner.Onward (r r' : Runner) : Prop where
  gen : r'.gen = r.gen
  finished : r'.finished = r.finished
  turns : (r'.tasks.map Task.turns).sum < (r.tasks.map Task.turns).sum

theorem Runner.Onward.left {r r' : Runner} (h : Onward r r') : r'.left < r.left := by
  unfold Runner.left
  rw [h.gen, h.finished, Prod.Lex.toLex_lt_toLex]
  exact .inr ⟨rfl, h.turns⟩

theorem Conformance.perform_onward {task : Task} (htasks : s.runner.tasks = task :: tasks)
    (hstep : s.perform opts recovery task tasks = some s') : s.runner.Onward s'.runner := by
  have hpos : 0 < task.turns := by cases task <;> simp [Task.turns]
  have hless : (tasks.map Task.turns).sum < (s.runner.tasks.map Task.turns).sum := by
    rw [htasks, List.map_cons, List.sum_cons]
    omega
  have hkeep : ∀ {r : Runner} {b : Bool}, r.gen = s.runner.gen → r.finished = s.runner.finished →
      r.tasks = tasks → s.runner.Onward (if b = true then r else r.fail) := by
    intro r b hgen hfinished hrest
    cases b <;> exact ⟨hgen, hfinished, hrest ▸ hless⟩
  cases task with
  | write op =>
    obtain rfl := Option.some.inj hstep
    cases s.db.step opts (.write op.batch) <;> exact ⟨rfl, rfl, hless⟩
  | create op =>
    obtain rfl := Option.some.inj hstep
    cases s.db.step opts (.createColumnFamily op.family) <;> exact ⟨rfl, rfl, hless⟩
  | drop op =>
    obtain rfl := Option.some.inj hstep
    cases s.db.step opts (.dropColumnFamily op.family) <;> exact ⟨rfl, rfl, hless⟩
  | getSnapshot =>
    obtain rfl := Option.some.inj hstep
    exact ⟨rfl, rfl, hless⟩
  | releaseSnapshot i =>
    obtain ⟨sn, -, hstep⟩ := Option.bind_eq_some_iff.1 hstep
    obtain ⟨db, -, rfl⟩ := Option.map_eq_some_iff.1 hstep
    exact ⟨rfl, rfl, hless⟩
  | reopen =>
    obtain ⟨db, -, rfl⟩ := Option.map_eq_some_iff.1 hstep
    exact hkeep rfl rfl rfl
  | gets model family snapshot n =>
    cases n with
    | zero =>
      obtain rfl := Option.some.inj hstep
      exact ⟨rfl, rfl, hless⟩
    | succ n =>
      obtain ⟨id, hid⟩ : ∃ id, s.runner.checkRng.below (s.runner.gen.shape.keys + 20) = id := ⟨_, rfl⟩
      rw [Conformance.perform_gets opts s recovery model family snapshot n tasks hid] at hstep
      obtain rfl := Option.some.inj hstep
      dsimp only
      split
      · refine ⟨rfl, rfl, ?_⟩
        rw [htasks]
        simp [Task.turns]
      · exact ⟨rfl, rfl, hless⟩
  | scan model family snapshot =>
    obtain rfl := Option.some.inj hstep
    exact hkeep rfl rfl rfl
  | walk model family start steps =>
    obtain rfl := Option.some.inj hstep
    cases s.reader opts family with
    | none => exact ⟨rfl, rfl, hless⟩
    | some cf =>
      rw [Option.elim_some]
      generalize checkWalk _ _ _ _ _ = walk
      exact hkeep rfl rfl rfl

theorem Runner.start_gen (r : Runner) (op : ConfOp) :
    (r.start op).gen = r.gen ∧ (r.start op).finished = r.finished := by
  unfold Runner.start
  cases op.kind <;> exact ⟨rfl, rfl⟩

theorem Runner.round_left {r : Runner} (h : ¬r.finished = true) : r.round.left < r.left := by
  unfold Runner.round
  cases hnext : r.gen.next r.models.view with
  | some next =>
    obtain ⟨hlt, hops, hdone⟩ := ScenarioGen.next_done hnext
    obtain ⟨hgen, hfinished⟩ := Runner.start_gen { r with gen := next.2, opno := r.opno + 1 } next.1
    unfold Runner.left
    rw [Prod.Lex.toLex_lt_toLex]
    left
    dsimp only
    rw [hgen, hfinished]
    simp only [if_neg h, hops, hdone]
    omega
  | none =>
    unfold Runner.left
    rw [Prod.Lex.toLex_lt_toLex, if_neg h]
    exact .inl (Nat.succ_pos _)

/-- **Every turn** leaves less to do. -/
theorem Conformance.turn_left (hstep : s.turn opts recovery = some s') :
    s'.runner.left < s.runner.left := by
  unfold Conformance.turn at hstep
  split at hstep
  · split at hstep
    · rename_i task tasks htasks
      exact (Conformance.perform_onward htasks hstep).left
    · split at hstep
      · cases hstep
      · obtain rfl := Option.some.inj hstep
        exact Runner.round_left ‹_›
  · cases hstep

end

/-- **No test fails**: in every state of every run with calm background work between the calls
(`Conformance.Calm`), all comparisons so far went well, and until the final checks are made the runner
can go on, with less to do each time. -/
theorem never_fails (hopts : ∀ id, (opts id).mergeOp = testOperator ext) {seed : UInt64} {ops : Nat}
    {s : Conformance} (h : (conformance opts seed ops ext).ReachableBy (Conformance.Calm opts) s) :
    s.runner.ok = true ∧ (s.runner.finished = true ∧ s.runner.tasks = [] ∨
      ∃ recovery s', s.turn opts recovery = some s' ∧ s'.runner.left < s.runner.left) := by
  have hinv : Inv opts ext s := h.invariant
    (fun s hs => by
      obtain rfl : s = ⟨.new, .new seed ops ext⟩ := hs
      exact inv_new seed ops) fun _ _ _ hs ha hstep => hs.step hopts ha hstep
  refine ⟨hinv.ok, or_iff_not_imp_left.2 fun hend => ?_⟩
  obtain ⟨recovery, s', hs'⟩ := hinv.exists_turn hend
  exact ⟨recovery, s', hs', Conformance.turn_left hs'⟩

def testOptions : Nat → Options Text Text := fun _ => ⟨testOperator true, 100⟩

/-- A family is created, written to and flushed; a snapshot is taken, the default family scanned and
written to. -/
def testRun : List Conformance.Action :=
  List.replicate 4 (.turn fun _ => ([], 0)) ++
    [.work 2 .switchMemTable, .work 2 (.compactMemTable 40)] ++
    List.replicate 7 (.turn fun _ => ([], 0))

theorem never_fails_testRun : ∃ s,
    (conformance testOptions 13 5 true).runBy (Conformance.Calm testOptions) ⟨.new, .new 13 5 true⟩
        testRun = some s ∧ s.db.lastSequence = 8 ∧ s.runner.ok = true := by
  have hrun : ((conformance testOptions 13 5 true).runBy (Conformance.Calm testOptions)
      ⟨.new, .new 13 5 true⟩ testRun).any (fun s => decide (s.db.lastSequence = 8)) = true := by
    decide +kernel
  obtain ⟨s, hs, hlast⟩ := (Option.any_eq_true _ _).1 hrun
  have hnew : (conformance testOptions 13 5 true).ReachableBy (Conformance.Calm testOptions)
      ⟨.new, .new 13 5 true⟩ := .init rfl
  exact ⟨s, hs, of_decide_eq_true hlast, (never_fails (fun _ => rfl) (hnew.runBy hs)).1⟩

end LevelDb.Conf
