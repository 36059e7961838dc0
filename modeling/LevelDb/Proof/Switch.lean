import LevelDb.Proof.Room

/-!
# How the leader switches memtables

The log numbers of the families (`Logged`, of every reachable state), and what `MakeRoomForWrite`
does where no memtable is over its limit and no flush is forced: it switches the families that lag
on the shared log, each to a log of its own (`makeRoom_turned`).
-/

namespace LevelDb.Room

open Transition

variable {fresh n : Nat} {s s' : State} {l l' : Leader} {v : State.Verdict}
  {families : List Nat}

/-! ## The log numbers of the families -/

/-- What holds of a family that is not dropped. -/
structure ColumnFamily.Logged (fresh logfileNumber : Nat) (cf : ColumnFamily) : Prop where
  mem : ∃ usage, cf.mem = some usage ∧ fresh ≤ usage
  le : cf.memLogNumber ≤ logfileNumber
  flushed : cf.imm = false → cf.logNumber = cf.memLogNumber
  pending : cf.imm = true → cf.logNumber = cf.immLogNumber ∧ cf.immLogNumber < cf.memLogNumber
  writeBufferSize : minWriteBufferSize ≤ cf.writeBufferSize

structure Logged (fresh : Nat) (s : State) : Prop where
  family : ∀ cf ∈ s.cfs ++ s.creating, cf.dropped = false → cf.Logged fresh s.logfileNumber
  lt : s.logfileNumber < s.nextFileNumber
  default : 0 ∈ s.live.map (·.id)

theorem ColumnFamily.Logged.mono {L L' : Nat} {cf : ColumnFamily} (h : cf.Logged fresh L)
    (hle : L ≤ L') : cf.Logged fresh L' :=
  ⟨h.mem, h.le.trans hle, h.flushed, h.pending, h.writeBufferSize⟩

/-- A family needs the log its version was flushed up to. -/
theorem ColumnFamily.Logged.neededLog {L : Nat} {cf : ColumnFamily} (h : cf.Logged fresh L) :
    cf.neededLog = cf.logNumber := by
  obtain ⟨usage, hmem, -⟩ := h.mem
  cases himm : cf.imm with
  | false => simp [ColumnFamily.neededLog, himm, hmem, h.flushed himm]
  | true => simp [ColumnFamily.neededLog, himm, (h.pending himm).1]

theorem Logged.live (h : Logged fresh s) {cf : ColumnFamily} (hcf : cf ∈ s.live) :
    cf.Logged fresh s.logfileNumber :=
  h.family cf (List.mem_append_left _ (mem_live.1 hcf).1) (mem_live.1 hcf).2

/-- What the scan finds is full, and neither flushed nor stopped by its level 0. -/
theorem scan_some {cfs : List ColumnFamily} {family : Nat} (h : (s.scan l cfs).cf = some family) :
    ∃ cf ∈ cfs, cf.id = family ∧ s.full l.force cf = true ∧ cf.imm = false ∧
      cf.numLevel0Files < kL0StopWritesTrigger := by
  induction cfs with
  | nil => cases h
  | cons c cfs ih =>
    rw [State.scan] at h
    split at h
    · obtain ⟨cf, hcf, hrest⟩ := ih h
      exact ⟨cf, List.mem_cons_of_mem c hcf, hrest⟩
    · rename_i hfull
      split at h
      · obtain ⟨cf, hcf, hrest⟩ := ih h
        exact ⟨cf, List.mem_cons_of_mem c hcf, hrest⟩
      · rename_i himm
        split at h
        · obtain ⟨cf, hcf, hrest⟩ := ih h
          exact ⟨cf, List.mem_cons_of_mem c hcf, hrest⟩
        · rename_i hstop
          exact ⟨c, List.mem_cons_self, Option.some_inj.1 h, Bool.eq_true_of_not_eq_false hfull,
            Bool.eq_false_of_not_eq_true himm, by omega⟩

/-- Only where nothing can be switched does the scan find nothing. -/
theorem scan_none {cfs : List ColumnFamily} (h : (s.scan l cfs).cf = none) :
    ∀ cf ∈ cfs, s.full l.force cf = true → cf.imm = false →
      kL0StopWritesTrigger ≤ cf.numLevel0Files := by
  induction cfs with
  | nil => exact nofun
  | cons c cfs ih =>
    intro cf hcf hfull himm
    rw [State.scan] at h
    rcases List.mem_cons.1 hcf with rfl | hcf
    · rw [if_neg (by rw [hfull]; decide), if_neg (by rw [himm]; decide)] at h
      split at h
      · assumption
      · cases h
    · split at h
      · exact ih h cf hcf hfull himm
      · split at h
        · exact ih h cf hcf hfull himm
        · split at h
          · exact ih h cf hcf hfull himm
          · cases h

theorem switch_of_verdict {family : Nat} (h : s.verdict families l = .switchMemTable family) :
    ∃ cf ∈ s.live, cf.id = family ∧ s.wants families l.force cf = true ∧
      s.full l.force cf = true ∧ cf.imm = false ∧ cf.numLevel0Files < kL0StopWritesTrigger := by
  simp only [State.verdict] at h
  split at h
  · rename_i found hfound
    cases h
    obtain ⟨cf, hcf, hrest⟩ := scan_some hfound
    rw [List.mem_filter] at hcf
    exact ⟨cf, hcf.1, hrest.1, hcf.2, hrest.2⟩
  · split at h
    · cases h
    · split at h
      · cases h
      · cases h

theorem verdict_of_scan (h : ∀ family, s.verdict families l ≠ .switchMemTable family) :
    (s.scan l (s.live.filter (s.wants families l.force))).cf = none := by
  cases hcf : (s.scan l (s.live.filter (s.wants families l.force))).cf with
  | none => rfl
  | some family =>
    refine absurd ?_ (h family)
    simp only [State.verdict, hcf]

/-- What each switch that a verdict asks for keeps, the loop keeps. -/
theorem makeRoomForWrite_invariant {P : State → Prop}
    (hP : ∀ s l family, s.verdict families l = .switchMemTable family → P s →
      P (s.switchMemTable fresh family)) (hs : P s) :
    P (s.makeRoomForWrite fresh families n l).1 := by
  induction n generalizing s l with
  | zero => exact hs
  | succ n ih =>
    rw [State.makeRoomForWrite]
    split
    · rename_i family hverdict
      exact ih (hP s l family hverdict hs)
    · exact hs

theorem mem_live_ids {family : Nat} :
    family ∈ s.live.map (·.id) ↔ ∃ cf ∈ s.cfs, cf.dropped = false ∧ cf.id = family := by
  rw [List.mem_map]
  constructor
  · rintro ⟨cf, hcf, hid⟩
    exact ⟨cf, (mem_live.1 hcf).1, (mem_live.1 hcf).2, hid⟩
  · rintro ⟨cf, hcf, hlive, hid⟩
    exact ⟨cf, mem_live.2 ⟨hcf, hlive⟩, hid⟩

/-- Families are told apart by their ids. -/
theorem Known.eq_of_id (h : Known s) {c c' : ColumnFamily} (hc : c ∈ s.cfs) (hc' : c' ∈ s.cfs)
    (hid : c.id = c'.id) : c = c' := by
  have hnodup := h.nodup
  rw [List.map_append] at hnodup
  exact List.inj_on_of_nodup_map hnodup.of_append_left hc hc' hid

theorem Known.nodup_live (h : Known s) : (s.live.map (·.id)).Nodup := by
  have hnodup := h.nodup
  rw [List.map_append] at hnodup
  exact hnodup.of_append_left.sublist (List.filter_sublist.map _)

/-- A family changes, and the logs go on. -/
theorem Logged.modify (h : Logged fresh s) {family : Nat} {f : ColumnFamily → ColumnFamily}
    (hcfs : s'.cfs = (s.modify family f).cfs) (hcreating : s'.creating = s.creating)
    (hle : s.logfileNumber ≤ s'.logfileNumber) (hlt : s'.logfileNumber < s'.nextFileNumber)
    (hf : ∀ cf ∈ s.cfs, cf.id = family → cf.dropped = false → (f cf).id = family ∧
      (f cf).dropped = false ∧ (f cf).Logged fresh s'.logfileNumber)
    (hdropped : ∀ cf, cf.dropped = true → (f cf).dropped = true) : Logged fresh s' := by
  refine ⟨fun cf hcf hlive => ?_, hlt, ?_⟩
  · rw [hcfs, hcreating, List.mem_append] at hcf
    rcases hcf with hcf | hcf
    · obtain ⟨c, hc, rfl | ⟨hid, rfl⟩⟩ := mem_modify hcf
      · exact (h.family cf (List.mem_append_left _ hc) hlive).mono hle
      · cases hdrop : c.dropped with
        | true =>
          rw [hdropped c hdrop] at hlive
          cases hlive
        | false => exact (hf c hc hid hdrop).2.2
    · exact (h.family cf (List.mem_append_right _ hcf) hlive).mono hle
  · obtain ⟨c, hc, hlive, hid⟩ := mem_live_ids.1 h.default
    rw [mem_live_ids, hcfs]
    refine ⟨_, List.mem_map_of_mem hc, ?_⟩
    split
    · rename_i heq
      obtain ⟨hid', hlive', -⟩ := hf c hc heq hlive
      exact ⟨hlive', hid'.trans (heq.symm.trans hid)⟩
    · exact ⟨hlive, hid⟩

theorem logged_switchMemTable (hk : Known s) (h : Logged fresh s) {cf : ColumnFamily}
    (hcf : cf ∈ s.live) (himm : cf.imm = false) :
    Logged fresh (s.switchMemTable fresh cf.id) := by
  refine h.modify rfl rfl h.lt.le (Nat.lt_succ_self _) (fun c hc hid hlive => ?_) fun _ hd => hd
  have heq := hk.eq_of_id hc (mem_live.1 hcf).1 hid
  subst heq
  have hc := h.live hcf
  refine ⟨rfl, hlive, ⟨fresh, rfl, le_rfl⟩, le_rfl, nofun, fun _ => ?_, hc.writeBufferSize⟩
  exact ⟨hc.flushed himm, hc.le.trans_lt h.lt⟩

theorem logged_makeRoom (hk : Known s) (h : Logged fresh s) {w : Writer}
    (hroom : s.makeRoom fresh w = (s', l', v)) : Logged fresh s' := by
  have hkeeps := @makeRoomForWrite_invariant fresh (s.cfs.length + 1) s (s.leading w) w.families
    (fun t => Known t ∧ Logged fresh t) (fun t l family hverdict ht => ?_) ⟨hk, h⟩
  · rw [show (s.makeRoomForWrite fresh w.families (s.cfs.length + 1) (s.leading w)) = _ from hroom]
      at hkeeps
    exact hkeeps.2
  · obtain ⟨cf, hcf, rfl, -, -, himm, -⟩ := switch_of_verdict hverdict
    exact ⟨known_switchMemTable ht.1, logged_switchMemTable ht.1 ht.2 hcf himm⟩

/-- The families and the logs stay as they are. -/
theorem Logged.congr (h : Logged fresh s) (hcfs : s'.cfs = s.cfs)
    (hcreating : s'.creating = s.creating) (hlog : s'.logfileNumber = s.logfileNumber)
    (hnext : s'.nextFileNumber = s.nextFileNumber) : Logged fresh s' := by
  refine ⟨?_, ?_, ?_⟩
  · rw [hcfs, hcreating, hlog]
    exact h.family
  · rw [hlog, hnext]
    exact h.lt
  · rw [State.live, hcfs]
    exact h.default

theorem logged_insert (h : Logged fresh s) {growth : Nat → Nat}
    (hstep : s.step fresh (.insert growth) = some s') : Logged fresh s' := by
  obtain ⟨g, -, -, rfl⟩ := insert_cases hstep
  refine ⟨fun cf hcf hlive => ?_, h.lt, ?_⟩
  · rcases List.mem_append.1 hcf with hcf | hcf
    · obtain ⟨c, hc, rfl⟩ := List.mem_map.1 hcf
      split at hlive
      · rename_i hin
        rw [if_pos hin]
        have hc := h.family c (List.mem_append_left _ hc) hlive
        obtain ⟨usage, hmem, hle⟩ := hc.mem
        refine ⟨⟨usage + growth c.id, ?_, hle.trans (Nat.le_add_right _ _)⟩, hc.le, hc.flushed,
          hc.pending, hc.writeBufferSize⟩
        rw [hmem, Option.map_some]
      · rename_i hnot
        rw [if_neg hnot]
        exact h.family c (List.mem_append_left _ hc) hlive
    · exact h.family cf (List.mem_append_right _ hcf) hlive
  · obtain ⟨c, hc, hlive, hid⟩ := mem_live_ids.1 h.default
    rw [mem_live_ids]
    refine ⟨_, List.mem_map_of_mem hc, ?_⟩
    split
    · exact ⟨hlive, hid⟩
    · exact ⟨hlive, hid⟩

theorem logged_commitColumnFamily (h : Logged fresh s) {i : Nat} {new : ColumnFamily}
    (hnew : s.creating[i]? = some new) :
    Logged fresh { s with
      cfs := s.cfs.orderedInsert (fun a b => a.id ≤ b.id) new
      creating := s.creating.eraseIdx i } := by
  refine ⟨fun cf hcf hlive => h.family cf ?_ hlive, h.lt, ?_⟩
  · rw [List.mem_append, List.mem_orderedInsert] at hcf
    rcases hcf with (rfl | hcf) | hcf
    · exact List.mem_append_right _ (List.mem_of_getElem? hnew)
    · exact List.mem_append_left _ hcf
    · exact List.mem_append_right _ (List.mem_of_mem_eraseIdx hcf)
  · obtain ⟨c, hc, hlive, hid⟩ := mem_live_ids.1 h.default
    exact mem_live_ids.2 ⟨c, (List.mem_orderedInsert _).2 (.inr hc), hlive, hid⟩

theorem logged_dropColumnFamily (h : Logged fresh s) {family : Nat}
    (hne : family ≠ 0) : Logged fresh (s.modify family fun cf =>
      { cf with dropped := true, mem := none, imm := false }) := by
  refine ⟨fun cf hcf hlive => ?_, h.lt, ?_⟩
  · rcases List.mem_append.1 hcf with hcf | hcf
    · obtain ⟨c, hc, rfl | ⟨-, rfl⟩⟩ := mem_modify hcf
      · exact h.family cf (List.mem_append_left _ hc) hlive
      · cases hlive
    · exact h.family cf (List.mem_append_right _ hcf) hlive
  · obtain ⟨c, hc, hlive, hid⟩ := mem_live_ids.1 h.default
    rw [mem_live_ids]
    refine ⟨_, List.mem_map_of_mem hc, ?_⟩
    rw [if_neg (hid ▸ hne.symm)]
    exact ⟨hlive, hid⟩

/-- Every step keeps the families logged. -/
theorem logged_step (hk : Known s) (h : Logged fresh s) {a : Action}
    (hstep : s.step fresh a = some s') : Logged fresh s' := by
  cases a with
  | write batch =>
    simp only [State.step] at hstep
    split at hstep
    · cases hstep
      exact h.congr rfl rfl rfl rfl
    · cases hstep
  | enqueue i =>
    obtain ⟨w, hw, rfl⟩ := Option.map_eq_some_iff.1 hstep
    exact h.congr rfl rfl rfl rfl
  | waitForRoom =>
    obtain ⟨w, ws, s1, l1, v, l2, -, -, hroom, -, -, rfl⟩ := wait_cases hstep
    exact (logged_makeRoom hk h hroom).congr rfl rfl rfl rfl
  | capture n =>
    obtain ⟨w, ws, s1, l1, -, -, hroom, ⟨-, rfl⟩ | ⟨-, rfl⟩⟩ := capture_cases hstep
    · exact (logged_makeRoom hk h hroom).congr rfl rfl rfl rfl
    · exact (logged_makeRoom hk h hroom).congr rfl rfl rfl rfl
  | insert growth => exact logged_insert h hstep
  | close =>
    simp only [State.step] at hstep
    split at hstep
    swap
    · cases hstep
    split at hstep
    · cases hstep
      exact h.congr rfl rfl rfl rfl
    · cases hstep
  | compactMemTable family toLevel0 =>
    obtain ⟨cf, -, hstep⟩ := Option.bind_eq_some_iff.1 hstep
    split at hstep
    · cases hstep
      refine h.modify rfl rfl le_rfl (h.lt.trans_le (Nat.le_add_right _ _))
        (fun c hc hid hlive => ?_) fun _ hd => hd
      have hc := h.family c (List.mem_append_left _ hc) hlive
      exact ⟨hid, hlive, hc.mem, hc.le, fun _ => rfl, by simp, hc.writeBufferSize⟩
    · cases hstep
  | compact family files numbers =>
    obtain ⟨cf, -, hstep⟩ := Option.bind_eq_some_iff.1 hstep
    split at hstep
    · cases hstep
      refine h.modify rfl rfl le_rfl (h.lt.trans_le (Nat.le_add_right _ _))
        (fun c hc hid hlive => ?_) fun _ hd => hd
      have hc := h.family c (List.mem_append_left _ hc) hlive
      exact ⟨hid, hlive, hc.mem, hc.le, hc.flushed, hc.pending, hc.writeBufferSize⟩
    · cases hstep
  | createColumnFamily writeBufferSize =>
    simp only [State.step] at hstep
    split at hstep
    swap
    · cases hstep
    rename_i hsize
    cases hstep
    refine ⟨fun cf hcf hlive => ?_, h.lt, h.default⟩
    rw [← List.append_assoc, List.mem_append, List.mem_singleton] at hcf
    rcases hcf with hcf | rfl
    · exact h.family cf hcf hlive
    · exact ⟨⟨fresh, rfl, le_rfl⟩, le_rfl, fun _ => rfl, by simp, hsize⟩
  | commitColumnFamily i =>
    obtain ⟨new, hnew, rfl⟩ := Option.map_eq_some_iff.1 hstep
    exact logged_commitColumnFamily h hnew
  | dropColumnFamily family =>
    obtain ⟨cf, -, hstep⟩ := Option.bind_eq_some_iff.1 hstep
    split at hstep
    · rename_i hne
      cases hstep
      exact logged_dropColumnFamily h hne
    · cases hstep

theorem logged_init (hs : (system fresh).init s) : Logged fresh s := by
  obtain ⟨hopened, -, hdefault, hcreating, hlt, -⟩ := hs
  refine ⟨fun cf hcf _ => ?_, hlt, ?_⟩
  · rw [hcreating, List.append_nil] at hcf
    have ho := hopened cf hcf
    refine ⟨ho.mem, ho.memLogNumber.le, fun _ => ho.logNumber.trans ho.memLogNumber.symm,
      fun himm => ?_, ho.writeBufferSize⟩
    rw [ho.imm] at himm
    cases himm
  · obtain ⟨c, hc, hid⟩ := List.mem_map.1 hdefault
    exact mem_live_ids.2 ⟨c, hc, (hopened c hc).dropped, hid⟩

theorem logged_reachable (h : (system fresh).Reachable s) : Logged fresh s :=
  h.invariant_of (fun _ => known_reachable) (fun _ => logged_init)
    fun _ _ _ hk hlogged _ hstep => logged_step hk hlogged hstep

/-! ## A turn of the loop -/

theorem le_foldl_min {x init : Nat} {ns : List Nat} :
    x ≤ ns.foldl min init ↔ x ≤ init ∧ ∀ n ∈ ns, x ≤ n := by
  induction ns generalizing init with
  | nil => simp
  | cons n ns ih => rw [List.foldl_cons, ih, Nat.le_min, List.forall_mem_cons, and_assoc]

theorem le_oldestLiveLog {x : Nat} :
    x ≤ s.oldestLiveLog ↔ x ≤ s.logfileNumber ∧ ∀ cf ∈ s.live, x ≤ cf.neededLog := by
  rw [State.oldestLiveLog, le_foldl_min, List.forall_mem_map]

theorem oldestLiveLog_le {cf : ColumnFamily} (hcf : cf ∈ s.live) :
    s.oldestLiveLog ≤ cf.neededLog := (le_oldestLiveLog.1 le_rfl).2 cf hcf

theorem lags_iff {cf : ColumnFamily} : s.lags cf = true ↔
    cf.memLogNumber ≤ s.oldestLiveLog ∧ s.oldestLiveLog + kMaxLiveLogs < s.logfileNumber := by
  rw [State.lags, decide_eq_true_eq]

/-- A family lags where it alone, or with others, holds the oldest log. -/
theorem Logged.of_lags (h : Logged fresh s) {cf : ColumnFamily} (hcf : cf ∈ s.live)
    (hlags : s.lags cf = true) :
    cf.imm = false ∧ cf.logNumber = cf.memLogNumber ∧ cf.memLogNumber = s.oldestLiveLog := by
  have hle := (lags_iff.1 hlags).1
  have hneeded := (h.live hcf).neededLog ▸ oldestLiveLog_le hcf
  cases himm : cf.imm with
  | false =>
    have hflushed := (h.live hcf).flushed himm
    exact ⟨rfl, hflushed, by omega⟩
  | true =>
    obtain ⟨heq, hlt⟩ := (h.live hcf).pending himm
    omega

/-- A family with a new memtable and log. -/
def ColumnFamily.switched (fresh number : Nat) (cf : ColumnFamily) : ColumnFamily :=
  { cf with
    imm := true, immLogNumber := cf.memLogNumber
    mem := some fresh, before := 0, memLogNumber := number }

/-- The same, if it is among those switched so far. -/
def ColumnFamily.turned (fresh number : Nat) (done : List Nat) (cf : ColumnFamily) : ColumnFamily :=
  if cf.id ∈ done then cf.switched fresh (number + done.idxOf cf.id) else cf

theorem ColumnFamily.turned_of_mem {number : Nat} {done : List Nat} {cf : ColumnFamily}
    (h : cf.id ∈ done) :
    cf.turned fresh number done = cf.switched fresh (number + done.idxOf cf.id) := if_pos h

theorem ColumnFamily.turned_of_not_mem {number : Nat} {done : List Nat} {cf : ColumnFamily}
    (h : cf.id ∉ done) : cf.turned fresh number done = cf := if_neg h

theorem ColumnFamily.turned_id {number : Nat} {done : List Nat} {cf : ColumnFamily} :
    (cf.turned fresh number done).id = cf.id := by
  rw [ColumnFamily.turned]
  split
  · rfl
  · rfl

/-- The state once these families have been switched in turn. -/
def State.turned (fresh : Nat) (s : State) (done : List Nat) : State :=
  { s with
    cfs := s.cfs.map (·.turned fresh s.nextFileNumber done)
    logfileNumber := if done = [] then s.logfileNumber else s.nextFileNumber + (done.length - 1)
    nextFileNumber := s.nextFileNumber + done.length
    switches := s.switches + done.length }

theorem turned_nil : s.turned fresh [] = s := by
  have hid : (fun cf : ColumnFamily => cf.turned fresh s.nextFileNumber []) = id :=
    funext fun _ => ColumnFamily.turned_of_not_mem List.not_mem_nil
  rw [State.turned, hid, List.map_id]
  rfl

theorem turned_concat {done : List Nat} {family : Nat} (hnew : family ∉ done) :
    (s.turned fresh done).switchMemTable fresh family = s.turned fresh (done ++ [family]) := by
  have hcfs : ((s.turned fresh done).switchMemTable fresh family).cfs =
      (s.turned fresh (done ++ [family])).cfs := by
    show List.map _ (List.map _ _) = List.map _ _
    rw [List.map_map]
    refine List.map_congr_left fun cf _ => ?_
    show (if (cf.turned fresh s.nextFileNumber done).id = family then
        (cf.turned fresh s.nextFileNumber done).switched fresh (s.nextFileNumber + done.length)
      else cf.turned fresh s.nextFileNumber done) = _
    rw [ColumnFamily.turned_id]
    by_cases hin : cf.id ∈ done
    · have hne : cf.id ≠ family := fun heq => hnew (heq ▸ hin)
      rw [if_neg hne, ColumnFamily.turned_of_mem hin,
        ColumnFamily.turned_of_mem (List.mem_append_left _ hin), List.idxOf_append_of_mem hin]
    · rw [ColumnFamily.turned_of_not_mem hin]
      by_cases heq : cf.id = family
      · have hidx : (done ++ [family]).idxOf cf.id = done.length := by
          rw [List.idxOf_append_of_notMem hin, heq, List.idxOf_cons_self, Nat.add_zero]
        have hlast : cf.id ∈ done ++ [family] :=
          List.mem_append_right _ (List.mem_singleton.2 heq)
        rw [if_pos heq, ColumnFamily.turned_of_mem hlast, hidx]
      · have hnot : cf.id ∉ done ++ [family] := by
          rw [List.mem_append, List.mem_singleton, not_or]
          exact ⟨hin, heq⟩
        rw [if_neg heq, ColumnFamily.turned_of_not_mem hnot]
  have hlog : (s.turned fresh (done ++ [family])).logfileNumber = s.nextFileNumber + done.length := by
    rw [State.turned, if_neg (by simp), List.length_append]
    rfl
  have hlength : (done ++ [family]).length = done.length + 1 := List.length_append
  rw [State.switchMemTable] at hcfs ⊢
  rw [State.mk.injEq]
  refine ⟨hcfs, rfl, rfl, hlog.symm, ?_, rfl, rfl, rfl, rfl, ?_⟩
  · show s.nextFileNumber + done.length + 1 = s.nextFileNumber + (done ++ [family]).length
    omega
  · show s.switches + done.length + 1 = s.switches + (done ++ [family]).length
    omega

theorem ColumnFamily.turned_dropped {number : Nat} {done : List Nat} {cf : ColumnFamily} :
    (cf.turned fresh number done).dropped = cf.dropped := by
  rw [ColumnFamily.turned]
  split
  · rfl
  · rfl

theorem live_turned {done : List Nat} :
    (s.turned fresh done).live = s.live.map (·.turned fresh s.nextFileNumber done) := by
  show (s.cfs.map _).filter _ = _
  rw [List.filter_map, State.live]
  refine congrArg _ (List.filter_congr fun cf _ => ?_)
  rw [Function.comp_apply, ColumnFamily.turned_dropped]

/-- The families switched in one go: they all lag. -/
structure Turning (s : State) (done : List Nat) : Prop where
  nodup : done.Nodup
  lags : ∀ f ∈ done, ∃ cf ∈ s.live, cf.id = f ∧ s.lags cf = true ∧
    cf.numLevel0Files < kL0StopWritesTrigger

theorem Turning.of_mem {done : List Nat} (h : Turning s done) (hk : Known s) {cf : ColumnFamily}
    (hcf : cf ∈ s.live) (hin : cf.id ∈ done) :
    s.lags cf = true ∧ cf.numLevel0Files < kL0StopWritesTrigger := by
  obtain ⟨c, hc, hid, hrest⟩ := h.lags _ hin
  rw [hk.eq_of_id (mem_live.1 hcf).1 (mem_live.1 hc).1 hid.symm]
  exact hrest

theorem Turning.length_le {done : List Nat} (h : Turning s done) : done.length ≤ s.live.length := by
  have hsubset : done ⊆ s.live.map (·.id) := fun f hf => by
    obtain ⟨cf, hcf, rfl, -⟩ := h.lags f hf
    exact List.mem_map_of_mem hcf
  have hle := h.nodup.length_le_of_subset hsubset
  rwa [List.length_map] at hle

/-- A switched family still needs the log it was on. -/
theorem neededLog_turned (hk : Known s) (h : Logged fresh s) {done : List Nat}
    (hturn : Turning s done) {cf : ColumnFamily} (hcf : cf ∈ s.live) :
    (cf.turned fresh s.nextFileNumber done).neededLog = cf.neededLog := by
  by_cases hin : cf.id ∈ done
  · obtain ⟨-, heq, -⟩ := h.of_lags hcf (hturn.of_mem hk hcf hin).1
    rw [ColumnFamily.turned_of_mem hin, (h.live hcf).neededLog]
    show min cf.logNumber cf.memLogNumber = cf.logNumber
    omega
  · rw [ColumnFamily.turned_of_not_mem hin]

theorem le_logfileNumber_turned (h : Logged fresh s) {done : List Nat} :
    s.logfileNumber ≤ (s.turned fresh done).logfileNumber := by
  show s.logfileNumber ≤ if done = [] then s.logfileNumber else s.nextFileNumber + (done.length - 1)
  have hlt := h.lt
  split
  · exact le_rfl
  · omega

/-- Which families lag does not change while they are switched. -/
theorem lags_turned (hk : Known s) (h : Logged fresh s) {done : List Nat} (hturn : Turning s done)
    {cf : ColumnFamily} : (s.turned fresh done).lags cf = true ↔ s.lags cf = true := by
  by_cases hnil : done = []
  · rw [hnil, turned_nil]
  have hlog := @le_logfileNumber_turned fresh s h done
  -- one that is switched holds the oldest log
  obtain ⟨f, hf⟩ := List.exists_mem_of_ne_nil done hnil
  obtain ⟨c, hc, rfl, hlags, -⟩ := hturn.lags f hf
  obtain ⟨-, heq, holdest⟩ := h.of_lags hc hlags
  have hfar := (lags_iff.1 hlags).2
  have hsame : (s.turned fresh done).oldestLiveLog = s.oldestLiveLog := by
    apply le_antisymm
    · have hle := @oldestLiveLog_le (s.turned fresh done) (c.turned fresh s.nextFileNumber done)
        (live_turned ▸ List.mem_map_of_mem hc)
      rw [neededLog_turned hk h hturn hc, (h.live hc).neededLog] at hle
      omega
    · refine le_oldestLiveLog.2 ⟨by omega, fun c' hc' => ?_⟩
      rw [live_turned] at hc'
      obtain ⟨c0, hc0, rfl⟩ := List.mem_map.1 hc'
      rw [neededLog_turned hk h hturn hc0]
      exact oldestLiveLog_le hc0
  rw [lags_iff, lags_iff, hsame]
  omega

/-- With no flush forced and no memtable over its limit, only a family that lags is full. -/
theorem full_iff {cf : ColumnFamily} (hmem : ∃ usage, cf.mem = some usage ∧ 0 < usage)
    (hfits : cf.overflows = false) : s.full false cf = true ↔ s.lags cf = true := by
  obtain ⟨usage, hmem, hpos⟩ := hmem
  rw [State.full, decide_eq_true_eq, hmem, hfits]
  simp [hpos]

/-- Each switch the loop makes is of one more family that lags. -/
theorem turning_concat (hpos : 0 < fresh) (hk : Known s) (h : Logged fresh s)
    (hfits : ∀ cf ∈ s.live, cf.overflows = false) {done : List Nat} (hturn : Turning s done)
    (hforce : l.force = false) {family : Nat}
    (hverdict : (s.turned fresh done).verdict families l = .switchMemTable family) :
    family ∉ done ∧ Turning s (done ++ [family]) := by
  obtain ⟨cf, hcf, rfl, -, hfull, himm, hlevel0⟩ := switch_of_verdict hverdict
  rw [live_turned] at hcf
  obtain ⟨c, hc, rfl⟩ := List.mem_map.1 hcf
  have hnot : c.id ∉ done := fun hin => by
    rw [ColumnFamily.turned_of_mem hin] at himm
    cases himm
  rw [ColumnFamily.turned_of_not_mem hnot] at hfull himm hlevel0 ⊢
  obtain ⟨usage, hmem, hle⟩ := (h.live hc).mem
  rw [hforce, full_iff ⟨usage, hmem, by omega⟩ (hfits c hc), lags_turned hk h hturn] at hfull
  refine ⟨hnot, ?_, fun f hf => ?_⟩
  · rw [← List.concat_eq_append]
    exact hturn.nodup.concat hnot
  · rw [List.mem_append, List.mem_singleton] at hf
    rcases hf with hf | rfl
    · exact hturn.lags f hf
    · exact ⟨c, hc, rfl, hfull, hlevel0⟩

/-- Where the loop makes no switch, every family that lags has been switched, or its level 0 is
full. -/
theorem turning_complete (hpos : 0 < fresh) (hk : Known s) (h : Logged fresh s)
    (hfits : ∀ cf ∈ s.live, cf.overflows = false) {done : List Nat} (hturn : Turning s done)
    (hforce : l.force = false)
    (hverdict : ∀ family, (s.turned fresh done).verdict families l ≠ .switchMemTable family) :
    ∀ cf ∈ s.live, s.lags cf = true → cf.numLevel0Files < kL0StopWritesTrigger → cf.id ∈ done := by
  intro cf hcf hlags hlevel0
  apply Classical.byContradiction
  intro hnot
  have hlive : cf ∈ (s.turned fresh done).live := by
    rw [live_turned, ← @ColumnFamily.turned_of_not_mem fresh s.nextFileNumber done cf hnot]
    exact List.mem_map_of_mem hcf
  have himm := (h.of_lags hcf hlags).1
  have hlags := (lags_turned hk h hturn).2 hlags
  obtain ⟨usage, hmem, hle⟩ := (h.live hcf).mem
  have hfull := (full_iff ⟨usage, hmem, by omega⟩ (hfits cf hcf)).2 hlags
  have hwants : (s.turned fresh done).wants families l.force cf = true :=
    decide_eq_true (.inr (.inr ⟨himm, hlags⟩))
  have hstop := scan_none (verdict_of_scan hverdict) cf (List.mem_filter.2 ⟨hlive, hwants⟩)
    (hforce ▸ hfull) himm
  omega

/-- How the loop ends in a quiet state. -/
structure Turned (fresh : Nat) (s s' : State) (l' : Leader) (v : State.Verdict) (done : List Nat) :
    Prop where
  eq : s' = s.turned fresh done
  turning : Turning s done
  complete : ∀ cf ∈ s.live, s.lags cf = true → cf.numLevel0Files < kL0StopWritesTrigger →
    cf.id ∈ done
  force : l'.force = false
  verdict : ∀ family, v ≠ .switchMemTable family

theorem makeRoomForWrite_turned (hpos : 0 < fresh) (hk : Known s) (h : Logged fresh s)
    (hfits : ∀ cf ∈ s.live, cf.overflows = false) {done : List Nat} (hturn : Turning s done)
    (hforce : l.force = false) (hfuel : s.live.length < done.length + n) :
    ∃ done' l' v, (s.turned fresh done).makeRoomForWrite fresh families n l =
      (s.turned fresh done', l', v) ∧ Turned fresh s (s.turned fresh done') l' v done' := by
  induction n generalizing done l with
  | zero =>
    have hle := hturn.length_le
    omega
  | succ n ih =>
    rw [State.makeRoomForWrite]
    split
    · rename_i family hverdict
      obtain ⟨hnot, hturn⟩ := turning_concat hpos hk h hfits hturn hforce hverdict
      rw [turned_concat hnot]
      refine ih hturn rfl ?_
      rw [List.length_append, List.length_singleton]
      omega
    · rename_i hverdict
      refine ⟨done, l, _, rfl, rfl, hturn, ?_, hforce, hverdict⟩
      exact turning_complete hpos hk h hfits hturn hforce hverdict

/-- **What the leader does in a quiet state**: it switches the families that lag and are not stopped
by their level 0, each to a log of its own. -/
theorem makeRoom_turned (hpos : 0 < fresh) (hk : Known s) (h : Logged fresh s) (hq : s.Quiet)
    {w : Writer} (hw : w ∈ s.queue) :
    ∃ done s' l' v, s.makeRoom fresh w = (s', l', v) ∧ Turned fresh s s' l' v done := by
  have hforce : (s.leading w).force = false := by
    rw [State.leading]
    cases hleader : s.leader with
    | none => exact Option.isNone_eq_false_iff.2 (hq.batches w (List.mem_append_right _ hw))
    | some l => exact hq.leader l hleader
  have hfuel : s.live.length < ([] : List Nat).length + (s.cfs.length + 1) := by
    have hle : s.live.length ≤ s.cfs.length := List.length_filter_le _ _
    rw [List.length_nil]
    omega
  have hnil : Turning s [] := ⟨List.nodup_nil, nofun⟩
  obtain ⟨done, l', v, heq, hturned⟩ := @makeRoomForWrite_turned fresh _ s (s.leading w) w.families
    hpos hk h hq.fits [] hnil hforce hfuel
  rw [turned_nil] at heq
  exact ⟨done, _, l', v, heq, hturned⟩

end LevelDb.Room
