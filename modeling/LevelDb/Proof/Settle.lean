import LevelDb.Proof.Switch

/-!
# Whether log switching settles

A family that lags on the shared log gets a log of its own, and each switch moves the log that is
open further ahead of the other families. In runs without full memtables and forced flushes the
number of switches is bounded exactly if the state settles (`settles_iff`).
-/

namespace LevelDb.Room

open Transition

variable {fresh : Nat} {work : Bool} {s s' : State} {l : Leader} {v : State.Verdict}

/-! ## States that settle -/

/-- The level-0 tables there are once its flush has ended, if that adds to them. -/
def ColumnFamily.coming (toLevel0 : Bool) (cf : ColumnFamily) : Nat :=
  cf.numLevel0Files + if toLevel0 && cf.imm then 1 else 0

/-- The same families on the same logs, and not more of level-0 tables. -/
structure Still (s s' : State) : Prop where
  logfileNumber : s'.logfileNumber = s.logfileNumber
  switches : s'.switches = s.switches
  length : s'.live.length = s.live.length
  live : ∀ cf' ∈ s'.live, ∃ cf ∈ s.live, cf'.memLogNumber = cf.memLogNumber ∧
    cf'.coming true ≤ cf.coming true

theorem Still.of_cfs (hcfs : s'.cfs = s.cfs) (hlog : s'.logfileNumber = s.logfileNumber)
    (hswitches : s'.switches = s.switches) : Still s s' := by
  have hlive : s'.live = s.live := by rw [State.live, State.live, hcfs]
  exact ⟨hlog, hswitches, congrArg _ hlive, fun cf hcf => ⟨cf, hlive ▸ hcf, rfl, le_rfl⟩⟩

theorem live_map {g : ColumnFamily → ColumnFamily} (hcfs : s'.cfs = s.cfs.map g)
    (hdropped : ∀ cf, (g cf).dropped = cf.dropped) : s'.live = s.live.map g := by
  rw [State.live, hcfs, List.filter_map, State.live]
  refine congrArg _ (List.filter_congr fun cf _ => ?_)
  rw [Function.comp_apply, hdropped]

theorem Still.of_map {g : ColumnFamily → ColumnFamily} (hcfs : s'.cfs = s.cfs.map g)
    (hlog : s'.logfileNumber = s.logfileNumber) (hswitches : s'.switches = s.switches)
    (hdropped : ∀ cf, (g cf).dropped = cf.dropped)
    (hmem : ∀ cf, (g cf).memLogNumber = cf.memLogNumber)
    (hcoming : ∀ cf ∈ s.live, (g cf).coming true ≤ cf.coming true) : Still s s' := by
  have hlive := live_map hcfs hdropped
  refine ⟨hlog, hswitches, by rw [hlive, List.length_map], fun cf hcf => ?_⟩
  obtain ⟨c, hc, rfl⟩ := List.mem_map.1 (hlive ▸ hcf)
  exact ⟨c, hc, hmem c, hcoming c hc⟩

/-- One family's work in the background. -/
theorem Still.of_modify (hk : Known s) {family : Nat} {f : ColumnFamily → ColumnFamily}
    {cf : ColumnFamily} (hcf : s.live? family = some cf)
    (hcfs : s'.cfs = (s.modify family f).cfs) (hlog : s'.logfileNumber = s.logfileNumber)
    (hswitches : s'.switches = s.switches) (hdropped : ∀ cf, (f cf).dropped = cf.dropped)
    (hmem : ∀ cf, (f cf).memLogNumber = cf.memLogNumber)
    (hcoming : (f cf).coming true ≤ cf.coming true) : Still s s' := by
  refine .of_map hcfs hlog hswitches (fun c => ?_) (fun c => ?_) fun c hc => ?_
  · split
    · exact hdropped c
    · rfl
  · split
    · exact hmem c
    · rfl
  · split
    · rename_i hid
      obtain ⟨hin, hid'⟩ := live?_some hcf
      rw [hk.eq_of_id (mem_live.1 hc).1 (mem_live.1 hin).1 (hid.trans hid'.symm)]
      exact hcoming
    · exact le_rfl

theorem Turned.still {s1 : State} {done : List Nat} (h : Turned fresh s s1 l v done)
    (hcfs : s'.cfs = s1.cfs) (hlog : s'.logfileNumber = s1.logfileNumber)
    (hswitches : s'.switches = s1.switches) : Still (s.turned fresh done) s' := by
  rw [← h.eq]
  exact .of_cfs hcfs hlog hswitches

/-- What a calm step does: the families that lag are switched, or none is. -/
structure Turns (fresh : Nat) (s s' : State) (done : List Nat) : Prop where
  turning : Turning s done
  complete : done ≠ [] → ∀ cf ∈ s.live, s.lags cf = true →
    cf.numLevel0Files < kL0StopWritesTrigger → cf.id ∈ done
  still : Still (s.turned fresh done) s'

theorem Turns.of_still (h : Still s s') : Turns fresh s s' [] :=
  ⟨⟨List.nodup_nil, nofun⟩, fun hne => absurd rfl hne, turned_nil.symm ▸ h⟩

theorem calm_step (hpos : 0 < fresh) (h : (system fresh).Reachable s) {a : Action}
    (hcalm : s.Calm work a) (hstep : s.step fresh a = some s') : ∃ done, Turns fresh s s' done := by
  obtain ⟨hq, hcalm⟩ := hcalm
  have hk := known_reachable h
  have hlogged := logged_reachable h
  cases a with
  | write batch =>
    simp only [State.step] at hstep
    split at hstep
    · cases hstep
      exact ⟨[], .of_still (.of_cfs rfl rfl rfl)⟩
    · cases hstep
  | enqueue i =>
    obtain ⟨w, hw, rfl⟩ := Option.map_eq_some_iff.1 hstep
    exact ⟨[], .of_still (.of_cfs rfl rfl rfl)⟩
  | waitForRoom =>
    obtain ⟨w, ws, s1, l1, v, l2, -, hqueue, hroom, -, -, rfl⟩ := wait_cases hstep
    obtain ⟨done, s2, l2, v2, heq, hturned⟩ := makeRoom_turned hpos hk hlogged hq
      (hqueue ▸ List.mem_cons_self)
    cases hroom.symm.trans heq
    exact ⟨done, hturned.turning, fun _ => hturned.complete, hturned.still rfl rfl rfl⟩
  | capture n =>
    obtain ⟨w, ws, s1, l1, -, hqueue, hroom, hcase⟩ := capture_cases hstep
    obtain ⟨done, s2, l2, v2, heq, hturned⟩ := makeRoom_turned hpos hk hlogged hq
      (hqueue ▸ List.mem_cons_self)
    cases hroom.symm.trans heq
    refine ⟨done, hturned.turning, fun _ => hturned.complete, ?_⟩
    rcases hcase with ⟨-, rfl⟩ | ⟨-, rfl⟩
    · exact hturned.still rfl rfl rfl
    · exact hturned.still rfl rfl rfl
  | insert growth =>
    obtain ⟨g, -, -, rfl⟩ := insert_cases hstep
    refine ⟨[], .of_still (.of_map rfl rfl rfl (fun c => ?_) (fun c => ?_) fun c _ => ?_)⟩
    · split
      · rfl
      · rfl
    · split
      · rfl
      · rfl
    · split
      · exact le_rfl
      · exact le_rfl
  | close =>
    simp only [State.step] at hstep
    split at hstep
    swap
    · cases hstep
    split at hstep
    · cases hstep
      exact ⟨[], .of_still (.of_cfs rfl rfl rfl)⟩
    · cases hstep
  | compactMemTable family toLevel0 =>
    obtain ⟨cf, hcf, hstep⟩ := Option.bind_eq_some_iff.1 hstep
    split at hstep
    · rename_i himm
      cases hstep
      refine ⟨[], .of_still (.of_modify hk hcf rfl rfl rfl (fun _ => rfl) (fun _ => rfl) ?_)⟩
      show cf.numLevel0Files + (if toLevel0 then 1 else 0) + 0 ≤
        cf.numLevel0Files + if cf.imm then 1 else 0
      rw [if_pos himm]
      split
      · exact le_rfl
      · omega
    · cases hstep
  | compact family files numbers =>
    obtain ⟨cf, hcf, hstep⟩ := Option.bind_eq_some_iff.1 hstep
    split at hstep
    · rename_i hle
      cases hstep
      refine ⟨[], .of_still (.of_modify hk hcf rfl rfl rfl (fun _ => rfl) (fun _ => rfl) ?_)⟩
      exact Nat.add_le_add_right hle _
    · cases hstep
  | createColumnFamily writeBufferSize => cases hcalm
  | commitColumnFamily i => cases hcalm
  | dropColumnFamily family => cases hcalm

/-- No live family is far behind. -/
def Near (s : State) : Prop := ∀ cf ∈ s.live, s.logfileNumber ≤ cf.memLogNumber + kMaxLiveLogs

theorem Near.still (h : Near s) (hstill : Still s s') : Near s' := by
  intro cf hcf
  obtain ⟨c, hc, heq, -⟩ := hstill.live cf hcf
  rw [hstill.logfileNumber, heq]
  exact h c hc

/-- Where none is far behind, none is switched. -/
theorem near_turns (hlogged : Logged fresh s) (h : Near s) {done : List Nat}
    (hturns : Turns fresh s s' done) : Near s' ∧ s'.switches = s.switches := by
  have hnil : done = [] := by
    refine List.eq_nil_iff_forall_not_mem.2 fun f hf => ?_
    obtain ⟨cf, hcf, -, hlags, -⟩ := hturns.turning.lags f hf
    have heq := (hlogged.of_lags hcf hlags).2.2
    have hfar := (lags_iff.1 hlags).2
    have hnear := h cf hcf
    omega
  have hstill := hturns.still
  rw [hnil, turned_nil] at hstill
  exact ⟨h.still hstill, hstill.switches⟩

/-- All are switched in one go, and there are not more of them than logs may live. -/
theorem near_turned {done : List Nat} (hall : ∀ cf ∈ s.live, cf.id ∈ done) (hne : done ≠ [])
    (hle : done.length ≤ kMaxLiveLogs + 1) : Near (s.turned fresh done) := by
  intro cf hcf
  rw [live_turned] at hcf
  obtain ⟨c, hc, rfl⟩ := List.mem_map.1 hcf
  rw [ColumnFamily.turned_of_mem (hall c hc)]
  show (if done = [] then s.logfileNumber else s.nextFileNumber + (done.length - 1)) ≤
    s.nextFileNumber + done.idxOf c.id + kMaxLiveLogs
  rw [if_neg hne]
  omega

/-- **A state that settles** stays one, or all its families are switched and are near each other. -/
theorem settles_turns (hlogged : Logged fresh s) (h : s.Settles) {done : List Nat}
    (hturns : Turns fresh s s' done) :
    s'.Settles ∧ s'.switches = s.switches ∨
      Near s' ∧ s'.switches ≤ s.switches + (kMaxLiveLogs + 1) := by
  have hstill := hturns.still
  by_cases hnil : done = []
  · rw [hnil, turned_nil] at hstill
    refine .inl ⟨?_, hstill.switches⟩
    rcases h with hnear | hone | ⟨hfew, hequal, hlevel0⟩
    · exact .inl (Near.still hnear hstill)
    · exact .inr (.inl (hstill.length ▸ hone))
    · refine .inr (.inr ⟨hstill.length ▸ hfew, fun cf hcf cf' hcf' => ?_, fun cf hcf => ?_⟩)
      · obtain ⟨c, hc, heq, -⟩ := hstill.live cf hcf
        obtain ⟨c', hc', heq', -⟩ := hstill.live cf' hcf'
        rw [heq, heq']
        exact hequal c hc c' hc'
      · obtain ⟨c, hc, -, hle⟩ := hstill.live cf hcf
        exact hle.trans_lt (hlevel0 c hc)
  · have hlength := hturns.turning.length_le
    obtain ⟨f, hf⟩ := List.exists_mem_of_ne_nil done hnil
    obtain ⟨c, hc, rfl, hlags, -⟩ := hturns.turning.lags f hf
    have hnear : (∀ cf ∈ s.live, cf.id ∈ done) → done.length ≤ kMaxLiveLogs + 1 →
        Near s' ∧ s'.switches ≤ s.switches + (kMaxLiveLogs + 1) := fun hall hle => by
      refine ⟨(near_turned hall hnil hle).still hstill, ?_⟩
      rw [hstill.switches]
      exact Nat.add_le_add_left hle _
    rcases h with hfar | hone | ⟨hfew, hequal, hlevel0⟩
    · exact .inl ⟨.inl (near_turns hlogged hfar hturns).1, (near_turns hlogged hfar hturns).2⟩
    · refine .inr (hnear (fun cf hcf => ?_) (by omega))
      have hpos := List.length_pos_of_mem hc
      obtain ⟨only, honly⟩ := List.length_eq_one_iff.1 (show s.live.length = 1 by omega)
      rw [honly, List.mem_singleton] at hcf hc
      rwa [hcf, ← hc]
    · refine .inr (hnear (fun cf hcf => ?_) (by omega))
      have hlags' : s.lags cf = true := by
        rw [lags_iff, hequal cf hcf c hc]
        exact lags_iff.1 hlags
      have hlt := hlevel0 cf hcf
      rw [(hlogged.of_lags hcf hlags').1] at hlt
      exact hturns.complete hnil cf hcf hlags' hlt

/-- From a state that settles, no run makes more switches than logs may live, and one. -/
theorem switches_le (hpos : 0 < fresh) (h : (system fresh).Reachable s) (hsettles : s.Settles)
    (hsteps : (system fresh).StepsBy (State.Calm work) s s') :
    s'.switches ≤ s.switches + (kMaxLiveLogs + 1) := by
  have hinv : (system fresh).Reachable s' ∧ (s'.Settles ∧ s'.switches = s.switches ∨
      Near s' ∧ s'.switches ≤ s.switches + (kMaxLiveLogs + 1)) := by
    refine hsteps.invariant (P := fun t => (system fresh).Reachable t ∧
      (t.Settles ∧ t.switches = s.switches ∨
        Near t ∧ t.switches ≤ s.switches + (kMaxLiveLogs + 1))) ⟨h, .inl ⟨hsettles, rfl⟩⟩ ?_
    intro t a t' ⟨hreach, hcase⟩ hcalm hstep
    obtain ⟨done, hturns⟩ := calm_step hpos hreach hcalm hstep
    have hlogged := logged_reachable hreach
    refine ⟨hreach.step a hstep, ?_⟩
    rcases hcase with ⟨hset, heq⟩ | ⟨hnear, hle⟩
    · rw [← heq]
      exact settles_turns hlogged hset hturns
    · obtain ⟨hnear', heq⟩ := near_turns hlogged hnear hturns
      exact .inr ⟨hnear', heq ▸ hle⟩
  rcases hinv.2 with ⟨-, heq⟩ | ⟨-, hle⟩
  · omega
  · exact hle

/-! ## Work in the background -/

/-- The families by their logs, and what comes to their level 0: flushes add to it if there is work
to be for compactions. -/
def State.view (work : Bool) (s : State) : List (Nat × Nat × Nat) :=
  s.live.map fun cf => (cf.id, cf.memLogNumber, cf.coming work)

theorem steps_single (hq : s.Quiet) {a : Action} (ha : a.isCalm work = true)
    (hstep : s.step fresh a = some s') : (system fresh).StepsBy (State.Calm work) s s' :=
  .single ⟨hq, ha⟩ hstep

/-- A calm run that leaves the logs alone. -/
structure Rest (fresh : Nat) (work : Bool) (s s' : State) : Prop where
  steps : (system fresh).StepsBy (State.Calm work) s s'
  quiet : s'.Quiet
  view : s'.view work = s.view work
  logfileNumber : s'.logfileNumber = s.logfileNumber
  switches : s'.switches = s.switches

theorem Rest.refl (hq : s.Quiet) : Rest fresh work s s := ⟨.refl, hq, rfl, rfl, rfl⟩

theorem Rest.trans {s1 : State} (h : Rest fresh work s s1) (h' : Rest fresh work s1 s') :
    Rest fresh work s s' :=
  ⟨h.steps.trans h'.steps, h'.quiet, h'.view.trans h.view,
    h'.logfileNumber.trans h.logfileNumber, h'.switches.trans h.switches⟩

theorem Rest.reachable (h : Rest fresh work s s') (hs : (system fresh).Reachable s) :
    (system fresh).Reachable s' :=
  System.ReachableBy.steps hs (h.steps.mono fun _ _ _ => trivial)

theorem Rest.of_map (hq : s.Quiet) {a : Action} (ha : a.isCalm work = true)
    (hstep : s.step fresh a = some s') {g : ColumnFamily → ColumnFamily}
    (hcfs : s'.cfs = s.cfs.map g) (hdropped : ∀ cf, (g cf).dropped = cf.dropped)
    (hg : ∀ cf ∈ s.live, (g cf).id = cf.id ∧ (g cf).memLogNumber = cf.memLogNumber ∧
      (g cf).coming work = cf.coming work ∧ (g cf).overflows = cf.overflows)
    (hlog : s'.logfileNumber = s.logfileNumber) (hswitches : s'.switches = s.switches)
    (hbatches : ∀ w ∈ s'.checked ++ s'.queue, w.batch.isSome = true)
    (hleader : s'.leader = s.leader) : Rest fresh work s s' := by
  have hlive := live_map hcfs hdropped
  refine ⟨steps_single hq ha hstep, ⟨fun cf hcf => ?_, hbatches, hleader ▸ hq.leader⟩, ?_, hlog,
    hswitches⟩
  · obtain ⟨c, hc, rfl⟩ := List.mem_map.1 (hlive ▸ hcf)
    rw [(hg c hc).2.2.2]
    exact hq.fits c hc
  · rw [State.view, hlive, List.map_map]
    refine List.map_congr_left fun cf hcf => ?_
    obtain ⟨h1, h2, h3, -⟩ := hg cf hcf
    rw [Function.comp_apply, h1, h2, h3]

theorem Rest.of_cfs (hq : s.Quiet) {a : Action} (ha : a.isCalm work = true)
    (hstep : s.step fresh a = some s') (hcfs : s'.cfs = s.cfs)
    (hlog : s'.logfileNumber = s.logfileNumber) (hswitches : s'.switches = s.switches)
    (hbatches : ∀ w ∈ s'.checked ++ s'.queue, w.batch.isSome = true)
    (hleader : s'.leader = s.leader) : Rest fresh work s s' :=
  .of_map hq ha hstep (hcfs.trans (List.map_id _).symm) (fun _ => rfl)
    (fun _ _ => ⟨rfl, rfl, rfl, rfl⟩) hlog hswitches hbatches hleader

theorem live?_of_mem (hk : Known s) {cf : ColumnFamily} (hcf : cf ∈ s.live) :
    s.live? cf.id = some cf := by
  have hsome : (s.live? cf.id).isSome := by
    rw [State.live?, List.find?_isSome]
    exact ⟨cf, (mem_live.1 hcf).1, decide_eq_true ⟨rfl, (mem_live.1 hcf).2⟩⟩
  obtain ⟨c, hc⟩ := Option.isSome_iff_exists.1 hsome
  obtain ⟨hin, hid⟩ := live?_some hc
  rw [hc, hk.eq_of_id (mem_live.1 hin).1 (mem_live.1 hcf).1 hid]

/-- The work of one family in the background. -/
theorem Rest.of_modify (hk : Known s) (hq : s.Quiet) {a : Action} (ha : a.isCalm work = true)
    (hstep : s.step fresh a = some s') {cf : ColumnFamily} (hcf : cf ∈ s.live)
    {f : ColumnFamily → ColumnFamily} (hcfs : s'.cfs = (s.modify cf.id f).cfs)
    (hdropped : ∀ c, (f c).dropped = c.dropped)
    (hf : (f cf).id = cf.id ∧ (f cf).memLogNumber = cf.memLogNumber ∧
      (f cf).coming work = cf.coming work ∧ (f cf).overflows = cf.overflows)
    (hlog : s'.logfileNumber = s.logfileNumber) (hswitches : s'.switches = s.switches)
    (hchecked : s'.checked = s.checked) (hqueue : s'.queue = s.queue)
    (hleader : s'.leader = s.leader) : Rest fresh work s s' := by
  have hbatches : ∀ w ∈ s'.checked ++ s'.queue, w.batch.isSome = true := by
    rw [hchecked, hqueue]
    exact hq.batches
  refine .of_map hq ha hstep hcfs (fun c => ?_) (fun c hc => ?_) hlog hswitches hbatches hleader
  · split
    · exact hdropped c
    · rfl
  · split
    · rename_i hid
      rw [hk.eq_of_id (mem_live.1 hc).1 (mem_live.1 hcf).1 hid]
      exact hf
    · exact ⟨rfl, rfl, rfl, rfl⟩

/-- The group under way is inserted, and done. -/
theorem exists_closed (hq : s.Quiet) : ∃ s', Rest fresh work s s' ∧ s'.group = none := by
  have hclose : ∀ {s : State} {g : Group}, s.Quiet → s.group = some g → g.inserted = true →
      ∃ s', Rest fresh work s s' ∧ s'.group = none := fun {s g} hq hg hins => by
    have hstep : s.step fresh .close = some { s with group := none } := by
      simp only [State.step, hg, hins, if_true]
    exact ⟨_, .of_cfs hq rfl hstep rfl rfl rfl hq.batches rfl, rfl⟩
  cases hg : s.group with
  | none => exact ⟨s, .refl hq, hg⟩
  | some g =>
    cases hins : g.inserted with
    | true => exact hclose hq hg hins
    | false =>
      obtain ⟨s1, hs1⟩ : ∃ s1, s.step fresh (.insert fun _ => 0) = some s1 := by
        simp only [State.step, hg, hins, Bool.false_eq_true, if_false]
        exact ⟨_, rfl⟩
      obtain ⟨g1, hg1, -, hs1eq⟩ := insert_cases hs1
      have hrest : Rest fresh work s s1 := by
        subst hs1eq
        refine .of_map hq rfl hs1 rfl (fun c => ?_) (fun c hc => ?_) rfl rfl hq.batches rfl
        · split
          · rfl
          · rfl
        · split
          · refine ⟨rfl, rfl, rfl, ?_⟩
            simp only [ColumnFamily.overflows, Nat.add_zero, Option.map_id']
          · exact ⟨rfl, rfl, rfl, rfl⟩
      obtain ⟨s2, hmore, hnone⟩ := @hclose s1 { g1 with inserted := true } hrest.quiet
        (hs1eq ▸ rfl) rfl
      exact ⟨s2, hrest.trans hmore, hnone⟩

/-- An empty batch is written and queued. -/
theorem exists_queued (hq : s.Quiet) :
    ∃ s', Rest fresh work s s' ∧ s'.group = s.group ∧ s'.queue ≠ [] := by
  let s1 : State := { s with checked := s.checked ++ [⟨some []⟩] }
  have hwrite : s.step fresh (.write (some [])) = some s1 := rfl
  have hbatches : ∀ w ∈ s1.checked ++ s1.queue, w.batch.isSome = true := fun w hw => by
    rw [List.append_assoc, List.mem_append, List.singleton_append, List.mem_cons] at hw
    rcases hw with hw | rfl | hw
    · exact hq.batches w (List.mem_append_left _ hw)
    · rfl
    · exact hq.batches w (List.mem_append_right _ hw)
  have hrest : Rest fresh work s s1 := .of_cfs hq rfl hwrite rfl rfl rfl hbatches rfl
  have hlast : s1.checked[s.checked.length]? = some ⟨some []⟩ := List.getElem?_concat_length
  have henqueue : s1.step fresh (.enqueue s.checked.length) = some { s1 with
      checked := s1.checked.eraseIdx s.checked.length, queue := s1.queue ++ [⟨some []⟩] } := by
    simp only [State.step, hlast, Option.map_some]
  refine ⟨_, hrest.trans (.of_cfs hrest.quiet rfl henqueue rfl rfl rfl (fun w hw => ?_) rfl), rfl,
    List.append_ne_nil_of_right_ne_nil _ (List.cons_ne_nil _ _)⟩
  rcases List.mem_append.1 hw with hw | hw
  · exact hbatches w (List.mem_append_left _ (List.mem_of_mem_eraseIdx hw))
  · rcases List.mem_append.1 hw with hw | hw
    · exact hbatches w (List.mem_append_right _ hw)
    · rw [List.mem_singleton.1 hw]
      rfl

theorem compactMemTable_step (hk : Known s) {cf : ColumnFamily} (hcf : cf ∈ s.live)
    (himm : cf.imm = true) (toLevel0 : Bool) :
    ∃ s', s.step fresh (.compactMemTable cf.id toLevel0) = some s' ∧
      s' = { s.modify cf.id fun cf => { cf with
          imm := false, logNumber := cf.memLogNumber
          numLevel0Files := cf.numLevel0Files + if toLevel0 then 1 else 0 } with
        nextFileNumber := s.nextFileNumber + if cf.id = 0 then 1 else 0 } := by
  simp only [State.step, live?_of_mem hk hcf, Option.bind_some, himm, if_true]
  exact ⟨_, rfl, rfl⟩

/-- A compaction leaves fewer tables on level 0, and takes numbers. -/
theorem compact_step (hk : Known s) {cf : ColumnFamily} (hcf : cf ∈ s.live) {files : Nat}
    (hfiles : files ≤ cf.numLevel0Files) (numbers : Nat) :
    ∃ s', s.step fresh (.compact cf.id files numbers) = some s' ∧
      s' = { s.modify cf.id fun cf => { cf with numLevel0Files := files } with
        nextFileNumber := s.nextFileNumber + if cf.id = 0 then numbers else 0 } := by
  simp only [State.step, live?_of_mem hk hcf, Option.bind_some, if_pos hfiles]
  exact ⟨_, rfl, rfl⟩

/-- The immutable memtables of these families are flushed. -/
theorem exists_flushed (h : (system fresh).Reachable s) (hq : s.Quiet) (families : List Nat) :
    ∃ s', Rest fresh work s s' ∧ s'.group = s.group ∧ s'.queue = s.queue ∧
      ∀ cf ∈ s'.live, cf.id ∈ families → cf.imm = false := by
  induction families with
  | nil => exact ⟨s, .refl hq, rfl, rfl, fun _ _ => nofun⟩
  | cons f families ih =>
    obtain ⟨s1, hrest, hgroup, hqueue, hflushed⟩ := ih
    have hk := known_reachable (hrest.reachable h)
    by_cases hpending : ∃ cf ∈ s1.live, cf.id = f ∧ cf.imm = true
    · obtain ⟨cf, hcf, rfl, himm⟩ := hpending
      obtain ⟨s2, hs2, heq⟩ := @compactMemTable_step fresh s1 hk cf hcf himm work
      have hmore : Rest fresh work s1 s2 := by
        subst heq
        refine .of_modify hk hrest.quiet rfl hs2 hcf rfl (fun _ => rfl) ⟨rfl, rfl, ?_, rfl⟩ rfl rfl
          rfl rfl rfl
        simp only [ColumnFamily.coming, himm, Bool.and_true, Bool.and_false, Bool.false_eq_true,
          if_false, Nat.add_zero]
      refine ⟨s2, hrest.trans hmore, heq ▸ hgroup, heq ▸ hqueue, fun c hc hin => ?_⟩
      obtain ⟨hc, hlive⟩ := mem_live.1 hc
      rw [heq] at hc
      obtain ⟨c0, hc0, rfl⟩ := List.mem_map.1 hc
      by_cases hid : c0.id = cf.id
      · rw [if_pos hid]
      · rw [if_neg hid] at hin hlive ⊢
        rcases List.mem_cons.1 hin with hid' | hin
        · exact absurd hid' hid
        · exact hflushed c0 (mem_live.2 ⟨hc0, hlive⟩) hin
    · refine ⟨s1, hrest, hgroup, hqueue, fun c hc hin => ?_⟩
      rcases List.mem_cons.1 hin with hid | hin
      · exact Bool.eq_false_of_not_eq_true fun himm => hpending ⟨c, hc, hid, himm⟩
      · exact hflushed c hc hin

/-- The leader can turn, and no flush is under way. -/
structure Ready (s : State) : Prop where
  group : s.group = none
  queue : s.queue ≠ []
  imm : ∀ cf ∈ s.live, cf.imm = false

theorem exists_ready (h : (system fresh).Reachable s) (hq : s.Quiet) :
    ∃ s', Rest fresh work s s' ∧ Ready s' := by
  obtain ⟨s1, hr1, hg1⟩ := @exists_closed fresh work s hq
  obtain ⟨s2, hr2, hg2, hq2⟩ := @exists_queued fresh work s1 hr1.quiet
  have hrest := hr1.trans hr2
  obtain ⟨s3, hr3, hg3, hq3, hflushed⟩ :=
    @exists_flushed fresh work s2 (hrest.reachable h) hrest.quiet (s2.live.map (·.id))
  have hids : s3.live.map (·.id) = s2.live.map (·.id) := by
    have hview := congrArg (List.map Prod.fst) hr3.view
    rwa [State.view, State.view, List.map_map, List.map_map] at hview
  refine ⟨s3, hrest.trans hr3, hg3.trans (hg2.trans hg1), hq3 ▸ hq2, fun c hc => ?_⟩
  exact hflushed c hc (hids ▸ List.mem_map_of_mem hc)

/-- A compaction of any family leaves the leader ready. -/
theorem Ready.compact (h : Ready s) {family files number : Nat}
    (heq : s' = { s.modify family fun cf => { cf with numLevel0Files := files } with
      nextFileNumber := number }) : Ready s' := by
  subst heq
  refine ⟨h.group, h.queue, fun c hc => ?_⟩
  obtain ⟨hc, hlive⟩ := mem_live.1 hc
  obtain ⟨c0, hc0, rfl | ⟨-, rfl⟩⟩ := mem_modify hc
  · exact h.imm c (mem_live.2 ⟨hc0, hlive⟩)
  · exact h.imm c0 (mem_live.2 ⟨hc0, hlive⟩)

/-- A compaction of the default family takes numbers. -/
theorem exists_spare (h : (system fresh).Reachable s) (hq : s.Quiet) (hready : Ready s) :
    ∃ s', Rest fresh true s s' ∧ Ready s' ∧ s'.logfileNumber + kMaxLiveLogs < s'.nextFileNumber := by
  have hk := known_reachable h
  have hlogged := logged_reachable h
  obtain ⟨cf, hcf, hid⟩ := List.mem_map.1 hlogged.default
  obtain ⟨s1, hs1, heq⟩ := @compact_step fresh s hk cf hcf _ le_rfl kMaxLiveLogs
  refine ⟨s1, ?_, hready.compact heq, ?_⟩
  · subst heq
    exact .of_modify hk hq rfl hs1 hcf rfl (fun _ => rfl) ⟨rfl, rfl, rfl, rfl⟩ rfl rfl rfl rfl rfl
  · rw [heq]
    show s.logfileNumber + kMaxLiveLogs < s.nextFileNumber + if cf.id = 0 then kMaxLiveLogs else 0
    have hlt := hlogged.lt
    rw [if_pos hid]
    omega

/-- A family's level 0 is compacted, all that came to it included. -/
theorem exists_compacted (h : (system fresh).Reachable s) (hq : s.Quiet) {cf : ColumnFamily}
    (hcf : cf ∈ s.live) :
    ∃ s', (system fresh).StepsBy (State.Calm true) s s' ∧ s'.Quiet ∧ Ready s' ∧
      s'.logfileNumber + kMaxLiveLogs < s'.nextFileNumber ∧
      s'.logfileNumber = s.logfileNumber ∧ s'.switches = s.switches ∧
      s'.live.map (fun c => (c.id, c.memLogNumber, c.numLevel0Files)) =
        s.live.map fun c =>
          (c.id, c.memLogNumber, if c.id = cf.id then 0 else c.coming true) := by
  obtain ⟨s0, hrest, hready⟩ := @exists_ready fresh true s h hq
  obtain ⟨s1, hmore, hready, hspare⟩ := exists_spare (hrest.reachable h) hrest.quiet hready
  have hrest := hrest.trans hmore
  have hk := known_reachable (hrest.reachable h)
  have hview : (cf.id, cf.memLogNumber, cf.coming true) ∈ s1.view true := by
    rw [hrest.view]
    exact List.mem_map_of_mem hcf
  obtain ⟨c1, hc1, hc1eq⟩ := List.mem_map.1 hview
  have hid : c1.id = cf.id := (Prod.mk.inj hc1eq).1
  obtain ⟨s2, hs2, heq⟩ := @compact_step fresh s1 hk c1 hc1 0 (Nat.zero_le _) 0
  have hlive : s2.live = s1.live.map fun c => if c.id = c1.id then { c with numLevel0Files := 0 }
      else c := by
    rw [heq]
    refine live_map rfl fun c => ?_
    split
    · rfl
    · rfl
  refine ⟨s2, hrest.steps.trans (steps_single hrest.quiet rfl hs2), ⟨fun c hc => ?_, ?_, ?_⟩,
    hready.compact heq, ?_, ?_, ?_, ?_⟩
  · rw [hlive] at hc
    obtain ⟨c0, hc0, rfl⟩ := List.mem_map.1 hc
    split
    · exact hrest.quiet.fits c0 hc0
    · exact hrest.quiet.fits c0 hc0
  · exact heq ▸ hrest.quiet.batches
  · exact heq ▸ hrest.quiet.leader
  · rw [heq]
    exact hspare.trans_le (Nat.le_add_right _ _)
  · exact heq ▸ hrest.logfileNumber
  · exact heq ▸ hrest.switches
  · -- what comes to level 0 is there, once all flushes have ended
    have hview : s1.live.map (fun c => (c.id, c.memLogNumber,
        if c.id = cf.id then 0 else c.coming true)) = s.live.map fun c =>
          (c.id, c.memLogNumber, if c.id = cf.id then 0 else c.coming true) := by
      have hmap := congrArg (List.map fun v : Nat × Nat × Nat =>
        (v.1, v.2.1, if v.1 = cf.id then 0 else v.2.2)) hrest.view
      rwa [State.view, State.view, List.map_map, List.map_map] at hmap
    rw [← hview, hlive, List.map_map]
    refine List.map_congr_left fun c hc => ?_
    rw [Function.comp_apply, hid]
    split
    · rfl
    · rw [ColumnFamily.coming, hready.imm c hc]
      rfl

/-- **A turn**: the leader switches what lags, and waits or builds its group. -/
theorem exists_turn (hpos : 0 < fresh) (hsize : fresh ≤ minWriteBufferSize)
    (h : (system fresh).Reachable s) (hq : s.Quiet) (hready : Ready s) :
    ∃ done s', (system fresh).StepsBy (State.Calm work) s s' ∧ s'.Quiet ∧ Turning s done ∧
      (∀ cf ∈ s.live, s.lags cf = true → cf.numLevel0Files < kL0StopWritesTrigger →
        cf.id ∈ done) ∧
      s'.live = (s.turned fresh done).live ∧
      s'.logfileNumber = (s.turned fresh done).logfileNumber ∧
      s'.switches = s.switches + done.length := by
  have hlogged := logged_reachable h
  obtain ⟨w, ws, hqueue⟩ := List.exists_cons_of_ne_nil hready.queue
  obtain ⟨done, s1, l, v, hroom, hturned⟩ := makeRoom_turned hpos (known_reachable h) hlogged hq
    (hqueue ▸ List.mem_cons_self)
  obtain rfl := hturned.eq
  have hfits : ∀ cf ∈ (s.turned fresh done).live, cf.overflows = false := by
    intro cf hcf
    rw [live_turned] at hcf
    obtain ⟨c, hc, rfl⟩ := List.mem_map.1 hcf
    rw [ColumnFamily.turned]
    split
    · exact decide_eq_false (not_lt.2 (hsize.trans (hlogged.live hc).writeBufferSize))
    · exact hq.fits c hc
  have hsome : w.batch.isNone = false := by
    rw [Option.isNone_eq_false_iff]
    exact hq.batches w (List.mem_append_right _ (hqueue ▸ List.mem_cons_self))
  have hwait : ∀ l2 : Leader, l2.force = false →
      s.step fresh .waitForRoom = some { s.turned fresh done with leader := some l2 } →
      ∃ s', (system fresh).StepsBy (State.Calm work) s s' ∧ s'.Quiet ∧
        s'.live = (s.turned fresh done).live ∧
        s'.logfileNumber = (s.turned fresh done).logfileNumber ∧
        s'.switches = s.switches + done.length := fun l2 hforce hstep => by
    refine ⟨_, steps_single hq rfl hstep, ⟨hfits, hq.batches, fun l3 hl3 => ?_⟩, rfl, rfl, rfl⟩
    cases hl3
    exact hforce
  have hends : ∃ s', (system fresh).StepsBy (State.Calm work) s s' ∧ s'.Quiet ∧
      s'.live = (s.turned fresh done).live ∧
      s'.logfileNumber = (s.turned fresh done).logfileNumber ∧
      s'.switches = s.switches + done.length := by
    cases v with
    | switchMemTable family => exact absurd rfl (hturned.verdict family)
    | sleep =>
      refine hwait { l with allowDelay := false } hturned.force ?_
      simp only [State.step, hready.group, hqueue, hroom]
    | wait =>
      refine hwait l hturned.force ?_
      simp only [State.step, hready.group, hqueue, hroom]
    | room =>
      have hstep : s.step fresh (.capture 0) = some { s.turned fresh done with
          leader := none
          queue := ws
          group := some ⟨[w], (s.turned fresh done).live.map (·.id), false⟩ } := by
        simp only [State.step, hready.group, hqueue, hroom, hsome, Bool.false_eq_true, if_false,
          Nat.zero_le, if_true, List.drop_zero, List.take_zero]
      refine ⟨_, steps_single hq rfl hstep, ⟨hfits, fun w' hw' => hq.batches w' ?_, by simp⟩, rfl, rfl,
        rfl⟩
      rw [hqueue]
      exact (List.mem_append.1 hw').elim (List.mem_append_left _)
        fun hw' => List.mem_append_right _ (List.mem_cons_of_mem w hw')
  obtain ⟨s', hsteps, hquiet, hrest⟩ := hends
  exact ⟨done, s', hsteps, hquiet, hturned.turning, hturned.complete, hrest⟩

/-! ## States that do not settle -/

/-- No family's memtable is on an older log. -/
def State.Oldest (s : State) (cf : ColumnFamily) : Prop :=
  ∀ c ∈ s.live, cf.memLogNumber ≤ c.memLogNumber

/-- Flushes, a compaction of `family` and a turn of the leader: the families `done` get the logs
from `number` on. -/
structure Cycle (fresh : Nat) (s s' : State) (family number : Nat) (done : List Nat) : Prop where
  steps : (system fresh).StepsBy (State.Calm true) s s'
  quiet : s'.Quiet
  ahead : s.logfileNumber + kMaxLiveLogs < number
  live : s'.live.map (fun cf => (cf.id, cf.memLogNumber)) = s.live.map fun cf =>
    (cf.id, if cf.id ∈ done then number + done.idxOf cf.id else cf.memLogNumber)
  logfileNumber : s'.logfileNumber =
    if done = [] then s.logfileNumber else number + (done.length - 1)
  switches : s'.switches = s.switches + done.length
  nodup : done.Nodup
  oldest : ∀ f ∈ done, ∃ cf ∈ s.live, cf.id = f ∧ s.Oldest cf ∧
    (f = family ∨ cf.coming true < kL0StopWritesTrigger)
  complete : ∀ cf ∈ s.live, s.Oldest cf → cf.memLogNumber + kMaxLiveLogs < s.logfileNumber →
    cf.id = family ∨ cf.coming true < kL0StopWritesTrigger → cf.id ∈ done

/-- In a state ready for a turn, the families on the oldest log lag. -/
theorem Ready.lags_iff (hready : Ready s) (hlogged : Logged fresh s) {cf : ColumnFamily}
    (hcf : cf ∈ s.live) :
    s.lags cf = true ↔ s.Oldest cf ∧ cf.memLogNumber + kMaxLiveLogs < s.logfileNumber := by
  have hneeded : ∀ c ∈ s.live, c.neededLog = c.memLogNumber := fun c hc => by
    rw [(hlogged.live hc).neededLog, (hlogged.live hc).flushed (hready.imm c hc)]
  have hle := oldestLiveLog_le hcf
  rw [hneeded cf hcf] at hle
  rw [Room.lags_iff, le_oldestLiveLog]
  constructor
  · rintro ⟨⟨-, hold⟩, hfar⟩
    have hge := le_oldestLiveLog.2 ⟨(hlogged.live hcf).le, hold⟩
    refine ⟨fun c hc => hneeded c hc ▸ hold c hc, by omega⟩
  · rintro ⟨hold, hfar⟩
    exact ⟨⟨(hlogged.live hcf).le, fun c hc => (hneeded c hc).symm ▸ hold c hc⟩, by omega⟩

theorem exists_cycle (hpos : 0 < fresh) (hsize : fresh ≤ minWriteBufferSize)
    (h : (system fresh).Reachable s) (hq : s.Quiet) {cf : ColumnFamily} (hcf : cf ∈ s.live) :
    ∃ s' number done, Cycle fresh s s' cf.id number done := by
  obtain ⟨s1, hsteps, hquiet, hready, hspare, hlog, hswitches, hview⟩ := exists_compacted h hq hcf
  have hreach : (system fresh).Reachable s1 :=
    System.ReachableBy.steps h (hsteps.mono fun _ _ _ => trivial)
  have hlogged := logged_reachable hreach
  obtain ⟨done, s2, hmore, hquiet2, hturning, hcomplete, hlive, hlog2, hswitches2⟩ :=
    exists_turn hpos hsize hreach hquiet hready
  -- each family of one state is one of the other
  have hforth : ∀ c ∈ s.live, ∃ c1 ∈ s1.live, c1.id = c.id ∧ c1.memLogNumber = c.memLogNumber ∧
      c1.numLevel0Files = if c.id = cf.id then 0 else c.coming true := fun c hc => by
    obtain ⟨c1, hc1, heq⟩ := List.mem_map.1 (hview.symm ▸ List.mem_map_of_mem hc)
    simp only [Prod.mk.injEq] at heq
    exact ⟨c1, hc1, heq.1, heq.2.1, heq.2.2⟩
  have hback : ∀ c1 ∈ s1.live, ∃ c ∈ s.live, c1.id = c.id ∧ c1.memLogNumber = c.memLogNumber ∧
      c1.numLevel0Files = if c.id = cf.id then 0 else c.coming true := fun c1 hc1 => by
    obtain ⟨c, hc, heq⟩ := List.mem_map.1 (hview ▸ List.mem_map_of_mem hc1)
    simp only [Prod.mk.injEq] at heq
    exact ⟨c, hc, heq.1.symm, heq.2.1.symm, heq.2.2.symm⟩
  have holdest : ∀ c ∈ s.live, ∀ c1 : ColumnFamily, c1.memLogNumber = c.memLogNumber →
      (s1.Oldest c1 ↔ s.Oldest c) := fun c _ c1 heq => by
    constructor
    · intro hold c' hc'
      obtain ⟨c1', hc1', -, heq', -⟩ := hforth c' hc'
      rw [← heq, ← heq']
      exact hold c1' hc1'
    · intro hold c1' hc1'
      obtain ⟨c', hc', -, heq', -⟩ := hback c1' hc1'
      rw [heq, heq']
      exact hold c' hc'
  refine ⟨s2, s1.nextFileNumber, done, hsteps.trans hmore, hquiet2, hlog ▸ hspare, ?_, ?_,
    hswitches ▸ hswitches2, hturning.nodup, fun f hf => ?_, fun c hc hold hfar hlevel0 => ?_⟩
  · have hlogs := congrArg (List.map fun v : Nat × Nat × Nat =>
      (v.1, if v.1 ∈ done then s1.nextFileNumber + done.idxOf v.1 else v.2.1)) hview
    rw [List.map_map, List.map_map] at hlogs
    rw [hlive, live_turned, List.map_map]
    refine Eq.trans (List.map_congr_left fun c _ => ?_) hlogs
    rw [Function.comp_apply, Function.comp_apply, ColumnFamily.turned_id, ColumnFamily.turned]
    split
    · rfl
    · rfl
  · rw [hlog2, ← hlog]
    rfl
  · obtain ⟨c1, hc1, hid, hlags, hlevel0⟩ := hturning.lags f hf
    obtain ⟨c, hc, hid', heq, hfiles⟩ := hback c1 hc1
    have hold := ((hready.lags_iff hlogged hc1).1 hlags).1
    refine ⟨c, hc, hid' ▸ hid, (holdest c hc c1 heq).1 hold, ?_⟩
    split at hfiles
    · rename_i hfamily
      exact .inl ((hid.symm.trans hid').trans hfamily)
    · exact .inr (hfiles ▸ hlevel0)
  · obtain ⟨c1, hc1, hid, heq, hfiles⟩ := hforth c hc
    have hlags := (hready.lags_iff hlogged hc1).2
      ⟨(holdest c hc c1 heq).2 hold, by rw [heq, hlog]; exact hfar⟩
    rw [← hid]
    refine hcomplete c1 hc1 hlags ?_
    rw [hfiles]
    split
    · decide
    · rename_i hne
      exact hlevel0.resolve_left hne

theorem Cycle.mem_live {family number : Nat} {done : List Nat}
    (h : Cycle fresh s s' family number done) {cf : ColumnFamily} (hcf : cf ∈ s.live) :
    ∃ c ∈ s'.live, c.id = cf.id ∧ c.memLogNumber =
      if cf.id ∈ done then number + done.idxOf cf.id else cf.memLogNumber := by
  have hin : (cf.id, if cf.id ∈ done then number + done.idxOf cf.id else cf.memLogNumber) ∈
      s'.live.map fun cf => (cf.id, cf.memLogNumber) := by
    rw [h.live]
    exact List.mem_map.2 ⟨cf, hcf, rfl⟩
  obtain ⟨c, hc, heq⟩ := List.mem_map.1 hin
  rw [Prod.mk.injEq] at heq
  exact ⟨c, hc, heq.1, heq.2⟩

/-- Of two families, the one on the older log is far behind the log that is open: from here on, some
family will always be. -/
structure Restless (fresh : Nat) (s : State) : Prop where
  reachable : (system fresh).Reachable s
  quiet : s.Quiet
  behind : ∃ cf ∈ s.live, ∃ cf' ∈ s.live, cf.memLogNumber < cf'.memLogNumber ∧
    cf.memLogNumber + kMaxLiveLogs < s.logfileNumber

theorem Cycle.reachable {family number : Nat} {done : List Nat}
    (h : Cycle fresh s s' family number done) (hs : (system fresh).Reachable s) :
    (system fresh).Reachable s' :=
  System.ReachableBy.steps hs (h.steps.mono fun _ _ _ => trivial)

/-- A family that is switched while another is not leaves that one far behind. -/
theorem Cycle.restless {family number : Nat} {done : List Nat}
    (h : Cycle fresh s s' family number done) (hs : (system fresh).Reachable s)
    {cf cf' : ColumnFamily} (hcf : cf ∈ s.live) (hcf' : cf' ∈ s.live) (hdone : cf.id ∈ done)
    (hnot : cf'.id ∉ done) : Restless fresh s' := by
  obtain ⟨c, hc, -, hnumber⟩ := h.mem_live hcf
  obtain ⟨c', hc', -, hnumber'⟩ := h.mem_live hcf'
  have hle := ((logged_reachable hs).live hcf').le
  have hahead := h.ahead
  have hlog := h.logfileNumber
  rw [if_pos hdone] at hnumber
  rw [if_neg hnot] at hnumber'
  rw [if_neg (List.ne_nil_of_mem hdone)] at hlog
  exact ⟨h.reachable hs, h.quiet, c', hc', c, hc, by omega, by omega⟩

/-- The family furthest behind, if there is one. -/
theorem exists_oldest {cf : ColumnFamily} (hcf : cf ∈ s.live) : ∃ c ∈ s.live, s.Oldest c := by
  induction hlog : cf.memLogNumber using Nat.strong_induction_on generalizing cf with
  | _ number ih =>
    by_cases hold : s.Oldest cf
    · exact ⟨cf, hcf, hold⟩
    · rw [State.Oldest] at hold
      push Not at hold
      obtain ⟨c, hc, hlt⟩ := hold
      exact ih c.memLogNumber (hlog ▸ hlt) hc rfl

/-- **It goes on**: the family furthest behind is switched, and one of the others stays behind. -/
theorem Restless.next (hpos : 0 < fresh) (hsize : fresh ≤ minWriteBufferSize)
    (h : Restless fresh s) : ∃ s', (system fresh).StepsBy (State.Calm true) s s' ∧ Restless fresh s' ∧
      s.switches < s'.switches := by
  obtain ⟨cf, hcf, cf', hcf', hlt, hfar⟩ := h.behind
  obtain ⟨c, hc, hold⟩ := exists_oldest hcf
  obtain ⟨s', number, done, hcycle⟩ := exists_cycle hpos hsize h.reachable h.quiet hc
  have hle := hold cf hcf
  have hdone : c.id ∈ done := hcycle.complete c hc hold (by omega) (.inl rfl)
  have hnot : cf'.id ∉ done := fun hin => by
    obtain ⟨c', hc', hid, hold', -⟩ := hcycle.oldest _ hin
    have hk := known_reachable h.reachable
    rw [hk.eq_of_id (mem_live.1 hc').1 (mem_live.1 hcf').1 hid] at hold'
    have hge := hold' cf hcf
    omega
  refine ⟨s', hcycle.steps, hcycle.restless h.reachable hc hcf' hdone hnot, ?_⟩
  have hlength := List.length_pos_of_mem hdone
  have hswitches := hcycle.switches
  omega

/-- All families are on one log, but cannot all be switched at once, or are too many to be near each
other then. -/
theorem restless_of_equal (hpos : 0 < fresh) (hsize : fresh ≤ minWriteBufferSize)
    (h : (system fresh).Reachable s) (hq : s.Quiet)
    (hequal : ∀ cf ∈ s.live, ∀ cf' ∈ s.live, cf.memLogNumber = cf'.memLogNumber)
    {cf cf' : ColumnFamily} (hcf : cf ∈ s.live) (hcf' : cf' ∈ s.live) (hne : cf'.id ≠ cf.id)
    (hfar : cf.memLogNumber + kMaxLiveLogs < s.logfileNumber)
    (hmany : kL0StopWritesTrigger ≤ cf'.coming true ∨
      kMaxLiveLogs + 1 < s.live.length ∧ ∀ c ∈ s.live, c.coming true < kL0StopWritesTrigger) :
    ∃ s', (system fresh).StepsBy (State.Calm true) s s' ∧ Restless fresh s' ∧
      s.switches ≤ s'.switches := by
  have hk := known_reachable h
  obtain ⟨s', number, done, hcycle⟩ := exists_cycle hpos hsize h hq hcf
  have hold : ∀ c ∈ s.live, s.Oldest c := fun c hc c' hc' => (hequal c hc c' hc').le
  have hdone : cf.id ∈ done := hcycle.complete cf hcf (hold cf hcf) hfar (.inl rfl)
  have hswitches := hcycle.switches
  refine ⟨s', hcycle.steps, ?_, by omega⟩
  rcases hmany with hstop | ⟨hmany, hlevel0⟩
  · refine hcycle.restless h hcf hcf' hdone fun hin => ?_
    obtain ⟨c', hc', hid, -, hcase⟩ := hcycle.oldest _ hin
    rcases hcase with heq | hlt
    · exact hne heq
    · rw [hk.eq_of_id (mem_live.1 hc').1 (mem_live.1 hcf').1 hid] at hlt
      omega
  · have hall : s.live.map (·.id) ⊆ done := fun f hf => by
      obtain ⟨c, hc, rfl⟩ := List.mem_map.1 hf
      refine hcycle.complete c hc (hold c hc) ?_ (.inr (hlevel0 c hc))
      rw [hequal c hc cf hcf]
      exact hfar
    have hlength : s.live.length ≤ done.length := by
      have hle := hk.nodup_live.length_le_of_subset hall
      rwa [List.length_map] at hle
    have hlogs : kMaxLiveLogs = 3 := rfl
    obtain ⟨f, rest, hfs⟩ := List.exists_cons_of_length_pos (show 0 < done.length by omega)
    obtain ⟨f', fs, rfl⟩ := List.exists_cons_of_length_pos
      (show 0 < rest.length by rw [hfs, List.length_cons] at hlength; omega)
    obtain ⟨c, hc, hid, -⟩ := hcycle.oldest f (hfs ▸ List.mem_cons_self)
    obtain ⟨c', hc', hid', -⟩ := hcycle.oldest f' (hfs ▸ List.mem_cons_of_mem f List.mem_cons_self)
    obtain ⟨d, hd, -, hnumber⟩ := hcycle.mem_live hc
    obtain ⟨d', hd', -, hnumber'⟩ := hcycle.mem_live hc'
    have hlog := hcycle.logfileNumber
    have hne' : f ≠ f' := fun heq => by
      have hnodup := hcycle.nodup
      rw [hfs, heq] at hnodup
      exact (List.nodup_cons.1 hnodup).1 List.mem_cons_self
    have hidx : done.idxOf f = 0 := by rw [hfs, List.idxOf_cons_self]
    have hidx' : done.idxOf f' = 1 := by
      rw [hfs, List.idxOf_cons_ne _ hne', List.idxOf_cons_self]
    rw [hid, if_pos (hfs ▸ List.mem_cons_self), hidx] at hnumber
    rw [hid', if_pos (hfs ▸ List.mem_cons_of_mem f List.mem_cons_self), hidx'] at hnumber'
    rw [if_neg (List.ne_nil_of_mem hdone)] at hlog
    exact ⟨hcycle.reachable h, hcycle.quiet, d, hd, d', hd', by omega, by omega⟩

theorem exists_other (hk : Known s) (hlength : 1 < s.live.length) (cf : ColumnFamily) :
    ∃ cf' ∈ s.live, cf'.id ≠ cf.id := by
  apply Classical.byContradiction
  intro hnone
  push Not at hnone
  have hsub : s.live.map (·.id) ⊆ [cf.id] := fun f hf => by
    obtain ⟨c, hc, rfl⟩ := List.mem_map.1 hf
    exact List.mem_singleton.2 (hnone c hc)
  have hle := hk.nodup_live.length_le_of_subset hsub
  rw [List.length_map, List.length_singleton] at hle
  omega

/-- A state that does not settle leads to a restless one. -/
theorem exists_restless (hpos : 0 < fresh) (hsize : fresh ≤ minWriteBufferSize)
    (h : (system fresh).Reachable s) (hq : s.Quiet) (hnot : ¬ s.Settles) :
    ∃ s', (system fresh).StepsBy (State.Calm true) s s' ∧ Restless fresh s' ∧
      s.switches ≤ s'.switches := by
  rw [State.Settles, not_or, not_or] at hnot
  obtain ⟨hfar, hmany, hbad⟩ := hnot
  push Not at hfar
  obtain ⟨cf, hcf, hfar⟩ := hfar
  by_cases hequal : ∀ c ∈ s.live, ∀ c' ∈ s.live, c.memLogNumber = c'.memLogNumber
  swap
  · -- the oldest family is behind one of the others
    push Not at hequal
    obtain ⟨c, hc, c', hc', hne⟩ := hequal
    obtain ⟨d, hd, hold⟩ := exists_oldest hcf
    have hle := hold cf hcf
    have hlec := hold c hc
    have hlec' := hold c' hc'
    refine ⟨s, .refl, ⟨h, hq, ?_⟩, le_rfl⟩
    rcases Nat.lt_or_ge d.memLogNumber c.memLogNumber with hlt | hge
    · exact ⟨d, hd, c, hc, hlt, by omega⟩
    · exact ⟨d, hd, c', hc', by omega, by omega⟩
  by_cases hstop : ∃ cf' ∈ s.live, kL0StopWritesTrigger ≤ cf'.coming true
  · obtain ⟨cf', hcf', hstop⟩ := hstop
    obtain ⟨c, hc, hne⟩ := exists_other (known_reachable h) (Nat.lt_of_not_le hmany) cf'
    refine restless_of_equal hpos hsize h hq hequal hc hcf' hne.symm ?_ (.inl hstop)
    rw [hequal c hc cf hcf]
    exact hfar
  · push Not at hstop
    have hlength : kMaxLiveLogs + 1 < s.live.length := by
      apply Nat.lt_of_not_le
      intro hle
      exact hbad ⟨hle, hequal, hstop⟩
    obtain ⟨c, hc, hne⟩ := exists_other (known_reachable h) (Nat.lt_of_not_le hmany) cf
    exact restless_of_equal hpos hsize h hq hequal hcf hc hne hfar (.inr ⟨hlength, hstop⟩)

/-- From a state that does not settle, some run makes more switches than any bound. -/
theorem exists_switches (hpos : 0 < fresh) (hsize : fresh ≤ minWriteBufferSize)
    (h : (system fresh).Reachable s) (hq : s.Quiet) (hnot : ¬ s.Settles) (n : Nat) :
    ∃ s', (system fresh).StepsBy (State.Calm true) s s' ∧ s.switches + n ≤ s'.switches := by
  obtain ⟨s1, hsteps, hrestless, hle⟩ := exists_restless hpos hsize h hq hnot
  obtain ⟨s2, hmore, -, hn⟩ := System.StepsBy.unbounded (·.switches)
    (fun _ h => h.next hpos hsize) hrestless n
  exact ⟨s2, hsteps.trans hmore, by omega⟩

/-- **When log switching settles**: the switches of all calm runs from a state are bounded exactly if
the state settles; the bound is that of `switches_le` then. -/
theorem settles_iff (hpos : 0 < fresh) (hsize : fresh ≤ minWriteBufferSize)
    (h : (system fresh).Reachable s) (hq : s.Quiet) :
    (∃ bound, ∀ s', (system fresh).StepsBy (State.Calm true) s s' →
      s'.switches ≤ s.switches + bound) ↔ s.Settles := by
  constructor
  · rintro ⟨bound, hbound⟩
    apply Classical.byContradiction
    intro hnot
    obtain ⟨s', hsteps, hn⟩ := exists_switches hpos hsize h hq hnot (bound + 1)
    have hle := hbound s' hsteps
    omega
  · intro hsettles
    exact ⟨kMaxLiveLogs + 1, fun s' => switches_le hpos h hsettles⟩

/-! ## More families than logs may live -/

/-- All families are on logs of their own, and there are more of them than logs may live. -/
structure Rotating (fresh : Nat) (s : State) : Prop where
  reachable : (system fresh).Reachable s
  quiet : s.Quiet
  logs : (s.live.map (·.memLogNumber)).Nodup
  many : kMaxLiveLogs + 1 < s.live.length
  level0 : ∀ cf ∈ s.live, cf.numLevel0Files < kL0StopWritesTrigger

theorem Rotating.rest (h : Rotating fresh s) (hrest : Rest fresh false s s') :
    Rotating fresh s' := by
  have hlogs := congrArg (List.map fun v : Nat × Nat × Nat => v.2.1) hrest.view
  have hlength := congrArg List.length hrest.view
  rw [State.view, State.view, List.map_map, List.map_map] at hlogs
  rw [State.view, State.view, List.length_map, List.length_map] at hlength
  refine ⟨hrest.reachable h.reachable, hrest.quiet, ?_, hlength ▸ h.many, fun cf hcf => ?_⟩
  · rw [show s'.live.map (·.memLogNumber) = _ from hlogs]
    exact h.logs
  · have hview : (cf.id, cf.memLogNumber, cf.coming false) ∈ s.view false := by
      rw [← hrest.view]
      exact List.mem_map_of_mem hcf
    obtain ⟨c, hc, heq⟩ := List.mem_map.1 hview
    simp only [Prod.mk.injEq] at heq
    rw [show cf.numLevel0Files = c.numLevel0Files from heq.2.2.symm]
    exact h.level0 c hc

/-- The oldest of them lags. -/
theorem Rotating.far (h : Rotating fresh s) {cf : ColumnFamily} (hold : s.Oldest cf) :
    cf.memLogNumber + kMaxLiveLogs < s.logfileNumber := by
  have hsub : s.live.map (·.memLogNumber) ⊆
      List.range' cf.memLogNumber (s.logfileNumber + 1 - cf.memLogNumber) := fun m hm => by
    obtain ⟨c, hc, rfl⟩ := List.mem_map.1 hm
    have hge := hold c hc
    have hle := ((logged_reachable h.reachable).live hc).le
    rw [List.mem_range'_1]
    omega
  have hle := h.logs.length_le_of_subset hsub
  rw [List.length_map, List.length_range'] at hle
  have hmany := h.many
  omega

/-- Families switched in turn stay on logs of their own. -/
theorem Rotating.nodup_turned (h : Rotating fresh s) {done : List Nat} (hturning : Turning s done) :
    ((s.turned fresh done).live.map (·.memLogNumber)).Nodup := by
  have hk := known_reachable h.reachable
  have hlogged := logged_reachable h.reachable
  have hinj : ∀ c ∈ s.live, ∀ c' ∈ s.live, c.memLogNumber = c'.memLogNumber → c = c' :=
    fun c hc c' hc' => List.inj_on_of_nodup_map h.logs hc hc'
  have hoff : ∀ c ∈ s.live, ∀ c' : ColumnFamily, c.memLogNumber ≠
      (c'.switched fresh (s.nextFileNumber + done.idxOf c'.id)).memLogNumber := fun c hc c' heq => by
    have hle := (hlogged.live hc).le
    have hlt := hlogged.lt
    have heq : c.memLogNumber = s.nextFileNumber + done.idxOf c'.id := heq
    omega
  rw [live_turned, List.map_map]
  refine h.logs.of_map.map_on fun c hc c' hc' heq => ?_
  rw [Function.comp_apply, Function.comp_apply] at heq
  by_cases hin : c.id ∈ done
  · by_cases hin' : c'.id ∈ done
    · -- both held the oldest log
      obtain ⟨-, -, hold⟩ := hlogged.of_lags hc (hturning.of_mem hk hc hin).1
      obtain ⟨-, -, hold'⟩ := hlogged.of_lags hc' (hturning.of_mem hk hc' hin').1
      exact hinj c hc c' hc' (hold.trans hold'.symm)
    · rw [ColumnFamily.turned_of_mem hin, ColumnFamily.turned_of_not_mem hin'] at heq
      exact absurd heq.symm (hoff c' hc' c)
  · by_cases hin' : c'.id ∈ done
    · rw [ColumnFamily.turned_of_not_mem hin, ColumnFamily.turned_of_mem hin'] at heq
      exact absurd heq (hoff c hc c')
    · rw [ColumnFamily.turned_of_not_mem hin, ColumnFamily.turned_of_not_mem hin'] at heq
      exact hinj c hc c' hc' heq

/-- **They are switched in turn for ever**, though nothing but empty batches is written and nothing
is compacted. -/
theorem Rotating.next (hpos : 0 < fresh) (hsize : fresh ≤ minWriteBufferSize)
    (h : Rotating fresh s) : ∃ s', (system fresh).StepsBy (State.Calm false) s s' ∧
      Rotating fresh s' ∧ s.switches < s'.switches := by
  obtain ⟨s1, hrest, hready⟩ := @exists_ready fresh false s h.reachable h.quiet
  have h1 := h.rest hrest
  obtain ⟨done, s2, hsteps, hquiet, hturning, hcomplete, hlive, -, hswitches⟩ :=
    @exists_turn fresh false s1 hpos hsize h1.reachable h1.quiet hready
  obtain ⟨cf, hcf⟩ := List.exists_mem_of_length_pos (Nat.zero_lt_of_lt h1.many)
  obtain ⟨c, hc, hold⟩ := exists_oldest hcf
  have hlags := (hready.lags_iff (logged_reachable h1.reachable) hc).2 ⟨hold, h1.far hold⟩
  have hdone := hcomplete c hc hlags (h1.level0 c hc)
  refine ⟨s2, hrest.steps.trans hsteps, ⟨?_, hquiet, ?_, ?_, fun c' hc' => ?_⟩, ?_⟩
  · exact System.ReachableBy.steps h1.reachable (hsteps.mono fun _ _ _ => trivial)
  · rw [hlive]
    exact h1.nodup_turned hturning
  · rw [hlive, live_turned, List.length_map]
    exact h1.many
  · rw [hlive, live_turned] at hc'
    obtain ⟨c0, hc0, rfl⟩ := List.mem_map.1 hc'
    rw [ColumnFamily.turned]
    split
    · exact h1.level0 c0 hc0
    · exact h1.level0 c0 hc0
  · have hlength := List.length_pos_of_mem hdone
    have heq := hrest.switches
    omega

theorem Rotating.switches (hpos : 0 < fresh) (hsize : fresh ≤ minWriteBufferSize)
    (h : Rotating fresh s) (n : Nat) :
    ∃ s', (system fresh).StepsBy (State.Calm false) s s' ∧ s.switches + n ≤ s'.switches := by
  obtain ⟨s', hsteps, -, hn⟩ := System.StepsBy.unbounded (·.switches)
    (fun _ h => h.next hpos hsize) h n
  exact ⟨s', hsteps, hn⟩

theorem calm_of_false {a : Action} (h : s.Calm false a) : s.Calm true a := by
  refine ⟨h.1, ?_⟩
  have ha := h.2
  cases a with
  | compact family files numbers => rfl
  | _ => exact ha

/-! ## Two runs -/

theorem quiet_openedDefault : openedDefault.Quiet := by
  refine ⟨fun cf hcf => ?_, nofun, nofun⟩
  rw [List.mem_singleton.1 hcf]
  rfl

theorem settles_iff_openedDefault : ∃ bound, ∀ s',
    (system 4104).StepsBy (State.Calm true) openedDefault s' → s'.switches ≤ 0 + bound := by
  refine (settles_iff (by decide) (by decide) (.init init_openedDefault) quiet_openedDefault).2 ?_
  exact .inr (.inl (by decide))

/-- A batch of the default family fills its memtable, and an empty one is written. -/
def fillRun : List Action :=
  [.write (some [0]), .enqueue 0, .capture 0, .insert fun _ => 2 ^ 16, .close]

/-- Four families more; the memtable of the default family is full three times. -/
def rotatingRun : List Action :=
  List.replicate 4 (.createColumnFamily minWriteBufferSize) ++
    List.replicate 4 (.commitColumnFamily 0) ++ fillRun ++ fillRun ++ [.compactMemTable 0 false] ++
    fillRun ++ [.compactMemTable 0 false, .write (some [0]), .enqueue 0, .capture 0]

/-- **Five families are switched again and again.** -/
theorem not_settles : ¬ ∀ s, (system 4104).Reachable s → s.Quiet →
    ∃ bound, ∀ s', (system 4104).StepsBy (State.Calm true) s s' →
      s'.switches ≤ s.switches + bound := by
  intro hall
  have hrun : ((system 4104).run openedDefault rotatingRun).any (fun s =>
      decide (∀ cf ∈ s.live, cf.overflows = false) &&
      decide (∀ w ∈ s.checked ++ s.queue, w.batch.isSome = true) && s.leader.isNone &&
      decide (s.live.map (·.memLogNumber)).Nodup &&
      decide (kMaxLiveLogs + 1 < s.live.length) &&
      decide (∀ cf ∈ s.live, cf.numLevel0Files < kL0StopWritesTrigger)) = true := by
    decide +kernel
  obtain ⟨s, hs, hany⟩ := (Option.any_eq_true _ _).1 hrun
  simp only [Bool.and_eq_true, decide_eq_true_eq, Option.isNone_iff_eq_none] at hany
  obtain ⟨⟨⟨⟨⟨hfits, hbatches⟩, hleader⟩, hlogs⟩, hmany⟩, hlevel0⟩ := hany
  have hinit : (system 4104).Reachable openedDefault := .init init_openedDefault
  have hreach := hinit.run hs
  have hquiet : s.Quiet := ⟨hfits, hbatches, hleader ▸ nofun⟩
  obtain ⟨bound, hbound⟩ := hall s hreach hquiet
  have hrotating : Rotating 4104 s := ⟨hreach, hquiet, hlogs, hmany, hlevel0⟩
  obtain ⟨s', hsteps, hn⟩ := hrotating.switches (by decide) (by decide) (bound + 1)
  have hle := hbound s' (hsteps.mono fun _ _ => calm_of_false)
  omega

end LevelDb.Room
