import LevelDb.Proof.Phases

/-!
# The workloads of the recipes, and `Next`

The steps of the recipes keep the bounds: `RecentId` is asked only when there is a recent id, and the
purge stays behind the head. A call of `Next` keeps them for every workload, and ends when `Permute`
does (`next_inv`).
-/

namespace LevelDb.Bench.Phases

open Hoare

section
variable {c : Config} {stuck : Prop} {w : Workload}

/-! ## The recipes -/

theorem otherLoadStep_stays (hc : c.Ok) : Stays c stuck (otherLoadStep c) w :=
  (batch_idle _).bind_stays fun _ _ _ => loadLoop_stays hc _

theorem require_idle {ok : Bool} (hok : ok = true) : Idle stuck (require ok) w := by
  unfold Idle require
  rw [wp_modify, hok]
  unfold Workload.cursors
  rw [Bool.and_true]

/-- A subtraction that has a result. -/
theorem minus_draws {a b : UInt64} (h : b ≤ a) : Draws stuck (minus a b) (· = a - b) w := by
  apply wp.bind (require_idle (decide_eq_true h))
  intro _ w1 hw
  exact ⟨rfl, hw⟩

/-- **`RecentId` has a range** to choose from, and an id in it. -/
theorem recentId_draws (hlt : w.purgeNext < w.head) :
    Draws stuck recentId (fun id => w.purgeNext ≤ id ∧ id < w.head) w := by
  unfold Draws recentId
  rw [wp_bind, wp_get]
  apply wp.bind (require_idle (decide_eq_true hlt))
  intro _ w1 hw1
  apply wp.bind (minus_draws (by grind))
  intro live w2 hw2
  apply wp.bind (minus_draws (by grind))
  intro last w3 hw3
  obtain ⟨rfl, hw2⟩ := hw2
  obtain ⟨rfl, hw3⟩ := hw3
  apply wp.bind (below_draws (n := if w.head - w.purgeNext = 0 then 1 else w.head - w.purgeNext)
    (by grind))
  intro r w4 hw4
  have hr := hw4.1
  apply (minus_draws (by grind)).imp
  intro id w5 hw5
  obtain ⟨rfl, hw5⟩ := hw5
  refine ⟨?_, hw5.trans (hw4.2.trans (hw3.trans (hw2.trans hw1)))⟩
  grind

theorem Idle.ite {α : Type} {p : Prop} [Decidable p] {x y : Gen α} (hx : p → Idle stuck x w)
    (hy : ¬p → Idle stuck y w) : Idle stuck (if p then x else y) w := by
  split
  · exact hx ‹_›
  · exact hy ‹_›

theorem choose_idle {percent : UInt64} {x y : Gen UInt64}
    (hx : ∀ w', w'.cursors = w.cursors → Idle stuck x w')
    (hy : ∀ w', w'.cursors = w.cursors → Idle stuck y w') : Idle stuck (choose percent x y) w := by
  apply (chance_idle percent).bind
  intro b w1 hw
  exact Idle.ite (fun _ => hx w1 hw) fun _ => hy w1 hw

theorem scatterHotId_idle : Idle stuck (scatterHotId c) w := rfl

theorem sampleId_idle {recent x : Gen UInt64}
    (hrecent : ∀ w', w'.cursors = w.cursors → w.purgeNext < w.head → Idle stuck recent w')
    (hx : ∀ w', w'.cursors = w.cursors → Idle stuck x w') : Idle stuck (sampleId c recent x) w := by
  unfold Idle sampleId
  rw [wp_bind, wp_get]
  apply Idle.ite
  · intro hlive
    exact hrecent w rfl hlive.2
  · intro _
    apply Idle.ite (fun _ => ?_) fun _ => hx w rfl
    exact choose_idle (fun _ _ => scatterHotId_idle) hx

/-- `RecentId` in a state with the cursors of one that has recent ids. -/
theorem recentId_idle {w' : Workload} (hw : w'.cursors = w.cursors) (h : w.purgeNext < w.head) :
    Idle stuck recentId w' := by
  have hpurge : w'.purgeNext = w.purgeNext := congrArg Cursors.purgeNext hw
  have hhead : w'.head = w.head := congrArg Cursors.head hw
  rw [← hpurge, ← hhead] at h
  exact (recentId_draws h).idle

theorem snapSampleId_idle : Idle stuck (snapSampleId c) w :=
  sampleId_idle (fun _ hw h => recentId_idle hw h) fun _ _ => existingId_draws_any.idle

theorem otherReadId_idle : Idle stuck (otherReadId c) w := by
  apply sampleId_idle
  · intro w1 hw h
    exact choose_idle (fun _ hw' => recentId_idle (hw'.trans hw) h) fun _ _ =>
      (below_draws_any _).idle
  · intro _ _
    exact (readId_draws c).idle

theorem scanId_idle : Idle stuck (scanId c) w := by
  unfold Idle scanId
  rw [wp_bind, wp_get]
  exact Idle.ite (fun h => recentId_idle rfl h.2) fun _ => (below_draws_any _).idle

theorem mainSnapStep_idle {phase : Char} : Idle stuck (mainSnapStep c phase) w := by
  unfold Idle mainSnapStep
  rw [wp_bind, wp_get]
  exact Idle.ite (fun _ => snapStep_idle fun _ _ _ => snapSampleId_idle) fun _ => pure_idle

/-! ## The writes of the recipes -/

theorem countSub_stays {ext : Bool} : Stays c stuck (countSub ext) w := by
  unfold countSub
  exact Stays.ite (fun _ => pure_idle.stays) fun _ => nextSub_stays

theorem scatterHotId_draws (hload : 0 < c.shape.nLoad) :
    Draws stuck (scatterHotId c) (· < c.shape.nLoad) w := ⟨UInt64.mod_lt _ hload, rfl⟩

theorem nextCursor_draws (hload : 0 < c.shape.nLoad) :
    Draws stuck (do return (← nextCursor) % c.shape.nLoad) (· < c.shape.nLoad) w :=
  ⟨UInt64.mod_lt _ hload, rfl⟩

theorem Draws.imp {x : Gen UInt64} {P Q : UInt64 → Prop} (h : Draws stuck x P w)
    (hPQ : ∀ id, P id → Q id) : Draws stuck x Q w :=
  wp.imp h fun _ _ h => ⟨hPQ _ h.1, h.2⟩

section
variable (hc : c.Ok)
include hc

theorem writeId_draws (hload : 0 < c.shape.nLoad) :
    Draws stuck (writeId c) (· < c.shape.universeSize) w := by
  have hloaded : ∀ id, id < c.shape.nLoad → id < c.shape.universeSize := by
    intro id hid
    have hle := hc.loaded
    grind
  unfold writeId
  split
  · apply Draws.imp _ hloaded
    exact Draws.choose (fun _ _ => scatterHotId_draws hload) fun _ _ => below_draws hload
  · exact (nextCursor_draws hload).imp hloaded
  · exact below_draws hc.nonempty
  · rw [if_neg (by grind)]
    exact (below_draws hload).imp hloaded

omit hc in
theorem nextHead_stays (hhead : w.head < c.shape.universeSize) {f : UInt64 → Gen Unit}
    (hf : ∀ w', Stays c stuck (f w.head) w') : Stays c stuck (nextHead >>= f) w := by
  intro h
  have hpurged : w.purgeNext ≤ w.head := h.purged
  have hnext : Cursors.Ok c { w.cursors with head := w.head + 1 } :=
    { h with
      head := show w.head + 1 ≤ c.shape.universeSize by grind
      purged := show w.purgeNext ≤ w.head + 1 by grind }
  exact hf _ hnext

theorem lowId_stays (hdist : (recipeOf c.kind).dist = .bimodal) :
    Stays c stuck (do addPut (c.hotLo + (← below c.shape.nHot))) w := by
  obtain ⟨hhot, hpos⟩ := hc.bimodal hdist
  have hload := UInt64.le_iff_toNat_le.1 hc.loaded
  have hmax := c.shape.universeSize.toNat_lt
  apply Draws.bind_stays fun _ => below_draws hpos
  intro r w1 hr _
  apply addPut_stays
  rw [UInt64.lt_iff_toNat_lt] at hr ⊢
  rw [UInt64.toNat_add]
  omega

theorem mainOp_stays (hkind : c.kind ≠ .mixed) (hdist : (recipeOf c.kind).dist ≠ .append) :
    Stays c stuck (mainOp c) w := by
  unfold mainOp
  apply (chance_idle _).bind_stays
  intro del w1 _
  apply Stays.ite (fun _ => delExisting_stays hc)
  intro _
  apply Stays.ite
  · intro hbimodal
    apply (chance_idle _).bind_stays
    intro low w2 _
    apply Stays.get
    apply Stays.ite (fun _ => lowId_stays hc hbimodal)
    intro hhead
    rw [Bool.or_eq_true, decide_eq_true_eq, not_or, UInt64.not_le] at hhead
    exact nextHead_stays hhead.2 fun _ => addPut_stays hhead.2
  · intro _
    apply Draws.bind_stays fun _ => writeId_draws hc (hc.other hkind hdist)
    intro id w2 hid _
    exact addPut_stays hid

/-! ## Appends -/

theorem isLate_spec {ext : Bool} : wp stuck (isLate c ext) (fun late w' => w'.cursors = w.cursors ∧
    (late = true → 0 < w'.head) ∧ (late = false → w'.head < c.shape.universeSize)) w := by
  have hnonempty := hc.nonempty
  unfold isLate
  rw [wp_bind, wp_get, wp_ite]
  refine ⟨fun h => ⟨rfl, nofun, fun _ => by rw [h]; exact hnonempty⟩, fun hne => ?_⟩
  have hpos : 0 < w.head := by grind
  rw [wp_ite]
  refine ⟨fun _ => ⟨rfl, fun _ => hpos, nofun⟩, fun hroom => ?_⟩
  apply wp.imp (chance_idle _)
  intro late w1 hw
  have hhead : w1.head = w.head := congrArg Cursors.head hw
  rw [hhead]
  exact ⟨hw, fun _ => hpos, fun _ => UInt64.not_le.1 (not_or.1 hroom).2⟩

end

theorem correct_stays (hpos : 0 < w.head) : Stays c stuck (correct c) w := by
  intro h
  have hhead : w.head ≤ c.shape.universeSize := h.head
  have hpurged : w.purgeNext ≤ w.head := h.purged
  unfold correct
  rw [wp_bind, wp_get]
  revert h
  apply Draws.bind_stays fun _ => minus_draws hpurged
  intro back w1 hback hw1
  apply Stays.ite (fun _ => pure_idle.stays)
  intro hne
  apply Draws.bind_stays fun _ => minus_draws (show 1 ≤ w.head by grind)
  intro last w2 hlast _
  apply Draws.bind_stays fun _ => below_draws (n := if c.shape.lag < back then c.shape.lag else back)
    (by grind)
  intro r w3 hr _
  have hback : r < w.head - w.purgeNext := by grind
  apply Draws.bind_stays fun _ => minus_draws (show r ≤ last by grind)
  intro id w4 hid _
  exact addPut_stays (by grind)

theorem purgeDue_spec (h : w.cursors.Ok c) : wp stuck (purgeDue c) (fun due w' =>
    w'.cursors = w.cursors ∧ (due = true → w'.purgeNext < w'.head)) w := by
  have hpurged : w.purgeNext ≤ w.head := h.purged
  unfold purgeDue
  rw [wp_bind, wp_get, wp_ite]
  refine ⟨fun hwindow => ?_, fun _ => ⟨rfl, nofun⟩⟩
  apply wp.bind (minus_draws hpurged)
  intro live w1 hw
  obtain ⟨rfl, hw⟩ := hw
  have hpurge : w1.purgeNext = w.purgeNext := congrArg Cursors.purgeNext hw
  have hhead : w1.head = w.head := congrArg Cursors.head hw
  refine ⟨hw, fun hdue => ?_⟩
  have hlive := (of_decide_eq_true hdue).1
  rw [hpurge, hhead]
  grind

/-- The oldest id is deleted. -/
theorem purge_stays (hpos : 3 ≤ w.pos) (hlt : w.purgeNext < w.head) : Stays c stuck (do
    addDel (← get).purgeNext
    modify fun w => { w with purgeNext := w.purgeNext + 1 }) w := by
  intro h
  have hhead : w.head ≤ c.shape.universeSize := h.head
  have hdel := h.del (show w.purgeNext < c.shape.universeSize by grind)
  refine ⟨{ hdel with purged := ?_, fresh := ?_ }, rfl⟩
  · show w.purgeNext + 1 ≤ w.head
    grind
  · intro hle
    change w.pos ≤ 2 at hle
    omega

theorem appendBatch_stays (hc : c.Ok) (ext : Bool) (hpos : 3 ≤ w.pos) :
    Stays c stuck (appendBatch c ext) w := by
  unfold appendBatch
  apply Stays.bind
  · apply Stays.loop fun w' _ => always_spec w'
    intro _ w1 _ _ h
    apply wp.bind (isLate_spec hc)
    intro late w2 hw2
    obtain ⟨heq, hlate, hroom⟩ := hw2
    have hpos2 : w2.pos = w1.pos := congrArg Cursors.pos heq
    rw [← heq] at h
    rw [← hpos2]
    revert h
    apply Stays.ite
    · intro hl
      exact correct_stays (hlate hl)
    · intro hl
      have hhead := hroom (Bool.eq_false_iff.2 hl)
      exact nextHead_stays hhead fun _ => (addPut_stays hhead).bind fun _ _ _ => countSub_stays
  · intro _ w1 hpos1
    apply Stays.loop fun w' h => purgeDue_spec h
    intro _ w2 hpos2 hlt
    exact purge_stays (by omega) hlt

/-! ## The steps of the recipes -/

section
variable (hc : c.Ok) (hkind : c.kind ≠ .mixed) (hpos : 3 ≤ w.pos)
include hc hkind hpos

theorem mainBatch_stays {phase : Char} : Stays c stuck (mainBatch c phase) w := by
  unfold mainBatch
  apply (modify_idle rfl).bind_stays
  intro _ w1 hw1
  apply (batch_idle phase).bind_stays
  intro _ w2 hw2
  have hpos2 : w2.pos = w.pos := congrArg Cursors.pos (hw2.trans hw1)
  apply Stays.ite (fun _ => appendBatch_stays hc _ (by omega))
  intro hdist
  apply (below_draws_any _).idle.bind_stays
  intro n w3 _
  apply Stays.loop (C := fun _ => True)
  · intro w4 _
    split
    · exact always_spec w4
    · apply (subBelow_spec _ w4).imp
      intro _ _ h
      exact ⟨h.1, fun _ => trivial⟩
  · intro _ w4 _ _
    exact (mainOp_stays hc hkind hdist).bind fun _ _ _ => countSub_stays

theorem otherMainStep_stays {phase : Char} : Stays c stuck (otherMainStep c phase) w := by
  unfold otherMainStep
  apply mainSnapStep_idle.bind_stays
  intro b w1 hw1
  have hpos1 : w1.pos = w.pos := congrArg Cursors.pos hw1
  apply Stays.ite (fun _ => pure_idle.stays)
  intro _
  apply Stays.ite
  · intro _
    apply Stays.get
    apply Stays.ite
    · intro _
      apply (modify_idle rfl).bind_stays
      intro _ w2 _
      exact (readStep_idle otherReadId_idle).stays
    · intro _
      apply (modify_idle rfl).bind_stays
      intro _ w2 hw2
      apply (modify_idle rfl).bind_stays
      intro _ w3 hw3
      have hpos3 : w3.pos = w1.pos := congrArg Cursors.pos (hw3.trans hw2)
      exact mainBatch_stays hc hkind (by omega)
  · intro _
    apply (below_draws_any 100).idle.bind_stays
    intro roll w2 hw2
    have hpos2 : w2.pos = w1.pos := congrArg Cursors.pos hw2
    apply Stays.ite (fun _ => (readStep_idle otherReadId_idle).stays)
    intro _
    apply Stays.ite
    · intro _
      apply scanId_idle.bind_stays
      intro id w3 _
      apply (below_draws_any _).idle.bind_stays
      intro more w4 _
      exact (modify_idle rfl).stays
    · intro _
      exact mainBatch_stays hc hkind (by omega)

end

/-! ## Next -/

/-- What holds between two calls. -/
structure Inv (c : Config) (w : Workload) : Prop where
  ok : w.cursors.Ok c
  few : c.kind = .mixed → 4 ≤ w.pos ∨ w.pos = 3 ∧ w.sub ≠ 0 → c.shape.nInsert.toNat ≤ 2 ^ 62

/-- How many rounds of the loop of `Next` may end without a step. -/
def turnsLeft (pos : Nat) : Nat := if pos = 0 then 2 else pos % 2

/-- What a round of the loop does. -/
def Turns (c : Config) (w : Workload) (r : Option Bool) (w' : Workload) : Prop :=
  Inv c w' ∧ (r = none → turnsLeft w'.pos < turnsLeft w.pos)

theorem Inv.goTo {pos : Nat} (h : Inv c w) (hpos : pos = w.pos + 1)
    (hfew : c.kind = .mixed → w.pos = 3 → c.shape.nInsert.toNat ≤ 2 ^ 62) :
    Inv c { w with pos := pos, sub := 0 } where
  ok := { h.ok with fresh := fun hle => h.ok.fresh (show w.pos ≤ 2 by change pos ≤ 2 at hle; omega) }
  few := by
    intro hkind hafter
    rcases hafter with hge | ⟨-, hsub⟩
    · change 4 ≤ pos at hge
      by_cases h3 : w.pos = 3
      · exact hfew hkind h3
      · exact h.few hkind (.inl (by omega))
    · exact absurd rfl hsub

/-- The end of a phase. -/
theorem goTo_turns {pos : Nat} (h : Inv c w) (hpos : pos = w.pos + 1) (hodd : w.pos % 2 = 1)
    (hfew : c.kind = .mixed → w.pos = 3 → c.shape.nInsert.toNat ≤ 2 ^ 62) :
    wp stuck (do goTo pos; return none) (Turns c w) w := by
  refine ⟨h.goTo hpos hfew, fun _ => ?_⟩
  show turnsLeft pos < turnsLeft w.pos
  unfold turnsLeft
  split <;> split <;> omega

/-- The beginning of a phase. -/
theorem marker_turns {pos : Nat} {phase : Char} (h : Inv c w) (hpos : pos = w.pos + 1)
    (h3 : w.pos ≠ 3) : wp stuck (do goTo pos; marker phase; return some true) (Turns c w) w := by
  have hgo := h.goTo hpos fun _ h => absurd h h3
  exact ⟨{ hgo with ok := { hgo.ok with } }, nofun⟩

/-- A step of a phase. -/
theorem step_turns {x : Gen Unit} (h : Inv c w) (h3 : c.kind = .mixed → w.pos ≠ 3)
    (hx : Stays c stuck x w) : wp stuck (do x; return some true) (Turns c w) w := by
  apply wp.bind (hx h.ok)
  intro _ w' hw
  refine ⟨⟨hw.1, fun hkind hafter => h.few hkind ?_⟩, nofun⟩
  rw [hw.2] at hafter
  exact hafter.imp_right fun h => absurd h.1 (h3 hkind)

/-- The check of the last snapshot of a phase. -/
theorem snapCheck_turns {phase : Char} (h : Inv c w) :
    wp stuck (do snapCheck phase; return some true) (Turns c w) w :=
  ⟨{ h with ok := { h.ok with } }, nofun⟩

/-- Phase X begins once it is allowed. -/
theorem extension_turns {pos : Nat} {phase : Char} (h : Inv c w) (hpos : 4 ≤ w.pos)
    (hle : w.pos ≤ pos) :
    wp stuck (if !w.allowExtension then return some false
      else do
        modify fun w => { w with pos := pos }
        marker phase
        return some true) (Turns c w) w := by
  rw [wp_ite]
  refine ⟨fun _ => ⟨h, nofun⟩, fun _ => ⟨⟨{ h.ok with fresh := ?_ }, ?_⟩, nofun⟩⟩
  · intro hsmall
    change pos ≤ 2 at hsmall
    omega
  · intro hkind _
    exact h.few hkind (.inl hpos)

/-- Phase X. -/
theorem endless_turns {x : Gen Unit} (h : Inv c w) (h3 : w.pos ≠ 3) (hx : Stays c stuck x w) :
    wp stuck (if !w.allowExtension then return some false
      else do
        x
        return some true) (Turns c w) w := by
  rw [wp_ite]
  exact ⟨fun _ => ⟨h, nofun⟩, fun _ => step_turns h (fun _ => h3) hx⟩

/-- A phase with writes and snapshots. -/
theorem phase_turns {n : UInt64} {pos : Nat} {phase : Char} {x : Gen Unit} (h : Inv c w)
    (hpos : pos = w.pos + 1) (hodd : w.pos % 2 = 1) (h3 : c.kind = .mixed → w.pos ≠ 3)
    (hx : Stays c stuck x w) :
    wp stuck (if n ≤ w.sub then
        if w.snapPending then do snapCheck phase; return some true else do goTo pos; return none
      else do
        x
        return some true) (Turns c w) w := by
  rw [wp_ite, wp_ite]
  exact ⟨fun _ => ⟨fun _ => snapCheck_turns h,
    fun _ => goTo_turns h hpos hodd fun hk h => absurd h (h3 hk)⟩, fun _ => step_turns h h3 hx⟩

theorem mixedTurn_turns (hc : c.Ok) (hkind : c.kind = .mixed) {fuel : Nat}
    (hstuck : ∀ i < c.shape.nInsert, permute fuel c.permKey i c.shape.nInsert = none → stuck)
    (h : Inv c w) : wp stuck (mixedTurn c fuel) (Turns c w) w := by
  have hspans : 4 ≤ w.pos → c.Spans := fun hpos => hc.mixed hkind (h.few hkind (.inl hpos))
  unfold mixedTurn
  rw [wp_bind, wp_get]
  split
  · rename_i hpos
    exact marker_turns h (by omega) (by omega)
  · rename_i hpos
    rw [wp_ite]
    exact ⟨fun _ => goTo_turns h (by omega) (by omega) (by omega),
      fun _ => step_turns h (by omega) (loadStep_stays hc)⟩
  · rename_i hpos
    exact marker_turns h (by omega) (by omega)
  · rename_i hpos
    rw [wp_ite]
    constructor
    · intro hend
      apply goTo_turns h (by omega) (by omega)
      intro _ _
      by_cases hsub : w.sub = 0
      · rw [UInt64.le_iff_toNat_le, hsub] at hend
        exact hend.trans (Nat.zero_le _)
      · exact h.few hkind (.inr ⟨hpos, hsub⟩)
    · intro _
      apply wp.bind (insertStep_stays hc hkind hstuck h.ok fun hsub => h.few hkind (.inr ⟨hpos, hsub⟩))
      intro _ w' hw
      obtain ⟨⟨hok, hpos'⟩, hfew⟩ := hw
      refine ⟨⟨hok, fun _ hafter => ?_⟩, nofun⟩
      rcases hafter with hge | hsub
      · omega
      · exact hfew hsub.2
  · rename_i hpos
    exact marker_turns h (by omega) (by omega)
  · rename_i hpos
    exact phase_turns h (by omega) (by omega) (by omega) (updateStep_stays hc (hspans (by omega)))
  · rename_i hpos
    exact marker_turns h (by omega) (by omega)
  · rename_i hpos
    rw [wp_ite]
    exact ⟨fun _ => goTo_turns h (by omega) (by omega) (by omega),
      fun _ => step_turns h (by omega) (deleteStep_stays hc (hspans (by omega)))⟩
  · rename_i hpos
    have hgo := @Inv.goTo c w 9 h (by omega) (by omega)
    exact ⟨{ hgo with ok := { hgo.ok with } }, nofun⟩
  · rename_i hpos
    exact phase_turns h (by omega) (by omega) (by omega) (mixedStep_stays hc (hspans (by omega)))
  · rename_i hpos
    exact extension_turns h (by omega) (by omega)
  · have hpos : 11 ≤ w.pos := by grind
    exact endless_turns h (by omega) (extensionStep_stays hc (hspans (by omega)))

theorem otherTurn_turns (hc : c.Ok) (hkind : c.kind ≠ .mixed) (h : Inv c w) :
    wp stuck (otherTurn c) (Turns c w) w := by
  unfold otherTurn
  rw [wp_bind, wp_get]
  split
  · rename_i hpos
    have hgo := @Inv.goTo c w 1 h (by omega) (fun hk => absurd hk hkind)
    rw [wp_bind]
    show wp stuck _ _ { w with pos := 1, sub := 0 }
    rw [wp_ite]
    refine ⟨fun _ => ⟨hgo, fun _ => ?_⟩, fun _ => ⟨{ hgo with ok := { hgo.ok with } }, nofun⟩⟩
    rw [hpos]
    show turnsLeft 1 < turnsLeft 0
    decide
  · rename_i hpos
    rw [wp_ite]
    exact ⟨fun _ => goTo_turns h (by omega) (by omega) (by omega),
      fun _ => step_turns h (by omega) (otherLoadStep_stays hc)⟩
  · rename_i hpos
    have hgo := @Inv.goTo c w 3 h (by omega) (by omega)
    have hpurged : w.purgeNext = 0 := h.ok.fresh (show w.pos ≤ 2 by omega)
    refine ⟨{ hgo with ok := { hgo.ok with head := hc.loaded, purged := ?_ } }, nofun⟩
    show w.purgeNext ≤ c.shape.nLoad
    rw [hpurged]
    exact UInt64.zero_le
  · rename_i hpos
    rw [wp_ite, wp_ite]
    refine ⟨fun _ => ⟨fun _ => snapCheck_turns h, fun _ => ?_⟩,
      fun _ => step_turns h (absurd · hkind) (otherMainStep_stays hc hkind (by omega))⟩
    refine ⟨⟨{ h.ok with fresh := ?_ }, fun hk => absurd hk hkind⟩, fun _ => ?_⟩
    · intro hle
      change 4 ≤ 2 at hle
      omega
    · rw [hpos]
      show turnsLeft 4 < turnsLeft 3
      decide
  · rename_i hpos
    exact extension_turns h (by omega) (by omega)
  · have hpos : 5 ≤ w.pos := by grind
    exact endless_turns h (by omega) (otherMainStep_stays hc hkind (by omega))

/-- **A call of `Next`** keeps the bounds. -/
theorem next_inv (hc : c.Ok) {fuel : Nat}
    (hstuck : ∀ i < c.shape.nInsert, permute fuel c.permKey i c.shape.nInsert = none → stuck)
    (hfuel : fuel ≤ 2 → stuck) (h : Inv c w) : wp stuck (next c fuel) (fun _ w' => Inv c w') w := by
  have hclear : Inv c { w with st.ops := [], st.ids := [], st.count := 0, st.id := 0 } :=
    { h with ok := { h.ok with ops := nofun } }
  have hleft : ∀ w1 : Workload, turnsLeft w1.pos ≤ 2 := by
    intro w1
    unfold turnsLeft
    split <;> omega
  have hloop : ∀ (turn : Gen (Option Bool)), (∀ w1, Inv c w1 → wp stuck turn (Turns c w1) w1) →
      ∀ w1, Inv c w1 → wp stuck (untilSome turn fuel) (fun _ w' => Inv c w') w1 := by
    intro turn hturn w1 h1
    apply wp_untilSome (I := fun k w2 => Inv c w2 ∧ turnsLeft w2.pos = k) _
      (fun hle => hfuel (hle.trans (hleft w1))) ⟨h1, rfl⟩
    intro k w2 hw2
    obtain ⟨hinv, rfl⟩ := hw2
    apply (hturn w2 hinv).imp
    intro r w3 hw3
    exact ⟨fun _ _ => hw3.1, fun hr => ⟨_, hw3.2 hr, hw3.1, rfl⟩⟩
  unfold next
  rw [wp_bind, wp_modify, wp_ite]
  constructor
  · intro hkind
    exact hloop _ (fun _ => otherTurn_turns hc hkind) _ hclear
  · intro hkind
    exact hloop _ (fun _ => mixedTurn_turns hc (not_not.1 hkind) hstuck) _ hclear

end

end LevelDb.Bench.Phases
