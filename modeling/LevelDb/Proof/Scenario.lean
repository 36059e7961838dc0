import LevelDb.Db.Scenario

/-!
# The generator's count of the snapshots

`next_cases` says what an operation does to the count, `length_perform` what it does to the snapshots
held. They agree on every operation but one: the generator takes a drop to release all snapshots, and
the runner keeps them. So the count is right just in the scenarios where no family is dropped while a
snapshot is held (`held_reachable`).
-/

namespace LevelDb.Conf

open Transition

/-! ## What is drawn -/

/-- Whatever the draws are, the result is so. -/
def Gives {α : Type} (m : Gen α) (P : α → Prop) : Prop := ∀ d, P (m.run d).1

theorem Gives.pure {α : Type} {P : α → Prop} {a : α} (h : P a) : Gives (Pure.pure a) P := fun _ => h

theorem Gives.bind {α β : Type} {P : β → Prop} {m : Gen α} {f : α → Gen β}
    (h : ∀ a, Gives (f a) P) : Gives (m >>= f) P := fun d => h (m.run d).1 (m.run d).2

theorem Gives.ite {α : Type} {P : α → Prop} {c : Prop} [Decidable c] {m n : Gen α} (hm : Gives m P)
    (hn : Gives n P) : Gives (if c then m else n) P := by
  split
  · exact hm
  · exact hn

theorem below_lt {n : Nat} (hn : 0 < n) : Gives (below n) (· < n) := by
  intro d
  show (if n = 0 then (0, d) else _).1 < n
  rw [if_neg (Nat.pos_iff_ne_zero.1 hn)]
  exact Nat.mod_lt _ hn

/-- The operations that both sides take to leave the snapshots alone. -/
def ConfOpKind.Plain : ConfOpKind → Prop
  | .write => True
  | .gets => True
  | .walk => True
  | .scan => True
  | .compact => True
  | _ => False

namespace ScenarioGen

theorem singleWrite_plain (g : ScenarioGen) (family : Nat) :
    Gives (g.singleWrite family) fun op => op.kind.Plain :=
  .bind fun _ => .bind fun _ => .pure trivial

theorem batch_plain (g : ScenarioGen) (family : Nat) :
    Gives (g.batch family) fun op => op.kind.Plain :=
  .bind fun _ => .bind fun _ => .ite (.bind fun _ => .bind fun _ => .pure trivial)
    (.bind fun _ => .bind fun _ => .pure trivial)

theorem singleMerge_plain (g : ScenarioGen) (family : Nat) :
    Gives (g.singleMerge family) fun op => op.kind.Plain :=
  .bind fun _ => .ite (.bind fun _ => .bind fun _ => .bind fun _ => .pure trivial)
    (.bind fun _ => .bind fun _ => .bind fun _ => .pure trivial)

theorem singleRange_plain (g : ScenarioGen) (family : Nat) :
    Gives (g.singleRange family) fun op => op.kind.Plain := by
  have hstop (span id : Nat) : Gives (do
      let stop ← if ← chance 5 then (fun back => id - back) <$> below (id + 1)
        else pure (id + (1 + span))
      return ({ kind := .write, single := true, family,
                writes := [{ kind := .deleteRange, id, stop, family }] } : ConfOp))
      fun op => op.kind.Plain :=
    .bind fun _ => .ite (.bind fun _ => .pure trivial) (.bind fun _ => .pure trivial)
  exact .bind fun id => .bind fun _ => .ite (.bind fun span => hstop span id)
    (.bind fun span => hstop span id)

theorem clearRange_plain (g : ScenarioGen) (models : ConfModels) (family : Nat) :
    Gives (g.clearRange models family) fun op => op.kind.Plain := by
  refine .bind fun lo => .bind fun hi => .bind fun ranged => .ite ?_ ?_
  · refine .bind fun _ => .bind fun _ => .bind fun _ => .bind fun _ => .bind fun more => ?_
    exact .ite (.bind fun _ => .bind fun _ => .bind fun _ => .pure trivial)
      (.bind fun _ => .pure trivial)
  · exact .bind fun _ => .bind fun _ => .pure trivial

theorem burst_plain (g : ScenarioGen) (family : Nat) :
    Gives (g.burst family) fun op => op.kind.Plain :=
  .bind fun _ => .bind fun _ => .bind fun _ => .pure trivial

theorem plainOp_plain (g : ScenarioGen) (models : ConfModels) (roll family : Nat) :
    Gives (g.plainOp models roll family) fun op => op.kind.Plain :=
  .ite (singleWrite_plain g family) <| .ite (batch_plain g family) <|
    .ite (singleMerge_plain g family) <| .ite (singleRange_plain g family) <|
    .ite (clearRange_plain g models family) <| .ite (.bind fun _ => .pure trivial) <|
    .ite (.bind fun _ => .bind fun _ => .pure trivial) <| .ite (.pure trivial) <|
    .ite (.bind fun _ => .ite (.pure trivial) (.bind fun _ => .bind fun _ => .pure trivial))
      (burst_plain g family)

end ScenarioGen

/-- What a drawn operation does to the count of the snapshots. -/
inductive Counts (n : Nat) (op : ConfOp) : Nat → Prop
  | plain : op.kind.Plain → Counts n op n
  | create : op.kind = .create → Counts n op n
  | drop : op.kind = .drop → Counts n op 0
  | reopen : op.kind = .reopen → Counts n op 0
  | take : op.kind = .snapTake → n < 3 → Counts n op (n + 1)
  | check : op.kind = .snapCheck → op.id < n → Counts n op (n - 1)

namespace ScenarioGen

theorem snapOp_counts (g : ScenarioGen) (family : Nat) :
    Counts g.snapsOpen (g.snapOp family).1 (g.snapOp family).2.snapsOpen := by
  unfold snapOp
  generalize hcheck : StateT.run (if 0 < g.snapsOpen then
    if 3 ≤ g.snapsOpen then pure true else chance 45 else pure false) g.draws = check
  obtain ⟨checked, draws⟩ := check
  dsimp only
  cases checked with
  | true =>
    have hopen : 0 < g.snapsOpen := by
      by_contra hnone
      rw [if_neg hnone] at hcheck
      cases hcheck
    rw [if_pos rfl]
    exact .check rfl (below_lt hopen draws)
  | false =>
    have hfew : g.snapsOpen < 3 := by
      by_contra hmany
      rw [if_pos (by omega), if_pos (by omega)] at hcheck
      cases hcheck
    rw [if_neg Bool.false_ne_true]
    exact .take rfl hfew

theorem familyOp_counts (g : ScenarioGen) (models : ConfModels) (roll : Nat) :
    Counts g.snapsOpen (g.familyOp models roll).1 (g.familyOp models roll).2.snapsOpen := by
  unfold familyOp
  generalize g.pickFamily.run g.draws = family
  dsimp only
  split
  · exact snapOp_counts { g with draws := family.2 } family.1
  · split
    · exact .reopen rfl
    · exact .plain (plainOp_plain _ models roll _ _)

theorem ddlOp_counts (g : ScenarioGen) (models : ConfModels) :
    Counts g.snapsOpen (g.ddlOp models).1 (g.ddlOp models).2.snapsOpen := by
  unfold ddlOp
  generalize (chance 60).run g.draws = create
  obtain ⟨create, draws⟩ := create
  dsimp only
  split
  · cases create with
    | true => exact .create rfl
    | false => exact .drop rfl
  · exact familyOp_counts { g with draws } models 50

/-- **Every operation** of the generator. -/
theorem next_counts {g g' : ScenarioGen} {models : ConfModels} {op : ConfOp}
    (h : g.next models = some (op, g')) : Counts g.snapsOpen op g'.snapsOpen := by
  unfold next at h
  generalize (below 100).run g.draws = roll at h
  split at h
  · cases h
  · rw [Option.some_inj] at h
    dsimp only at h
    split at h
    · have hall := ddlOp_counts { g with done := g.done + 1, draws := roll.2 } models
      rwa [h] at hall
    · have hall := familyOp_counts { g with done := g.done + 1, draws := roll.2 } models roll.1
      rwa [h] at hall

end ScenarioGen

/-! ## The runner -/

namespace Scenario

variable {s s' : Scenario} {op : ConfOp} {well : Bool}

@[simp] theorem applied_snaps (s : Scenario) (op : ConfOp) (well : Bool) :
    (s.applied op well).snaps = s.snaps := by
  unfold applied
  split
  · rfl
  · rfl

@[simp] theorem applied_gen (s : Scenario) (op : ConfOp) (well : Bool) :
    (s.applied op well).gen = s.gen := by
  unfold applied
  split
  · rfl
  · rfl

theorem perform_gen (s : Scenario) (op : ConfOp) (well : Bool) : (s.perform op well).gen = s.gen := by
  unfold perform
  cases op.kind with
  | snapCheck =>
    dsimp only
    split
    · rfl
    · rfl
  | write => exact applied_gen s op well
  | create => exact applied_gen s op well
  | drop => exact applied_gen _ op well
  | gets => rfl
  | walk => rfl
  | scan => rfl
  | compact => rfl
  | snapTake => rfl
  | reopen => rfl

/-- What is held after an operation that leaves the snapshots alone. -/
theorem length_perform_plain (h : op.kind.Plain) :
    (s.perform op well).snaps.length = s.snaps.length := by
  unfold perform
  cases hkind : op.kind with
  | write => exact congrArg _ (applied_snaps s op well)
  | gets => rfl
  | walk => rfl
  | scan => rfl
  | compact => rfl
  | snapTake => simp [hkind, ConfOpKind.Plain] at h
  | snapCheck => simp [hkind, ConfOpKind.Plain] at h
  | reopen => simp [hkind, ConfOpKind.Plain] at h
  | create => simp [hkind, ConfOpKind.Plain] at h
  | drop => simp [hkind, ConfOpKind.Plain] at h

/-- A drop releases nothing. -/
theorem length_perform_drop (h : op.kind = .drop) :
    (s.perform op well).snaps.length = s.snaps.length := by
  unfold perform
  rw [h]
  dsimp only
  rw [applied_snaps, List.length_map]

/-- The count is right, and a check that comes is of a snapshot that is held. -/
def Held (s : Scenario) : Prop :=
  s.snaps.length = s.gen.snapsOpen ∧ s.gen.snapsOpen ≤ 3 ∧
    ∀ op g, s.gen.next s.models = some (op, g) → op.kind = .snapCheck → op.id < s.snaps.length

/-- No family is dropped now while a snapshot is held. -/
def Clean (s : Scenario) : Prop :=
  ∀ op g, s.gen.next s.models = some (op, g) → op.kind = .drop → s.snaps = []

theorem held_of_count (hcount : s.snaps.length = s.gen.snapsOpen) (hle : s.gen.snapsOpen ≤ 3) :
    s.Held := by
  refine ⟨hcount, hle, fun op g hnext hkind => ?_⟩
  have hcounts := ScenarioGen.next_counts hnext
  generalize g.snapsOpen = n at hcounts
  rw [hcount]
  cases hcounts with
  | check _ hid => exact hid
  | plain h => simp [hkind, ConfOpKind.Plain] at h
  | create h => simp [hkind] at h
  | drop h => simp [hkind] at h
  | reopen h => simp [hkind] at h
  | take h => simp [hkind] at h

/-- A step makes the operation drawn. -/
theorem step_cases (h : s.step well = some s') : ∃ op g, s.ok = true ∧
    s.gen.next s.models = some (op, g) ∧
      s' = perform { s with gen := g, opno := s.opno + 1 } op well := by
  unfold step at h
  split at h
  · rename_i hok
    obtain ⟨⟨op, g⟩, hnext, hs⟩ := Option.map_eq_some_iff.1 h
    exact ⟨op, g, hok, hnext, hs.symm⟩
  · cases h

/-- **A step keeps the count right** unless it drops a family under a snapshot. -/
theorem step_held (hs : s.Held) (hclean : s.Clean) (h : s.step well = some s') : s'.Held := by
  obtain ⟨op, g, -, hnext, rfl⟩ := step_cases h
  obtain ⟨hcount, hle, hcheck⟩ := hs
  have hcounts := ScenarioGen.next_counts hnext
  apply held_of_count
  · rw [perform_gen]
    show _ = g.snapsOpen
    generalize g.snapsOpen = n at hcounts
    cases hcounts with
    | plain hkind => rw [length_perform_plain hkind, ← hcount]
    | create hkind =>
      unfold perform
      rw [hkind]
      dsimp only
      rw [applied_snaps, ← hcount]
    | drop hkind =>
      rw [length_perform_drop hkind]
      show s.snaps.length = 0
      rw [hclean op g hnext hkind]
      rfl
    | reopen hkind =>
      unfold perform
      rw [hkind]
      rfl
    | take hkind hlt =>
      unfold perform
      rw [hkind]
      dsimp only
      rw [List.length_append, hcount]
      rfl
    | check hkind hid =>
      unfold perform
      rw [hkind]
      dsimp only
      rw [← hcount] at hid
      rw [if_pos hid]
      dsimp only
      rw [List.length_eraseIdx_of_lt hid, hcount]
  · rw [perform_gen]
    show g.snapsOpen ≤ 3
    generalize g.snapsOpen = n at hcounts
    cases hcounts with
    | plain => exact hle
    | create => exact hle
    | drop => exact Nat.zero_le 3
    | reopen => exact Nat.zero_le 3
    | take _ hlt => exact hlt
    | check => omega

/-- A step that drops a family under a snapshot leaves the count wrong. -/
theorem not_held_of_drop {op : ConfOp} {g : ScenarioGen} (hok : s.ok = true)
    (hnext : s.gen.next s.models = some (op, g)) (hkind : op.kind = .drop) (hsnaps : s.snaps ≠ []) :
    ∃ s', s.step well = some s' ∧ ¬ s'.Held := by
  refine ⟨perform { s with gen := g, opno := s.opno + 1 } op well, ?_, ?_⟩
  · unfold step
    rw [if_pos hok, hnext]
    rfl
  · rintro ⟨hcount, -⟩
    have hcounts := ScenarioGen.next_counts hnext
    rw [length_perform_drop hkind, perform_gen] at hcount
    change s.snaps.length = g.snapsOpen at hcount
    have hzero : g.snapsOpen = 0 := by
      generalize g.snapsOpen = n at hcounts
      cases hcounts with
      | drop => rfl
      | plain h => simp [hkind, ConfOpKind.Plain] at h
      | create h => simp [hkind] at h
      | reopen h => simp [hkind] at h
      | take h => simp [hkind] at h
      | check h => simp [hkind] at h
    rw [hzero] at hcount
    exact hsnaps (List.eq_nil_of_length_eq_zero hcount)

end Scenario

/-- **The generator and the runner agree** in every run in which no family is dropped while a snapshot
is held; and in a scenario they always agree just if it has no such drop. -/
theorem held_reachable (seed : UInt64) (ops : Nat) (ext : Bool) :
    (∀ s, (scenario seed ops ext).ReachableBy (fun s _ => s.Clean) s → s.Held) ∧
      ((∀ s, (scenario seed ops ext).Reachable s → s.Held) ↔
        ∀ s, (scenario seed ops ext).Reachable s → s.ok = true → s.Clean) := by
  have hinit : ∀ s, (scenario seed ops ext).init s → s.Held := by
    rintro s rfl
    exact Scenario.held_of_count rfl (Nat.zero_le 3)
  refine ⟨fun s hs => ?_, fun hall s hs hok op g hnext hkind => ?_, fun hall s hs => ?_⟩
  · exact hs.invariant hinit fun s well s' hheld hclean hstep =>
      Scenario.step_held hheld hclean hstep
  · by_contra hsnaps
    obtain ⟨s', hstep, hnot⟩ := @Scenario.not_held_of_drop s true op g hok hnext hkind hsnaps
    exact hnot (hall s' (hs.step true hstep))
  · have hclean : (scenario seed ops ext).ReachableBy (fun s _ => s.Clean) s := by
      induction hs with
      | init h => exact .init h
      | step well hprev _ hstep ih =>
        obtain ⟨op, g, hok, -⟩ := Scenario.step_cases hstep
        exact .step well ih (hall _ hprev hok) hstep
    exact hclean.invariant hinit fun s well s' hheld hclean hstep =>
      Scenario.step_held hheld hclean hstep

/-- A scenario of three operations: a family is created, a snapshot is taken, the family is dropped. -/
theorem count_after_drop :
    ((scenario 2413 3 true).run { gen := .new 2413 3 true } [true, true, true]).map
      (fun s => (s.snaps.length, s.gen.snapsOpen)) = some (1, 0) := by
  decide +kernel

/-- **The count is wrong** after that scenario: the snapshot is held on. -/
theorem not_held_reachable :
    ¬ ∀ (seed : UInt64) (ops : Nat) (ext : Bool) (s : Scenario),
      (scenario seed ops ext).Reachable s → s.snaps.length = s.gen.snapsOpen := by
  intro h
  obtain ⟨s, hrun, hs⟩ := Option.map_eq_some_iff.1 count_after_drop
  have hreach : (scenario 2413 3 true).Reachable s :=
    System.Reachable.run (System.Reachable.init rfl) hrun
  have hcount := h 2413 3 true s hreach
  rw [Prod.mk.injEq] at hs
  omega

end LevelDb.Conf
