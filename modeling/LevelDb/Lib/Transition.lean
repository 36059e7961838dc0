/-!
# Transition systems

A system is a set of initial states and a partial step function: `step s a = none` says that the
action is not possible in the state. `ReachableBy ok` are the states that runs reach when all their
steps meet `ok` (a condition on the state before the step and on the action); `Reachable` asks
nothing of the steps. What one step keeps, every run keeps (`ReachableBy.invariant`), also relative
to what is known already (`ReachableBy.invariant_of`); a concrete run is replayed by `runBy`. Runs
from a state on are `StepsBy`.
-/

namespace Transition

universe u v

structure System (S : Type u) (A : Type v) where
  init : S → Prop
  step : S → A → Option S

namespace System

variable {S : Type u} {A : Type v} {sys : System S A} {ok ok' : S → A → Prop} {s s' : S}

/-- The states of the runs whose steps all meet `ok`. -/
inductive ReachableBy (sys : System S A) (ok : S → A → Prop) : S → Prop
  | init {s : S} : sys.init s → ReachableBy sys ok s
  | step {s s' : S} (a : A) :
      ReachableBy sys ok s → ok s a → sys.step s a = some s' → ReachableBy sys ok s'

/-- The states of all runs. -/
def Reachable (sys : System S A) : S → Prop := sys.ReachableBy fun _ _ => True

theorem Reachable.init (h : sys.init s) : sys.Reachable s := ReachableBy.init h

theorem Reachable.step (h : sys.Reachable s) (a : A) (ha : sys.step s a = some s') :
    sys.Reachable s' := ReachableBy.step a h trivial ha

theorem ReachableBy.mono (hok : ∀ s a, ok s a → ok' s a) (h : sys.ReachableBy ok s) :
    sys.ReachableBy ok' s := by
  induction h with
  | init h => exact .init h
  | step a _ ha hstep ih => exact .step a ih (hok _ _ ha) hstep

theorem ReachableBy.reachable (h : sys.ReachableBy ok s) : sys.Reachable s :=
  h.mono fun _ _ _ => trivial

/-- **The induction over a run**: what holds at first and is kept by every step that meets `ok`
holds throughout. -/
theorem ReachableBy.invariant {P : S → Prop} (h : sys.ReachableBy ok s)
    (hinit : ∀ s, sys.init s → P s)
    (hstep : ∀ s a s', P s → ok s a → sys.step s a = some s' → P s') : P s := by
  induction h with
  | init h => exact hinit _ h
  | step a _ ha hs ih => exact hstep _ a _ ih ha hs

/-- The same with an invariant `J` of all runs at hand. -/
theorem ReachableBy.invariant_of {P J : S → Prop} (hJ : ∀ s, sys.Reachable s → J s)
    (h : sys.ReachableBy ok s) (hinit : ∀ s, sys.init s → P s)
    (hstep : ∀ s a s', J s → P s → ok s a → sys.step s a = some s' → P s') : P s := by
  induction h with
  | init h => exact hinit _ h
  | step a hr ha hs ih => exact hstep _ a _ (hJ _ hr.reachable) ih ha hs

theorem Reachable.invariant {P : S → Prop} (h : sys.Reachable s) (hinit : ∀ s, sys.init s → P s)
    (hstep : ∀ s a s', P s → sys.step s a = some s' → P s') : P s :=
  ReachableBy.invariant h hinit fun s a s' hP _ => hstep s a s' hP

/-- **A system over another**: where each step is one of the other system in what `p` shows, or does
not show there, what the other system cannot reach is not shown. -/
theorem Reachable.project {T : Type u} {B : Type v} {sys : System S A} {sys' : System T B} (p : T → S)
    (hinit : ∀ t, sys'.init t → sys.init (p t))
    (hstep : ∀ t b t', sys'.step t b = some t' →
      p t' = p t ∨ ∃ a, sys.step (p t) a = some (p t')) {t : T} (h : sys'.Reachable t) :
    sys.Reachable (p t) := by
  refine h.invariant (P := fun t => sys.Reachable (p t)) (fun t ht => .init (hinit t ht)) ?_
  intro t b t' ht ht'
  rcases hstep t b t' ht' with heq | ⟨a, ha⟩
  · rw [heq]
    exact ht
  · exact ht.step a ha

/-- A run from `s` on, whose steps all meet `ok`. -/
inductive StepsBy (sys : System S A) (ok : S → A → Prop) (s : S) : S → Prop
  | refl : StepsBy sys ok s s
  | step {s1 s2 : S} (a : A) :
      StepsBy sys ok s s1 → ok s1 a → sys.step s1 a = some s2 → StepsBy sys ok s s2

theorem StepsBy.single {a : A} (ha : ok s a) (hstep : sys.step s a = some s') :
    sys.StepsBy ok s s' := .step a .refl ha hstep

theorem StepsBy.trans {s1 : S} (h : sys.StepsBy ok s s1) (h' : sys.StepsBy ok s1 s') :
    sys.StepsBy ok s s' := by
  induction h' with
  | refl => exact h
  | step a _ ha hstep ih => exact .step a ih ha hstep

theorem StepsBy.invariant {P : S → Prop} (h : sys.StepsBy ok s s') (hs : P s)
    (hstep : ∀ s a s', P s → ok s a → sys.step s a = some s' → P s') : P s' := by
  induction h with
  | refl => exact hs
  | step a _ ha hs ih => exact hstep _ a _ ih ha hs

theorem StepsBy.mono (hok : ∀ s a, ok s a → ok' s a) (h : sys.StepsBy ok s s') :
    sys.StepsBy ok' s s' := by
  induction h with
  | refl => exact .refl
  | step a _ ha hstep ih => exact .step a ih (hok _ _ ha) hstep

theorem ReachableBy.steps (h : sys.ReachableBy ok s) (h' : sys.StepsBy ok s s') :
    sys.ReachableBy ok s' := by
  induction h' with
  | refl => exact h
  | step a _ ha hstep ih => exact .step a ih ha hstep

/-- **A run without end**: where each state of `R` has a run to a state of `R` with a higher measure,
no bound holds of the measure. -/
theorem StepsBy.unbounded {R : S → Prop} (measure : S → Nat)
    (h : ∀ s, R s → ∃ s', sys.StepsBy ok s s' ∧ R s' ∧ measure s < measure s') (hs : R s) (n : Nat) :
    ∃ s', sys.StepsBy ok s s' ∧ R s' ∧ measure s + n ≤ measure s' := by
  induction n with
  | zero => exact ⟨s, .refl, hs, Nat.le_refl _⟩
  | succ n ih =>
    obtain ⟨s1, hsteps, hs1, hn⟩ := ih
    obtain ⟨s2, hmore, hs2, hlt⟩ := h s1 hs1
    exact ⟨s2, hsteps.trans hmore, hs2, by omega⟩

/-- The actions in turn, as long as each meets `ok`. -/
def runBy (sys : System S A) (ok : S → A → Prop) [∀ s a, Decidable (ok s a)] (s : S) :
    List A → Option S
  | [] => some s
  | a :: as => if ok s a then (sys.step s a).bind fun s => sys.runBy ok s as else none

def run (sys : System S A) (s : S) (as : List A) : Option S := sys.runBy (fun _ _ => True) s as

theorem ReachableBy.runBy [∀ s a, Decidable (ok s a)] (h : sys.ReachableBy ok s) {as : List A}
    (hrun : sys.runBy ok s as = some s') : sys.ReachableBy ok s' := by
  induction as generalizing s with
  | nil =>
    cases hrun
    exact h
  | cons a as ih =>
    rw [System.runBy] at hrun
    split at hrun
    · rename_i ha
      obtain ⟨s1, h1, h2⟩ := Option.bind_eq_some_iff.1 hrun
      exact ih (h.step a ha h1) h2
    · cases hrun

theorem StepsBy.runBy [∀ s a, Decidable (ok s a)] {as : List A} (hrun : sys.runBy ok s as = some s') :
    sys.StepsBy ok s s' := by
  induction as generalizing s with
  | nil =>
    cases hrun
    exact .refl
  | cons a as ih =>
    rw [System.runBy] at hrun
    split at hrun
    · rename_i ha
      obtain ⟨s1, h1, h2⟩ := Option.bind_eq_some_iff.1 hrun
      exact (StepsBy.single ha h1).trans (ih h2)
    · cases hrun

theorem Reachable.run (h : sys.Reachable s) {as : List A} (hrun : sys.run s as = some s') :
    sys.Reachable s' := ReachableBy.runBy h hrun

/-- **Lockstep**: where related states take each action to related states, or both refuse it, they
do so for every sequence of actions. -/
theorem run_rel {T : Type u} (sys : System S A) (sys' : System T A) {R : S → T → Prop} {t : T}
    (hstep : ∀ s t a, R s t → Option.Rel R (sys.step s a) (sys'.step t a)) (h : R s t)
    (as : List A) : Option.Rel R (sys.run s as) (sys'.run t as) := by
  induction as generalizing s t with
  | nil => exact .some h
  | cons a as ih =>
    simp only [System.run, System.runBy, if_true] at ih ⊢
    have hone := hstep s t a h
    generalize sys.step s a = x, sys'.step t a = y at hone
    cases hone with
    | none => exact .none
    | some h' => exact ih h'

end System
end Transition
