import Mathlib.Tactic.Common

/-!
# Programs that change a state

A program of `StateT σ Option` changes a state and answers; `none` is a loop that its fuel does not
end. `wp stuck x post s` says that `x`, started in `s`, ends in what `post` says, or, if it does not
end, that `stuck` holds: with `False` for `stuck` it is total correctness, with `True` partial. There
is a rule for each way to build a program, and one for each kind of loop.
-/

namespace Hoare

variable {σ α β : Type}

/-- What `x` does from `s` on. -/
def wp (stuck : Prop) (x : StateT σ Option α) (post : α → σ → Prop) (s : σ) : Prop :=
  match x s with
  | none => stuck
  | some (a, s') => post a s'

section
variable {stuck : Prop} {x : StateT σ Option α} {f : α → StateT σ Option β} {s : σ}

theorem wp.imp {post post' : α → σ → Prop} (h : wp stuck x post s)
    (hpost : ∀ a s', post a s' → post' a s') : wp stuck x post' s := by
  unfold wp at h ⊢
  split
  · rename_i hx
    rw [hx] at h
    exact h
  · rename_i hx
    rw [hx] at h
    exact hpost _ _ h

/-- Total correctness: the program ends. -/
theorem wp.exists {post : α → σ → Prop} (h : wp False x post s) :
    ∃ a s', x s = some (a, s') ∧ post a s' := by
  unfold wp at h
  split at h
  · exact h.elim
  · rename_i hx
    exact ⟨_, _, hx, h⟩

theorem wp_bind {post : β → σ → Prop} :
    wp stuck (x >>= f) post s ↔ wp stuck x (fun a s' => wp stuck (f a) post s') s := by
  show (match (x s).bind fun r => f r.1 r.2 with
    | none => stuck
    | some (a, s') => post a s') ↔ _
  unfold wp
  cases x s with
  | none => exact Iff.rfl
  | some r => exact Iff.rfl

/-- The rule of composition, with what `x` is known to do. -/
theorem wp.bind {mid : α → σ → Prop} {post : β → σ → Prop} (h : wp stuck x mid s)
    (hf : ∀ a s', mid a s' → wp stuck (f a) post s') : wp stuck (x >>= f) post s :=
  wp_bind.2 (h.imp hf)

theorem wp_get {post : σ → σ → Prop} : wp stuck (get : StateT σ Option σ) post s ↔ post s s := Iff.rfl

theorem wp_modify {f : σ → σ} {post : Unit → σ → Prop} :
    wp stuck (modify f : StateT σ Option Unit) post s ↔ post () (f s) := Iff.rfl

theorem wp_ite {c : Prop} [Decidable c] {y : StateT σ Option α} {post : α → σ → Prop} :
    wp stuck (if c then x else y) post s ↔ (c → wp stuck x post s) ∧ (¬c → wp stuck y post s) := by
  split
  · rename_i hc
    exact ⟨fun h => ⟨fun _ => h, absurd hc⟩, fun h => h.1 hc⟩
  · rename_i hc
    exact ⟨fun h => ⟨fun h' => absurd h' hc, fun _ => h⟩, fun h => h.2 hc⟩

theorem wp_lift {y : Option α} {post : α → σ → Prop} (hnone : y = none → stuck)
    (hsome : ∀ a, y = some a → post a s) : wp stuck (StateT.lift y) post s := by
  cases hy : y with
  | none => exact hnone hy
  | some a => exact hsome a hy

end

/-! ## Loops -/

/-- `for (; i < …; i++)` with a further condition, for so many rounds at most. -/
def forWhile (cond : StateT σ Option Bool) (body : Nat → StateT σ Option Unit) :
    Nat → Nat → StateT σ Option Unit
  | 0, _ => pure ()
  | n + 1, i => do
    if ← cond then
      body i
      forWhile cond body n (i + 1)

/-- `while (true)`, until a round answers. -/
def untilSome (body : StateT σ Option (Option α)) : Nat → StateT σ Option α
  | 0 => fun _ => none
  | n + 1 => do
    match ← body with
    | some a => pure a
    | none => untilSome body n

section
variable {stuck : Prop} {s : σ}

/-- **The rule of the counting loop**: what a round keeps, the loop keeps. -/
theorem wp_forWhile {cond : StateT σ Option Bool} {body : Nat → StateT σ Option Unit}
    {I : Nat → σ → Prop} {n i : Nat}
    (hround : ∀ j s, j < i + n → I j s → wp stuck cond (fun b s' =>
      (b = true → wp stuck (body j) (fun _ => I (j + 1)) s') ∧ (b = false → I j s')) s)
    (h : I i s) : wp stuck (forWhile cond body n i) (fun _ s' => ∃ j ≤ i + n, I j s') s := by
  induction n generalizing i s with
  | zero => exact ⟨i, Nat.le_refl _, h⟩
  | succ n ih =>
    apply (hround i s (by omega) h).bind
    intro b s' hb
    cases b with
    | false => exact ⟨i, by omega, hb.2 rfl⟩
    | true =>
      apply (hb.1 rfl).bind
      intro _ s'' h''
      apply (ih (fun j s hj => hround j s (by omega)) h'').imp
      intro _ _ hend
      obtain ⟨j, hj, hI⟩ := hend
      exact ⟨j, by omega, hI⟩

/-- A loop whose first round answers. -/
theorem wp_untilSome_first {body : StateT σ Option (Option α)} {post : α → σ → Prop} {n : Nat}
    (h : wp stuck body (fun r s' => ∃ a, r = some a ∧ post a s') s) :
    wp stuck (untilSome body (n + 1)) post s := by
  apply h.bind
  intro r s' hr
  obtain ⟨a, rfl, ha⟩ := hr
  exact ha

/-- **The rule of the endless loop**: each round answers, or brings the answer nearer. -/
theorem wp_untilSome {body : StateT σ Option (Option α)} {post : α → σ → Prop}
    {I : Nat → σ → Prop} {n k : Nat}
    (hround : ∀ k s, I k s → wp stuck body (fun r s' =>
      (∀ a, r = some a → post a s') ∧ (r = none → ∃ k' < k, I k' s')) s)
    (hn : n ≤ k → stuck) (h : I k s) : wp stuck (untilSome body n) post s := by
  induction n generalizing k s with
  | zero => exact hn (Nat.zero_le _)
  | succ n ih =>
    apply (hround k s h).bind
    intro r s' hr
    cases r with
    | some a => exact hr.1 a rfl
    | none =>
      obtain ⟨k', hk, hI⟩ := hr.2 rfl
      exact ih (fun hle => hn (by omega)) hI

end

end Hoare
