import Mathlib.Data.Set.Finite.Basic
import Mathlib.Dynamics.PeriodicPts.Lemmas

/-!
# Permutations by cycle walking

A Feistel network permutes pairs, whatever its round functions are (`network_injective`). A
permutation of a finite set gives one of a part of it: apply it until the result is in the part
again. The loop comes to an end because the walk goes around a cycle (`exists_walk`), and two starts do
not end at one place (`walk_inj`).
-/

namespace Feistel

universe u

variable {α : Type u}

/-! ## Networks -/

/-- The halves change places, the new right one mixed with a function of the old. -/
def round (mix : α → α → α) (F : α → α) (x : α × α) : α × α := (x.2, mix x.1 (F x.2))

def network (mix : α → α → α) (Fs : List (α → α)) (x : α × α) : α × α :=
  Fs.foldl (fun x F => round mix F x) x

theorem round_injective {mix : α → α → α} (hmix : ∀ b, Function.Injective fun a => mix a b)
    (F : α → α) : Function.Injective (round mix F) := by
  intro x y h
  obtain ⟨hright, hleft⟩ := Prod.mk.injEq .. ▸ h
  rw [hright] at hleft
  exact Prod.ext (hmix _ hleft) hright

theorem network_injective {mix : α → α → α} (hmix : ∀ b, Function.Injective fun a => mix a b)
    (Fs : List (α → α)) : Function.Injective (network mix Fs) := by
  induction Fs with
  | nil => exact fun x y h => h
  | cons F Fs ih => exact ih.comp (round_injective hmix F)

/-- Halves of one kind stay of that kind. -/
theorem network_mem {mix : α → α → α} {s : Set α} (hmix : ∀ a ∈ s, ∀ b ∈ s, mix a b ∈ s)
    {Fs : List (α → α)} (hFs : ∀ F ∈ Fs, ∀ a, F a ∈ s) {x : α × α} (h1 : x.1 ∈ s) (h2 : x.2 ∈ s) :
    (network mix Fs x).1 ∈ s ∧ (network mix Fs x).2 ∈ s := by
  induction Fs generalizing x with
  | nil => exact ⟨h1, h2⟩
  | cons F Fs ih =>
    obtain ⟨hF, hrest⟩ := List.forall_mem_cons.1 hFs
    exact ih hrest h2 (hmix _ h1 _ (hF _))

/-! ## Walks -/

variable (f : α → α) (P : α → Prop) [DecidablePred P]

/-- `do x = f(x) while (!P(x))`, for so many rounds at most. -/
def walk : Nat → α → Option α
  | 0, _ => none
  | fuel + 1, x => if P (f x) then some (f x) else walk fuel (f x)

variable {f P}

/-- A walk ends at the first place in the part. -/
theorem walk_eq_some {fuel : Nat} {x y : α} :
    walk f P fuel x = some y ↔
      ∃ k < fuel, f^[k + 1] x = y ∧ P y ∧ ∀ j < k, ¬ P (f^[j + 1] x) := by
  induction fuel generalizing x with
  | zero => exact iff_of_false nofun fun ⟨k, hk, _⟩ => nomatch hk
  | succ fuel ih =>
    rw [walk]
    split
    · rename_i hp
      constructor
      · intro h
        obtain rfl := Option.some.inj h
        exact ⟨0, Nat.zero_lt_succ fuel, rfl, hp, nofun⟩
      · rintro ⟨k, -, hy, -, hfirst⟩
        cases k with
        | zero => exact congrArg some hy
        | succ k => exact absurd hp (hfirst 0 (Nat.zero_lt_succ k))
    · rename_i hp
      rw [ih]
      constructor
      · rintro ⟨k, hk, hy, hpy, hfirst⟩
        refine ⟨k + 1, Nat.succ_lt_succ hk, hy, hpy, fun j hj => ?_⟩
        cases j with
        | zero => exact hp
        | succ j => exact hfirst j (Nat.lt_of_succ_lt_succ hj)
      · rintro ⟨k, hk, hy, hpy, hfirst⟩
        cases k with
        | zero =>
          rw [← hy] at hpy
          exact absurd hpy hp
        | succ k =>
          exact ⟨k, Nat.lt_of_succ_lt_succ hk, hy, hpy,
            fun j hj => hfirst (j + 1) (Nat.succ_lt_succ hj)⟩

section
variable {s : Set α} (hmaps : Set.MapsTo f s s) (hinj : Set.InjOn f s)
include hmaps hinj

/-- In a finite set the walk comes back to where it started. -/
theorem exists_iterate_eq (hfin : s.Finite) {x : α} (hx : x ∈ s) : ∃ m, 0 < m ∧ f^[m] x = x := by
  have : Finite s := hfin
  have hrestrict : Function.Injective (hmaps.restrict f s s) := (hmaps.restrict_inj).2 hinj
  obtain ⟨m, hm, hper⟩ := hrestrict.mem_periodicPts ⟨x, hx⟩
  refine ⟨m, hm, ?_⟩
  have heq := congrArg Subtype.val hper.eq
  rwa [hmaps.iterate_restrict m, Set.MapsTo.val_restrict_apply] at heq

/-- **The loop comes to an end** when it starts in the part. -/
theorem exists_walk (hfin : s.Finite) {x : α} (hx : x ∈ s) (hp : P x) :
    ∃ fuel y, P y ∧ ∀ more, fuel ≤ more → walk f P more x = some y := by
  classical
  -- the round that gives the start back is a stop, and there is a first stop
  obtain ⟨m, hm, hback⟩ := exists_iterate_eq hmaps hinj hfin hx
  have hstop : ∃ k, P (f^[k + 1] x) := ⟨m - 1, by rwa [Nat.sub_add_cancel hm, hback]⟩
  refine ⟨Nat.find hstop + 1, f^[Nat.find hstop + 1] x, Nat.find_spec hstop, fun more hmore => ?_⟩
  exact walk_eq_some.2 ⟨Nat.find hstop, hmore, rfl, Nat.find_spec hstop, fun j => Nat.find_min hstop⟩

/-- **Two starts in the part do not end at one place.** -/
theorem walk_inj {fuel : Nat} {x x' y : α} (hx : x ∈ s) (hx' : x' ∈ s) (hp : P x) (hp' : P x')
    (h : walk f P fuel x = some y) (h' : walk f P fuel x' = some y) : x = x' := by
  obtain ⟨k, -, hy, -, hfirst⟩ := walk_eq_some.1 h
  obtain ⟨k', -, hy', -, hfirst'⟩ := walk_eq_some.1 h'
  have hle : ∀ {a b : α} {i j : Nat}, a ∈ s → b ∈ s → P a → f^[i + 1] a = f^[j + 1] b →
      (∀ l < j, ¬ P (f^[l + 1] b)) → i ≤ j → a = b := by
    intro a b i j ha hb hpa heq hmin hij
    obtain ⟨d, rfl⟩ := Nat.exists_eq_add_of_le hij
    have hcut : f^[i + 1] a = f^[i + 1] (f^[d] b) := by
      rw [heq, ← Function.iterate_add_apply]
      congr 1
      omega
    have hab := hinj.iterate hmaps (i + 1) ha (hmaps.iterate d hb) hcut
    cases d with
    | zero => exact hab
    | succ d =>
      -- the longer walk would have stopped where the shorter one started
      rw [hab] at hpa
      exact absurd hpa (hmin d (by omega))
  rcases Nat.le_total k k' with hkk | hkk
  · exact hle hx hx' hp (hy.trans hy'.symm) hfirst' hkk
  · exact (hle hx' hx hp' (hy'.trans hy.symm) hfirst hkk).symm

/-- **Walking permutes the part**, and one number of rounds is enough for all of it. -/
theorem exists_bijOn_walk (hfin : s.Finite) (hsub : ∀ x, P x → x ∈ s) :
    ∃ g : α → α, Set.BijOn g {x | P x} {x | P x} ∧
      ∃ fuel, ∀ more, fuel ≤ more → ∀ x, P x → walk f P more x = some (g x) := by
  classical
  have hend : ∀ x, ∃ fuel y, P x → P y ∧ ∀ more, fuel ≤ more → walk f P more x = some y := by
    intro x
    by_cases hp : P x
    · obtain ⟨fuel, y, hy, hw⟩ := exists_walk hmaps hinj hfin (hsub x hp) hp
      exact ⟨fuel, y, fun _ => ⟨hy, hw⟩⟩
    · exact ⟨0, x, fun h => absurd h hp⟩
  choose rounds g hg using hend
  have hpart : {x | P x}.Finite := hfin.subset hsub
  obtain ⟨fuel, hfuel⟩ := (hpart.image rounds).bddAbove
  have hwalk : ∀ more, fuel ≤ more → ∀ x, P x → walk f P more x = some (g x) := by
    intro more hmore x hp
    exact (hg x hp).2 more ((hfuel (Set.mem_image_of_mem rounds hp)).trans hmore)
  have hgmaps : Set.MapsTo g {x | P x} {x | P x} := fun x hp => (hg x hp).1
  have hginj : Set.InjOn g {x | P x} := by
    intro x hp x' hp' heq
    have h := hwalk fuel le_rfl x hp
    have h' := hwalk fuel le_rfl x' hp'
    rw [← heq] at h'
    exact walk_inj hmaps hinj (hsub x hp) (hsub x' hp') hp hp' h h'
  exact ⟨g, (hpart.injOn_iff_bijOn_of_mapsTo hgmaps).1 hginj, fuel, hwalk⟩

end

end Feistel
