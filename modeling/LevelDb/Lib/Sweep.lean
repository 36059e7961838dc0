import Mathlib.Data.List.Induction
import Mathlib.Data.List.Sort
import Mathlib.Data.List.TakeWhile
import Mathlib.Data.Prod.Lex
import Mathlib.Order.Bounds.Basic
import Mathlib.Order.MinMax

/-!
# Sweeping over closed intervals

The ends of closed intervals in order, a start before an end at the same point; a counter that goes up
at a start and down at an end. The largest value it takes is the largest number of intervals that
share a point (`sweep_isGreatest`).
-/

namespace Sweep

universe u

variable {K : Type u}

/-- A start (`false`) or an end (`true`) of an interval. -/
abbrev Event (K : Type u) := K ×ₗ Bool

/-- One event, with the counter and the largest value it took. -/
def visit (s : Int × Int) (e : Event K) : Int × Int :=
  if (ofLex e).2 = false then (s.1 + 1, max s.2 (s.1 + 1)) else (s.1 - 1, s.2)

/-- The largest value of the counter. -/
def best (es : List (Event K)) : Int := (es.foldl visit (0, 0)).2

/-- The two ends of each interval. -/
def events (ivs : List (K × K)) : List (Event K) :=
  ivs.flatMap fun iv => [toLex (iv.1, false), toLex (iv.2, true)]

def starts (es : List (Event K)) (q : K → Bool) : Nat :=
  es.countP fun e => !(ofLex e).2 && q (ofLex e).1

def ends (es : List (Event K)) (q : K → Bool) : Nat :=
  es.countP fun e => (ofLex e).2 && q (ofLex e).1

/-! ## The counter -/

/-- The value of the counter after the events. -/
def depth (es : List (Event K)) : Int := starts es (fun _ => true) - ends es (fun _ => true)

theorem depth_concat (es : List (Event K)) (e : Event K) :
    depth (es ++ [e]) = if (ofLex e).2 = false then depth es + 1 else depth es - 1 := by
  unfold depth starts ends
  rw [List.countP_append, List.countP_append]
  cases h : (ofLex e).2 with
  | false => simp [h]; omega
  | true => simp [h]; omega

theorem foldl_visit_fst (es : List (Event K)) : (es.foldl visit (0, 0)).1 = depth es := by
  induction es using List.reverseRecOn with
  | nil => rfl
  | append_singleton es e ih =>
    rw [List.foldl_append, List.foldl_cons, List.foldl_nil, depth_concat, visit, ih]
    split
    · rfl
    · rfl

theorem best_concat (es : List (Event K)) (e : Event K) :
    best (es ++ [e]) = if (ofLex e).2 = false then max (best es) (depth (es ++ [e])) else best es := by
  rw [depth_concat, best, List.foldl_append, List.foldl_cons, List.foldl_nil, visit, foldl_visit_fst]
  split
  · rfl
  · rfl

/-- The counter is never above its largest value. -/
theorem depth_le_best {front es : List (Event K)} (h : front <+: es) : depth front ≤ best es := by
  induction es using List.reverseRecOn generalizing front with
  | nil =>
    rw [List.prefix_nil.1 h]
    exact le_rfl
  | append_singleton es e ih =>
    have hle : best es ≤ best (es ++ [e]) := by
      rw [best_concat]
      split
      · exact le_max_left _ _
      · exact le_rfl
    rcases List.prefix_concat_iff.1 h with rfl | hfront
    · rw [best_concat]
      split
      · exact le_max_right _ _
      · rename_i hend
        have hprev := ih (List.prefix_refl es)
        rw [depth_concat, if_neg hend]
        omega
    · exact (ih hfront).trans hle

/-- The largest value was taken after a start, unless there was none. -/
theorem best_attained (es : List (Event K)) :
    best es = 0 ∨ ∃ front p, front ++ [toLex (p, false)] <+: es ∧
      best es = depth (front ++ [toLex (p, false)]) := by
  induction es using List.reverseRecOn with
  | nil => exact .inl rfl
  | append_singleton es e ih =>
    have hlong : es <+: es ++ [e] := List.prefix_append es [e]
    rw [best_concat]
    split
    · rename_i hstart
      obtain ⟨p, rfl⟩ : ∃ p, e = toLex (p, false) := ⟨(ofLex e).1, by rw [← hstart]; rfl⟩
      rcases max_choice (best es) (depth (es ++ [toLex (p, false)])) with hmax | hmax
      · rw [hmax]
        obtain h | ⟨front, q, hfront, h⟩ := ih
        · exact .inl h
        · exact .inr ⟨front, q, hfront.trans hlong, h⟩
      · exact .inr ⟨es, p, List.prefix_refl _, hmax⟩
    · obtain h | ⟨front, q, hfront, h⟩ := ih
      · exact .inl h
      · exact .inr ⟨front, q, hfront.trans hlong, h⟩

/-! ## Sorted events -/

theorem starts_events (ivs : List (K × K)) (q : K → Bool) :
    starts (events ivs) q = ivs.countP fun iv => q iv.1 := by
  induction ivs with
  | nil => rfl
  | cons iv ivs ih =>
    unfold starts events at ih ⊢
    rw [List.flatMap_cons, List.countP_append, ih, List.countP_cons]
    cases hq : q iv.1 <;> simp [hq, Nat.add_comm]

theorem ends_events (ivs : List (K × K)) (q : K → Bool) :
    ends (events ivs) q = ivs.countP fun iv => q iv.2 := by
  induction ivs with
  | nil => rfl
  | cons iv ivs ih =>
    unfold ends events at ih ⊢
    rw [List.flatMap_cons, List.countP_append, ih, List.countP_cons]
    cases hq : q iv.2 <;> simp [hq, Nat.add_comm]

section
variable [LinearOrder K]

/-- How many of the intervals the point is in. -/
def meeting (ivs : List (K × K)) (p : K) : Nat := ivs.countP fun iv => iv.1 ≤ p ∧ p ≤ iv.2

/-- The intervals with the point are those that started and did not end before it. -/
theorem meeting_eq {ivs : List (K × K)} (hivs : ∀ iv ∈ ivs, iv.1 ≤ iv.2) (p : K) :
    (meeting ivs p : Int) = starts (events ivs) (· ≤ p) - ends (events ivs) (· < p) := by
  rw [starts_events, ends_events]
  induction ivs with
  | nil => rfl
  | cons iv ivs ih =>
    have hrest := ih fun iv' h => hivs iv' (List.mem_cons_of_mem iv h)
    have hiv := hivs iv List.mem_cons_self
    unfold meeting at hrest ⊢
    rw [List.countP_cons, List.countP_cons, List.countP_cons]
    by_cases hstart : iv.1 ≤ p
    · by_cases hend : iv.2 < p
      · rw [if_neg (by simp [hend]), if_pos (by simpa using hstart), if_pos (by simpa using hend)]
        omega
      · rw [if_pos (by simpa using ⟨hstart, not_lt.1 hend⟩), if_pos (by simpa using hstart),
          if_neg (by simpa using hend)]
        omega
    · have hend : ¬ iv.2 < p := fun h => hstart (hiv.trans h.le)
      rw [if_neg (by simp [hstart]), if_neg (by simpa using hstart), if_neg (by simpa using hend)]
      omega

variable {es : List (Event K)} (hsorted : es.Pairwise (· ≤ ·))
include hsorted

/-- At a start of `p`, everything that ended before `p` is passed, and nothing after `p` has started. -/
theorem depth_start_le {front : List (Event K)} {p : K} (h : front ++ [toLex (p, false)] <+: es) :
    depth (front ++ [toLex (p, false)]) ≤ starts es (· ≤ p) - ends es (· < p) := by
  obtain ⟨back, rfl⟩ := h
  obtain ⟨hfront, -, hcross⟩ := List.pairwise_append.1 hsorted
  have hbefore : ∀ e ∈ front ++ [toLex (p, false)], e ≤ toLex (p, false) := by
    intro e he
    rcases List.mem_append.1 he with he | he
    · exact (List.pairwise_append.1 hfront).2.2 e he _ (List.mem_singleton.2 rfl)
    · exact (List.mem_singleton.1 he).le
  have hafter : ∀ e ∈ back, toLex (p, false) ≤ e := fun e he =>
    hcross _ (List.mem_append_right _ (List.mem_singleton.2 rfl)) e he
  generalize front ++ [toLex (p, false)] = done at hbefore
  have hstarts : starts done (fun _ => true) ≤ starts (done ++ back) (· ≤ p) := by
    unfold starts
    rw [List.countP_append]
    refine (List.countP_mono_left fun e he hs => ?_).trans (Nat.le_add_right _ _)
    have hle := Prod.Lex.le_iff.1 (hbefore e he)
    have hkey : (ofLex e).1 ≤ p := hle.elim le_of_lt fun h => h.1.le
    simpa [hkey] using hs
  have hends : ends (done ++ back) (· < p) ≤ ends done (fun _ => true) := by
    unfold ends
    rw [List.countP_append]
    have hnone : back.countP (fun e => (ofLex e).2 && decide ((ofLex e).1 < p)) = 0 := by
      rw [List.countP_eq_zero]
      intro e he hs
      have hle := Prod.Lex.le_iff.1 (hafter e he)
      have hkey : p ≤ (ofLex e).1 := hle.elim le_of_lt fun h => h.1.le
      simp [not_lt.2 hkey] at hs
    rw [hnone, Nat.add_zero]
    exact List.countP_mono_left fun e _ hs => by simpa using (Bool.and_eq_true_iff.1 hs).1
  unfold depth
  omega

/-- After everything up to the starts of `p` the counter is at the number of intervals with `p`. -/
theorem exists_depth_eq (p : K) : ∃ front, front <+: es ∧
    depth front = starts es (· ≤ p) - ends es (· < p) := by
  refine ⟨es.takeWhile (· ≤ toLex (p, false)), List.takeWhile_prefix _, ?_⟩
  have hsplit := List.takeWhile_append_dropWhile (p := (· ≤ toLex (p, false))) (l := es)
  have hbefore : ∀ e ∈ es.takeWhile (· ≤ toLex (p, false)), e ≤ toLex (p, false) := by
    intro e he
    simpa using List.mem_takeWhile_imp he
  have hafter : ∀ e ∈ es.dropWhile (· ≤ toLex (p, false)), ¬ e ≤ toLex (p, false) := by
    intro e he hle
    have hdrop := hsorted.sublist (List.dropWhile_sublist (· ≤ toLex (p, false)))
    cases hcons : es.dropWhile (· ≤ toLex (p, false)) with
    | nil =>
      rw [hcons] at he
      cases he
    | cons head tail =>
      have hhead : ¬ head ≤ toLex (p, false) := by
        have h := List.head?_dropWhile_not (· ≤ toLex (p, false)) es
        rw [hcons] at h
        simpa using h
      rw [hcons] at he hdrop
      rcases List.mem_cons.1 he with rfl | he
      · exact hhead hle
      · exact hhead ((List.rel_of_pairwise_cons hdrop he).trans hle)
  generalize es.takeWhile (· ≤ toLex (p, false)) = done at hsplit hbefore
  generalize es.dropWhile (· ≤ toLex (p, false)) = back at hsplit hafter
  subst hsplit
  unfold depth starts ends
  simp only [List.countP_append]
  -- a start up to `p` is before, an end before `p` too; the others are after
  have hstarts : back.countP (fun e => !(ofLex e).2 && decide ((ofLex e).1 ≤ p)) = 0 := by
    rw [List.countP_eq_zero]
    intro e he hs
    obtain ⟨hkind, hkey⟩ := Bool.and_eq_true_iff.1 hs
    apply hafter e he
    rw [Prod.Lex.le_iff]
    rcases (of_decide_eq_true hkey).lt_or_eq with hlt | heq
    · exact .inl hlt
    · exact .inr ⟨heq, by simp at hkind; rw [hkind]; exact le_rfl⟩
  have hends : back.countP (fun e => (ofLex e).2 && decide ((ofLex e).1 < p)) = 0 := by
    rw [List.countP_eq_zero]
    intro e he hs
    exact hafter e he (Prod.Lex.le_iff.2 (.inl (of_decide_eq_true (Bool.and_eq_true_iff.1 hs).2)))
  have hstarts' : done.countP (fun e => !(ofLex e).2 && decide ((ofLex e).1 ≤ p)) =
      done.countP (fun e => !(ofLex e).2 && true) := by
    refine List.countP_congr fun e he => ?_
    have hle := Prod.Lex.le_iff.1 (hbefore e he)
    have hkey : (ofLex e).1 ≤ p := hle.elim le_of_lt fun h => h.1.le
    simp [hkey]
  have hends' : done.countP (fun e => (ofLex e).2 && decide ((ofLex e).1 < p)) =
      done.countP (fun e => (ofLex e).2 && true) := by
    refine List.countP_congr fun e he => ?_
    cases hkind : (ofLex e).2 with
    | false => simp
    | true =>
      -- an end that is not after the starts of `p` is before `p`
      have hlt : (ofLex e).1 < p := by
        rcases Prod.Lex.le_iff.1 (hbefore e he) with hlt | ⟨-, hle⟩
        · exact hlt
        · rw [hkind] at hle
          exact absurd hle (show ¬ true ≤ false by decide)
      simp [hlt]
  rw [hstarts, hends, hstarts', hends', Nat.add_zero, Nat.add_zero]

omit hsorted in
/-- **The sweep** over the sorted ends finds the largest number of intervals that share a point. -/
theorem sweep_isGreatest [Nonempty K] {ivs : List (K × K)} (hivs : ∀ iv ∈ ivs, iv.1 ≤ iv.2)
    (hperm : es.Perm (events ivs)) (hsorted : es.Pairwise (· ≤ ·)) :
    IsGreatest (Set.range fun p => (meeting ivs p : Int)) (best es) := by
  have hcount (p : K) : (meeting ivs p : Int) = starts es (· ≤ p) - ends es (· < p) := by
    rw [meeting_eq hivs]
    unfold starts ends
    rw [hperm.countP_eq, hperm.countP_eq]
  have hupper : ∀ p, (meeting ivs p : Int) ≤ best es := by
    intro p
    obtain ⟨front, hfront, hdepth⟩ := exists_depth_eq hsorted p
    rw [hcount, ← hdepth]
    exact depth_le_best hfront
  refine ⟨?_, ?_⟩
  · obtain hzero | ⟨front, p, hfront, hbest⟩ := best_attained es
    · obtain ⟨p⟩ := ‹Nonempty K›
      exact ⟨p, le_antisymm (hupper p) (by rw [hzero]; exact Int.natCast_nonneg _)⟩
    · refine ⟨p, le_antisymm (hupper p) ?_⟩
      show best es ≤ (meeting ivs p : Int)
      rw [hbest, hcount]
      exact depth_start_le hsorted hfront
  · rintro _ ⟨p, rfl⟩
    exact hupper p

end

end Sweep
