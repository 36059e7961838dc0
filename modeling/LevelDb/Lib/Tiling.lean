import Mathlib.Order.MinMax
import Mathlib.Data.List.Basic

/-!
# Tilings

Cut keys that go up divide a linear order into intervals (`intervals`), half open and without end at
either side. What an interval `[b, e)` has in each (`clip`) tiles it (`tiles_clip`): the parts follow
each other without a gap from `b` to `e` (`Tiles`), so each key of it is in exactly one of them.
-/

namespace Tiling

universe u

variable {K : Type u} [LinearOrder K]

/-- Intervals that follow each other without a gap from `b` to `e`. -/
inductive Tiles : K → K → List (K × K) → Prop
  | done (b : K) : Tiles b b []
  | part {b m e : K} {l : List (K × K)} : b < m → Tiles m e l → Tiles b e ((b, m) :: l)

theorem Tiles.le {b e : K} {l : List (K × K)} (h : Tiles b e l) : b ≤ e := by
  induction h with
  | done => exact le_rfl
  | part hlt _ ih => exact hlt.le.trans ih

/-- The parts have the keys of the whole. -/
theorem Tiles.mem_iff {b e : K} {l : List (K × K)} (h : Tiles b e l) {k : K} :
    (∃ p ∈ l, p.1 ≤ k ∧ k < p.2) ↔ b ≤ k ∧ k < e := by
  induction h with
  | done b =>
    refine iff_of_false (by simp) fun h => ?_
    exact absurd (h.1.trans_lt h.2) (lt_irrefl _)
  | @part b m e l hlt hrest ih =>
    rw [List.exists_mem_cons_iff, ih]
    constructor
    · rintro (h | h)
      · exact ⟨h.1, h.2.trans_le hrest.le⟩
      · exact ⟨hlt.le.trans h.1, h.2⟩
    · intro h
      rcases lt_or_ge k m with hk | hk
      · exact .inl ⟨h.1, hk⟩
      · exact .inr ⟨hk, h.2⟩

/-! ## Cuts -/

/-- The intervals between the cuts, from `lower` on. -/
def intervals (lower : Option K) : List K → List (Option K × Option K)
  | [] => [(lower, none)]
  | u :: cuts => (lower, some u) :: intervals (some u) cuts

/-- Those of them that end at a cut. -/
def bounded (lower : Option K) : List K → List (Option K × Option K)
  | [] => []
  | u :: cuts => (lower, some u) :: bounded (some u) cuts

/-- The key is in the interval. -/
def Inside (iv : Option K × Option K) (k : K) : Prop :=
  (∀ l, iv.1 = some l → l ≤ k) ∧ ∀ u, iv.2 = some u → k < u

omit [LinearOrder K] in
theorem intervals_eq (lower : Option K) (cuts : List K) :
    intervals lower cuts = bounded lower cuts ++ [(cuts.getLast?.or lower, none)] := by
  induction cuts generalizing lower with
  | nil => simp [intervals, bounded]
  | cons u cuts ih =>
    rw [intervals, bounded, ih, List.getLast?_cons, List.cons_append]
    cases cuts.getLast? <;> rfl

omit [LinearOrder K] in
theorem bounded_concat (lower : Option K) (cuts : List K) (u : K) :
    bounded lower (cuts ++ [u]) = bounded lower cuts ++ [(cuts.getLast?.or lower, some u)] := by
  induction cuts generalizing lower with
  | nil => simp [bounded]
  | cons v cuts ih =>
    rw [List.cons_append, bounded, ih, bounded, List.getLast?_cons, List.cons_append]
    cases cuts.getLast? <;> rfl

/-! ## Clipping -/

/-- Where the part of an interval from `b` on begins. -/
def clipLower (lower : Option K) (b : K) : K := lower.elim b fun l => if b < l then l else b

def clipUpper (upper : Option K) (e : K) : K := upper.elim e fun u => if u < e then u else e

/-- The part of `[b, e)` in the interval, if there is any. -/
def clip (b e : K) (iv : Option K × Option K) : Option (K × K) :=
  if clipLower iv.1 b < clipUpper iv.2 e then some (clipLower iv.1 b, clipUpper iv.2 e) else none

theorem clipLower_eq (lower : Option K) (b : K) : clipLower lower b = lower.elim b (max b) := by
  cases lower with
  | none => rfl
  | some l =>
    simp only [clipLower, Option.elim_some]
    split
    · rename_i h
      exact (max_eq_right h.le).symm
    · rename_i h
      exact (max_eq_left (not_lt.1 h)).symm

theorem clipUpper_some (u e : K) : clipUpper (some u) e = min e u := by
  simp only [clipUpper, Option.elim_some]
  split
  · rename_i h
    exact (min_eq_right h.le).symm
  · rename_i h
    exact (min_eq_left (not_lt.1 h)).symm

theorem le_clipLower (lower : Option K) (b : K) : b ≤ clipLower lower b := by
  rw [clipLower_eq]
  cases lower with
  | none => exact le_rfl
  | some l => exact le_max_left _ _

/-- A part begins before the next cut's does. -/
theorem clipLower_le {b u : K} {lower : Option K} (hlower : ∀ l, lower = some l → l < u) :
    clipLower lower b ≤ max b u := by
  rw [clipLower_eq]
  cases hl : lower with
  | none => exact le_max_left _ _
  | some l => exact max_le_max le_rfl (hlower l hl).le

/-- Past the next cut it begins where the next cut's does. -/
theorem clipLower_eq_of_le {b u : K} {lower : Option K} (hlower : ∀ l, lower = some l → l < u)
    (hu : u ≤ clipLower lower b) : clipLower lower b = max b u := by
  rw [clipLower_eq] at hu ⊢
  cases hl : lower with
  | none =>
    rw [hl] at hu
    exact (max_eq_left hu).symm
  | some l =>
    rw [hl, Option.elim_some] at hu
    have hlu := hlower l hl
    have hbu : u ≤ b := by
      rcases le_max_iff.1 hu with h | h
      · exact h
      · exact absurd h (not_le.2 hlu)
    rw [Option.elim_some, max_eq_left (hlu.le.trans hbu), max_eq_left hbu]

/-- The part before a cut. -/
theorem clip_of_lt {b e u : K} {lower : Option K} (hlt : clipLower lower b < e)
    (hu : clipLower lower b < u) : clip b e (lower, some u) = some (clipLower lower b, min e u) := by
  rw [clip, clipUpper_some, if_pos (lt_min hlt hu)]

theorem clip_of_le {b e u : K} {lower : Option K} (h : min e u ≤ clipLower lower b) :
    clip b e (lower, some u) = none := by
  rw [clip, clipUpper_some, if_neg (not_lt.2 h)]

/-- **The parts in the intervals between the cuts** tile what there is from `lower` on. -/
theorem tiles_clip {b e : K} {lower : Option K} {cuts : List K}
    (hcuts : cuts.Pairwise (· < ·)) (hlower : ∀ l, lower = some l → ∀ u ∈ cuts, l < u) :
    (clipLower lower b < e →
        Tiles (clipLower lower b) e ((intervals lower cuts).filterMap (clip b e))) ∧
      (e ≤ clipLower lower b → (intervals lower cuts).filterMap (clip b e) = []) := by
  induction cuts generalizing lower with
  | nil =>
    have hnone : clipUpper none e = e := rfl
    constructor
    · intro hlt
      have hclip : clip b e (lower, none) = some (clipLower lower b, e) := by
        rw [clip, hnone, if_pos hlt]
      rw [intervals, List.filterMap_cons_some hclip]
      exact .part hlt (.done e)
    · intro hle
      have hclip : clip b e (lower, none) = none := by
        rw [clip, hnone, if_neg (not_lt.2 hle)]
      rw [intervals, List.filterMap_cons_none hclip]
      rfl
  | cons u cuts ih =>
    rw [List.pairwise_cons] at hcuts
    obtain ⟨ih1, ih2⟩ := ih hcuts.2 fun l (hl : some u = some l) => by
      cases hl
      exact hcuts.1
    rw [clipLower_eq, Option.elim_some] at ih1 ih2
    have hu : ∀ l, lower = some l → l < u := fun l hl => hlower l hl u List.mem_cons_self
    constructor
    · -- before the next cut there is the part up to it, or nothing
      intro hlt
      rcases lt_or_ge (clipLower lower b) u with hlu | hul
      · rw [intervals, List.filterMap_cons_some (clip_of_lt hlt hlu)]
        have hmax : max b u = u := max_eq_right ((le_clipLower lower b).trans hlu.le)
        rcases lt_or_ge u e with hue | hue
        · rw [min_eq_right hue.le]
          rw [hmax] at ih1
          exact .part hlu (ih1 hue)
        · rw [min_eq_left hue, ih2 (by rw [hmax]; exact hue)]
          exact .part hlt (.done e)
      · have hbegin := clipLower_eq_of_le hu hul
        rw [intervals, List.filterMap_cons_none (clip_of_le ((min_le_right _ _).trans hul)), hbegin]
        exact ih1 (hbegin ▸ hlt)
    · intro hel
      rw [intervals, List.filterMap_cons_none (clip_of_le ((min_le_left _ _).trans hel))]
      exact ih2 (hel.trans (clipLower_le hu))

end Tiling
