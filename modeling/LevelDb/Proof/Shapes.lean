import LevelDb.Proof.Recipes
import Mathlib.Data.Nat.Cast.Order.Field
import Mathlib.Tactic.Linarith
import Mathlib.Tactic.NormNum

/-!
# The sizes of a workload

A size is proportional to the scale, up to the rounding of two operations on `double`s, and at least
its minimum (`sc_bounds`). So the constructor makes what the generator needs as soon as the load has
its room in the universe (`ok_of_make`), also where a sum of the sizes does not fit in 64 bits.
-/

namespace LevelDb.Bench.Phases

/-! ## Sizes -/

theorem toUInt64_eq_some {v : ℚ} {u : UInt64} (h : toUInt64 v = some u) : u.toNat = ⌊v⌋₊ := by
  unfold toUInt64 at h
  split at h
  · rename_i hv
    cases h
    apply UInt64.toNat_ofNat_of_lt'
    rw [Nat.floor_lt' (by decide)]
    exact_mod_cast hv.2
  · cases h

theorem scaled_bounds {scale : ℚ} (hscale : 0 ≤ scale) (base : Nat) :
    0 ≤ scaled scale base ∧ scaled scale base ≤ base * scale * (1001 / 1000) + 1 ∧
      base * scale * (999 / 1000) ≤ scaled scale base := by
  have hx : 0 ≤ base * scale := mul_nonneg (Nat.cast_nonneg _) hscale
  have hone := Rounding.abs_nearest_sub_le 53 (base * scale)
  have htwo := Rounding.abs_nearest_sub_le 53 (Rounding.nearest 53 (base * scale) + 1 / 2)
  rw [abs_le] at hone htwo
  rw [abs_of_nonneg hx] at hone
  have hy : 0 ≤ Rounding.nearest 53 (base * scale) + 1 / 2 := by linarith
  rw [abs_of_nonneg hy] at htwo
  unfold scaled
  exact ⟨by linarith, by linarith, by linarith⟩

/-- What is left of a `double` of about `base * scale`. -/
theorem floor_scaled_bounds (scale : ℚ) (base : Nat) :
    (⌊scaled scale base⌋₊ : ℚ) ≤ base * max scale 0 * (1001 / 1000) + 1 ∧
      base * max scale 0 * (999 / 1000) ≤ ⌊scaled scale base⌋₊ + 1 := by
  have hlt := Nat.lt_floor_add_one (scaled scale base)
  rcases le_total 0 scale with hscale | hscale
  · obtain ⟨hz, hupper, hlower⟩ := scaled_bounds hscale base
    have hle := Nat.floor_le hz
    rw [max_eq_left hscale]
    constructor <;> linarith
  · -- a negative number rounds to 0
    rw [max_eq_right hscale]
    have hx : base * scale ≤ 0 := mul_nonpos_of_nonneg_of_nonpos (Nat.cast_nonneg _) hscale
    have hone := Rounding.abs_nearest_sub_le 53 (base * scale)
    have htwo := Rounding.abs_nearest_sub_le 53 (Rounding.nearest 53 (base * scale) + 1 / 2)
    rw [abs_le] at hone htwo
    rw [abs_of_nonpos hx] at hone
    have hz : scaled scale base < 1 := by
      unfold scaled
      rcases le_total 0 (Rounding.nearest 53 (base * scale) + 1 / 2) with hy | hy
      · rw [abs_of_nonneg hy] at htwo
        linarith
      · rw [abs_of_nonpos hy] at htwo
        linarith
    rw [Nat.floor_eq_zero.2 hz]
    norm_num

/-- **A size** is at least the least, and proportional to the scale. -/
theorem sc_bounds {scale : ℚ} {base : Nat} {least u : UInt64} (h : sc scale base least = some u) :
    least.toNat ≤ u.toNat ∧ (u.toNat : ℚ) ≤ base * max scale 0 * (1001 / 1000) + 1 + least.toNat ∧
      base * max scale 0 * (999 / 1000) ≤ u.toNat + 1 := by
  obtain ⟨v, hv, rfl⟩ := Option.map_eq_some_iff.1 h
  obtain ⟨hupper, hlower⟩ := floor_scaled_bounds scale base
  rw [← toUInt64_eq_some hv] at hupper hlower
  have hleast : (0 : ℚ) ≤ least.toNat := Nat.cast_nonneg _
  split
  · rename_i hlt
    rw [UInt64.lt_iff_toNat_lt] at hlt
    have hcast : (v.toNat : ℚ) ≤ least.toNat := by exact_mod_cast hlt.le
    have hpos : (0 : ℚ) ≤ v.toNat := Nat.cast_nonneg _
    exact ⟨le_rfl, by linarith, by linarith⟩
  · rename_i hge
    rw [UInt64.lt_iff_toNat_lt, Nat.not_lt] at hge
    exact ⟨hge, by linarith, hlower⟩

theorem make_mixed {scale : ℚ} {shape : WorkloadShape}
    (h : WorkloadShape.make scale .mixed = some shape) :
    sc scale 240000 200 = some shape.nLoad ∧ shape.nInsert = shape.nLoad ∧
      sc scale 30000 64 = some shape.nHot ∧ sc scale 120000 100 = some shape.nMixedNew ∧
      shape.nDeletes = shape.nMixedNew ∧
      shape.universeSize = shape.nLoad + shape.nInsert + shape.nMixedNew := by
  unfold WorkloadShape.make at h
  rw [if_neg (by decide)] at h
  simp only [Option.bind_eq_bind, Option.bind_eq_some_iff, Option.pure_def, Option.some.injEq] at h
  obtain ⟨nLoad, hLoad, nInsert, hInsert, nHot, hHot, nUpdates, -, nDeletes, hDeletes, nMixed, -,
    nMixedNew, hNew, rfl⟩ := h
  rw [hLoad] at hInsert
  rw [hDeletes] at hNew
  exact ⟨hLoad, (Option.some.inj hInsert).symm, hHot, hDeletes.trans hNew, Option.some.inj hNew, rfl⟩

theorem make_other {scale : ℚ} {kind : WorkloadKind} {shape : WorkloadShape} (hkind : kind ≠ .mixed)
    (h : WorkloadShape.make scale kind = some shape) :
    scOrZero scale (recipeOf kind).load 100 = some shape.nLoad ∧
      sc scale (recipeOf kind).ops 400 = some shape.nUpdates ∧
      shape.nInsert = 0 ∧ shape.nDeletes = 0 ∧
      shape.nHot = (if (recipeOf kind).hotShare = 0 then 0
        else shape.nLoad * (recipeOf kind).hotShare / 100 + 1) ∧
      shape.universeSize = match (recipeOf kind).dist with
        | .append => shape.nUpdates
        | .bimodal => shape.nLoad + shape.nUpdates
        | .sparse => (shape.nLoad + shape.nUpdates) * 4
        | _ => shape.nLoad := by
  unfold WorkloadShape.make WorkloadShape.initOther at h
  rw [if_pos hkind] at h
  simp only [Option.bind_eq_bind, Option.bind_eq_some_iff, Option.pure_def, Option.some.injEq] at h
  obtain ⟨nLoad, hLoad, nUpdates, hUpdates, window, -, lag, -, rfl⟩ := h
  exact ⟨hLoad, hUpdates, rfl, rfl, rfl, rfl⟩

/-! ## The constructor -/

section
variable {scale : ℚ} {shape : WorkloadShape}

theorem toNat_delRangeLen_le (n : UInt64) : (n * 6 / 10).toNat ≤ n.toNat * 6 / 10 := by
  rw [UInt64.toNat_div, UInt64.toNat_mul]
  exact Nat.div_le_div_right (Nat.mod_le _ _)

/-- **The two subtractions of the constructor have results**, also where the sizes do not fit in 64
bits but leave the load its room. -/
theorem subtractions_mixed (h : WorkloadShape.make scale .mixed = some shape)
    (hload : shape.nLoad ≤ shape.universeSize) :
    shape.nHot.toNat ≤ (shape.nLoad + shape.nInsert).toNat ∧
      (shape.nDeletes * 6 / 10).toNat ≤ (shape.nLoad + shape.nInsert).toNat := by
  obtain ⟨hLoad, hInsert, hHot, hNew, hDeletes, huniverse⟩ := make_mixed h
  obtain ⟨hload1, hload2, hload3⟩ := sc_bounds hLoad
  obtain ⟨-, hhot2, -⟩ := sc_bounds hHot
  obtain ⟨hnew1, hnew2, -⟩ := sc_bounds hNew
  have hdel := toNat_delRangeLen_le shape.nDeletes
  have hpos : 0 ≤ max scale 0 := le_max_right _ _
  rw [huniverse, hInsert, UInt64.le_iff_toNat_le, UInt64.toNat_add, UInt64.toNat_add] at hload
  rw [hDeletes] at hdel ⊢
  rw [hInsert, UInt64.toNat_add]
  have hload1' : (200 : ℚ) ≤ shape.nLoad.toNat := by exact_mod_cast hload1
  have hmax := shape.nLoad.toNat_lt
  have hmax' := shape.nMixedNew.toNat_lt
  simp only [UInt64.reduceToNat, Nat.cast_ofNat] at hload2 hload3 hhot2 hnew2 hload1
  -- the sizes without the minima
  have hdiv : ((shape.nMixedNew.toNat * 6 / 10 : Nat) : ℚ) ≤ shape.nMixedNew.toNat * 6 / 10 := by
    have hcast := @Nat.cast_div_le ℚ _ _ _ (shape.nMixedNew.toNat * 6) 10
    push_cast at hcast
    exact hcast
  by_cases hfit : shape.nLoad.toNat + shape.nLoad.toNat < 2 ^ 64
  · rw [Nat.mod_eq_of_lt hfit]
    have hhot : (shape.nHot.toNat : ℚ) ≤ shape.nLoad.toNat := by linarith
    have hrange : ((shape.nMixedNew.toNat * 6 / 10 : Nat) : ℚ) ≤ shape.nLoad.toNat := by linarith
    have hhot' : shape.nHot.toNat ≤ shape.nLoad.toNat := by exact_mod_cast hhot
    have hrange' : shape.nMixedNew.toNat * 6 / 10 ≤ shape.nLoad.toNat := by exact_mod_cast hrange
    omega
  · -- the first sum does not fit: the load has its room because the second is beyond 2^64 as well
    have hsum : (shape.nLoad.toNat + shape.nLoad.toNat) % 2 ^ 64 =
        shape.nLoad.toNat + shape.nLoad.toNat - 2 ^ 64 := by omega
    rw [hsum] at hload ⊢
    have hroom := hload.trans (Nat.mod_le _ _)
    have hwrap : 2 ^ 64 ≤ shape.nLoad.toNat + shape.nMixedNew.toNat := by omega
    have hwrap' : (2 : ℚ) ^ 64 ≤ shape.nLoad.toNat + shape.nMixedNew.toNat := by exact_mod_cast hwrap
    have hhot : (shape.nHot.toNat : ℚ) + shape.nMixedNew.toNat ≤ shape.nLoad.toNat := by linarith
    have hrange : ((shape.nMixedNew.toNat * 6 / 10 : Nat) : ℚ) + shape.nMixedNew.toNat ≤
        shape.nLoad.toNat := by linarith
    have hhot' : shape.nHot.toNat + shape.nMixedNew.toNat ≤ shape.nLoad.toNat := by
      exact_mod_cast hhot
    have hrange' : shape.nMixedNew.toNat * 6 / 10 + shape.nMixedNew.toNat ≤ shape.nLoad.toNat := by
      exact_mod_cast hrange
    omega

theorem subtractions_other {kind : WorkloadKind} (hkind : kind ≠ .mixed)
    (h : WorkloadShape.make scale kind = some shape) :
    shape.nHot.toNat ≤ (shape.nLoad + shape.nInsert).toNat ∧
      (shape.nDeletes * 6 / 10).toNat ≤ (shape.nLoad + shape.nInsert).toNat := by
  obtain ⟨hLoad, -, hInsert, hDeletes, hHot, -⟩ := make_other hkind h
  have hshare : (recipeOf kind).hotShare = 0 ∨
      (recipeOf kind).load ≠ 0 ∧ (recipeOf kind).hotShare.toNat ≤ 8 := by
    cases kind <;> decide
  rw [hInsert, hDeletes, UInt64.add_zero]
  refine ⟨?_, Nat.zero_le _⟩
  rw [hHot]
  split
  · exact Nat.zero_le _
  · rename_i hne
    obtain ⟨hload, hshare⟩ := hshare.resolve_left hne
    unfold scOrZero at hLoad
    rw [if_neg hload] at hLoad
    have hleast : 100 ≤ shape.nLoad.toNat := (sc_bounds hLoad).1
    have hmul : shape.nLoad.toNat * (recipeOf kind).hotShare.toNat ≤ shape.nLoad.toNat * 8 :=
      Nat.mul_le_mul_left _ hshare
    have hmod := Nat.mod_le (shape.nLoad.toNat * (recipeOf kind).hotShare.toNat) (2 ^ 64)
    rw [UInt64.toNat_add, UInt64.toNat_div, UInt64.toNat_mul]
    apply (Nat.mod_le _ _).trans
    simp only [UInt64.reduceToNat]
    omega

end

section
variable {scale : ℚ} {shape : WorkloadShape} {kind : WorkloadKind} (seed : UInt64)
  (h : WorkloadShape.make scale kind = some shape) (hload : shape.nLoad ≤ shape.universeSize)
include h hload

theorem subtractions : shape.nHot.toNat ≤ (shape.nLoad + shape.nInsert).toNat ∧
    (shape.nDeletes * 6 / 10).toNat ≤ (shape.nLoad + shape.nInsert).toNat := by
  by_cases hkind : kind = .mixed
  · subst hkind
    exact subtractions_mixed h hload
  · exact subtractions_other hkind h

omit h hload in
/-- What is drawn below a difference leaves the second number its room. -/
theorem below_sub_le (r : Rng) {a b : UInt64} (hle : b.toNat ≤ a.toNat) :
    (r.below (a - b)).1.toNat + b.toNat ≤ a.toNat := by
  have hsub : (a - b).toNat = a.toNat - b.toNat :=
    UInt64.toNat_sub_of_le _ _ (UInt64.le_iff_toNat_le.2 hle)
  by_cases hzero : 0 < a - b
  · have hlt := below_lt r hzero
    rw [UInt64.lt_iff_toNat_lt, hsub] at hlt
    omega
  · have hz : a - b = 0 := by grind
    rw [hz, Rng.below, if_pos rfl]
    show 0 + b.toNat ≤ _
    omega

theorem hotLo_le : (Config.make seed kind shape).hotLo.toNat + shape.nHot.toNat ≤
    (shape.nLoad + shape.nInsert).toNat := below_sub_le _ (subtractions h hload).1

theorem delLo_le : (Config.make seed kind shape).delLo.toNat +
    (Config.make seed kind shape).delRangeLen.toNat ≤ (shape.nLoad + shape.nInsert).toNat :=
  below_sub_le _ (subtractions h hload).2

theorem spans_of_make (hkind : kind = .mixed) (hfew : shape.nInsert.toNat ≤ 2 ^ 62) :
    (Config.make seed kind shape).Spans := by
  have hhot := hotLo_le seed h hload
  have hdel := delLo_le seed h hload
  subst hkind
  obtain ⟨hLoad, hInsert, hHot, hNew, -, huniverse⟩ := make_mixed h
  obtain ⟨hload1, -, hload3⟩ := sc_bounds hLoad
  obtain ⟨hhot1, -, -⟩ := sc_bounds hHot
  obtain ⟨hnew1, hnew2, -⟩ := sc_bounds hNew
  simp only [UInt64.reduceToNat, Nat.cast_ofNat] at hload1 hload3 hhot1 hnew1 hnew2
  have hpos : 0 ≤ max scale 0 := le_max_right _ _
  rw [hInsert] at hfew
  have hfew' : (shape.nLoad.toNat : ℚ) ≤ 2 ^ 62 := by exact_mod_cast hfew
  have hnew : (shape.nMixedNew.toNat : ℚ) ≤ 2 ^ 62 := by linarith
  have hnew' : shape.nMixedNew.toNat ≤ 2 ^ 62 := by exact_mod_cast hnew
  have hadd : (shape.nLoad + shape.nInsert).toNat = shape.nLoad.toNat + shape.nInsert.toNat := by
    rw [UInt64.toNat_add, hInsert]
    omega
  rw [hadd] at hhot hdel
  refine ⟨?_, hhot, hdel, ?_, ?_⟩
  · show shape.nLoad.toNat + shape.nInsert.toNat + 100 ≤ shape.universeSize.toNat
    rw [huniverse, UInt64.toNat_add, hadd, hInsert]
    omega
  · rw [UInt64.lt_iff_toNat_lt]
    exact Nat.lt_of_lt_of_le (by decide) hhot1
  · rw [UInt64.lt_iff_toNat_lt]
    exact Nat.lt_of_lt_of_le (by decide) hload1

omit hload in
theorem nLoad_pos (hkind : kind ≠ .mixed) (hdist : (recipeOf kind).dist ≠ .append) :
    0 < shape.nLoad := by
  obtain ⟨hLoad, -⟩ := make_other hkind h
  have hne : (recipeOf kind).load ≠ 0 := by
    revert hkind hdist
    cases kind <;> decide
  unfold scOrZero at hLoad
  rw [if_neg hne] at hLoad
  have hleast : 100 ≤ shape.nLoad.toNat := (sc_bounds hLoad).1
  rw [UInt64.lt_iff_toNat_lt]
  exact Nat.lt_of_lt_of_le (by decide) hleast

theorem universe_pos : 0 < shape.universeSize := by
  by_cases hkind : kind = .mixed
  · subst hkind
    have hleast : 200 ≤ shape.nLoad.toNat := (sc_bounds (make_mixed h).1).1
    rw [UInt64.lt_iff_toNat_lt]
    rw [UInt64.le_iff_toNat_le] at hload
    exact Nat.lt_of_lt_of_le (by decide) (hleast.trans hload)
  · by_cases hdist : (recipeOf kind).dist = .append
    · obtain ⟨-, hUpdates, -, -, -, huniverse⟩ := make_other hkind h
      have hleast : 400 ≤ shape.nUpdates.toNat := (sc_bounds hUpdates).1
      rw [huniverse, hdist, UInt64.lt_iff_toNat_lt]
      exact Nat.lt_of_lt_of_le (by decide) hleast
    · have hpos := nLoad_pos h hkind hdist
      grind

/-- **The constructor** makes what the generator needs. -/
theorem ok_of_make : (Config.make seed kind shape).Ok where
  loaded := hload
  nonempty := universe_pos h hload
  mixed hkind hfew := spans_of_make seed h hload hkind hfew
  other hkind hdist := nLoad_pos h hkind hdist
  bimodal hdist := by
    have hkind : kind ≠ .mixed := by
      rintro rfl
      cases hdist
    have hshare : (recipeOf kind).hotShare ≠ 0 := by
      change (recipeOf kind).dist = .bimodal at hdist
      revert hdist
      cases kind <;> decide
    have hlow := hotLo_le seed h hload
    obtain ⟨-, -, hInsert, -, hHot, -⟩ := make_other hkind h
    rw [hInsert, UInt64.add_zero] at hlow
    refine ⟨hlow, ?_⟩
    show 0 < shape.nHot
    rw [hHot, if_neg hshare, UInt64.lt_iff_toNat_lt, UInt64.toNat_add, UInt64.toNat_div]
    have hmax := (shape.nLoad * (recipeOf kind).hotShare).toNat_lt
    simp only [UInt64.reduceToNat]
    omega

end

/-! ## Scales up to 8 -/

section
variable {scale : ℚ} (hpos : 0 ≤ scale) (hle : scale ≤ 8)
include hpos hle

theorem exists_sc {base : Nat} (hbase : base ≤ 1200000) (least : UInt64) :
    ∃ u, sc scale base least = some u := by
  obtain ⟨hnonneg, hupper, -⟩ := scaled_bounds hpos base
  have hbase' : (base : ℚ) ≤ 1200000 := by exact_mod_cast hbase
  have hprod : base * scale ≤ 1200000 * 8 := mul_le_mul hbase' hle hpos (by norm_num)
  unfold sc toUInt64
  rw [if_pos ⟨by linarith, by norm_num; linarith⟩]
  exact ⟨_, rfl⟩

theorem exists_scOrZero {base : Nat} (hbase : base ≤ 1200000) (least : UInt64) :
    ∃ u, scOrZero scale base least = some u := by
  unfold scOrZero
  split
  · exact ⟨0, rfl⟩
  · exact exists_sc hpos hle hbase least

theorem sc_le {base : Nat} (hbase : base ≤ 1200000) {least u : UInt64}
    (h : sc scale base least = some u) : u.toNat ≤ 10000000 + least.toNat := by
  obtain ⟨-, hupper, -⟩ := sc_bounds h
  rw [max_eq_left hpos] at hupper
  have hbase' : (base : ℚ) ≤ 1200000 := by exact_mod_cast hbase
  have hprod : base * scale ≤ 1200000 * 8 := mul_le_mul hbase' hle hpos (by norm_num)
  have hcast : (u.toNat : ℚ) ≤ 10000000 + least.toNat := by linarith
  exact_mod_cast hcast

theorem scOrZero_le {base : Nat} (hbase : base ≤ 1200000) {least u : UInt64}
    (h : scOrZero scale base least = some u) : u.toNat ≤ 10000000 + least.toNat := by
  unfold scOrZero at h
  split at h
  · cases h
    exact Nat.zero_le _
  · exact sc_le hpos hle hbase h

/-- The sizes of the scales that `lsmbench` takes can be built, -/
theorem exists_make (kind : WorkloadKind) : ∃ shape, WorkloadShape.make scale kind = some shape := by
  by_cases hkind : kind = .mixed
  · subst hkind
    obtain ⟨nLoad, hLoad⟩ := @exists_sc scale hpos hle 240000 (by decide) 200
    obtain ⟨nHot, hHot⟩ := @exists_sc scale hpos hle 30000 (by decide) 64
    obtain ⟨nUpdates, hUpdates⟩ := @exists_sc scale hpos hle 320000 (by decide) 200
    obtain ⟨nDeletes, hDeletes⟩ := @exists_sc scale hpos hle 120000 (by decide) 100
    unfold WorkloadShape.make
    rw [if_neg (by decide), hLoad, hHot, hUpdates, hDeletes]
    exact ⟨_, rfl⟩
  · have hsmall : (recipeOf kind).load ≤ 1200000 ∧ (recipeOf kind).ops ≤ 1200000 ∧
        (recipeOf kind).window ≤ 1200000 ∧ (recipeOf kind).lag ≤ 1200000 := by
      cases kind <;> decide
    obtain ⟨nLoad, hLoad⟩ := exists_scOrZero hpos hle hsmall.1 100
    obtain ⟨nUpdates, hUpdates⟩ := exists_sc hpos hle hsmall.2.1 400
    obtain ⟨window, hWindow⟩ := exists_scOrZero hpos hle hsmall.2.2.1 200
    obtain ⟨lag, hLag⟩ := exists_scOrZero hpos hle hsmall.2.2.2 50
    unfold WorkloadShape.make WorkloadShape.initOther
    rw [if_pos hkind]
    simp only [hLoad, hUpdates, hWindow, hLag, Option.bind_eq_bind, Option.bind_some]
    exact ⟨_, rfl⟩

/-- and leave the load its room. -/
theorem room_of_le {kind : WorkloadKind} {shape : WorkloadShape}
    (h : WorkloadShape.make scale kind = some shape) :
    shape.nLoad ≤ shape.universeSize ∧ shape.nInsert.toNat ≤ 2 ^ 62 := by
  by_cases hkind : kind = .mixed
  · subst hkind
    obtain ⟨hLoad, hInsert, -, hNew, -, huniverse⟩ := make_mixed h
    have hload := sc_le hpos hle (by decide) hLoad
    have hnew := sc_le hpos hle (by decide) hNew
    simp only [UInt64.reduceToNat] at hload hnew
    rw [huniverse, hInsert, UInt64.le_iff_toNat_le, UInt64.toNat_add, UInt64.toNat_add]
    omega
  · have hsmall : (recipeOf kind).load ≤ 1200000 ∧ (recipeOf kind).ops ≤ 1200000 := by
      cases kind <;> decide
    have happend : (recipeOf kind).dist = .append → (recipeOf kind).load = 0 := by
      cases kind <;> decide
    obtain ⟨hLoad, hUpdates, hInsert, -, -, huniverse⟩ := make_other hkind h
    have hload := scOrZero_le hpos hle hsmall.1 hLoad
    have hupdates := sc_le hpos hle hsmall.2 hUpdates
    simp only [UInt64.reduceToNat] at hload hupdates
    refine ⟨?_, by rw [hInsert]; exact Nat.zero_le _⟩
    rw [huniverse]
    cases hdist : (recipeOf kind).dist with
    | append =>
      unfold scOrZero at hLoad
      rw [if_pos (happend hdist)] at hLoad
      rw [← Option.some.inj hLoad]
      exact UInt64.zero_le
    | bimodal =>
      rw [UInt64.le_iff_toNat_le, UInt64.toNat_add]
      omega
    | sparse =>
      rw [UInt64.le_iff_toNat_le, UInt64.toNat_mul, UInt64.toNat_add]
      simp only [UInt64.reduceToNat]
      omega
    | uniform => exact UInt64.le_refl _
    | hot => exact UInt64.le_refl _
    | rolling => exact UInt64.le_refl _

end

end LevelDb.Bench.Phases
