import LevelDb.Proof.ConfModel
import Mathlib.Tactic.Ring

/-!
# The operands of the tests may be folded in any grouping

An operand `a,b` stands for the map `x ↦ a * x + b` modulo the prime. What is written of a pair is
read back as the pair (`affineParseOperand_affineOperand`); the fold of operands is their maps one
after the other (`affineFold_operands`); a partial merge writes the operand of the two maps in
sequence (`affineFold_partialMerge`). So neither the steps in which operands are folded nor the pairs
that were merged before show in the result.
-/

namespace LevelDb.Conf

open Numerals

/-! ## The arithmetic -/

/-- Neither sum of `AffineMul` and `AffineAdd` is cut off at 64 bits. -/
theorem affine_no_overflow {a b : UInt64} (ha : a < kAffineP) (hb : b < kAffineP) :
    a.toNat * b.toNat < 2 ^ 128 ∧
      (a.toNat * b.toNat &&& kAffineP.toNat) + ((a.toNat * b.toNat) >>> 61) < 2 ^ 64 ∧
      a.toNat + b.toNat < 2 ^ 64 := by
  rw [lt_kAffineP] at ha hb
  have hprod : a.toNat * b.toNat ≤ (2 ^ 61 - 2) * (2 ^ 61 - 2) :=
    Nat.mul_le_mul (by omega) (by omega)
  rw [toNat_kAffineP, Nat.and_two_pow_sub_one_eq_mod, Nat.shiftRight_eq_div_pow]
  omega

/-- The sum that the prime is taken from gives one number however it is reached. -/
theorem affine_comp {a1 b1 a2 b2 x : UInt64} (ha1 : a1 < kAffineP) (hb1 : b1 < kAffineP)
    (ha2 : a2 < kAffineP) (hb2 : b2 < kAffineP) (hx : x < kAffineP) :
    affineAdd (affineMul a2 (affineAdd (affineMul a1 x) b1)) b2 =
      affineAdd (affineMul (affineMul a2 a1) x) (affineAdd (affineMul a2 b1) b2) := by
  have hinner : affineAdd (affineMul a1 x) b1 < kAffineP := affineAdd_lt (affineMul_lt ha1 hx) hb1
  have hleft : affineMul a2 a1 < kAffineP := affineMul_lt ha2 ha1
  have hright : affineAdd (affineMul a2 b1) b2 < kAffineP := affineAdd_lt (affineMul_lt ha2 hb1) hb2
  apply UInt64.toNat_inj.1
  rw [toNat_affineAdd (affineMul_lt ha2 hinner) hb2, toNat_affineMul ha2 hinner,
    toNat_affineAdd (affineMul_lt ha1 hx) hb1, toNat_affineMul ha1 hx,
    toNat_affineAdd (affineMul_lt hleft hx) hright, toNat_affineMul hleft hx,
    toNat_affineMul ha2 ha1, toNat_affineAdd (affineMul_lt ha2 hb1) hb2, toNat_affineMul ha2 hb1]
  simp only [Nat.mod_add_mod, Nat.add_mod_mod, Nat.mul_mod_mod, Nat.mod_mul_mod]
  congr 1
  ring

/-! ## Operands -/

theorem findIdx?_digits {ds rest : Text} (h : ∀ c ∈ ds, c.isDigit = true) :
    (ds ++ ',' :: rest).findIdx? (· = ',') = some ds.length := by
  induction ds with
  | nil => rfl
  | cons d ds ih =>
    have hd : ¬ d = ',' := by
      rintro rfl
      exact absurd (h ',' List.mem_cons_self) (by decide)
    have htail := ih fun c hc => h c (List.mem_cons_of_mem d hc)
    rw [List.cons_append, List.findIdx?_cons, htail, if_neg (by simpa using hd)]
    rfl

/-- **An operand is read back.** -/
theorem affineParseOperand_affineOperand {a b : UInt64} (ha : a < kAffineP) (hb : b < kAffineP) :
    affineParseOperand (affineOperand a b) = some (a, b) := by
  have hcomma : (affineOperand a b).findIdx? (· = ',') = some (padded 1 a.toNat).length :=
    findIdx?_digits fun c => isDigit_of_mem_padded
  have hlen : (affineOperand a b).length =
      (padded 1 a.toNat).length + ((padded 1 b.toNat).length + 1) := List.length_append
  have hpos : 0 < (padded 1 a.toNat).length := List.length_pos_of_ne_nil (padded_ne_nil 1 _)
  have hpos' : 0 < (padded 1 b.toNat).length := List.length_pos_of_ne_nil (padded_ne_nil 1 _)
  have hfirst : strtoull (affineOperand a b) = (a, ',' :: padded 1 b.toNat) := by
    have h := @strtoull_padded 1 a.toNat a.toNat_lt (',' :: padded 1 b.toNat) (by simp)
    rwa [UInt64.ofNat_toNat] at h
  have hdrop : (affineOperand a b).drop ((padded 1 a.toNat).length + 1) = padded 1 b.toNat := by
    rw [affineOperand, List.drop_append]
    simp
  have hsecond : strtoull (padded 1 b.toNat) = (b, []) := by
    have h := @strtoull_padded 1 b.toNat b.toNat_lt [] nofun
    rwa [List.append_nil, UInt64.ofNat_toNat] at h
  unfold affineParseOperand
  rw [hcomma]
  dsimp only
  rw [hdrop, hfirst, hsecond, if_neg (by omega), if_neg, if_neg (not_not_intro rfl), if_pos ⟨ha, hb⟩]
  rw [List.length_cons]
  omega

/-- A pair below the prime. -/
def Canonical (ab : UInt64 × UInt64) : Prop := ab.1 < kAffineP ∧ ab.2 < kAffineP

instance (ab : UInt64 × UInt64) : Decidable (Canonical ab) :=
  inferInstanceAs (Decidable (_ ∧ _))

/-- The operands of the pairs. -/
def operandsOf (ps : List (UInt64 × UInt64)) : List Text := ps.map fun ab => affineOperand ab.1 ab.2

theorem operandsOf_append (ps qs : List (UInt64 × UInt64)) :
    operandsOf (ps ++ qs) = operandsOf ps ++ operandsOf qs := List.map_append

/-- The fold of operands is their maps one after the other. -/
theorem affineFold_operands (x : UInt64) {ps : List (UInt64 × UInt64)} (h : ∀ p ∈ ps, Canonical p) :
    affineFold x (operandsOf ps) =
      some (ps.foldl (fun x ab => affineAdd (affineMul ab.1 x) ab.2) x) := by
  induction ps generalizing x with
  | nil => rfl
  | cons p ps ih =>
    obtain ⟨hp, hps⟩ := List.forall_mem_cons.1 h
    have hparse := affineParseOperand_affineOperand hp.1 hp.2
    rw [operandsOf, List.map_cons, affineFold, List.foldlM_cons, hparse]
    exact ih _ hps

theorem affineFullMerge_operands (key : Text) (b : Option Text) {ps : List (UInt64 × UInt64)}
    (h : ∀ p ∈ ps, Canonical p) :
    affineOperator.fullMerge key b (operandsOf ps) =
      some (affineFullMerge key b (operandsOf ps)) := by
  rw [affineOperator_eq, affineFullMerge, affineFold_operands _ h]
  rfl

/-- **In two steps** as at once. -/
theorem affineFullMerge_append (key : Text) (b : Option Text) {xs ys : List (UInt64 × UInt64)}
    (hx : ∀ p ∈ xs, Canonical p) (hy : ∀ p ∈ ys, Canonical p) :
    affineFullMerge key (some (affineFullMerge key b (operandsOf xs))) (operandsOf ys) =
      affineFullMerge key b (operandsOf (xs ++ ys)) := by
  have hxy : ∀ p ∈ xs ++ ys, Canonical p := by
    intro p hp
    obtain hp | hp := List.mem_append.1 hp
    · exact hx p hp
    · exact hy p hp
  have hfold := affineOperator_append key b (operandsOf xs) (operandsOf ys)
  rw [← operandsOf_append, affineFullMerge_operands key b hxy, affineFullMerge_operands key b hx,
    Option.bind_some, affineFullMerge_operands key _ hy] at hfold
  exact (Option.some.inj hfold).symm

/-- **In any number of steps** as at once. -/
theorem affineFullMerge_flatten (key : Text) (b : Option Text) {xs : List (UInt64 × UInt64)}
    {groups : List (List (UInt64 × UInt64))} (hx : ∀ p ∈ xs, Canonical p)
    (hgroups : ∀ ps ∈ groups, ∀ p ∈ ps, Canonical p) :
    groups.foldl (fun v ps => affineFullMerge key (some v) (operandsOf ps))
        (affineFullMerge key b (operandsOf xs)) =
      affineFullMerge key b (operandsOf (xs ++ groups.flatten)) := by
  induction groups generalizing xs with
  | nil => rw [List.flatten_nil, List.append_nil, List.foldl_nil]
  | cons ps groups ih =>
    obtain ⟨hps, hrest⟩ := List.forall_mem_cons.1 hgroups
    have hboth : ∀ p ∈ xs ++ ps, Canonical p := by
      intro p hp
      obtain hp | hp := List.mem_append.1 hp
      · exact hx p hp
      · exact hps p hp
    rw [List.foldl_cons, affineFullMerge_append key b hx hps, ih hboth hrest, List.flatten_cons,
      List.append_assoc]

/-! ## Partial merges -/

/-- The pair of two maps in sequence. -/
def comp (l r : UInt64 × UInt64) : UInt64 × UInt64 :=
  (affineMul r.1 l.1, affineAdd (affineMul r.1 l.2) r.2)

theorem canonical_comp {l r : UInt64 × UInt64} (hl : Canonical l) (hr : Canonical r) :
    Canonical (comp l r) :=
  ⟨affineMul_lt hr.1 hl.1, affineAdd_lt (affineMul_lt hr.1 hl.2) hr.2⟩

theorem partialMerge_operands (key : Text) {l r : UInt64 × UInt64} (hl : Canonical l)
    (hr : Canonical r) :
    affineOperator.partialMerge key (affineOperand l.1 l.2) (affineOperand r.1 r.2) =
      some (affineOperand (comp l r).1 (comp l r).2) := by
  unfold affineOperator
  simp only []
  rw [affineParseOperand_affineOperand hl.1 hl.2, affineParseOperand_affineOperand hr.1 hr.2]
  rfl

theorem foldl_lt {x : UInt64} (hx : x < kAffineP) {ps : List (UInt64 × UInt64)}
    (h : ∀ p ∈ ps, Canonical p) :
    ps.foldl (fun x ab => affineAdd (affineMul ab.1 x) ab.2) x < kAffineP :=
  affineFold_lt hx (affineFold_operands x h)

/-- **A partial merge** takes the place of its two operands anywhere. -/
theorem affineFullMerge_comp (key : Text) (b : Option Text) {us vs : List (UInt64 × UInt64)}
    {l r : UInt64 × UInt64} (hus : ∀ p ∈ us, Canonical p) (hvs : ∀ p ∈ vs, Canonical p)
    (hl : Canonical l) (hr : Canonical r) :
    affineFullMerge key b (operandsOf (us ++ comp l r :: vs)) =
      affineFullMerge key b (operandsOf (us ++ l :: r :: vs)) := by
  have hx : us.foldl (fun x ab => affineAdd (affineMul ab.1 x) ab.2) (affineValueX key b) <
      kAffineP := foldl_lt (affineValueX_lt key b) hus
  have hlong : ∀ p ∈ us ++ l :: r :: vs, Canonical p := by
    intro p hp
    obtain hp | rfl | rfl | hp : p ∈ us ∨ p = l ∨ p = r ∨ p ∈ vs := by simpa using hp
    · exact hus p hp
    · exact hl
    · exact hr
    · exact hvs p hp
  have hshort : ∀ p ∈ us ++ comp l r :: vs, Canonical p := by
    intro p hp
    obtain hp | rfl | hp : p ∈ us ∨ p = comp l r ∨ p ∈ vs := by simpa using hp
    · exact hus p hp
    · exact canonical_comp hl hr
    · exact hvs p hp
  rw [affineFullMerge, affineFullMerge, affineFold_operands _ hlong, affineFold_operands _ hshort,
    List.foldl_append, List.foldl_append, List.foldl_cons, List.foldl_cons, List.foldl_cons]
  rw [comp, affine_comp hl.1 hl.2 hr.1 hr.2 hx]

/-! ## The operator -/

/-- **The operator may be folded in any grouping**: its arithmetic is exact, operands are read back,
two folds in sequence are one, and a partial merge stands for its operands wherever they are. -/
theorem affineOperator_grouping :
    (∀ a b : UInt64, a < kAffineP → b < kAffineP →
      (affineMul a b).toNat = a.toNat * b.toNat % (2 ^ 61 - 1) ∧ affineMul a b < kAffineP ∧
      (affineAdd a b).toNat = (a.toNat + b.toNat) % (2 ^ 61 - 1) ∧ affineAdd a b < kAffineP ∧
      a.toNat * b.toNat < 2 ^ 128 ∧
      (a.toNat * b.toNat &&& kAffineP.toNat) + ((a.toNat * b.toNat) >>> 61) < 2 ^ 64 ∧
      a.toNat + b.toNat < 2 ^ 64 ∧
      affineParseOperand (affineOperand a b) = some (a, b)) ∧
    (∀ (key : Text) (b : Option Text) (xs ys : List (UInt64 × UInt64)),
      (∀ p ∈ xs, Canonical p) → (∀ p ∈ ys, Canonical p) →
      affineFullMerge key (some (affineFullMerge key b (operandsOf xs))) (operandsOf ys) =
        affineFullMerge key b (operandsOf xs ++ operandsOf ys)) ∧
    ∀ (key : Text) (l r : UInt64 × UInt64), Canonical l → Canonical r →
      ∃ m, Canonical m ∧
        affineOperator.partialMerge key (affineOperand l.1 l.2) (affineOperand r.1 r.2) =
          some (affineOperand m.1 m.2) ∧
        ∀ (b : Option Text) (us vs : List (UInt64 × UInt64)), (∀ p ∈ us, Canonical p) →
          (∀ p ∈ vs, Canonical p) →
          affineFullMerge key b (operandsOf us ++ affineOperand m.1 m.2 :: operandsOf vs) =
            affineFullMerge key b (operandsOf us ++
              affineOperand l.1 l.2 :: affineOperand r.1 r.2 :: operandsOf vs) := by
  refine ⟨fun a b ha hb => ?_, fun key b xs ys hx hy => ?_, fun key l r hl hr => ?_⟩
  · obtain ⟨h1, h2, h3⟩ := affine_no_overflow ha hb
    exact ⟨toNat_affineMul ha hb, affineMul_lt ha hb, toNat_affineAdd ha hb, affineAdd_lt ha hb,
      h1, h2, h3, affineParseOperand_affineOperand ha hb⟩
  · rw [← operandsOf_append]
    exact affineFullMerge_append key b hx hy
  · refine ⟨comp l r, canonical_comp hl hr, partialMerge_operands key hl hr, ?_⟩
    intro b us vs hus hvs
    have h := affineFullMerge_comp key b hus hvs hl hr
    rwa [operandsOf_append, operandsOf_append] at h

/-- Operands on a short value: folded one at a time, and merged before they are folded. -/
theorem affineOperator_grouping_sample :
    affineFullMerge "k".toList (some (affineFullMerge "k".toList (some ['v']) (operandsOf [(2, 5)])))
        (operandsOf [(3, 1)]) =
      affineFullMerge "k".toList (some ['v']) (operandsOf [(2, 5)] ++ operandsOf [(3, 1)]) ∧
    ∃ m, Canonical m ∧ affineOperator.partialMerge "k".toList (affineOperand 2 5) (affineOperand 3 1) =
      some (affineOperand m.1 m.2) :=
  have hall : ∀ p ∈ [((2 : UInt64), (5 : UInt64))], Canonical p :=
    fun p hp => List.mem_singleton.1 hp ▸ show Canonical (2, 5) by decide
  have hall' : ∀ p ∈ [((3 : UInt64), (1 : UInt64))], Canonical p :=
    fun p hp => List.mem_singleton.1 hp ▸ show Canonical (3, 1) by decide
  have hpartial := affineOperator_grouping.2.2 "k".toList (2, 5) (3, 1) (by decide) (by decide)
  ⟨affineOperator_grouping.2.1 "k".toList (some ['v']) [(2, 5)] [(3, 1)] hall hall',
    hpartial.elim fun m hm => ⟨m, hm.1, hm.2.1⟩⟩

end LevelDb.Conf
