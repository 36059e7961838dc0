import LevelDb.Db.Workload
import Mathlib.Data.List.Perm.Basic
import Mathlib.Data.FinEnum
import Mathlib.Tactic.Ring

/-!
# The benchmark inserts every id once

The network of `Permute` permutes the numbers of `bits` bits (`mapsTo_feistel`, `injOn_feistel`), so
its loop ends for every start below `n`, and permutes `[0, n)` (`exists_permute`). Phase B puts the
ids of its range in that order, however many the generator draws for a batch (`phaseB_eq`).
-/

namespace LevelDb.Bench

open Feistel

/-! ## Halves -/

theorem toNat_one_shiftLeft {b : UInt64} (hb : b.toNat < 64) :
    ((1 : UInt64) <<< b).toNat = 2 ^ b.toNat := by
  have hlt : 2 ^ b.toNat < 2 ^ 64 := Nat.pow_lt_pow_right (by decide) hb
  rw [UInt64.toNat_shiftLeft, Nat.mod_eq_of_lt hb, Nat.shiftLeft_eq]
  show 1 * 2 ^ b.toNat % 2 ^ 64 = _
  rw [Nat.one_mul, Nat.mod_eq_of_lt hlt]

section
variable {half : UInt64} (hhalf : half.toNat < 32)
include hhalf

theorem toNat_mask : ((1 : UInt64) <<< half - 1).toNat = 2 ^ half.toNat - 1 := by
  have hone := @toNat_one_shiftLeft half (by omega)
  have hpos : 0 < 2 ^ half.toNat := Nat.two_pow_pos _
  rw [UInt64.toNat_sub_of_le, hone]
  · rfl
  · rw [UInt64.le_iff_toNat_le, hone]
    exact hpos

theorem toNat_and_mask (x : UInt64) :
    (x &&& ((1 : UInt64) <<< half - 1)).toNat = x.toNat % 2 ^ half.toNat := by
  rw [UInt64.toNat_and, toNat_mask hhalf, Nat.and_two_pow_sub_one_eq_mod]

theorem toNat_shiftRight_half (x : UInt64) : (x >>> half).toNat = x.toNat / 2 ^ half.toNat := by
  rw [UInt64.toNat_shiftRight, Nat.mod_eq_of_lt (by omega), Nat.shiftRight_eq_div_pow]

/-- The halves side by side. -/
theorem toNat_pack {l r : UInt64} (hl : l.toNat < 2 ^ half.toNat) (hr : r.toNat < 2 ^ half.toNat) :
    ((r <<< half) ||| l).toNat = r.toNat * 2 ^ half.toNat + l.toNat := by
  have hle : 2 ^ half.toNat ≤ 2 ^ 31 := Nat.pow_le_pow_right (by decide) (by omega)
  have hlt : r.toNat * 2 ^ half.toNat < 2 ^ 64 :=
    calc r.toNat * 2 ^ half.toNat < 2 ^ half.toNat * 2 ^ half.toNat :=
          Nat.mul_lt_mul_of_pos_right hr (Nat.two_pow_pos _)
      _ ≤ 2 ^ 31 * 2 ^ 31 := Nat.mul_le_mul hle hle
      _ < 2 ^ 64 := by decide
  have hmod : half.toNat % 64 = half.toNat := Nat.mod_eq_of_lt (by omega)
  rw [UInt64.toNat_or, UInt64.toNat_shiftLeft, hmod, Nat.shiftLeft_eq, Nat.mod_eq_of_lt hlt,
    ← Nat.shiftLeft_eq, ← Nat.shiftLeft_add_eq_or_of_lt hl, Nat.shiftLeft_eq]

/-- A number of two halves is known by them. -/
theorem eq_of_halves {x y : UInt64} (hx : x.toNat < 2 ^ half.toNat * 2 ^ half.toNat)
    (hy : y.toNat < 2 ^ half.toNat * 2 ^ half.toNat)
    (hlow : x &&& ((1 : UInt64) <<< half - 1) = y &&& ((1 : UInt64) <<< half - 1))
    (hhigh : (x >>> half) &&& ((1 : UInt64) <<< half - 1) =
      (y >>> half) &&& ((1 : UInt64) <<< half - 1)) : x = y := by
  have h1 := congrArg UInt64.toNat hlow
  have h2 := congrArg UInt64.toNat hhigh
  rw [toNat_and_mask hhalf, toNat_and_mask hhalf] at h1 h2
  rw [toNat_shiftRight_half hhalf, toNat_shiftRight_half hhalf,
    Nat.mod_eq_of_lt (Nat.div_lt_of_lt_mul hx), Nat.mod_eq_of_lt (Nat.div_lt_of_lt_mul hy)] at h2
  apply UInt64.toNat_inj.1
  rw [← Nat.mod_add_div x.toNat (2 ^ half.toNat), ← Nat.mod_add_div y.toNat (2 ^ half.toNat), h1, h2]

end

/-! ## The network -/

/-- The halves after the rounds are halves again. -/
theorem network_halves {half : UInt64} (hhalf : half.toNat < 32) (permKey x : UInt64) :
    let hm := (1 : UInt64) <<< half - 1
    let lr := network (· ^^^ ·) ([0, 1, 2, 3].map (roundFunction permKey hm))
      (x &&& hm, (x >>> half) &&& hm)
    lr.1.toNat < 2 ^ half.toNat ∧ lr.2.toNat < 2 ^ half.toNat := by
  have hmask (y : UInt64) : (y &&& ((1 : UInt64) <<< half - 1)).toNat < 2 ^ half.toNat := by
    rw [toNat_and_mask hhalf]
    exact Nat.mod_lt _ (Nat.two_pow_pos _)
  apply network_mem (s := {a : UInt64 | a.toNat < 2 ^ half.toNat})
  · intro a ha b hb
    show (a ^^^ b).toNat < _
    rw [UInt64.toNat_xor]
    exact Nat.xor_lt_two_pow ha hb
  · intro F hF a
    obtain ⟨round, -, rfl⟩ := List.mem_map.1 hF
    exact hmask _
  · exact hmask _
  · exact hmask _

section
variable {bits : UInt64} {h : Nat} (hbits : bits.toNat = 2 * h) (hh : h ≤ 31)
include hbits

theorem toNat_half : (bits / 2).toNat = h := by
  rw [UInt64.toNat_div, hbits]
  exact Nat.mul_div_cancel_left h (by decide)

theorem two_pow_bits : 2 ^ bits.toNat = 2 ^ (bits / 2).toNat * 2 ^ (bits / 2).toNat := by
  rw [toNat_half hbits, ← Nat.pow_add, hbits, Nat.two_mul]

include hh

theorem toNat_feistel (permKey x : UInt64) :
    (feistel permKey bits x).toNat < 2 ^ bits.toNat := by
  have hhalf : (bits / 2).toNat < 32 := by
    rw [toNat_half hbits]
    omega
  obtain ⟨hl, hr⟩ := network_halves hhalf permKey x
  have hpack := toNat_pack hhalf hl hr
  rw [two_pow_bits hbits]
  show ((_ <<< (bits / 2)) ||| _).toNat < _
  rw [hpack]
  generalize 2 ^ (bits / 2).toNat = p at hl hr
  calc _ < _ * p + p := Nat.add_lt_add_left hl _
    _ = (_ + 1) * p := (Nat.succ_mul _ _).symm
    _ ≤ p * p := Nat.mul_le_mul_right p hr

theorem mapsTo_feistel (permKey : UInt64) :
    Set.MapsTo (feistel permKey bits) {x | x.toNat < 2 ^ bits.toNat} {x | x.toNat < 2 ^ bits.toNat} :=
  fun x _ => toNat_feistel hbits hh permKey x

theorem injOn_feistel (permKey : UInt64) :
    Set.InjOn (feistel permKey bits) {x | x.toNat < 2 ^ bits.toNat} := by
  intro x hx y hy heq
  have hhalf : (bits / 2).toNat < 32 := by
    rw [toNat_half hbits]
    omega
  rw [two_pow_bits hbits] at hx hy
  obtain ⟨hl, hr⟩ := network_halves hhalf permKey x
  obtain ⟨hl', hr'⟩ := network_halves hhalf permKey y
  -- the halves after the rounds agree, so those before them do
  have hlt : 0 < 2 ^ (bits / 2).toNat := Nat.two_pow_pos _
  have hnat := congrArg UInt64.toNat heq
  unfold feistel at hnat
  simp only at hnat hl hr hl' hr'
  rw [toNat_pack hhalf hl hr, toNat_pack hhalf hl' hr'] at hnat
  have hlow := congrArg (· % 2 ^ (bits / 2).toNat) hnat
  have hhigh := congrArg (· / 2 ^ (bits / 2).toNat) hnat
  simp only [Nat.mul_add_mod_self_right, Nat.mod_eq_of_lt hl, Nat.mod_eq_of_lt hl'] at hlow
  simp only [Nat.add_comm (_ * _), Nat.add_mul_div_right _ _ hlt, Nat.div_eq_of_lt hl,
    Nat.div_eq_of_lt hl', Nat.zero_add] at hhigh
  have hinj : Function.Injective (network (fun a b : UInt64 => a ^^^ b) _) :=
    network_injective (fun b a a' hab => (UInt64.xor_left_inj b).1 hab)
      ([0, 1, 2, 3].map (roundFunction permKey ((1 : UInt64) <<< (bits / 2) - 1)))
  have hpairs := hinj (Prod.ext (UInt64.toNat_inj.1 hlow) (UInt64.toNat_inj.1 hhigh))
  obtain ⟨h1, h2⟩ := Prod.mk.injEq .. ▸ hpairs
  exact eq_of_halves hhalf hx hy h1 h2

end

/-! ## The loops -/

/-- The loop over `bits` ends at an even number of bits that `n` fits in. -/
theorem exists_bitsLoop {n : UInt64} (hn : n.toNat ≤ 2 ^ 62) {k : Nat} (hk : k ≤ 31) {bits : UInt64}
    (hbits : bits.toNat = 2 * k) :
    ∃ bits' h, h ≤ 31 ∧ bits'.toNat = 2 * h ∧ n.toNat ≤ 2 ^ bits'.toNat ∧
      ∀ fuel, 32 - k ≤ fuel → bitsLoop n fuel bits = some bits' := by
  induction hd : 31 - k generalizing k bits with
  | zero =>
    obtain rfl : k = 31 := by omega
    have hge : ¬ (1 : UInt64) <<< bits < n := by
      rw [UInt64.lt_iff_toNat_lt, toNat_one_shiftLeft (by omega), hbits]
      omega
    refine ⟨bits, 31, le_rfl, hbits, by rw [hbits]; exact hn, fun fuel hfuel => ?_⟩
    obtain ⟨fuel, rfl⟩ := Nat.exists_eq_add_of_le' hfuel
    rw [bitsLoop, if_neg hge]
  | succ d ih =>
    by_cases hlt : (1 : UInt64) <<< bits < n
    · have hnext : (bits + 2).toNat = 2 * (k + 1) := by
        rw [UInt64.toNat_add, hbits]
        show (2 * k + 2) % 2 ^ 64 = _
        omega
      obtain ⟨bits', h, hh, heven, hfit, hloop⟩ := ih (by omega) hnext (by omega)
      refine ⟨bits', h, hh, heven, hfit, fun fuel hfuel => ?_⟩
      obtain ⟨fuel, rfl⟩ := Nat.exists_eq_add_of_le' (show 1 ≤ fuel by omega)
      rw [bitsLoop, if_pos hlt]
      exact hloop fuel (by omega)
    · refine ⟨bits, k, hk, hbits, ?_, fun fuel hfuel => ?_⟩
      · rw [UInt64.lt_iff_toNat_lt, toNat_one_shiftLeft (by omega), Nat.not_lt] at hlt
        exact hlt
      · obtain ⟨fuel, rfl⟩ := Nat.exists_eq_add_of_le' (show 1 ≤ fuel by omega)
        rw [bitsLoop, if_neg hlt]

/-- **`Permute` ends, and is a permutation** of the numbers below `n`. -/
theorem exists_permute (permKey : UInt64) {n : UInt64} (hn : n.toNat ≤ 2 ^ 62) :
    ∃ f : UInt64 → UInt64, Set.BijOn f {i | i < n} {i | i < n} ∧
      ∃ fuel, ∀ more, fuel ≤ more → ∀ i, i < n → permute more permKey i n = some (f i) := by
  obtain ⟨bits, h, hh, hbits, hfit, hloop⟩ :=
    @exists_bitsLoop n hn 1 (by decide) 2 rfl
  have hfin : {x : UInt64 | x.toNat < 2 ^ bits.toNat}.Finite := Set.toFinite _
  have hsub : ∀ x, x < n → x ∈ {x : UInt64 | x.toNat < 2 ^ bits.toNat} := by
    intro x hx
    rw [UInt64.lt_iff_toNat_lt] at hx
    exact Nat.lt_of_lt_of_le hx hfit
  obtain ⟨f, hf, fuel, hwalk⟩ := exists_bijOn_walk (mapsTo_feistel hbits hh permKey)
    (injOn_feistel hbits hh permKey) hfin hsub
  refine ⟨f, hf, max fuel 31, fun more hmore i hi => ?_⟩
  rw [permute, hloop more (by omega), Option.bind_some]
  exact hwalk more (by omega) i hi

/-! ## Phase B -/

namespace Workload

/-- What the phase reads and never changes. -/
def Same (w w' : Workload) : Prop :=
  w'.nLoad = w.nLoad ∧ w'.nInsert = w.nInsert ∧ w'.permKey = w.permKey

/-- The ids put before `sub` is `a`, where `f` is the permutation. -/
def putBefore (w : Workload) (f : UInt64 → UInt64) (a : Nat) : List UInt64 :=
  (List.range a).map fun i => w.nLoad + f (.ofNat i)

theorem Same.putBefore {w w' : Workload} (h : w.Same w') (f : UInt64 → UInt64) (a : Nat) :
    w'.putBefore f a = w.putBefore f a := by
  rw [Workload.putBefore, Workload.putBefore, h.1]

section
variable {fuel : Nat} {f : UInt64 → UInt64}

/-- The loop of a batch puts the next ids, as many as it is told while there are any. -/
theorem addPuts_spec {i : Nat} {w : Workload} (ops : List Op) (hle : w.sub.toNat ≤ w.nInsert.toNat)
    (hf : ∀ i, i < w.nInsert → permute fuel w.permKey i w.nInsert = some (f i)) :
    ∃ new w', addPuts fuel i w ops = some (ops ++ new, w') ∧ w.Same w' ∧
      w'.didRead = w.didRead ∧ (Step.batch new).puts = new.map Op.id ∧
      w.putBefore f w.sub.toNat ++ new.map Op.id = w.putBefore f w'.sub.toNat ∧
      w'.sub.toNat = min (w.sub.toNat + i) w.nInsert.toNat := by
  induction i generalizing w ops with
  | zero =>
    refine ⟨[], w, by rw [addPuts, List.append_nil], ⟨rfl, rfl, rfl⟩, rfl, rfl, ?_, by omega⟩
    rw [List.map_nil, List.append_nil]
  | succ i ih =>
    rw [addPuts]
    split
    · rename_i hlt
      have hsub : (w.addPut (w.nLoad + f w.sub)).sub.toNat = w.sub.toNat + 1 := by
        have hmax := w.nInsert.toNat_lt
        rw [UInt64.lt_iff_toNat_lt] at hlt
        show (w.sub + 1).toNat = _
        rw [UInt64.toNat_add]
        show (w.sub.toNat + 1) % 2 ^ 64 = _
        omega
      have hsame : w.Same (w.addPut (w.nLoad + f w.sub)) := ⟨rfl, rfl, rfl⟩
      have hlast : w.putBefore f (w.sub.toNat + 1) =
          w.putBefore f w.sub.toNat ++ [w.nLoad + f w.sub] := by
        rw [putBefore, List.range_succ, List.map_append, List.map_singleton, UInt64.ofNat_toNat]
        rfl
      have hlt' := UInt64.lt_iff_toNat_lt.1 hlt
      obtain ⟨new, w', hadd, hsame', hread, hputs, hids, hend⟩ :=
        @ih (w.addPut (w.nLoad + f w.sub)) (ops ++ [⟨false, w.nLoad + f w.sub⟩])
          (by rw [hsub]; exact hlt') hf
      rw [hf w.sub hlt, Option.bind_some, hadd]
      refine ⟨⟨false, w.nLoad + f w.sub⟩ :: new, w', ?_, hsame', hread, ?_, ?_, ?_⟩
      · rw [List.append_assoc, List.singleton_append]
      · exact congrArg (List.cons _) hputs
      · rw [hsub, hsame.putBefore, hsame.putBefore, hlast, List.append_assoc,
          List.singleton_append] at hids
        exact hids
      · rw [hend, hsub]
        show min _ w.nInsert.toNat = _
        omega
    · rename_i hge
      refine ⟨[], w, by rw [List.append_nil], ⟨rfl, rfl, rfl⟩, rfl, rfl, ?_, ?_⟩
      · rw [List.map_nil, List.append_nil]
      · rw [UInt64.lt_iff_toNat_lt] at hge
        omega

theorem readId_eq (w : Workload) : ∃ id rng, readId w = (id, { w with rng := rng }) := by
  simp only [readId]
  split
  · exact ⟨_, _, rfl⟩
  · exact ⟨_, _, rfl⟩

/-- What is still to do: two steps an id at most. -/
def rest (w : Workload) : Nat :=
  2 * (w.nInsert.toNat - w.sub.toNat) + if w.didRead then 0 else 1

/-- **A step** puts the next ids or reads once, and comes nearer to the end. -/
theorem insertStep_spec {w : Workload} (hlt : w.sub < w.nInsert)
    (hf : ∀ i, i < w.nInsert → permute fuel w.permKey i w.nInsert = some (f i)) :
    ∃ step w', insertStep fuel w = some (step, w') ∧ w.Same w' ∧ w'.rest < w.rest ∧
      w'.sub.toNat ≤ w.nInsert.toNat ∧
      w.putBefore f w.sub.toNat ++ step.puts = w.putBefore f w'.sub.toNat := by
  have hlt' := hlt
  rw [UInt64.lt_iff_toNat_lt] at hlt'
  unfold insertStep
  split
  · rename_i hread
    obtain ⟨id, rng, hid⟩ := readId_eq { w with didRead := true }
    simp only [hid]
    refine ⟨_, _, rfl, ⟨rfl, rfl, rfl⟩, ?_, hlt'.le, List.append_nil _⟩
    unfold rest
    rw [hread.2.2]
    simp
  · obtain ⟨new, w', hadd, hsame, hread, hputs, hids, hend⟩ := addPuts_spec (f := f)
      (i := 1 + (w.rng.below 4).1.toNat) (w := { w with
        didRead := false, batches := w.batches + 1, insertBatches := w.insertBatches + 1,
        rng := (w.rng.below 4).2 }) [] hlt'.le hf
    simp only at hend hread
    refine ⟨.batch new, w', ?_, ⟨hsame.1, hsame.2.1, hsame.2.2⟩, ?_, ?_, ?_⟩
    · simp only
      rw [hadd, List.nil_append, Option.map_some]
    · unfold rest
      rw [hsame.2.1, hread, hend]
      simp only [Bool.false_eq_true, if_false]
      split <;> omega
    · rw [hend]
      exact Nat.min_le_right _ _
    · unfold putBefore at hids ⊢
      rw [hputs]
      exact hids

/-- **The phase** puts the ids in the order of the permutation. -/
theorem phaseB_eq {w : Workload} {steps : Nat} (hsub : w.sub.toNat ≤ w.nInsert.toNat)
    (hf : ∀ i, i < w.nInsert → permute fuel w.permKey i w.nInsert = some (f i))
    (hsteps : w.rest < steps) :
    ∃ rs w', w.phaseB fuel steps = some (rs, w') ∧
      w.putBefore f w.sub.toNat ++ rs.flatMap Step.puts = w.putBefore f w.nInsert.toNat := by
  induction steps generalizing w with
  | zero => cases hsteps
  | succ steps ih =>
    rw [phaseB]
    split
    · rename_i hge
      rw [UInt64.le_iff_toNat_le] at hge
      refine ⟨[], w, rfl, ?_⟩
      rw [List.flatMap_nil, List.append_nil, Nat.le_antisymm hsub hge]
    · rename_i hlt
      obtain ⟨step, w', hstep, hsame, hrest, hle, hputs⟩ :=
        insertStep_spec (f := f) (UInt64.not_le.1 hlt) hf
      have hf' : ∀ i, i < w'.nInsert → permute fuel w'.permKey i w'.nInsert = some (f i) := by
        rw [hsame.2.1, hsame.2.2]
        exact hf
      obtain ⟨rs, w'', hphase, hall⟩ := ih (hsame.2.1 ▸ hle) hf' (by omega)
      rw [hstep, Option.bind_some, hphase, Option.map_some]
      refine ⟨step :: rs, w'', rfl, ?_⟩
      rw [hsame.putBefore, hsame.putBefore, hsame.2.1] at hall
      rw [List.flatMap_cons, ← List.append_assoc, hputs, hall]

end

/-- A permutation of the numbers below `n` reorders the ids. -/
theorem perm_putBefore {w : Workload} {f : UInt64 → UInt64} {n : UInt64}
    (hf : Set.BijOn f {i | i < n} {i | i < n}) :
    (w.putBefore f n.toNat).Perm (w.putBefore id n.toNat) := by
  have hsmall : ∀ i ∈ List.range n.toNat, (UInt64.ofNat i) < n ∧ (UInt64.ofNat i).toNat = i := by
    intro i hi
    rw [List.mem_range] at hi
    have hmax := n.toNat_lt
    have heq : (UInt64.ofNat i).toNat = i := by
      rw [UInt64.toNat_ofNat']
      exact Nat.mod_eq_of_lt (by omega)
    exact ⟨by rwa [UInt64.lt_iff_toNat_lt, heq], heq⟩
  have hnodup (g : UInt64 → UInt64) (hg : Set.InjOn g {i | i < n}) : (w.putBefore g n.toNat).Nodup := by
    refine List.Nodup.map_on ?_ List.nodup_range
    intro i hi j hj heq
    have hgij := hg (hsmall i hi).1 (hsmall j hj).1 ((UInt64.add_right_inj w.nLoad).1 heq)
    rw [← (hsmall i hi).2, hgij, (hsmall j hj).2]
  refine (List.perm_ext_iff_of_nodup (hnodup f hf.injOn) (hnodup id (Set.injOn_id _))).2 fun a => ?_
  rw [putBefore, putBefore, List.mem_map, List.mem_map]
  constructor
  · rintro ⟨i, hi, rfl⟩
    have hmem := hf.mapsTo (hsmall i hi).1
    refine ⟨(f (.ofNat i)).toNat, List.mem_range.2 (UInt64.lt_iff_toNat_lt.1 hmem), ?_⟩
    rw [UInt64.ofNat_toNat, id_eq]
  · rintro ⟨i, hi, rfl⟩
    obtain ⟨j, hj, heq⟩ := hf.surjOn (hsmall i hi).1
    refine ⟨j.toNat, List.mem_range.2 (UInt64.lt_iff_toNat_lt.1 hj), ?_⟩
    rw [UInt64.ofNat_toNat, heq, id_eq]

end Workload

/-- **`Permute` is a permutation** of the numbers below `n`, its loops end, and phase B puts every id
of its range exactly once. -/
theorem permute_bijOn (permKey : UInt64) {n : UInt64} (hn : n.toNat ≤ 2 ^ 62) :
    ∃ f : UInt64 → UInt64, Set.BijOn f {i | i < n} {i | i < n} ∧
      (∃ fuel, ∀ more, fuel ≤ more → ∀ i, i < n → permute more permKey i n = some (f i)) ∧
      ∀ w : Workload, w.permKey = permKey → w.nInsert = n → w.sub = 0 →
        ∃ fuel, ∀ more, fuel ≤ more → ∃ steps w', w.phaseB more more = some (steps, w') ∧
          (steps.flatMap Step.puts).Perm
            ((List.range n.toNat).map fun i => w.nLoad + .ofNat i) := by
  obtain ⟨f, hf, fuel, hpermute⟩ := exists_permute permKey hn
  refine ⟨f, hf, ⟨fuel, hpermute⟩, ?_⟩
  rintro w rfl rfl hsub
  refine ⟨max fuel (w.rest + 1), fun more hmore => ?_⟩
  have hzero : w.sub.toNat = 0 := by rw [hsub]; rfl
  obtain ⟨steps, w', hphase, hputs⟩ := @Workload.phaseB_eq more f w more (by omega)
    (hpermute more (by omega)) (by omega)
  refine ⟨steps, w', hphase, ?_⟩
  rw [hzero] at hputs
  rw [show steps.flatMap Step.puts = w.putBefore f w.nInsert.toNat from hputs]
  exact Workload.perm_putBefore hf

/-- Five ids, in a space of sixteen numbers. -/
theorem permute_bijOn_five :
    (List.range 5).map (fun i => permute 40 7 (.ofNat i) 5) =
        [some 3, some 1, some 4, some 0, some 2] ∧
      ∃ f : UInt64 → UInt64, Set.BijOn f {i | i < 5} {i | i < 5} ∧
        ∃ fuel, ∀ i, i < 5 → permute fuel 7 i 5 = some (f i) := by
  obtain ⟨f, hf, ⟨fuel, hpermute⟩, -⟩ := @permute_bijOn 7 5 (by decide)
  exact ⟨by decide, f, hf, fuel, hpermute fuel le_rfl⟩

end LevelDb.Bench
