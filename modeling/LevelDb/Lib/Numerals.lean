import Mathlib.Algebra.GroupWithZero.Nat
import Mathlib.Data.Char
import Mathlib.Data.List.Lex

/-!
# Decimal numerals of C

Texts are lists of characters, a byte the character of its code. `padded` is what `printf` writes for
`%0<width>llu`, `strtoull` reads a number back and says where it stopped.

* `strtoull_padded`: a numeral is read as its number, up to the first character that is no digit.
* `padded_lt_padded`: numerals of one width are in the order of their numbers.
-/

namespace Numerals

abbrev Text := List Char

/-- The number that digits are a numeral of. -/
def value (ds : Text) : Nat := Nat.ofDigitChars 10 ds 0

/-- `%0<width>llu`: at least so many digits. -/
def padded (width n : Nat) : Text :=
  List.replicate (width - (Nat.toDigits 10 n).length) '0' ++ Nat.toDigits 10 n

/-- `isspace`. -/
def isSpace (c : Char) : Bool := c ∈ [' ', '\t', '\n', '\x0b', '\x0c', '\r']

/-- The digits after blanks and a sign, and whether the sign is a minus. -/
def signed (s : Text) : Bool × Text :=
  match s.dropWhile isSpace with
  | '-' :: t => (true, t)
  | '+' :: t => (false, t)
  | t => (false, t)

/-- `strtoull(s, &end, 10)`: the number, and the text from `end` on. A text that is no numeral gives 0
and `end = s`, a number that is too large gives `ULLONG_MAX`. -/
def strtoull (s : Text) : UInt64 × Text :=
  let digits := (signed s).2.takeWhile Char.isDigit
  if digits = [] then (0, s)
  else
    (if 2 ^ 64 ≤ value digits then UInt64.ofNat (2 ^ 64 - 1)
      else if (signed s).1 then 0 - UInt64.ofNat (value digits)
      else UInt64.ofNat (value digits),
      (signed s).2.dropWhile Char.isDigit)

example : strtoull " -18446744073709551615,".toList = (1, [',']) := by decide

/-! ## Reading what was written -/

theorem isDigit_of_mem_padded {width n : Nat} {c : Char} (h : c ∈ padded width n) :
    c.isDigit = true := by
  rcases List.mem_append.1 h with h | h
  · rw [List.eq_of_mem_replicate h]
    rfl
  · exact Nat.isDigit_of_mem_toDigits (by decide) (by decide) h

theorem padded_ne_nil (width n : Nat) : padded width n ≠ [] := by
  intro h
  exact Nat.toDigits_ne_nil (List.append_eq_nil_iff.1 h).2

/-- `std::to_string`: of one digit at least. -/
theorem padded_one (n : Nat) : padded 1 n = Nat.toDigits 10 n := by
  have hpos : 0 < (Nat.toDigits 10 n).length := List.length_pos_of_ne_nil Nat.toDigits_ne_nil
  rw [padded, Nat.sub_eq_zero_of_le hpos]
  rfl

@[simp] theorem value_padded (width n : Nat) : value (padded width n) = n := by
  rw [value, padded, Nat.ofDigitChars_append, Nat.ofDigitChars_replicate_zero, Nat.mul_zero]
  exact Nat.ofDigitChars_ten_toDigits

theorem padded_injective (width : Nat) : Function.Injective (padded width) := by
  intro n m h
  rw [← value_padded width n, h, value_padded]

/-- A number of few digits takes the width. -/
theorem length_padded {width n : Nat} (hw : 0 < width) (hn : n < 10 ^ width) :
    (padded width n).length = width := by
  have hlen := (Nat.length_toDigits_le_iff (by decide) hw).2 hn
  rw [padded, List.length_append, List.length_replicate]
  omega

/-- A digit is neither a blank nor a sign. -/
theorem not_isSpace_of_isDigit {c : Char} (h : c.isDigit = true) :
    isSpace c = false ∧ c ≠ '-' ∧ c ≠ '+' := by
  refine ⟨?_, ?_, ?_⟩
  · apply Bool.eq_false_iff.2
    intro hs
    have hmem : c ∈ [' ', '\t', '\n', '\x0b', '\x0c', '\r'] := of_decide_eq_true hs
    simp only [List.mem_cons, List.not_mem_nil, or_false] at hmem
    rcases hmem with rfl | rfl | rfl | rfl | rfl | rfl <;> cases h
  · rintro rfl
    cases h
  · rintro rfl
    cases h

/-- A numeral has no sign to take off. -/
theorem signed_of_isDigit {c : Char} (h : c.isDigit = true) (cs : Text) :
    signed (c :: cs) = (false, c :: cs) := by
  obtain ⟨hspace, hminus, hplus⟩ := not_isSpace_of_isDigit h
  rw [signed, List.dropWhile_cons_of_neg (by rw [hspace]; exact Bool.false_ne_true)]
  split
  · rename_i heq
    exact absurd (List.cons.inj heq).1 hminus
  · rename_i heq
    exact absurd (List.cons.inj heq).1 hplus
  · rfl

/-- **A numeral is read as its number.** -/
theorem strtoull_padded (width : Nat) {n : Nat} (hn : n < 2 ^ 64) {rest : Text}
    (hrest : ∀ c ∈ rest.head?, c.isDigit = false) :
    strtoull (padded width n ++ rest) = (UInt64.ofNat n, rest) := by
  obtain ⟨c, cs, hcs⟩ := List.exists_cons_of_ne_nil (padded_ne_nil width n)
  have hc : c.isDigit = true := isDigit_of_mem_padded (hcs ▸ List.mem_cons_self)
  have hsigned : signed (padded width n ++ rest) = (false, padded width n ++ rest) := by
    rw [hcs, List.cons_append]
    exact signed_of_isDigit hc (cs ++ rest)
  -- the digits are all of the numeral
  have hstop : rest.takeWhile Char.isDigit = [] ∧ rest.dropWhile Char.isDigit = rest := by
    cases rest with
    | nil => exact ⟨rfl, rfl⟩
    | cons d ds =>
      have hd : ¬ d.isDigit = true := Bool.eq_false_iff.1 (hrest d rfl)
      exact ⟨List.takeWhile_cons_of_neg hd, List.dropWhile_cons_of_neg hd⟩
  have htake : (padded width n ++ rest).takeWhile Char.isDigit = padded width n := by
    rw [List.takeWhile_append_of_pos fun c => isDigit_of_mem_padded, hstop.1, List.append_nil]
  have hdrop : (padded width n ++ rest).dropWhile Char.isDigit = rest := by
    rw [List.dropWhile_append_of_pos fun c => isDigit_of_mem_padded, hstop.2]
  simp only [strtoull, hsigned, htake, hdrop, value_padded]
  rw [if_neg (padded_ne_nil width n), if_neg (by omega)]
  rfl

/-! ## The order of numerals -/

theorem value_cons (c : Char) (cs : Text) :
    value (c :: cs) = 10 ^ cs.length * (c.toNat - '0'.toNat) + value cs := by
  rw [value, Nat.ofDigitChars_cons, Nat.ofDigitChars_eq_ofDigitChars_zero, Nat.mul_zero, Nat.zero_add,
    value]

theorem toNat_of_isDigit {c : Char} (h : c.isDigit = true) : 48 ≤ c.toNat ∧ c.toNat ≤ 57 := by
  simp only [Char.isDigit, Bool.and_eq_true, decide_eq_true_eq] at h
  exact h

theorem value_lt {ds : Text} (h : ∀ c ∈ ds, c.isDigit = true) : value ds < 10 ^ ds.length := by
  induction ds with
  | nil => exact Nat.one_pos
  | cons c cs ih =>
    have hcs := ih fun d hd => h d (List.mem_cons_of_mem c hd)
    have hc : c.toNat - '0'.toNat ≤ 9 := by
      have hle := (toNat_of_isDigit (h c List.mem_cons_self)).2
      show c.toNat - 48 ≤ 9
      omega
    rw [value_cons, List.length_cons, Nat.pow_succ]
    calc 10 ^ cs.length * (c.toNat - '0'.toNat) + value cs
        < 10 ^ cs.length * 9 + 10 ^ cs.length :=
          Nat.add_lt_add_of_le_of_lt (Nat.mul_le_mul_left _ hc) hcs
      _ = 10 ^ cs.length * 10 := by omega

/-- Numerals of one length are in the order of their numbers. -/
theorem lt_iff_value_lt {xs ys : Text} (hlen : xs.length = ys.length)
    (hx : ∀ c ∈ xs, c.isDigit = true) (hy : ∀ c ∈ ys, c.isDigit = true) :
    xs < ys ↔ value xs < value ys := by
  induction xs generalizing ys with
  | nil =>
    obtain rfl := List.length_eq_zero_iff.1 hlen.symm
    exact iff_of_false (lt_irrefl _) (lt_irrefl _)
  | cons c cs ih =>
    cases ys with
    | nil => cases hlen
    | cons d ds =>
      have hl : cs.length = ds.length := Nat.succ.inj hlen
      have hcs := fun e he => hx e (List.mem_cons_of_mem c he)
      have hds := fun e he => hy e (List.mem_cons_of_mem d he)
      have hvc := value_lt hcs
      have hvd := value_lt hds
      obtain ⟨hc, -⟩ := toNat_of_isDigit (hx c List.mem_cons_self)
      obtain ⟨hd, -⟩ := toNat_of_isDigit (hy d List.mem_cons_self)
      rw [value_cons, value_cons, List.cons_lt_cons_iff, ← hl, ih hl hcs hds]
      rw [← hl] at hvd
      generalize 10 ^ cs.length = p at hvc hvd
      rcases Nat.lt_trichotomy c.toNat d.toNat with hlt | heq | hgt
      · -- the first digit decides
        refine iff_of_true (.inl hlt) ?_
        have hstep : p * (c.toNat - 48) + p ≤ p * (d.toNat - 48) := by
          rw [← Nat.mul_succ]
          exact Nat.mul_le_mul_left _ (by omega)
        show p * (c.toNat - 48) + value cs < p * (d.toNat - 48) + value ds
        omega
      · obtain rfl : c = d := Char.toNat_inj.1 heq
        constructor
        · rintro (hlt | ⟨-, hlt⟩)
          · exact absurd hlt (lt_irrefl c)
          · exact Nat.add_lt_add_left hlt _
        · intro hlt
          exact .inr ⟨rfl, Nat.lt_of_add_lt_add_left hlt⟩
      · refine iff_of_false ?_ ?_
        · rintro (hlt | ⟨rfl, -⟩)
          · exact lt_asymm hlt hgt
          · exact lt_irrefl _ hgt
        · have hstep : p * (d.toNat - 48) + p ≤ p * (c.toNat - 48) := by
            rw [← Nat.mul_succ]
            exact Nat.mul_le_mul_left _ (by omega)
          show ¬ p * (c.toNat - 48) + value cs < p * (d.toNat - 48) + value ds
          omega

theorem padded_lt_padded {width n m : Nat} (hw : 0 < width) (hn : n < 10 ^ width)
    (hm : m < 10 ^ width) : padded width n < padded width m ↔ n < m := by
  have hlen : (padded width n).length = (padded width m).length := by
    rw [length_padded hw hn, length_padded hw hm]
  rw [lt_iff_value_lt hlen (fun c => isDigit_of_mem_padded) (fun c => isDigit_of_mem_padded),
    value_padded, value_padded]

end Numerals
