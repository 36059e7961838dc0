import Mathlib.Data.List.TakeWhile
import Mathlib.Data.Set.BooleanAlgebra
import Mathlib.Order.CompletePartialOrder
import Mathlib.Order.Lattice

/-!
# Fragments: disjoint intervals carrying data

A list of half-open intervals `[lo, hi)`, sorted and disjoint (`Ordered`), each with the data of
its keys; `at?` is the data at a key. `bisect` is the binary search for the boundary of a
predicate that holds on a prefix; `lastLe_eq` says that the last fragment starting at or before
a key is the only one that can hold it, which is how such a list is searched. A key that no
fragment goes across (`Clear`) does not tell the keys of one fragment apart.
-/

namespace Fragments

universe u v

structure Frag (K : Type u) (α : Type v) where
  lo : K
  hi : K
  data : α
  deriving DecidableEq, Repr

variable {K : Type u} {α : Type v} [LinearOrder K]

/-- The key is in the interval. -/
def Frag.Has (f : Frag K α) (k : K) : Prop := f.lo ≤ k ∧ k < f.hi

instance (f : Frag K α) (k : K) : Decidable (f.Has k) := instDecidableAnd

/-- Nonempty intervals in increasing order. -/
structure Ordered (fs : List (Frag K α)) : Prop where
  nonempty : ∀ f ∈ fs, f.lo < f.hi
  disjoint : fs.Pairwise fun f g => f.hi ≤ g.lo

/-- The data at a key. -/
def at? (fs : List (Frag K α)) (k : K) : Option α := (fs.find? fun f => f.Has k).map (·.data)

/-! ## Ordered lists -/

theorem Ordered.nil : Ordered ([] : List (Frag K α)) := ⟨by simp, .nil⟩

theorem ordered_cons {f : Frag K α} {fs : List (Frag K α)} :
    Ordered (f :: fs) ↔ f.lo < f.hi ∧ (∀ g ∈ fs, f.hi ≤ g.lo) ∧ Ordered fs := by
  constructor
  · rintro ⟨h1, h2⟩
    rw [List.pairwise_cons] at h2
    exact ⟨h1 f (by simp), h2.1, fun g hg => h1 g (by simp [hg]), h2.2⟩
  · rintro ⟨h1, h2, h3⟩
    refine ⟨fun g hg => ?_, List.pairwise_cons.2 ⟨h2, h3.disjoint⟩⟩
    rcases List.mem_cons.1 hg with rfl | hg
    · exact h1
    · exact h3.nonempty g hg

theorem ordered_append {xs ys : List (Frag K α)} :
    Ordered (xs ++ ys) ↔ Ordered xs ∧ Ordered ys ∧ ∀ f ∈ xs, ∀ g ∈ ys, f.hi ≤ g.lo := by
  constructor
  · rintro ⟨h1, h2⟩
    rw [List.pairwise_append] at h2
    exact ⟨⟨fun f hf => h1 f (by simp [hf]), h2.1⟩, ⟨fun f hf => h1 f (by simp [hf]), h2.2.1⟩,
      h2.2.2⟩
  · rintro ⟨h1, h2, h3⟩
    refine ⟨fun f hf => ?_, List.pairwise_append.2 ⟨h1.disjoint, h2.disjoint, h3⟩⟩
    rcases List.mem_append.1 hf with hf | hf
    · exact h1.nonempty f hf
    · exact h2.nonempty f hf

/-! ## The data at a key -/

@[simp] theorem at?_nil (k : K) : at? ([] : List (Frag K α)) k = none := rfl

theorem at?_cons (f : Frag K α) (fs : List (Frag K α)) (k : K) :
    at? (f :: fs) k = if f.Has k then some f.data else at? fs k := by
  unfold at?
  by_cases h : f.Has k <;> simp [h]

theorem at?_append (xs ys : List (Frag K α)) (k : K) :
    at? (xs ++ ys) k = (at? xs k).or (at? ys k) := by
  induction xs with
  | nil => simp
  | cons f xs ih =>
    rw [List.cons_append, at?_cons, at?_cons, ih]
    split <;> simp

/-- Nothing is at a key no fragment has. -/
theorem at?_none {fs : List (Frag K α)} {k : K} (h : ∀ f ∈ fs, ¬ f.Has k) : at? fs k = none := by
  unfold at?
  rw [List.find?_eq_none.2 (by simpa using h)]
  rfl

theorem not_has_of_lt {f : Frag K α} {k : K} (h : k < f.lo) : ¬ f.Has k :=
  fun hk => absurd hk.1 (not_le.2 h)

theorem not_has_of_le {f : Frag K α} {k : K} (h : f.hi ≤ k) : ¬ f.Has k :=
  fun hk => absurd hk.2 (not_lt.2 h)

/-- The fragment that has a key is found. -/
theorem Ordered.find?_eq {fs : List (Frag K α)} (hfs : Ordered fs) {f : Frag K α} (hf : f ∈ fs)
    {k : K} (hk : f.Has k) : (fs.find? fun f => f.Has k) = some f := by
  induction fs with
  | nil => cases hf
  | cons g fs ih =>
    obtain ⟨-, hnext, hfs'⟩ := ordered_cons.1 hfs
    rcases List.mem_cons.1 hf with rfl | hf
    · rw [List.find?_cons_of_pos (by simpa using hk)]
    · have hg : ¬ g.Has k := not_has_of_le ((hnext f hf).trans hk.1)
      rw [List.find?_cons_of_neg (by simpa using hg), ih hfs' hf]

theorem Ordered.at?_eq {fs : List (Frag K α)} (hfs : Ordered fs) {f : Frag K α} (hf : f ∈ fs)
    {k : K} (hk : f.Has k) : at? fs k = some f.data := by
  rw [at?, hfs.find?_eq hf hk]
  rfl

/-- A fragment cut at a key inside it has the same data at every key. -/
theorem at?_cut {f : Frag K α} {p : K} (hlo : f.lo ≤ p) (hhi : p ≤ f.hi) (fs : List (Frag K α))
    (k : K) : at? ({ f with hi := p } :: { f with lo := p } :: fs) k = at? (f :: fs) k := by
  simp only [at?_cons, Frag.Has]
  rcases lt_or_ge k p with h | h
  · simp [h, h.trans_le hhi, not_le.2 h]
  · simp [h, hlo.trans h, not_lt.2 h]

/-- The fragments after those that start at or before a key start after it. -/
theorem Ordered.lt_lo_of_mem_dropWhile {fs : List (Frag K α)} (hfs : Ordered fs) {k : K}
    {f : Frag K α} (hf : f ∈ fs.dropWhile fun f => f.lo ≤ k) : k < f.lo := by
  induction fs with
  | nil => cases hf
  | cons g fs ih =>
    obtain ⟨hg, hnext, hfs⟩ := ordered_cons.1 hfs
    rcases lt_or_ge k g.lo with h | h
    · rw [List.dropWhile_cons_of_neg (by simpa using h)] at hf
      rcases List.mem_cons.1 hf with rfl | hf
      · exact h
      · exact h.trans (hg.trans_le (hnext f hf))
    · rw [List.dropWhile_cons_of_pos (by simpa using h)] at hf
      exact ih hfs hf

theorem Ordered.le_lo_of_mem_dropWhile {fs : List (Frag K α)} (hfs : Ordered fs) {k : K}
    {f : Frag K α} (hf : f ∈ fs.dropWhile fun f => f.lo < k) : k ≤ f.lo := by
  induction fs with
  | nil => cases hf
  | cons g fs ih =>
    obtain ⟨hg, hnext, hfs⟩ := ordered_cons.1 hfs
    rcases lt_or_ge g.lo k with h | h
    · rw [List.dropWhile_cons_of_pos (by simpa using h)] at hf
      exact ih hfs hf
    · rw [List.dropWhile_cons_of_neg (by simpa using h)] at hf
      rcases List.mem_cons.1 hf with rfl | hf
      · exact h
      · exact h.trans (hg.le.trans (hnext f hf))

/-! ## Bounds -/

/-- A fragment starts or ends at the key. -/
def Bound (fs : List (Frag K α)) (c : K) : Prop := ∃ f ∈ fs, f.lo = c ∨ f.hi = c

/-- No fragment goes across the key. -/
def Clear (fs : List (Frag K α)) (c : K) : Prop := ∀ f ∈ fs, f.hi ≤ c ∨ c ≤ f.lo

omit [LinearOrder K] in
theorem bound_cons {f : Frag K α} {fs : List (Frag K α)} {c : K} :
    Bound (f :: fs) c ↔ f.lo = c ∨ f.hi = c ∨ Bound fs c := by
  simp [Bound, or_assoc]

omit [LinearOrder K] in
theorem bound_append {xs ys : List (Frag K α)} {c : K} :
    Bound (xs ++ ys) c ↔ Bound xs c ∨ Bound ys c := by
  simp only [Bound, List.mem_append, or_and_right, exists_or]

/-- **Ordered fragments** do not go across each other's bounds. -/
theorem Ordered.clear {fs : List (Frag K α)} (hfs : Ordered fs) {c : K} (hc : Bound fs c) :
    Clear fs c := by
  induction fs with
  | nil => intro f hf; cases hf
  | cons g fs ih =>
    obtain ⟨hg, hnext, hfs'⟩ := ordered_cons.1 hfs
    intro f hf
    rcases bound_cons.1 hc with rfl | rfl | hbound
    · right
      rcases List.mem_cons.1 hf with rfl | hf
      · exact le_rfl
      · exact hg.le.trans (hnext f hf)
    · rcases List.mem_cons.1 hf with rfl | hf
      · exact .inl le_rfl
      · exact .inr (hnext f hf)
    · rcases List.mem_cons.1 hf with rfl | hf
      · left
        obtain ⟨h, hh, rfl | rfl⟩ := hbound
        · exact hnext h hh
        · exact (hnext h hh).trans (hfs'.nonempty h hh).le
      · exact ih hfs' hbound f hf

/-- Two keys of one fragment are on the same side of a key it does not go across. -/
theorem Clear.le_iff {fs : List (Frag K α)} {c : K} (hc : Clear fs c) {f : Frag K α}
    (hf : f ∈ fs) {k k' : K} (hk : f.Has k) (hk' : f.Has k') : c ≤ k ↔ c ≤ k' := by
  rcases hc f hf with h | h
  · exact iff_of_false (not_le.2 (hk.2.trans_le h)) (not_le.2 (hk'.2.trans_le h))
  · exact iff_of_true (h.trans hk.1) (h.trans hk'.1)

/-! ## Searching -/

/-- **The last fragment that starts at or before the key** is the one that has it, if any. -/
theorem lastLe_eq {fs : List (Frag K α)} (hfs : Ordered fs) (k : K) :
    ((fs.takeWhile fun f => f.lo ≤ k).getLast?.filter fun f => k < f.hi) =
      fs.find? fun f => f.Has k := by
  induction fs with
  | nil => rfl
  | cons f fs ih =>
    obtain ⟨-, hnext, hfs⟩ := ordered_cons.1 hfs
    have ih := ih hfs
    rcases lt_or_ge k f.lo with hk | hk
    · have hno : ∀ g ∈ f :: fs, ¬ g.Has k := by
        intro g hg
        rcases List.mem_cons.1 hg with rfl | hg
        · exact not_has_of_lt hk
        · have := hnext g hg
          have hf : f.lo < f.hi := (ordered_cons.1 ‹Ordered (f :: fs)›).1
          exact not_has_of_lt (hk.trans (hf.trans_le this))
      rw [List.takeWhile_cons_of_neg (by simpa using hk), List.find?_eq_none.2 (by simpa using hno)]
      rfl
    · rw [List.takeWhile_cons_of_pos (by simpa using hk)]
      rcases lt_or_ge k f.hi with hk' | hk'
      · have htw : (fs.takeWhile fun g => decide (g.lo ≤ k)) = [] := by
          cases fs with
          | nil => rfl
          | cons g gs =>
            rw [List.takeWhile_cons_of_neg]
            simpa using hk'.trans_le (hnext g (by simp))
        rw [htw, List.find?_cons_of_pos (by simp [Frag.Has, hk, hk'])]
        simp [Option.filter, hk']
      · rw [List.find?_cons_of_neg (by simpa using not_has_of_le hk')]
        cases htw : (fs.takeWhile fun g => decide (g.lo ≤ k)) with
        | nil =>
          rw [htw] at ih
          rw [← ih]
          simp [Option.filter, hk']
        | cons g gs =>
          rw [htw] at ih
          rw [← ih]
          simp

/-- The prefix on which a downward closed predicate holds is all that satisfies it. -/
theorem takeWhile_eq_filter {β : Type u} (q : β → Bool) {l : List β}
    (hl : l.Pairwise fun a b => q b = true → q a = true) : l.takeWhile q = l.filter q := by
  induction l with
  | nil => rfl
  | cons a l ih =>
    rw [List.pairwise_cons] at hl
    by_cases ha : q a = true
    · rw [List.takeWhile_cons_of_pos ha, List.filter_cons_of_pos ha, ih hl.2]
    · rw [List.takeWhile_cons_of_neg ha, List.filter_cons_of_neg ha, eq_comm, List.filter_eq_nil_iff]
      exact fun b hb hq => ha (hl.1 b hb hq)

theorem dropWhile_eq_filter {β : Type u} (q : β → Bool) {l : List β}
    (hl : l.Pairwise fun a b => q b = true → q a = true) :
    l.dropWhile q = l.filter fun a => !q a := by
  induction l with
  | nil => rfl
  | cons a l ih =>
    rw [List.pairwise_cons] at hl
    by_cases ha : q a = true
    · rw [List.dropWhile_cons_of_pos ha, List.filter_cons_of_neg (by simpa using ha), ih hl.2]
    · rw [List.dropWhile_cons_of_neg ha, eq_comm, List.filter_eq_self]
      intro b hb
      rcases List.mem_cons.1 hb with rfl | hb
      · simpa using ha
      · simpa using fun hq => ha (hl.1 b hb hq)

/-- Binary search in `[lo, hi)` for the first index where `p` fails. -/
def bisect (p : Nat → Bool) (lo hi : Nat) : Nat :=
  if lo < hi then
    let mid := (lo + hi) / 2
    if p mid then bisect p (mid + 1) hi else bisect p lo mid
  else lo
termination_by hi - lo

/-- **Binary search** finds the boundary `m` of a predicate that holds below `m` and fails from
it on. -/
theorem bisect_eq {p : Nat → Bool} {lo hi m : Nat} (hlo : lo ≤ m) (hhi : m ≤ hi)
    (hp : ∀ i < m, p i = true) (hn : ∀ i, m ≤ i → i < hi → p i = false) : bisect p lo hi = m := by
  fun_induction bisect p lo hi with
  | case1 lo hi hlt mid hmid ih =>
    refine ih ?_ hhi (fun i hi' h => hn i hi' h)
    by_contra hc
    have := hn mid (by omega) (by omega)
    simp [hmid] at this
  | case2 lo hi hlt mid hmid ih =>
    refine ih hlo ?_ (fun i hi' h => hn i hi' (by omega))
    by_contra hc
    exact hmid (hp mid (by omega))
  | case3 lo hi hlt => omega

/-- A predicate that holds on a prefix of a list: binary search finds the prefix's length. -/
theorem bisect_takeWhile {β : Type u} (q : β → Bool) {l : List β}
    (hl : l.Pairwise fun a b => q b = true → q a = true) :
    bisect (fun i => (l[i]?.map q).getD false) 0 l.length = (l.takeWhile q).length := by
  refine bisect_eq (Nat.zero_le _) (l.takeWhile_prefix q).length_le (fun i hi => ?_)
    (fun i hi hlen => ?_)
  · have hi' : i < l.length := hi.trans_le (l.takeWhile_prefix q).length_le
    have hmem : q (l.takeWhile q)[i] = true := by
      have := List.mem_takeWhile_imp (List.getElem_mem hi)
      exact this
    rw [List.getElem?_eq_getElem hi']
    have hget : (l.takeWhile q)[i] = l[i] := (l.takeWhile_prefix q).getElem hi
    simpa [← hget] using hmem
  · induction l generalizing i with
    | nil => simp at hlen
    | cons a l ih =>
      rw [List.pairwise_cons] at hl
      by_cases ha : q a = true
      · rw [List.takeWhile_cons_of_pos ha] at hi
        cases i with
        | zero => simp at hi
        | succ i => simpa using ih hl.2 i (by simpa using hi) (by simpa using hlen)
      · cases i with
        | zero => simpa using ha
        | succ i =>
          have hlen' : i < l.length := by simpa using hlen
          have : q l[i] = false := by
            by_contra hc
            exact ha (hl.1 _ (List.getElem_mem hlen') (by simpa using hc))
          simp [List.getElem?_eq_getElem hlen', this]

end Fragments
