import Mathlib.Data.List.Basic
import Mathlib.Data.Option.Basic

/-!
# Multi-version values

The versions of one key, newest first, are a list of operations: a value put, a deletion, or an
operand that a `fold` function applies to what is below it. `Mvcc.read` is the value a reader
sees: the operands down to the first put or deletion, folded oldest first onto that base.

* `Mvcc.Same fold xs ys`: no reader can tell `xs` from `ys`, whatever is above and below them.
* `Mvcc.SameBottom fold xs ys`: the same where nothing is below.

The rules say how these compose (`Same.append`, `Same.append_bottom`, `SameOver.append`) and which
rewritings of a run of versions they allow: dropping what a settled version hides (`same_settled`),
folding operands onto their base (`same_fold`, `sameBottom_fold`) or into each other (`same_foldInto`),
given the two laws of `Mvcc.Laws`.
-/

namespace Mvcc

universe u

variable {V : Type u}

/-- What one version of a key does to the value below it. -/
inductive Op (V : Type u)
  | put (v : V)
  | delete
  | merge (x : V)

/-- The operands down to the first put or deletion, newest first, and the value under them. -/
def collect : List (Op V) → List V × Option V
  | [] => ([], none)
  | .put v :: _ => ([], some v)
  | .delete :: _ => ([], none)
  | .merge x :: ops => (x :: (collect ops).1, (collect ops).2)

@[simp] theorem collect_nil : collect ([] : List (Op V)) = ([], none) := rfl

@[simp] theorem collect_put (v : V) (ops : List (Op V)) :
    collect (.put v :: ops) = ([], some v) := rfl

@[simp] theorem collect_delete (ops : List (Op V)) : collect (.delete :: ops) = ([], none) := rfl

@[simp] theorem collect_merge (x : V) (ops : List (Op V)) :
    collect (.merge x :: ops) = (x :: (collect ops).1, (collect ops).2) := rfl

/-- Operands over anything: they go on top of what is collected below them. -/
theorem collect_merges (xs : List V) (ops : List (Op V)) :
    collect (xs.map .merge ++ ops) = (xs ++ (collect ops).1, (collect ops).2) := by
  induction xs with
  | nil => rfl
  | cons x xs ih => simp [ih]

/-- Versions are operands only, or hide everything below them. -/
theorem merges_or_settled (ops : List (Op V)) :
    (∃ xs : List V, ops = xs.map .merge) ∨ ∀ older, collect (ops ++ older) = collect ops := by
  induction ops with
  | nil => exact .inl ⟨[], rfl⟩
  | cons op ops ih =>
    cases op with
    | put v => exact .inr fun _ => rfl
    | delete => exact .inr fun _ => rfl
    | merge x =>
      rcases ih with ⟨xs, rfl⟩ | h
      · exact .inl ⟨x :: xs, rfl⟩
      · exact .inr fun older => by simp [h older]

/-! ## Reading -/

/-- The value under `xs` (operands, newest first) folded onto `b`; `none` when `fold` refuses. -/
def settle (fold : Option V → List V → Option V) (xs : List V) (b : Option V) :
    Option (Option V) :=
  match xs with
  | [] => some b
  | x :: xs => (fold b (x :: xs).reverse).map some

/-- What a reader makes of the versions it sees, newest first: `none` when `fold` refuses,
`some none` when the key is absent. -/
def read (fold : Option V → List V → Option V) (ops : List (Op V)) : Option (Option V) :=
  settle fold (collect ops).1 (collect ops).2

variable {fold : Option V → List V → Option V}

@[simp] theorem settle_nil (b : Option V) : settle fold [] b = some b := rfl

theorem settle_ne {xs : List V} (h : xs ≠ []) (b : Option V) :
    settle fold xs b = (fold b xs.reverse).map some := by
  cases xs with
  | nil => exact absurd rfl h
  | cons x xs => rfl

/-- What one more version makes of the value under it. -/
def step (fold : Option V → List V → Option V) (b : Option V) : Op V → Option (Option V)
  | .put v => some (some v)
  | .delete => some none
  | .merge x => (fold b [x]).map some

/-- **Versions read one at a time**, from the oldest up, where operands may be folded in two steps:
the newest applies to what the others read as. -/
theorem read_cons
    (hfold : ∀ b xs ys, xs ≠ [] → ys ≠ [] →
      fold b (xs ++ ys) = (fold b xs).bind fun v => fold (some v) ys)
    {ops : List (Op V)} {b : Option V} (h : read fold ops = some b) (op : Op V) :
    read fold (op :: ops) = step fold b op := by
  cases op with
  | put v => rfl
  | delete => rfl
  | merge x =>
    rw [read] at h ⊢
    rw [collect_merge]
    generalize (collect ops).1 = xs at h ⊢
    generalize (collect ops).2 = base at h ⊢
    rw [settle_ne (List.cons_ne_nil x xs), List.reverse_cons, step]
    by_cases hxs : xs = []
    · subst hxs
      obtain rfl := Option.some.inj h
      rfl
    · rw [settle_ne hxs] at h
      obtain ⟨v, hv, rfl⟩ := Option.map_eq_some_iff.1 h
      rw [hfold base xs.reverse [x] (fun heq => hxs (List.reverse_eq_nil_iff.1 heq))
        (List.cons_ne_nil x []), hv]
      rfl

/-! ## Indistinguishable versions -/

/-- No reader tells `xs` from `ys`, whatever is above and below. -/
def Same (fold : Option V → List V → Option V) (xs ys : List (Op V)) : Prop :=
  ∀ newer older, read fold (newer ++ xs ++ older) = read fold (newer ++ ys ++ older)

/-- No reader tells `xs` from `ys` where nothing is below. -/
def SameBottom (fold : Option V → List V → Option V) (xs ys : List (Op V)) : Prop :=
  ∀ newer, read fold (newer ++ xs) = read fold (newer ++ ys)

/-- It is enough to compare under operands: any other newer version hides both. -/
theorem same_of {xs ys : List (Op V)}
    (h : ∀ (tops : List V) older,
      settle fold (tops ++ (collect (xs ++ older)).1) (collect (xs ++ older)).2 =
        settle fold (tops ++ (collect (ys ++ older)).1) (collect (ys ++ older)).2) :
    Same fold xs ys := by
  intro newer older
  rw [List.append_assoc, List.append_assoc]
  rcases merges_or_settled newer with ⟨tops, rfl⟩ | hs
  · simp only [read, collect_merges]
    exact h tops older
  · simp only [read, hs]

theorem sameBottom_of {xs ys : List (Op V)}
    (h : ∀ tops : List V, settle fold (tops ++ (collect xs).1) (collect xs).2 =
      settle fold (tops ++ (collect ys).1) (collect ys).2) : SameBottom fold xs ys := by
  intro newer
  rcases merges_or_settled newer with ⟨tops, rfl⟩ | hs
  · simp only [read, collect_merges]
    exact h tops
  · simp only [read, hs]

theorem Same.refl (xs : List (Op V)) : Same fold xs xs := fun _ _ => rfl

theorem Same.symm {xs ys : List (Op V)} (h : Same fold xs ys) : Same fold ys xs :=
  fun newer older => (h newer older).symm

theorem Same.trans {xs ys zs : List (Op V)} (h₁ : Same fold xs ys) (h₂ : Same fold ys zs) :
    Same fold xs zs :=
  fun newer older => (h₁ newer older).trans (h₂ newer older)

theorem Same.append {xs xs' ys ys' : List (Op V)} (hx : Same fold xs xs')
    (hy : Same fold ys ys') : Same fold (xs ++ ys) (xs' ++ ys') := by
  intro newer older
  calc read fold (newer ++ (xs ++ ys) ++ older)
      = read fold (newer ++ xs ++ (ys ++ older)) := by simp
    _ = read fold (newer ++ xs' ++ (ys ++ older)) := hx _ _
    _ = read fold (newer ++ xs' ++ ys ++ older) := by simp
    _ = read fold (newer ++ xs' ++ ys' ++ older) := hy _ _
    _ = read fold (newer ++ (xs' ++ ys') ++ older) := by simp

theorem Same.bottom {xs ys : List (Op V)} (h : Same fold xs ys) : SameBottom fold xs ys := by
  intro newer
  simpa using h newer []

theorem Same.append_bottom {xs xs' ys ys' : List (Op V)} (hx : Same fold xs xs')
    (hy : SameBottom fold ys ys') : SameBottom fold (xs ++ ys) (xs' ++ ys') := by
  intro newer
  calc read fold (newer ++ (xs ++ ys))
      = read fold (newer ++ xs ++ ys) := by simp
    _ = read fold (newer ++ xs' ++ ys) := hx _ _
    _ = read fold (newer ++ xs' ++ ys') := hy _
    _ = read fold (newer ++ (xs' ++ ys')) := by simp

theorem SameBottom.refl (xs : List (Op V)) : SameBottom fold xs xs := fun _ => rfl

theorem SameBottom.symm {xs ys : List (Op V)} (h : SameBottom fold xs ys) :
    SameBottom fold ys xs := fun newer => (h newer).symm

theorem SameBottom.trans {xs ys zs : List (Op V)} (h₁ : SameBottom fold xs ys)
    (h₂ : SameBottom fold ys zs) : SameBottom fold xs zs :=
  fun newer => (h₁ newer).trans (h₂ newer)

theorem SameBottom.append_left {xs ys : List (Op V)} (h : SameBottom fold xs ys)
    (zs : List (Op V)) : SameBottom fold (zs ++ xs) (zs ++ ys) := by
  intro newer
  rw [← List.append_assoc, ← List.append_assoc]
  exact h (newer ++ zs)

/-- No reader tells `xs` from `ys` over versions that are missing when `bottom` holds. -/
def SameOver (fold : Option V → List V → Option V) (bottom : Prop) (xs ys : List (Op V)) : Prop :=
  Same fold xs ys ∨ bottom ∧ SameBottom fold xs ys

theorem SameOver.append {bottom : Prop} {xs xs' ys ys' : List (Op V)} (hx : Same fold xs xs')
    (hy : SameOver fold bottom ys ys') : SameOver fold bottom (xs ++ ys) (xs' ++ ys') := by
  rcases hy with hy | ⟨hb, hy⟩
  · exact .inl (hx.append hy)
  · exact .inr ⟨hb, hx.append_bottom hy⟩

theorem SameOver.read_eq {bottom : Prop} {xs ys : List (Op V)} (h : SameOver fold bottom xs ys)
    {older : List (Op V)} (hb : bottom → older = []) (newer : List (Op V)) :
    read fold (newer ++ (xs ++ older)) = read fold (newer ++ (ys ++ older)) := by
  rw [← List.append_assoc, ← List.append_assoc]
  rcases h with h | ⟨hbot, h⟩
  · exact h newer older
  · rw [hb hbot, List.append_nil, List.append_nil]
    exact h newer

/-! ## Rewritings of a run of versions -/

/-- What a settled run hides can be replaced by anything. -/
theorem same_settled {xs : List (Op V)} (h : ∀ older, collect (xs ++ older) = collect xs)
    (rest rest' : List (Op V)) : Same fold (xs ++ rest) (xs ++ rest') :=
  same_of fun tops older => by rw [List.append_assoc, List.append_assoc, h, h]

/-- Two runs of deletions. -/
theorem same_delete (xs ys : List (Op V)) : Same fold (.delete :: xs) (.delete :: ys) :=
  same_of fun _ _ => rfl

/-- A deletion with nothing below can go. -/
theorem sameBottom_delete (xs : List (Op V)) : SameBottom fold (.delete :: xs) [] :=
  sameBottom_of fun _ => rfl

/-- Deletions with nothing below are nothing. -/
theorem sameBottom_deletes {xs : List (Op V)} (h : ∀ op ∈ xs, op = .delete) :
    SameBottom fold xs [] := by
  cases xs with
  | nil => exact .refl _
  | cons op xs =>
    obtain rfl := h op List.mem_cons_self
    exact sameBottom_delete xs

/-- How a merge operator may be folded: in two steps onto a base, and by replacing two adjacent
operands (the older one first) by the one `part` makes of them. -/
structure Laws (fold : Option V → List V → Option V) (part : V → V → Option V) : Prop where
  fold_append : ∀ b xs ys, xs ≠ [] → ys ≠ [] →
    fold b (xs ++ ys) = (fold b xs).bind fun v => fold (some v) ys
  fold_part : ∀ b xs ys l r z, part l r = some z →
    fold b (xs ++ l :: r :: ys) = fold b (xs ++ z :: ys)

variable {part : V → V → Option V}

/-- Folding the lower operands first. -/
theorem settle_fold (hl : Laws fold part) {tops xs : List V} (hx : xs ≠ []) {b : Option V} {v : V}
    (hv : fold b xs.reverse = some v) :
    settle fold (tops ++ xs) b = settle fold tops (some v) := by
  rw [settle_ne (by simp [hx])]
  cases tops with
  | nil => simp [hv]
  | cons t tops =>
    rw [settle_ne (by simp), List.reverse_append,
      hl.fold_append _ _ _ (by simpa using hx) (by simp), hv]
    rfl

/-- **Operands over a base** are the value they fold to. `base` is what the put or deletion
under the operands leaves. -/
theorem same_fold (hl : Laws fold part) {xs : List V} (hx : xs ≠ []) {op : Op V}
    {base : Option V} (hop : collect [op] = ([], base)) {v : V}
    (hv : fold base xs.reverse = some v) (rest : List (Op V)) :
    Same fold (xs.map .merge ++ op :: rest) [.put v] := by
  have hc : ∀ older, collect (op :: older) = ([], base) := by
    intro older
    cases op with
    | put v => exact hop
    | delete => exact hop
    | merge x => cases hop
  refine same_of fun tops older => ?_
  rw [List.append_assoc, collect_merges, List.cons_append, hc]
  simp only [List.append_nil, List.cons_append, collect_put]
  exact settle_fold hl hx hv

/-- Operands over nothing are the value they fold to. -/
theorem sameBottom_fold (hl : Laws fold part) {xs : List V} (hx : xs ≠ []) {v : V}
    (hv : fold none xs.reverse = some v) : SameBottom fold (xs.map .merge) [.put v] := by
  refine sameBottom_of fun tops => ?_
  have hc := collect_merges xs ([] : List (Op V))
  simp only [List.append_nil, collect_nil] at hc
  rw [hc]
  simp only [collect_put, List.append_nil]
  exact settle_fold hl hx hv

/-- Folding adjacent operands from the oldest up: `acc` is older than `xs` (oldest first). -/
def partials (part : V → V → Option V) (acc : V) : List V → Option V
  | [] => some acc
  | x :: xs => (part acc x).bind fun z => partials part z xs

theorem fold_partials (hl : Laws fold part) {b : Option V} (xs : List V) (pre post : List V)
    {acc z : V} (h : partials part acc xs = some z) :
    fold b (pre ++ acc :: xs ++ post) = fold b (pre ++ z :: post) := by
  induction xs generalizing acc with
  | nil =>
    simp only [partials, Option.some.injEq] at h
    subst h
    simp
  | cons x xs ih =>
    simp only [partials, Option.bind_eq_some_iff] at h
    obtain ⟨w, hw, h⟩ := h
    calc fold b (pre ++ acc :: x :: xs ++ post)
        = fold b (pre ++ acc :: x :: (xs ++ post)) := by simp
      _ = fold b (pre ++ w :: (xs ++ post)) := hl.fold_part _ _ _ _ _ _ hw
      _ = fold b (pre ++ w :: xs ++ post) := by simp
      _ = fold b (pre ++ z :: post) := ih h

/-- **Adjacent operands** are the operand they fold into. -/
theorem same_foldInto (hl : Laws fold part) {xs ys : List V} {acc z : V}
    (hxs : xs.reverse = acc :: ys) (h : partials part acc ys = some z) :
    Same fold (xs.map .merge) [.merge z] := by
  refine same_of fun tops older => ?_
  have hne : xs ≠ [] := by
    rintro rfl
    cases hxs
  rw [collect_merges]
  simp only [List.cons_append, List.nil_append, collect_merge]
  rw [settle_ne (by simp [hne]), settle_ne (by simp)]
  have := fold_partials hl (b := (collect older).2) ys (collect older).1.reverse tops.reverse h
  simp only [List.reverse_append, List.reverse_cons, hxs]
  simpa using congrArg (Option.map some) this

end Mvcc
