import Mathlib.Data.List.Pairwise
import Mathlib.Data.List.TakeWhile
import Mathlib.Order.Lattice

/-!
# Cursors over lists

A cursor is a place in a list: the element there, what is before it (nearest first) and what is
after it; `none` is no place. `Cursor.IsFirst f l P o` says that `o` is the first place of `l`
whose element meets `P`, in a list that goes up in `f`, and `Cursor.IsLast` the last one; the rules
say which place each move goes to.
-/

universe u v

structure Cursor (α : Type u) where
  before : List α
  here : α
  after : List α

namespace Cursor

variable {α : Type u} {β : Type v}

def toList (c : Cursor α) : List α := c.before.reverse ++ c.here :: c.after

/-- The place between the two parts, seen forwards. -/
def front (before : List α) : List α → Option (Cursor α)
  | [] => none
  | a :: after => some ⟨before, a, after⟩

/-- The place between the two parts, seen backwards. -/
def back (after : List α) : List α → Option (Cursor α)
  | [] => none
  | a :: before => some ⟨before, a, after⟩

def first (l : List α) : Option (Cursor α) := front [] l
def last (l : List α) : Option (Cursor α) := back [] l.reverse
def next (c : Cursor α) : Option (Cursor α) := front (c.here :: c.before) c.after
def prev (c : Cursor α) : Option (Cursor α) := back (c.here :: c.after) c.before

/-- The place past the elements that `p` holds of. -/
def seek (p : α → Bool) (l : List α) : Option (Cursor α) :=
  front (l.takeWhile p).reverse (l.dropWhile p)

/-- Forwards from where backwards ended. -/
theorem elim_back_next (after l : List α) :
    (back after l).elim (first (l.reverse ++ after)) next = front l after := by
  cases l with
  | nil => rfl
  | cons a l => rfl

/-- Backwards from where forwards ended. -/
theorem elim_front_prev (before l : List α) :
    (front before l).elim (last (before.reverse ++ l)) prev = back l before := by
  cases l with
  | nil => simp [front, last]
  | cons a l => rfl

/-- Seeking past a part that is below the bound. -/
theorem seek_append {p : α → Bool} {l l' : List α} (h : ∀ a ∈ l, p a = true) :
    seek p (l ++ l') = front ((l'.takeWhile p).reverse ++ l.reverse) (l'.dropWhile p) := by
  rw [seek, List.takeWhile_append_of_pos h, List.dropWhile_append_of_pos h, List.reverse_append]

theorem seek_eq {p : α → Bool} {l l' : List α} (h : ∀ a ∈ l, p a = true)
    (h' : ∀ a ∈ l', p a = false) : seek p (l ++ l') = front l.reverse l' := by
  rw [seek_append h]
  cases l' with
  | nil => simp
  | cons a l' =>
    have ha : ¬ p a = true := by simp [h' a]
    rw [List.takeWhile_cons_of_neg ha, List.dropWhile_cons_of_neg ha]
    simp

/-! ## The place in an image of the list -/

def map (f : α → β) (c : Cursor α) : Cursor β := ⟨c.before.map f, f c.here, c.after.map f⟩

theorem map_front (f : α → β) (before l : List α) :
    (front before l).map (map f) = front (before.map f) (l.map f) := by
  cases l with
  | nil => rfl
  | cons a l => rfl

theorem map_back (f : α → β) (after l : List α) :
    (back after l).map (map f) = back (after.map f) (l.map f) := by
  cases l with
  | nil => rfl
  | cons a l => rfl

theorem next_map (f : α → β) (c : Cursor α) : (c.map f).next = c.next.map (map f) :=
  (map_front f (c.here :: c.before) c.after).symm

theorem prev_map (f : α → β) (c : Cursor α) : (c.map f).prev = c.prev.map (map f) :=
  (map_back f (c.here :: c.after) c.before).symm

/-- Seeking in the image, by a test that says the same there. -/
theorem seek_map {f : α → β} {p : α → Bool} {q : β → Bool} {l : List α}
    (h : ∀ a ∈ l, q (f a) = p a) : seek q (l.map f) = (seek p l).map (map f) := by
  have hsplit : (l.map f).takeWhile q = (l.takeWhile p).map f ∧
      (l.map f).dropWhile q = (l.dropWhile p).map f := by
    induction l with
    | nil => exact ⟨rfl, rfl⟩
    | cons a l ih =>
      obtain ⟨htake, hdrop⟩ := ih fun b hb => h b (List.mem_cons_of_mem _ hb)
      rw [List.map_cons, List.takeWhile_cons, List.dropWhile_cons, List.takeWhile_cons,
        List.dropWhile_cons, h a List.mem_cons_self]
      cases p a with
      | true => exact ⟨by simp [htake], by simp [hdrop]⟩
      | false => exact ⟨rfl, by simp⟩
  rw [seek, seek, map_front, hsplit.1, hsplit.2, List.map_reverse]

/-! ## Walking to the elements that pass a test -/

/-- The place of the same element in the list of those that pass the test. -/
def filter (p : α → Bool) (c : Cursor α) : Cursor α := ⟨c.before.filter p, c.here, c.after.filter p⟩

/-- Forwards from the place between the two parts, to the first element that passes. -/
def firstFrom (p : α → Bool) (before : List α) : List α → Option (Cursor α)
  | [] => none
  | a :: after => if p a then some ⟨before, a, after⟩ else firstFrom p (a :: before) after

/-- Backwards, to the last element that passes. -/
def lastFrom (p : α → Bool) (after : List α) : List α → Option (Cursor α)
  | [] => none
  | a :: before => if p a then some ⟨before, a, after⟩ else lastFrom p (a :: after) before

variable {p : α → Bool}

theorem filter_firstFrom (before l : List α) :
    (firstFrom p before l).map (filter p) = front (before.filter p) (l.filter p) := by
  induction l generalizing before with
  | nil => rfl
  | cons a l ih =>
    rw [firstFrom]
    by_cases ha : p a = true
    · rw [if_pos ha, List.filter_cons, if_pos ha]
      rfl
    · rw [if_neg ha, ih, List.filter_cons, if_neg ha, List.filter_cons, if_neg ha]

theorem filter_lastFrom (after l : List α) :
    (lastFrom p after l).map (filter p) = back (after.filter p) (l.filter p) := by
  induction l generalizing after with
  | nil => rfl
  | cons a l ih =>
    rw [lastFrom]
    by_cases ha : p a = true
    · rw [if_pos ha, List.filter_cons, if_pos ha]
      rfl
    · rw [if_neg ha, ih, List.filter_cons, if_neg ha, List.filter_cons, if_neg ha]

/-- Elements that do not pass are walked over. -/
theorem firstFrom_append {before l l' : List α} (h : ∀ a ∈ l, p a = false) :
    firstFrom p before (l ++ l') = firstFrom p (l.reverse ++ before) l' := by
  induction l generalizing before with
  | nil => rfl
  | cons a l ih =>
    rw [List.cons_append, firstFrom, h a (by simp), if_neg (by decide),
      ih fun b hb => h b (by simp [hb]), List.reverse_cons, List.append_assoc]
    rfl

theorem lastFrom_append {after l l' : List α} (h : ∀ a ∈ l, p a = false) :
    lastFrom p after (l ++ l') = lastFrom p (l.reverse ++ after) l' := by
  induction l generalizing after with
  | nil => rfl
  | cons a l ih =>
    rw [List.cons_append, lastFrom, h a (by simp), if_neg (by decide),
      ih fun b hb => h b (by simp [hb]), List.reverse_cons, List.append_assoc]
    rfl

theorem toList_of_firstFrom {before l : List α} {c : Cursor α} (h : firstFrom p before l = some c) :
    c.toList = before.reverse ++ l ∧ p c.here = true := by
  induction l generalizing before with
  | nil => cases h
  | cons a l ih =>
    rw [firstFrom] at h
    split at h
    · rename_i ha
      cases h
      exact ⟨rfl, ha⟩
    · obtain ⟨hlist, hp⟩ := ih h
      exact ⟨by rw [hlist]; simp, hp⟩

theorem toList_of_lastFrom {after l : List α} {c : Cursor α} (h : lastFrom p after l = some c) :
    c.toList = l.reverse ++ after ∧ p c.here = true := by
  induction l generalizing after with
  | nil => cases h
  | cons a l ih =>
    rw [lastFrom] at h
    split at h
    · rename_i ha
      cases h
      exact ⟨by simp [toList], ha⟩
    · obtain ⟨hlist, hp⟩ := ih h
      exact ⟨by rw [hlist]; simp, hp⟩

/-! ## The first and the last place -/

section
variable [LinearOrder β] (f : α → β)

/-- `o` is the first place of the list whose element meets `P`. -/
def IsFirst (l : List α) (P : α → Prop) : Option (Cursor α) → Prop
  | none => ∀ a ∈ l, ¬ P a
  | some c => c.toList = l ∧ P c.here ∧ ∀ a ∈ l, P a → f c.here ≤ f a

/-- `o` is the last place of the list whose element meets `P`. -/
def IsLast (l : List α) (P : α → Prop) : Option (Cursor α) → Prop
  | none => ∀ a ∈ l, ¬ P a
  | some c => c.toList = l ∧ P c.here ∧ ∀ a ∈ l, P a → f a ≤ f c.here

variable {f} {l : List α} {P : α → Prop}

theorem here_mem {c : Cursor α} (h : c.toList = l) : c.here ∈ l := by
  rw [← h]
  simp [toList]

/-- The first place is at the first element that meets `P`. -/
theorem IsFirst.eq_of_mem (hl : l.Pairwise fun a b => f a < f b) {o : Option (Cursor α)}
    (h : IsFirst f l P o) {a : α} (ha : a ∈ l) (hP : P a) (hmin : ∀ b ∈ l, P b → f a ≤ f b) :
    ∃ c, o = some c ∧ c.toList = l ∧ c.here = a := by
  cases o with
  | none => exact absurd hP (h a ha)
  | some c =>
    obtain ⟨hc, hPc, hle⟩ := h
    have heq : f c.here = f a := le_antisymm (hle a ha hP) (hmin _ (here_mem hc) hPc)
    refine ⟨c, rfl, hc, ?_⟩
    by_contra hne
    have : Std.Symm fun a b : α => f a ≠ f b := ⟨fun _ _ h h' => h h'.symm⟩
    exact (hl.imp fun h => ne_of_lt h).forall (here_mem hc) ha hne heq

theorem IsLast.eq_of_mem (hl : l.Pairwise fun a b => f a < f b) {o : Option (Cursor α)}
    (h : IsLast f l P o) {a : α} (ha : a ∈ l) (hP : P a) (hmax : ∀ b ∈ l, P b → f b ≤ f a) :
    ∃ c, o = some c ∧ c.toList = l ∧ c.here = a := by
  cases o with
  | none => exact absurd hP (h a ha)
  | some c =>
    obtain ⟨hc, hPc, hle⟩ := h
    have heq : f c.here = f a := le_antisymm (hmax _ (here_mem hc) hPc) (hle a ha hP)
    refine ⟨c, rfl, hc, ?_⟩
    by_contra hne
    have : Std.Symm fun a b : α => f a ≠ f b := ⟨fun _ _ h h' => h h'.symm⟩
    exact (hl.imp fun h => ne_of_lt h).forall (here_mem hc) ha hne heq

theorem IsFirst.eq_none {o : Option (Cursor α)} (h : IsFirst f l P o) (hno : ∀ a ∈ l, ¬ P a) :
    o = none := by
  cases o with
  | none => rfl
  | some c => exact absurd h.2.1 (hno _ (here_mem h.1))

theorem IsLast.eq_none {o : Option (Cursor α)} (h : IsLast f l P o) (hno : ∀ a ∈ l, ¬ P a) :
    o = none := by
  cases o with
  | none => rfl
  | some c => exact absurd h.2.1 (hno _ (here_mem h.1))

/-- Seen forwards, the place between two parts is the first of the second part. -/
theorem isFirst_front {before after : List α}
    (hl : (before.reverse ++ after).Pairwise fun a b => f a < f b)
    (hbefore : ∀ a ∈ before, ¬ P a) (hafter : ∀ a ∈ after, P a) :
    IsFirst f (before.reverse ++ after) P (front before after) := by
  cases after with
  | nil =>
    intro a ha
    rw [List.append_nil, List.mem_reverse] at ha
    exact hbefore a ha
  | cons c after =>
    refine ⟨rfl, hafter c (by simp), fun a ha hP => ?_⟩
    rcases List.mem_append.1 ha with ha | ha
    · exact absurd hP (hbefore a (List.mem_reverse.1 ha))
    · rcases List.mem_cons.1 ha with rfl | ha
      · exact le_rfl
      · exact ((List.pairwise_cons.1 (List.pairwise_append.1 hl).2.1).1 a ha).le

/-- Seen backwards, it is the last of the first part. -/
theorem isLast_back {before after : List α}
    (hl : (before.reverse ++ after).Pairwise fun a b => f a < f b)
    (hbefore : ∀ a ∈ before, P a) (hafter : ∀ a ∈ after, ¬ P a) :
    IsLast f (before.reverse ++ after) P (back after before) := by
  cases before with
  | nil => exact hafter
  | cons c before =>
    have hcons : (c :: before).reverse ++ after = before.reverse ++ c :: after := by simp
    rw [hcons] at hl ⊢
    refine ⟨rfl, hbefore c (by simp), fun a ha hP => ?_⟩
    rcases List.mem_append.1 ha with ha | ha
    · exact ((List.pairwise_append.1 hl).2.2 a ha c (by simp)).le
    · rcases List.mem_cons.1 ha with rfl | ha
      · exact le_rfl
      · exact absurd hP (hafter a ha)

theorem isFirst_first (hl : l.Pairwise fun a b => f a < f b) :
    IsFirst f l (fun _ => True) (first l) :=
  show IsFirst f ([].reverse ++ l) _ _ from isFirst_front hl (by simp) (by simp)

theorem isLast_last (hl : l.Pairwise fun a b => f a < f b) :
    IsLast f l (fun _ => True) (last l) := by
  have hl' : (l.reverse.reverse ++ []).Pairwise fun a b => f a < f b := by simpa using hl
  have h := isLast_back (P := fun _ => True) hl' (by simp) (by simp)
  rwa [List.append_nil, List.reverse_reverse] at h

theorem isFirst_next (hl : l.Pairwise fun a b => f a < f b) {c : Cursor α} (hc : c.toList = l) :
    IsFirst f l (fun a => f c.here < f a) c.next := by
  have hsplit : (c.here :: c.before).reverse ++ c.after = l := by simp [← hc, toList]
  rw [← hsplit] at hl ⊢
  have hparts := List.pairwise_append.1 hl
  refine isFirst_front hl (fun a ha => not_lt.2 ?_) fun a ha => hparts.2.2 _ (by simp) a ha
  rcases List.mem_cons.1 ha with rfl | ha
  · exact le_rfl
  · have := hparts.1
    rw [List.reverse_cons, List.pairwise_append] at this
    exact (this.2.2 a (List.mem_reverse.2 ha) _ (by simp)).le

theorem isLast_prev (hl : l.Pairwise fun a b => f a < f b) {c : Cursor α} (hc : c.toList = l) :
    IsLast f l (fun a => f a < f c.here) c.prev := by
  rw [← hc] at hl ⊢
  have hparts := List.pairwise_append.1 hl
  refine isLast_back hl (fun a ha => hparts.2.2 a (List.mem_reverse.2 ha) _ (by simp))
    fun a ha => not_lt.2 ?_
  rcases List.mem_cons.1 ha with rfl | ha
  · exact le_rfl
  · exact ((List.pairwise_cons.1 hparts.2.1).1 a ha).le

/-- Seeking past the elements below a bound. -/
theorem isFirst_seek (hl : l.Pairwise fun a b => f a < f b) (b : β) :
    IsFirst f l (fun a => b ≤ f a) (seek (fun a => f a < b) l) := by
  have hsplit := List.takeWhile_append_dropWhile (p := fun a => decide (f a < b)) (l := l)
  have hl' : ((l.takeWhile fun a => decide (f a < b)).reverse.reverse ++
      l.dropWhile fun a => decide (f a < b)).Pairwise fun a b => f a < f b := by
    rw [List.reverse_reverse, hsplit]
    exact hl
  have h := isFirst_front (P := fun a => b ≤ f a) hl' (fun a ha => ?_) fun a ha => ?_
  · rw [List.reverse_reverse, hsplit] at h
    exact h
  · rw [List.mem_reverse] at ha
    have hlt := List.mem_takeWhile_imp ha
    exact not_le.2 (by simpa using hlt)
  · -- the first element left is not below the bound, and the rest are above it
    have hne := List.ne_nil_of_mem ha
    obtain ⟨m, rest, hm⟩ := List.exists_cons_of_ne_nil hne
    have hhead : b ≤ f m := by
      have := List.head?_dropWhile_not (fun a => decide (f a < b)) l
      rw [hm] at this
      simpa using this
    rw [List.reverse_reverse] at hl'
    have hrest := (List.pairwise_append.1 hl').2.1
    rw [hm] at hrest ha
    rcases List.mem_cons.1 ha with rfl | ha
    · exact hhead
    · exact hhead.trans ((List.pairwise_cons.1 hrest).1 a ha).le

end
end Cursor
