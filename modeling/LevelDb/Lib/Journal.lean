import Mathlib.Data.List.Basic

/-!
# Journals in segments

A journal is a list of items, each with the number of the segment it was written to; items go to
the newest segment, so the numbers ascend (`Sorted`). `below n` are the items of the segments
before `n`, `since n` those of the segments from `n` on, `between m n` those in between, and
`segment n` those of one segment, all in the order of the journal. The parts fit together
(`below_append_between`, `between_append_since`), and a new item is at the end of those that its
segment belongs to. What segments in ascending order give is what the journal gives, if none of the
segments left out gives anything (`flatMap_segments`).
-/

namespace Journal

universe u v

variable {α : Type u} {β : Type v} {j : List (Nat × α)} {m n : Nat}

def Sorted (j : List (Nat × α)) : Prop := j.Pairwise fun a b => a.1 ≤ b.1

def below (n : Nat) (j : List (Nat × α)) : List α := (j.filter fun e => e.1 < n).map (·.2)

def since (n : Nat) (j : List (Nat × α)) : List α := (j.filter fun e => n ≤ e.1).map (·.2)

def between (m n : Nat) (j : List (Nat × α)) : List α :=
  (j.filter fun e => m ≤ e.1 ∧ e.1 < n).map (·.2)

def segment (n : Nat) (j : List (Nat × α)) : List α := (j.filter fun e => e.1 = n).map (·.2)

/-- Of two sets of segments, one before the other, the items of the first come first. -/
theorem filter_append_filter (h : Sorted j) {P Q : Nat → Prop} [DecidablePred P] [DecidablePred Q]
    (hPQ : ∀ a b, P a → Q b → a < b) :
    (j.filter fun e => P e.1) ++ (j.filter fun e => Q e.1) = j.filter fun e => P e.1 ∨ Q e.1 := by
  induction j with
  | nil => rfl
  | cons e j ih =>
    obtain ⟨hhead, htail⟩ := List.pairwise_cons.1 h
    by_cases hP : P e.1
    · have hQ : ¬ Q e.1 := fun hQ => Nat.lt_irrefl _ (hPQ _ _ hP hQ)
      simp only [List.filter_cons, hP, hQ, decide_true, decide_false, if_true, Bool.false_eq_true,
        if_false, true_or, List.cons_append, ih htail]
    · by_cases hQ : Q e.1
      · have hnone : (j.filter fun e => P e.1) = [] := by
          refine List.filter_eq_nil_iff.2 fun e' he' hP' => ?_
          have hlt := hPQ _ _ (of_decide_eq_true hP') hQ
          have hle := hhead e' he'
          omega
        have htail' := ih htail
        rw [hnone, List.nil_append] at htail'
        simp only [List.filter_cons, hP, hQ, decide_true, decide_false, if_true, Bool.false_eq_true,
          if_false, or_true, hnone, List.nil_append, htail']
      · simp only [List.filter_cons, hP, hQ, decide_false, Bool.false_eq_true, if_false, or_self,
          ih htail]

theorem below_append_since (h : Sorted j) (n : Nat) : below n j ++ since n j = j.map (·.2) := by
  rw [below, since, ← List.map_append,
    filter_append_filter h (P := fun k => k < n) (Q := fun k => n ≤ k) fun a b ha hb => by omega]
  congr 1
  refine List.filter_eq_self.2 fun e _ => ?_
  simp only [decide_eq_true_eq]
  omega

theorem below_append_between (h : Sorted j) (hmn : m ≤ n) :
    below m j ++ between m n j = below n j := by
  rw [below, between, below, ← List.map_append,
    filter_append_filter h (P := fun k => k < m) (Q := fun k => m ≤ k ∧ k < n)
      fun a b ha hb => by omega]
  congr 1
  refine List.filter_congr fun e _ => ?_
  simp only [decide_eq_decide]
  omega

theorem between_append_since (h : Sorted j) (hmn : m ≤ n) :
    between m n j ++ since n j = since m j := by
  rw [between, since, since, ← List.map_append,
    filter_append_filter h (P := fun k => m ≤ k ∧ k < n) (Q := fun k => n ≤ k)
      fun a b ha hb => by omega]
  congr 1
  refine List.filter_congr fun e _ => ?_
  simp only [decide_eq_decide]
  omega

theorem since_eq_nil (h : ∀ e ∈ j, e.1 < n) : since n j = [] := by
  rw [since, List.map_eq_nil_iff, List.filter_eq_nil_iff]
  intro e he
  have := h e he
  simp only [decide_eq_true_eq]
  omega

@[simp] theorem between_self : between n n j = [] := by
  rw [between, List.map_eq_nil_iff, List.filter_eq_nil_iff]
  intro e _
  simp only [decide_eq_true_eq]
  omega

theorem below_eq_map (h : ∀ e ∈ j, e.1 < n) : below n j = j.map (·.2) := by
  rw [below, List.filter_eq_self.2 fun e he => decide_eq_true (h e he)]

/-! ## A new item -/

section
variable {x : α} {k : Nat}

theorem Sorted.concat (h : Sorted j) (hk : ∀ e ∈ j, e.1 ≤ k) : Sorted (j ++ [(k, x)]) := by
  refine List.pairwise_append.2 ⟨h, List.pairwise_singleton _ _, fun a ha b hb => ?_⟩
  rw [List.mem_singleton] at hb
  rw [hb]
  exact hk a ha

theorem below_concat (h : n ≤ k) : below n (j ++ [(k, x)]) = below n j := by
  have hk : ¬ k < n := by omega
  simp [below, List.filter_append, hk]

theorem since_concat (h : n ≤ k) : since n (j ++ [(k, x)]) = since n j ++ [x] := by
  simp [since, List.filter_append, h]

theorem between_concat (h : n ≤ k) : between m n (j ++ [(k, x)]) = between m n j := by
  have hk : ¬ k < n := by omega
  simp [between, List.filter_append, hk]

theorem segment_concat_self : segment k (j ++ [(k, x)]) = segment k j ++ [x] := by
  simp [segment, List.filter_append]

theorem segment_concat_ne (h : k ≠ n) : segment n (j ++ [(k, x)]) = segment n j := by
  simp [segment, List.filter_append, h]

end

/-! ## Reading segments -/

theorem mem_segment {x : α} : x ∈ segment n j ↔ (n, x) ∈ j := by
  simp only [segment, List.mem_map, List.mem_filter, decide_eq_true_eq]
  constructor
  · rintro ⟨e, ⟨he, rfl⟩, rfl⟩
    exact he
  · intro he
    exact ⟨(n, x), ⟨he, rfl⟩, rfl⟩

theorem mem_since {x : α} : x ∈ since n j ↔ ∃ k, n ≤ k ∧ (k, x) ∈ j := by
  simp only [since, List.mem_map, List.mem_filter, decide_eq_true_eq]
  constructor
  · rintro ⟨e, ⟨he, hn⟩, rfl⟩
    exact ⟨e.1, hn, he⟩
  · rintro ⟨k, hn, he⟩
    exact ⟨(k, x), ⟨he, hn⟩, rfl⟩

/-- **Segments read in ascending order** give what the journal gives from `n` on, where the segments
left out give nothing. -/
theorem flatMap_segments (h : Sorted j) (g : α → List β) {ks : List Nat}
    (hks : ks.Pairwise (· < ·)) (hge : ∀ k ∈ ks, n ≤ k)
    (hall : ∀ e ∈ j, n ≤ e.1 → g e.2 ≠ [] → e.1 ∈ ks) :
    ks.flatMap (fun k => (segment k j).flatMap g) = (since n j).flatMap g := by
  induction ks generalizing n with
  | nil =>
    refine (List.flatMap_eq_nil_iff.2 fun x hx => ?_).symm
    obtain ⟨k, hk, hin⟩ := mem_since.1 hx
    by_contra hne
    exact List.not_mem_nil (hall (k, x) hin hk hne)
  | cons k ks ih =>
    obtain ⟨hhead, htail⟩ := List.pairwise_cons.1 hks
    have hnk : n ≤ k := hge k List.mem_cons_self
    -- the rest reads from the next segment on
    have hrest := ih (n := k + 1) htail (fun k' hk' => hhead k' hk') fun e he hle hne => by
      rcases List.mem_cons.1 (hall e he (by omega) hne) with heq | hin
      · omega
      · exact hin
    have hskipped : (between n k j).flatMap g = [] := by
      refine List.flatMap_eq_nil_iff.2 fun x hx => ?_
      simp only [between, List.mem_map, List.mem_filter, decide_eq_true_eq] at hx
      obtain ⟨e, ⟨he, hle, hlt⟩, rfl⟩ := hx
      by_contra hne
      rcases List.mem_cons.1 (hall e he hle hne) with heq | hin
      · omega
      · have := hhead e.1 hin
        omega
    have hone : between k (k + 1) j = segment k j := by
      rw [between, segment]
      congr 1
      refine List.filter_congr fun e _ => ?_
      simp only [decide_eq_decide]
      omega
    rw [List.flatMap_cons, hrest, ← between_append_since h hnk, List.flatMap_append, hskipped,
      List.nil_append, ← between_append_since h (Nat.le_succ k), hone, List.flatMap_append]

end Journal
