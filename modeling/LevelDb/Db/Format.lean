import Mathlib.Algebra.GroupWithZero.Nat
import Mathlib.Data.Prod.Lex
import Mathlib.Order.Lattice

/-!
# Internal keys, tombstones and the merge operator (`db/dbformat.h`)

A user key is an element of a linear order `K` (the comparator of the options), a value an
element of `V`. Sequence numbers are `Nat`; `kMaxSequenceNumber` is the reserved bound that only
seek keys and exclusive file bounds carry.
-/

namespace LevelDb

/-- The largest 56-bit number: no record ever gets it. -/
def kMaxSequenceNumber : Nat := 2 ^ 56 - 1

/-- `ValueType` of `dbformat.h`, in the order of its codes. -/
inductive ValueType
  | deletion
  | value
  | merge
  | rangeDeletion
  deriving DecidableEq, Repr

/-- The byte a type is encoded as. -/
def ValueType.code : ValueType → Nat
  | .deletion => 0
  | .value => 1
  | .merge => 2
  | .rangeDeletion => 3

/-- The highest-numbered type, so that a seek key comes before every entry of its sequence. -/
def kValueTypeForSeek : ValueType := .rangeDeletion

theorem ValueType.code_le (t : ValueType) : t.code ≤ 3 := by cases t <;> decide

theorem ValueType.code_injective : Function.Injective ValueType.code := by
  intro a b h
  cases a <;> cases b <;> first | rfl | cases h

/-! ## Internal keys -/

structure InternalKey (K : Type) where
  userKey : K
  sequence : Nat
  type : ValueType
  deriving DecidableEq, Repr

namespace InternalKey

variable {K : Type}

/-- The sequence number and the type packed into one number (`PackSequenceAndType`). -/
def tag (k : InternalKey K) : Nat := k.sequence * 256 + k.type.code

/-- The key `InternalKeyComparator::Compare` sorts by: the user key upwards, the tag downwards. -/
def sortKey (k : InternalKey K) : K ×ₗ ℕᵒᵈ := toLex (k.userKey, OrderDual.toDual k.tag)

theorem sortKey_injective : Function.Injective (sortKey (K := K)) := by
  rintro ⟨u, s, t⟩ ⟨u', s', t'⟩ h
  have h' := congrArg ofLex h
  simp only [sortKey, tag, ofLex_toLex, Prod.mk.injEq, OrderDual.toDual_inj] at h'
  obtain ⟨rfl, htag⟩ := h'
  have ht := t.code_le
  have ht' := t'.code_le
  have hs : s = s' := by omega
  have hc : t.code = t'.code := by omega
  rw [hs, ValueType.code_injective hc]

instance [LinearOrder K] : LinearOrder (InternalKey K) :=
  LinearOrder.lift' sortKey sortKey_injective

theorem lt_iff [LinearOrder K] {a b : InternalKey K} :
    a < b ↔ a.userKey < b.userKey ∨ a.userKey = b.userKey ∧ b.tag < a.tag := by
  change sortKey a < sortKey b ↔ _
  rw [Prod.Lex.lt_iff]
  rfl

example : (⟨1, 5, .value⟩ : InternalKey Nat) < ⟨1, 4, .merge⟩ := by decide

end InternalKey

/-! ## Range tombstones -/

/-- A tombstone `[beginKey, endKey)@seq`; `layer` is the age of the place it was read from
(`db/range_del.h`) and is not stored. -/
structure RangeTombstone (K : Type) where
  beginKey : K
  endKey : K
  seq : Nat
  layer : Nat := 0
  deriving DecidableEq, Repr

/-- The key is in the tombstone's range. -/
def RangeTombstone.Covers {K : Type} [LinearOrder K] (t : RangeTombstone K) (k : K) : Prop :=
  t.beginKey ≤ k ∧ k < t.endKey

instance {K : Type} [LinearOrder K] (t : RangeTombstone K) (k : K) : Decidable (t.Covers k) :=
  instDecidableAnd

/-- Layers below this one are all layers. -/
def kAllLayers : Nat := 2 ^ 30

/-- The largest sequence number of a list, 0 for none. -/
def maxSeq (seqs : List Nat) : Nat := seqs.foldr max 0

theorem lt_maxSeq {s : Nat} {seqs : List Nat} : s < maxSeq seqs ↔ ∃ t ∈ seqs, s < t := by
  induction seqs with
  | nil => simp [maxSeq]
  | cons t seqs ih =>
    rw [maxSeq] at ih ⊢
    simp [ih]

theorem maxSeq_perm {xs ys : List Nat} (h : xs.Perm ys) : maxSeq xs = maxSeq ys :=
  h.foldr_eq' (fun _ _ _ _ _ => by omega) 0

/-- The first of a list sorted downwards that passes a test is the largest that does. -/
theorem find?_eq_maxSeq {α : Type} (f : α → Nat) (q : α → Bool) {v : List α}
    (hv : v.Pairwise fun a b => f b ≤ f a) :
    ((v.find? q).elim 0 f) = maxSeq ((v.filter q).map f) := by
  induction v with
  | nil => rfl
  | cons a v ih =>
    rw [List.pairwise_cons] at hv
    by_cases ha : q a = true
    · rw [List.find?_cons_of_pos ha, List.filter_cons_of_pos ha]
      refine (Nat.le_antisymm ?_ ?_)
      · simp [maxSeq]
      · refine Nat.le_of_not_lt fun hlt => ?_
        obtain ⟨t, ht, hlt⟩ := lt_maxSeq.1 hlt
        simp only [List.map_cons, List.mem_cons, List.mem_map, List.mem_filter] at ht
        rcases ht with rfl | ⟨b, ⟨hb, -⟩, rfl⟩
        · exact Nat.lt_irrefl _ hlt
        · exact absurd (hv.1 b hb) (by simpa using hlt)
    · rw [List.find?_cons_of_neg ha, List.filter_cons_of_neg ha, ih hv.2]

end LevelDb
