import LevelDb.Db.Contents

/-!
# What a lookup in progress stands for

`LookupState.answers st rest` is the answer the lookup gives when the versions still to come are
`rest`. Each step of a lookup moves versions from `rest` into the state and leaves the answer
(`add_spec`, `feed_spec`), so the answer of the whole is that of the versions fed in.
-/

namespace LevelDb

open Mvcc

variable {K V : Type} [LinearOrder K]

namespace LookupState

/-- The answer when `rest` is what is still to come, newest first. -/
def answers (st : LookupState K V) (rest : List (Op V)) : Status × Option V :=
  if st.done then (st.status, st.value)
  else answer st.mergeOp (Mvcc.settle (foldOf st.mergeOp st.userKey)
    (st.operands ++ (collect rest).1) (collect rest).2)

/-- A lookup of the key at the snapshot, with nothing stored before it is settled. -/
structure For (k : K) (snapshot : Nat) (mergeOp : Option (MergeOperator K V))
    (rd : Option (RangeDelView K V)) (st : LookupState K V) : Prop where
  userKey : st.userKey = k
  snapshot : st.snapshot = snapshot
  mergeOp : st.mergeOp = mergeOp
  rd : st.rd = rd
  value : st.done = false → st.value = none

variable {k : K} {snapshot : Nat} {mergeOp : Option (MergeOperator K V)}
  {rd : Option (RangeDelView K V)} {st : LookupState K V}

@[simp] theorem settle_done (st : LookupState K V) (base : Option V) :
    (st.settle base).done = true := rfl

theorem For.settle (h : For k snapshot mergeOp rd st) (base : Option V) :
    For k snapshot mergeOp rd (st.settle base) :=
  ⟨h.userKey, h.snapshot, h.mergeOp, h.rd, fun hd => absurd hd (by simp)⟩

/-- Settling gives the answer of the operands over the base. -/
theorem settle_answers (h : For k snapshot mergeOp rd st) (hd : st.done = false)
    (base : Option V) (rest : List (Op V)) :
    (st.settle base).answers rest =
      answer st.mergeOp (Mvcc.settle (foldOf st.mergeOp st.userKey) st.operands base) := by
  have hval := h.value hd
  rw [answers, settle_done, if_pos rfl]
  change st.outcome base = _
  unfold outcome
  rw [hval]
  cases st.operands with
  | nil => cases base <;> rfl
  | cons x xs =>
    cases st.mergeOp with
    | none => rfl
    | some op =>
      simp only [foldOf, Mvcc.settle, Option.bind_some]
      cases op.fullMerge st.userKey base (x :: xs).reverse <;> rfl

/-- All that is to come is deleted: the lookup ends where it stands. -/
theorem answers_deleted {rest : List (Op V)} (h : ∀ op ∈ rest, op = .delete) :
    st.answers rest = st.answers [] := by
  cases rest with
  | nil => rfl
  | cons op rest =>
    obtain rfl := h op (by simp)
    rfl

theorem finish_answers (h : For k snapshot mergeOp rd st) :
    (st.finish.status, st.finish.value) = st.answers [] := by
  unfold finish
  cases hd : st.done with
  | true => simp [answers, hd]
  | false =>
    have hs := settle_answers h hd none []
    rw [answers, settle_done, if_pos rfl] at hs
    simpa [answers, hd] using hs

theorem settleDeleted_spec (h : For k snapshot mergeOp rd st) :
    For k snapshot mergeOp rd st.settleDeleted ∧
      ∀ rest, st.settleDeleted.answers rest = st.answers [] := by
  unfold settleDeleted
  cases hd : st.done with
  | true => exact ⟨by simpa using h, fun rest => by simp [answers, hd]⟩
  | false =>
    refine ⟨by simpa using h.settle none, fun rest => ?_⟩
    rw [if_neg (by simp), settle_answers h hd]
    simp [answers, hd]

/-- **`Add`** takes the next version: it says whether the lookup is settled, and the answer stays
what it was. -/
theorem add_spec {ts : List (RangeTombstone K)} (h : For k snapshot mergeOp rd st)
    (hd : st.done = false)
    (hrd : ∀ seq, rd.elim false (·.covers k seq snapshot) = true ↔ Hidden ts k snapshot seq)
    {e : Entry K V} (hk : e.key.userKey = k) (he : e.key.type ≠ .rangeDeletion) :
    For k snapshot mergeOp rd (st.add e.key.type e.key.sequence e.value).2 ∧
      (st.add e.key.type e.key.sequence e.value).1 =
        (st.add e.key.type e.key.sequence e.value).2.done ∧
      ∀ rest, (st.add e.key.type e.key.sequence e.value).2.answers rest =
        st.answers (versionOp ts snapshot e :: rest) := by
  have hrd' : st.rd.elim false (·.covers st.userKey e.key.sequence st.snapshot) = true ↔
      Hidden ts e.key.userKey snapshot e.key.sequence := by
    rw [h.rd, h.userKey, h.snapshot, hk, hrd]
  have hdel : (∀ rest, st.answers (.delete :: rest) = (st.settle none).answers []) := by
    intro rest
    rw [settle_answers h hd]
    simp [answers, hd]
  unfold add versionOp Entry.op
  simp only [hd, Bool.false_eq_true, if_false, hrd']
  by_cases hh : Hidden ts e.key.userKey snapshot e.key.sequence
  · cases ht : e.key.type with
    | rangeDeletion => exact absurd ht he
    | _ =>
      simp only [hh, ne_eq, reduceCtorEq, not_false_eq_true, and_self, if_true, not_true_eq_false,
        false_and, if_false]
      refine ⟨h.settle none, (settle_done st none).symm, fun rest => ?_⟩
      rw [hdel, settle_answers h hd, settle_answers h hd]
  · simp only [hh, and_false, if_false]
    cases ht : e.key.type with
    | rangeDeletion => exact absurd ht he
    | deletion =>
      refine ⟨h.settle none, (settle_done st none).symm, fun rest => ?_⟩
      rw [hdel, settle_answers h hd, settle_answers h hd]
    | value =>
      refine ⟨h.settle _, (settle_done st _).symm, fun rest => ?_⟩
      rw [settle_answers h hd]
      simp [answers, hd]
    | merge =>
      refine ⟨⟨h.userKey, h.snapshot, h.mergeOp, h.rd, fun _ => h.value hd⟩, rfl,
        fun rest => ?_⟩
      simp [answers, hd]

end LookupState

section

variable {k : K} {snapshot : Nat} {mergeOp : Option (MergeOperator K V)}
  {rd : Option (RangeDelView K V)} {ts : List (RangeTombstone K)}
  (hrd : ∀ seq, rd.elim false (·.covers k seq snapshot) = true ↔ Hidden ts k snapshot seq)

include hrd

/-- **The loop over a table** takes the versions up to the first entry of another key. -/
theorem MemTable.feed_spec {es : List (Entry K V)} (hes : ∀ e ∈ es, e.key.type ≠ .rangeDeletion)
    {st : LookupState K V} (h : st.For k snapshot mergeOp rd) (hd : st.done = false) :
    (feed k es st).2.For k snapshot mergeOp rd ∧ (feed k es st).1 = (feed k es st).2.done ∧
      ∀ rest, (feed k es st).2.answers rest =
        st.answers ((es.takeWhile fun e => e.key.userKey = k).map (versionOp ts snapshot) ++
          rest) := by
  induction es generalizing st with
  | nil => exact ⟨h, hd.symm, fun rest => rfl⟩
  | cons e es ih =>
    unfold feed
    by_cases hk : e.key.userKey = k
    · obtain ⟨h1, h2, h3⟩ := LookupState.add_spec h hd hrd hk (hes e (by simp))
      rw [if_neg (by simpa using hk), List.takeWhile_cons_of_pos (by simpa using hk)]
      generalize st.add e.key.type e.key.sequence e.value = r at h1 h2 h3
      obtain ⟨b, st'⟩ := r
      cases b with
      | true =>
        refine ⟨h1, h2, fun rest => ?_⟩
        have hdone : st'.done = true := h2.symm
        rw [List.map_cons, List.cons_append, ← h3]
        simp [LookupState.answers, hdone]
      | false =>
        obtain ⟨i1, i2, i3⟩ := ih (fun e he => hes e (by simp [he])) h1 h2.symm
        refine ⟨i1, i2, fun rest => ?_⟩
        rw [i3, h3]
        rfl
    · rw [if_pos hk, List.takeWhile_cons_of_neg (by simpa using hk)]
      exact ⟨h, hd.symm, fun rest => rfl⟩

end

theorem LookupState.add_userKey (st : LookupState K V) (type : ValueType) (seq : Nat) (v : V) :
    (st.add type seq v).2.userKey = st.userKey := by
  unfold add
  split
  · rfl
  · simp only
    split
    all_goals rfl

/-- `SaveValue` over a table does what `MemTable::Get` does over the skip list. -/
theorem internalGet_eq {es : List (Entry K V)} (hes : ∀ e ∈ es, e.key.type ≠ .rangeDeletion)
    {k : K} {s : Saver K V} (h : s.state.userKey = k) :
    internalGet es s = { s with state := (MemTable.feed k es s.state).2 } := by
  induction es generalizing s with
  | nil => rfl
  | cons e es ih =>
    unfold internalGet saveValue MemTable.feed
    rw [if_neg (hes e (by simp)), h]
    by_cases hk : e.key.userKey = k
    · have hu := LookupState.add_userKey s.state e.key.type e.key.sequence e.value
      simp only [ne_eq, hk, not_true_eq_false, if_false]
      generalize s.state.add e.key.type e.key.sequence e.value = r at hu
      obtain ⟨b, st⟩ := r
      cases b with
      | true => rfl
      | false => exact ih (fun e he => hes e (by simp [he])) (hu.trans h)
    · simp only [ne_eq, hk, not_false_eq_true, if_true]

end LevelDb
