import LevelDb.Db.Compaction
import LevelDb.Db.Contents

/-!
# What one stripe compacts to

The entries of a key between two snapshots are resolved together. `compactStripe_same`: what they
compact to reads the same as they do, over anything that is below them (`Mvcc.SameOver`; nothing
is below the last stripe of a key at its base level). `seqs_compactStripe` and
`mem_compactStripe` say which entries come out.
-/

namespace LevelDb.Compaction

open Mvcc

variable {K V : Type} [LinearOrder K] {c : Compaction K V}

/-! ## Covered entries -/

@[simp] theorem cover_userKey (c : Compaction K V) (b : Nat) (e : Entry K V) :
    (c.cover b e).key.userKey = e.key.userKey := by
  unfold cover
  split <;> rfl

@[simp] theorem cover_sequence (c : Compaction K V) (b : Nat) (e : Entry K V) :
    (c.cover b e).key.sequence = e.key.sequence := by
  unfold cover
  split <;> rfl

theorem cover_type (c : Compaction K V) (b : Nat) (e : Entry K V) :
    (c.cover b e).key.type = .deletion ∨ c.cover b e = e := by
  unfold cover
  split
  · exact .inl rfl
  · exact .inr rfl

theorem map_cover_sequence (c : Compaction K V) (b : Nat) (group : List (Entry K V)) :
    (group.map (c.cover b)).map (·.key.sequence) = group.map (·.key.sequence) := by
  rw [List.map_map]
  exact List.map_congr_left fun e _ => cover_sequence c b e

/-! ## Operands and what settles them -/

omit [LinearOrder K] in
theorem op_of_merge {e : Entry K V} (h : e.key.type = .merge) : e.op = .merge e.value := by
  unfold Entry.op
  rw [h]

omit [LinearOrder K] in
/-- What settles operands gives a base, and hides what is below it. -/
theorem collect_op {e : Entry K V} (h : e.key.type ≠ .merge) :
    collect [e.op] = ([], if e.key.type = .value then some e.value else none) ∧
      ∀ older, collect (e.op :: older) = collect [e.op] := by
  unfold Entry.op
  cases ht : e.key.type with
  | merge => exact absurd ht h
  | _ => exact ⟨rfl, fun _ => rfl⟩

omit [LinearOrder K] in
/-- A stripe falls into its operands, newest first, and what settles them with the rest. -/
theorem stripe_split (es : List (Entry K V)) :
    ∃ ops rest : List (Entry K V), es = ops ++ rest ∧ (es.takeWhile fun e => e.key.type = .merge) = ops ∧
      (es.dropWhile fun e => e.key.type = .merge) = rest ∧
      ops.map Entry.op = (ops.map (·.value)).map .merge ∧
      ∀ e, rest.head? = some e → e.key.type ≠ .merge := by
  refine ⟨_, _, (List.takeWhile_append_dropWhile).symm, rfl, rfl, ?_, fun e he => ?_⟩
  · rw [List.map_map]
    refine List.map_congr_left fun e he => ?_
    exact op_of_merge (by simpa using List.mem_takeWhile_imp he)
  · have := List.head?_dropWhile_not (fun e : Entry K V => decide (e.key.type = .merge)) es
    simpa [he] using this

/-! ## The outcome -/

variable {k : K}

omit [LinearOrder K] in
/-- Operands and what settles them hide the rest of the stripe. -/
theorem keep_same (fold : Option V → List V → Option V) {ops : List (Entry K V)} {e : Entry K V}
    (hops : ops.map Entry.op = (ops.map (·.value)).map .merge) (he : e.key.type ≠ .merge)
    (rest : List (Entry K V)) :
    Same fold ((ops ++ e :: rest).map Entry.op) ((ops ++ [e]).map Entry.op) := by
  have hsettled : ∀ older, collect ((ops ++ [e]).map Entry.op ++ older) =
      collect ((ops ++ [e]).map Entry.op) := by
    intro older
    rw [List.map_append, hops, List.append_assoc, collect_merges, collect_merges]
    simp only [List.map_cons, List.map_nil, List.singleton_append]
    rw [(collect_op he).2]
  have hsame : Same fold ((ops ++ [e]).map Entry.op ++ rest.map Entry.op)
      ((ops ++ [e]).map Entry.op ++ []) := same_settled hsettled _ _
  simpa using hsame

/-- Merging a stripe's operands reads the same. -/
theorem mergeStripe_same
    (hlaws : ∀ op, c.mergeOp = some op → Laws (op.fullMerge k) (op.partialMerge k))
    {seq : Nat} {nothingOlder : Bool} {ops rest : List (Entry K V)} {merged : Entry K V}
    (hops : ops.map Entry.op = (ops.map (·.value)).map .merge) (hne : ops ≠ [])
    (hrest : ∀ e, rest.head? = some e → e.key.type ≠ .merge)
    (h : c.mergeStripe k seq nothingOlder (ops.map (·.value)) rest.head? = some merged) :
    SameOver (foldOf c.mergeOp k) (nothingOlder = true) ((ops ++ rest).map Entry.op)
      [merged.op] := by
  unfold mergeStripe at h
  cases hop : c.mergeOp with
  | none => simp [hop] at h
  | some op =>
    have hl : Laws (foldOf (some op) k) (op.partialMerge k) := hlaws op hop
    have hne' : ops.map (·.value) ≠ [] := by simpa using hne
    simp only [hop, Option.bind_some] at h
    rw [List.map_append, hops]
    cases rest with
    | cons e rest =>
      have he := hrest e rfl
      simp only [List.head?_cons, Option.isSome_some, Bool.true_or, if_true, Option.bind_some,
        Option.map_eq_some_iff] at h
      obtain ⟨v, hv, rfl⟩ := h
      exact .inl (same_fold hl hne' (collect_op he).1 hv _)
    | nil =>
      simp only [List.head?_nil, Option.isSome_none, Bool.false_or, Option.bind_none] at h
      rw [List.map_nil, List.append_nil]
      split at h
      · rename_i hnone
        obtain ⟨v, hv, rfl⟩ := Option.map_eq_some_iff.1 h
        exact .inr ⟨hnone, sameBottom_fold hl hne' hv⟩
      · split at h
        · obtain ⟨v, hv, rfl⟩ := Option.map_eq_some_iff.1 h
          unfold partialMergeAll at hv
          cases hrev : (ops.map (·.value)).reverse with
          | nil => simp [hrev] at hv
          | cons acc newer =>
            simp only [hrev] at hv
            exact .inl (same_foldInto hl hrev hv)
        · cases h

/-- What a stripe merges to stands in the place of its newest entry. -/
theorem mergeStripe_key {seq : Nat} {nothingOlder : Bool} {ops : List V}
    {settling : Option (Entry K V)} {merged : Entry K V}
    (h : c.mergeStripe k seq nothingOlder ops settling = some merged) :
    merged.key.userKey = k ∧ merged.key.sequence = seq ∧
      (merged.key.type = .value ∨ merged.key.type = .merge) := by
  unfold mergeStripe at h
  obtain ⟨op, -, h⟩ := Option.bind_eq_some_iff.1 h
  split at h
  · obtain ⟨_, -, rfl⟩ := Option.map_eq_some_iff.1 h
    exact ⟨rfl, rfl, .inl rfl⟩
  · split at h
    · obtain ⟨_, -, rfl⟩ := Option.map_eq_some_iff.1 h
      exact ⟨rfl, rfl, .inr rfl⟩
    · cases h

/-- The two ways a stripe comes out: the obsolete deletion marker is dropped, or the operands and
what settles them are merged or kept. -/
theorem compactStripe_cases (base last : Bool) (newest : Entry K V) (rest : List (Entry K V)) :
    ∃ ops tail : List (Entry K V),
      (newest :: rest).map (c.cover (c.bound (c.stripeOf newest.key.sequence))) = ops ++ tail ∧
      ops.map Entry.op = (ops.map (·.value)).map .merge ∧ (∀ e ∈ ops, e.key.type = .merge) ∧
      (∀ e, tail.head? = some e → e.key.type ≠ .merge) ∧
      ((ops = [] ∧ (∃ e, tail.head? = some e ∧ e.key.type = .deletion) ∧
          c.stripeOf newest.key.sequence = 0 ∧ base = true ∧
          c.compactStripe base last (newest :: rest) = []) ∨
        (ops = [] ∧ c.compactStripe base last (newest :: rest) = ops ++ tail.head?.toList) ∨
        (ops ≠ [] ∧ c.compactStripe base last (newest :: rest) =
          c.mergeOrKeep newest.key.userKey newest.key.sequence (last && base) ops
            tail.head?)) := by
  obtain ⟨ops, tail, hes, htake, hdrop, hops, htail⟩ := stripe_split
    ((newest :: rest).map (c.cover (c.bound (c.stripeOf newest.key.sequence))))
  have hmerge : ∀ e ∈ ops, e.key.type = .merge := by
    intro e he
    rw [← htake] at he
    simpa using List.mem_takeWhile_imp he
  refine ⟨ops, tail, hes, hops, hmerge, htail, ?_⟩
  simp only [compactStripe, htake, hdrop]
  cases ops with
  | cons o ops => exact .inr (.inr ⟨List.cons_ne_nil o ops, rfl⟩)
  | nil =>
    cases tail with
    | nil => simp at hes
    | cons e tail =>
      simp only [List.head?_cons]
      split
      · rename_i hobsolete
        obtain ⟨htype, hzero, hbase⟩ := hobsolete
        exact .inl ⟨trivial, ⟨e, rfl, htype⟩, hzero, hbase, rfl⟩
      · exact .inr (.inl ⟨trivial, rfl⟩)

/-- **A stripe reads the same** after it is compacted, over anything; over nothing when it is the
last one and no deeper level has the key. -/
theorem compactStripe_same
    (hlaws : ∀ op, c.mergeOp = some op → Laws (op.fullMerge k) (op.partialMerge k))
    {base last : Bool} {newest : Entry K V} {rest : List (Entry K V)}
    (hk : newest.key.userKey = k)
    (hlast : c.stripeOf newest.key.sequence = 0 → last = true) :
    SameOver (foldOf c.mergeOp k) (last = true ∧ base = true)
      (((newest :: rest).map (c.cover (c.bound (c.stripeOf newest.key.sequence)))).map Entry.op)
      ((c.compactStripe base last (newest :: rest)).map Entry.op) := by
  obtain ⟨ops, tail, hes, hops, -, htail, hout⟩ := c.compactStripe_cases base last newest rest
  rw [hes]
  have hkeep : Same (foldOf c.mergeOp k) ((ops ++ tail).map Entry.op)
      ((ops ++ tail.head?.toList).map Entry.op) := by
    cases tail with
    | nil => exact Same.refl _
    | cons e tail => exact keep_same _ hops (htail e rfl) tail
  obtain ⟨rfl, ⟨e, he, htype⟩, hzero, hbase, hout⟩ | ⟨-, hout⟩ | ⟨hne, hout⟩ := hout
  · -- the obsolete deletion marker
    obtain ⟨tail, rfl⟩ := List.head?_eq_some_iff.1 he
    have hop : e.op = .delete := by
      unfold Entry.op
      rw [htype]
    refine .inr ⟨⟨hlast hzero, hbase⟩, ?_⟩
    rw [hout, List.nil_append, List.map_cons, hop]
    exact sameBottom_delete _
  · rw [hout]
    exact .inl hkeep
  · rw [hout, mergeOrKeep, hk]
    split
    · rename_i merged hm
      have := mergeStripe_same hlaws hops hne htail hm
      rwa [Bool.and_eq_true] at this
    · exact .inl hkeep

/-! ## What comes out -/

/-- The sequence numbers that come out of a stripe are among those that went in, in order. -/
theorem seqs_compactStripe (c : Compaction K V) (base last : Bool) (group : List (Entry K V)) :
    ((c.compactStripe base last group).map (·.key.sequence)).Sublist
      (group.map (·.key.sequence)) := by
  cases group with
  | nil => exact .refl _
  | cons newest rest =>
    obtain ⟨ops, tail, hes, -, -, -, hout⟩ := c.compactStripe_cases base last newest rest
    have hkeep : ((ops ++ tail.head?.toList).map (·.key.sequence)).Sublist
        ((newest :: rest).map (·.key.sequence)) := by
      have hseqs := map_cover_sequence c (c.bound (c.stripeOf newest.key.sequence))
        (newest :: rest)
      rw [← hseqs, hes]
      refine List.Sublist.map _ (List.Sublist.append_left ?_ ops)
      cases tail with
      | nil => exact .refl _
      | cons e tail => simp
    obtain ⟨-, -, -, -, hout⟩ | ⟨-, hout⟩ | ⟨-, hout⟩ := hout
    · simp [hout]
    · rw [hout]
      exact hkeep
    · rw [hout, mergeOrKeep]
      split
      · rename_i merged hm
        simp [(mergeStripe_key hm).2.1]
      · exact hkeep

/-- An entry that comes out of a stripe is one that went in, or stands in the place of an operand
no tombstone of the stripe covers. -/
theorem mem_compactStripe {base last : Bool} {newest : Entry K V} {rest : List (Entry K V)}
    {o : Entry K V} (hkey : ∀ e ∈ newest :: rest, e.key.userKey = k)
    (ho : o ∈ c.compactStripe base last (newest :: rest)) :
    o.key.userKey = k ∧
      ∃ e ∈ (newest :: rest).map (c.cover (c.bound (c.stripeOf newest.key.sequence))),
        o.key.sequence = e.key.sequence ∧
        (o = e ∨ e.key.type = .merge ∧ (o.key.type = .value ∨ o.key.type = .merge)) := by
  obtain ⟨ops, tail, hes, -, hmerge, -, hout⟩ := c.compactStripe_cases base last newest rest
  have hkeep : o ∈ ops ++ tail.head?.toList → o.key.userKey = k ∧
      ∃ e ∈ (newest :: rest).map (c.cover (c.bound (c.stripeOf newest.key.sequence))),
        o.key.sequence = e.key.sequence ∧
        (o = e ∨ e.key.type = .merge ∧ (o.key.type = .value ∨ o.key.type = .merge)) := by
    intro ho
    have hin : o ∈ (newest :: rest).map (c.cover (c.bound (c.stripeOf newest.key.sequence))) := by
      rw [hes]
      rcases List.mem_append.1 ho with ho | ho
      · exact List.mem_append_left _ ho
      · cases tail with
        | nil => cases ho
        | cons a tail =>
          rw [List.head?_cons, Option.toList_some, List.mem_singleton] at ho
          simp [ho]
    refine ⟨?_, o, hin, rfl, .inl rfl⟩
    obtain ⟨a, ha, rfl⟩ := List.mem_map.1 hin
    rw [cover_userKey, hkey a ha]
  obtain ⟨-, -, -, -, hout⟩ | ⟨-, hout⟩ | ⟨hne, hout⟩ := hout
  · simp [hout] at ho
  · exact hkeep (hout ▸ ho)
  · rw [hout, mergeOrKeep] at ho
    split at ho
    · rename_i merged hm
      rw [List.mem_singleton] at ho
      subst ho
      obtain ⟨h1, h2, h3⟩ := mergeStripe_key hm
      obtain ⟨a, as, rfl⟩ := List.exists_cons_of_ne_nil hne
      have ha : c.cover (c.bound (c.stripeOf newest.key.sequence)) newest = a := by
        rw [List.map_cons, List.cons_append, List.cons.injEq] at hes
        exact hes.1
      refine ⟨h1.trans (hkey newest (by simp)), a, by simp [← ha], ?_,
        .inr ⟨hmerge a (by simp), h3⟩⟩
      rw [h2, ← ha, cover_sequence]
    · exact hkeep ho

/-- Only the oldest stripe of a key at its base level can leave nothing. -/
theorem compactStripe_ne_nil {base last : Bool} {newest : Entry K V} {rest : List (Entry K V)}
    (h : c.compactStripe base last (newest :: rest) = []) :
    c.stripeOf newest.key.sequence = 0 ∧ base = true := by
  obtain ⟨ops, tail, hes, -, -, -, hout⟩ := c.compactStripe_cases base last newest rest
  have hne : ops ++ tail.head?.toList ≠ [] := by
    intro hc
    obtain ⟨rfl, htail⟩ := List.append_eq_nil_iff.1 hc
    cases tail with
    | nil => simp at hes
    | cons e tail => simp at htail
  obtain ⟨-, -, hzero, hbase, -⟩ | ⟨-, hout⟩ | ⟨-, hout⟩ := hout
  · exact ⟨hzero, hbase⟩
  · exact absurd (hout.symm.trans h) hne
  · rw [hout, mergeOrKeep] at h
    split at h
    · cases h
    · exact absurd h hne

end LevelDb.Compaction
