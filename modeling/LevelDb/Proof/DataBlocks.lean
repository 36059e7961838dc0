import LevelDb.Db.Counter
import LevelDb.Db.DataBlocks
import LevelDb.Proof.Layers
import LevelDb.Proof.Lookup

/-!
# A table feeds a lookup all it needs

Reading blocks one after the other is reading their entries in one list, up to the first block that
cannot be read (`readBlocks_spec`); the index leads to the block with the first entry of the key the
lookup may see, and a filter that says no is right about the whole table (`seek_eq`,
`no_version_of_filter`). So a lookup takes all the versions of its key until it is settled, or is
told of an error (`internalGet_feeds`).
-/

namespace LevelDb

variable {K V : Type} [LinearOrder K]

/-! ## Reading on through the blocks -/

namespace BlockTable

section
omit [LinearOrder K]

variable {S : Type}

theorem readBlock_append (handleResult : S → Entry K V → Bool × S) (xs ys : List (Entry K V))
    (s : S) :
    readBlock handleResult (xs ++ ys) s =
      if (readBlock handleResult xs s).1 then readBlock handleResult ys (readBlock handleResult xs s).2
      else readBlock handleResult xs s := by
  induction xs generalizing s with
  | nil => simp [readBlock]
  | cons x xs ih =>
    obtain ⟨⟨more, s1⟩, hresult⟩ : ∃ r, handleResult s x = r := ⟨_, rfl⟩
    simp only [List.cons_append, readBlock, hresult]
    cases more with
    | true => exact ih s1
    | false => rfl

/-- **What the loop reads**: the blocks up to where the caller stops it, or to the first that cannot
be read, or all of them. -/
theorem readBlocks_spec (handleResult : S → Entry K V → Bool × S) (bs : List (DataBlock K V))
    (s : S) :
    ∃ read rest, bs = read ++ rest ∧ (∀ b ∈ read, b.error = none) ∧
      (readBlocks handleResult bs s).2 =
        (readBlock handleResult (read.flatMap (·.entries)) s).2 ∧
      ((readBlocks handleResult bs s).1 = .ok ∧
          ((readBlock handleResult (read.flatMap (·.entries)) s).1 = true → rest = []) ∨
        (readBlock handleResult (read.flatMap (·.entries)) s).1 = true ∧
          ∃ b ∈ rest, b.error = some (readBlocks handleResult bs s).1) := by
  induction bs generalizing s with
  | nil => exact ⟨[], [], rfl, by simp, rfl, .inl ⟨rfl, fun _ => rfl⟩⟩
  | cons b bs ih =>
    unfold readBlocks
    cases herror : b.error with
    | some status => exact ⟨[], b :: bs, rfl, by simp, rfl, .inr ⟨rfl, b, by simp, herror⟩⟩
    | none =>
      cases hread : readBlock handleResult b.entries s with
      | mk more s1 =>
        cases more with
        | false =>
          refine ⟨[b], bs, rfl, by simpa using herror, ?_, .inl ⟨rfl, ?_⟩⟩
          · simp [hread]
          · simp [hread]
        | true =>
          obtain ⟨read, rest, rfl, hok, hstate, hstop⟩ := ih s1
          have hcons : readBlock handleResult ((b :: read).flatMap (·.entries)) s =
              readBlock handleResult (read.flatMap (·.entries)) s1 := by
            rw [List.flatMap_cons, readBlock_append, hread]
            rfl
          refine ⟨b :: read, rest, rfl, ?_, ?_, ?_⟩
          · exact List.forall_mem_cons.2 ⟨herror, hok⟩
          · rw [hcons]
            exact hstate
          · rw [hcons]
            exact hstop

end

/-! ## The index and the filters -/

variable (t : BlockTable K V)

theorem blocks_sorted {before after : List (DataBlock K V)} {b : DataBlock K V}
    (hblocks : t.blocks = before ++ b :: after) :
    (b.entries ++ after.flatMap (·.entries)).Pairwise fun a b => a.key < b.key := by
  have hsorted := t.sorted
  rw [hblocks, List.flatMap_append, List.flatMap_cons] at hsorted
  exact (List.pairwise_append.1 hsorted).2.1

/-- An entry is in one block only. -/
theorem block_unique {b b' : DataBlock K V} (hb : b ∈ t.blocks) (hb' : b' ∈ t.blocks) {e : Entry K V}
    (he : e ∈ b.entries) (he' : e ∈ b'.entries) : b = b' := by
  by_contra hne
  have hsymm : Std.Symm fun a b : DataBlock K V =>
      (∀ x ∈ a.entries, ∀ y ∈ b.entries, x.key < y.key) ∨
        ∀ x ∈ b.entries, ∀ y ∈ a.entries, x.key < y.key := ⟨fun _ _ h => h.symm⟩
  have heither := (List.pairwise_flatMap.1 t.sorted).2.imp
    fun {a b} h => (Or.inl h : _ ∨ ∀ x ∈ b.entries, ∀ y ∈ a.entries, x.key < y.key)
  rcases heither.forall hb hb' hne with h | h
  · exact absurd (h e he e he') (lt_irrefl _)
  · exact absurd (h e he' e he) (lt_irrefl _)

/-- The entries of a block are at or before its last, and at or before its index key. -/
theorem le_indexKey {b : DataBlock K V} (hb : b ∈ t.blocks) :
    ∀ e ∈ b.entries, e.key ≤ b.indexKey := by
  obtain ⟨before, after, hblocks⟩ := List.append_of_mem hb
  have hsorted := (List.pairwise_append.1 (t.blocks_sorted hblocks)).1
  have hlast := List.getLast?_eq_some_getLast (t.nonempty b hb)
  have hle : ∀ e ∈ b.entries, e.key ≤ (b.entries.getLast (t.nonempty b hb)).key := by
    intro e he
    have hsplit := List.dropLast_append_getLast (t.nonempty b hb)
    rw [← hsplit] at he hsorted
    rcases List.mem_append.1 he with he | he
    · exact ((List.pairwise_append.1 hsorted).2.2 e he _ (by simp)).le
    · rw [List.mem_singleton] at he
      rw [he]
  intro e he
  refine (hle e he).trans ?_
  rcases t.index_last b hb with ⟨last, hmem, heq⟩ | hlt
  · rw [hlast, Option.mem_some_iff] at hmem
    rw [heq, hmem]
  · exact (InternalKey.lt_iff.2 (.inl (hlt _ hlast))).le

/-- The entries of the later blocks are past its index key, and past its user key unless that is the
one the block ends with. -/
theorem indexKey_lt {before after : List (DataBlock K V)} {b : DataBlock K V}
    (hblocks : t.blocks = before ++ b :: after) {e : Entry K V}
    (he : e ∈ after.flatMap (·.entries)) :
    b.indexKey < e.key ∧ (b.KeepsLast ∨ b.indexKey.userKey < e.key.userKey) := by
  have hsorted := t.blocks_sorted hblocks
  have hnext := t.index_next
  rw [hblocks] at hnext
  cases after with
  | nil => simp at he
  | cons next after =>
    have hstep := (List.isChain_cons_cons.1 (List.isChain_append.1 hnext).2.1).1
    rcases hstep with hkeeps | hlt
    · refine ⟨?_, .inl hkeeps⟩
      obtain ⟨last, hlast, heq⟩ := hkeeps
      rw [heq]
      exact (List.pairwise_append.1 hsorted).2.2 last (List.mem_of_getLast? hlast) e he
    · -- the first entry of the next block is at or before this one
      have hne := t.nonempty next (by simp [hblocks])
      obtain ⟨first, rest, hentries⟩ := List.exists_cons_of_ne_nil hne
      have hfirst := hlt first (by simp [hentries])
      have hle : first.key ≤ e.key := by
        rw [List.flatMap_cons, hentries, List.cons_append] at hsorted he
        rcases List.mem_cons.1 he with rfl | he
        · exact le_rfl
        · exact (List.rel_of_pairwise_cons (List.pairwise_append.1 hsorted).2.1 he).le
      have huser := hfirst.trans_le (userKey_le hle)
      exact ⟨InternalKey.lt_iff.2 (.inl huser), .inr huser⟩

/-- **The index leads to the first entry** at or after the key: what is left of the table is what is
left of the block it finds, and the blocks after it. -/
theorem seek_eq {k : InternalKey K} {before after : List (DataBlock K V)} {b : DataBlock K V}
    (hblocks : t.blocks = before ++ b :: after) (hbefore : ∀ a ∈ before, a.indexKey < k)
    (hb : k ≤ b.indexKey) :
    t.table.seek k =
      (b.entries.dropWhile fun e => e.key < k) ++ after.flatMap (·.entries) := by
  have hdrop : ∀ e ∈ before.flatMap (·.entries), decide (e.key < k) = true := by
    intro e he
    obtain ⟨a, ha, he⟩ := List.mem_flatMap.1 he
    refine decide_eq_true ((t.le_indexKey ?_ e he).trans_lt (hbefore a ha))
    simp [hblocks, ha]
  have hafter : (after.flatMap (·.entries)).dropWhile (fun e => decide (e.key < k)) =
      after.flatMap (·.entries) := by
    rw [List.dropWhile_eq_self_iff]
    intro hpos hlt
    have := (t.indexKey_lt hblocks (List.getElem_mem hpos)).1
    exact absurd (hb.trans_lt this) (not_lt.2 (of_decide_eq_true hlt).le)
  unfold Table.seek table
  simp only [hblocks, List.flatMap_append, List.flatMap_cons]
  rw [List.dropWhile_append_of_pos hdrop, List.dropWhile_append, hafter]
  split
  · rename_i hempty
    rw [List.isEmpty_iff.1 hempty, List.nil_append]
  · rfl

theorem seek_eq_nil {k : InternalKey K} (h : ∀ b ∈ t.blocks, b.indexKey < k) :
    t.table.seek k = [] := by
  refine List.dropWhile_eq_nil_iff.2 fun e he => ?_
  obtain ⟨b, hb, he⟩ := List.mem_flatMap.1 he
  exact decide_eq_true ((t.le_indexKey hb e he).trans_lt (h b hb))

/-- **A filter that says no** to the block the index leads to is right about the table: from the key
on there is no entry of its user key. -/
theorem no_version_of_filter {k : InternalKey K} {before after : List (DataBlock K V)}
    {b : DataBlock K V} (hblocks : t.blocks = before ++ b :: after)
    (hbefore : ∀ a ∈ before, a.indexKey < k) (hb : k ≤ b.indexKey)
    (hfilter : ¬ b.keyMayMatch k.userKey = true) :
    ∀ e ∈ t.table.seek k, e.key.userKey ≠ k.userKey := by
  have hmem : b ∈ t.blocks := by simp [hblocks]
  have hinside : ∀ e ∈ b.entries, e.key.userKey ≠ k.userKey := by
    intro e he heq
    exact hfilter (heq ▸ t.filter b hmem e he)
  intro e he heq
  rw [t.seek_eq hblocks hbefore hb] at he
  rcases List.mem_append.1 he with he | he
  · exact hinside e ((List.dropWhile_sublist _).subset he) heq
  · obtain ⟨hlt, hkeeps⟩ := t.indexKey_lt hblocks he
    have hle : b.indexKey.userKey ≤ k.userKey := heq ▸ userKey_le hlt.le
    have hindex : b.indexKey.userKey = k.userKey := le_antisymm hle (userKey_le hb)
    rcases hkeeps with ⟨last, hlast, hkey⟩ | huser
    · exact hinside last (List.mem_of_getLast? hlast) (hkey ▸ hindex)
    · exact absurd heq (hindex ▸ huser).ne'

end BlockTable

/-! ## What a lookup takes -/

/-- From more entries a lookup takes the same ones, and perhaps more. -/
theorem LookupState.take_prefix {xs ys : List (Entry K V)} (h : xs <+: ys) (st : LookupState K V) :
    (st.take xs).1 <+: (st.take ys).1 := by
  obtain ⟨rest, rfl⟩ := h
  induction xs generalizing st with
  | nil => exact List.nil_prefix
  | cons x xs ih =>
    simp only [List.cons_append, LookupState.take]
    obtain ⟨⟨settled, st1⟩, hadd⟩ : ∃ r, st.add x.key.type x.key.sequence x.value = r := ⟨_, rfl⟩
    rw [hadd]
    cases settled with
    | true => exact List.prefix_rfl
    | false => exact (List.prefix_cons_inj x).2 (ih st1)

theorem LookupState.take_subset (xs : List (Entry K V)) (st : LookupState K V) :
    ∀ e ∈ (st.take xs).1, e ∈ xs := by
  induction xs generalizing st with
  | nil => simp [LookupState.take]
  | cons x xs ih =>
    simp only [LookupState.take]
    obtain ⟨⟨settled, st1⟩, hadd⟩ : ∃ r, st.add x.key.type x.key.sequence x.value = r := ⟨_, rfl⟩
    rw [hadd]
    cases settled with
    | true => simp
    | false =>
      intro e he
      rcases List.mem_cons.1 he with rfl | he
      · exact List.mem_cons_self
      · exact List.mem_cons_of_mem x (ih st1 e he)

/-- A lookup that is fed entries through `SaveValue` takes those up to the first of another key. -/
theorem readBlock_saveValueRecorded {es : List (Entry K V)}
    (htypes : ∀ e ∈ es, e.key.type ≠ .rangeDeletion) (st : LookupState K V)
    (taken : List (Entry K V)) :
    (BlockTable.readBlock saveValueRecorded es (⟨st, false⟩, taken)).2 =
      (⟨(st.take (es.takeWhile fun e => e.key.userKey = st.userKey)).2, false⟩,
        taken ++ (st.take (es.takeWhile fun e => e.key.userKey = st.userKey)).1) := by
  induction es generalizing st taken with
  | nil => simp [BlockTable.readBlock, LookupState.take]
  | cons e es ih =>
    obtain ⟨htype, htypes⟩ := List.forall_mem_cons.1 htypes
    by_cases hkey : e.key.userKey = st.userKey
    · have huser := LookupState.add_userKey st e.key.type e.key.sequence e.value
      obtain ⟨⟨settled, st1⟩, hadd⟩ : ∃ r, st.add e.key.type e.key.sequence e.value = r := ⟨_, rfl⟩
      rw [hadd] at huser
      have hsave : saveValueRecorded (⟨st, false⟩, taken) e =
          (!settled, ⟨st1, false⟩, taken ++ [e]) := by
        simp [saveValueRecorded, saveValue, htype, hkey, hadd]
      rw [BlockTable.readBlock, hsave, List.takeWhile_cons_of_pos (by simpa using hkey),
        LookupState.take, hadd]
      cases settled with
      | true => rfl
      | false =>
        have hrest := ih htypes st1 (taken ++ [e])
        simp only at huser
        rw [huser] at hrest
        simpa using hrest
    · have hsave : saveValueRecorded (⟨st, false⟩, taken) e = (false, ⟨st, false⟩, taken) := by
        simp [saveValueRecorded, saveValue, htype, hkey]
      rw [BlockTable.readBlock, hsave, List.takeWhile_cons_of_neg (by simpa using hkey)]
      simp [LookupState.take]

/-! ## The lookup in a table -/

theorem takeWhile_prefix {α : Type} (p : α → Bool) (xs ys : List α) :
    xs.takeWhile p <+: (xs ++ ys).takeWhile p := by
  induction xs with
  | nil => exact List.nil_prefix
  | cons x xs ih =>
    rw [List.cons_append, List.takeWhile_cons, List.takeWhile_cons]
    split
    · exact (List.prefix_cons_inj x).2 ih
    · exact List.prefix_rfl

namespace BlockTable

section
variable {S T : Type} {handleResult : S → Entry K V → Bool × S}
  {handleResult' : T → Entry K V → Bool × T} (p : T → S)
  (hstep : ∀ s e, handleResult (p s) e = ((handleResult' s e).1, p (handleResult' s e).2))

include hstep

/-! A caller that only keeps a record beside what it does is answered the same. -/

omit [LinearOrder K] in
theorem readBlock_map (es : List (Entry K V)) (s : T) :
    readBlock handleResult es (p s) =
      ((readBlock handleResult' es s).1, p (readBlock handleResult' es s).2) := by
  induction es generalizing s with
  | nil => rfl
  | cons e es ih =>
    obtain ⟨⟨more, s1⟩, hresult⟩ : ∃ r, handleResult' s e = r := ⟨_, rfl⟩
    simp only [readBlock, hstep, hresult]
    cases more with
    | true => exact ih s1
    | false => rfl

omit [LinearOrder K] in
theorem readBlocks_map (bs : List (DataBlock K V)) (s : T) :
    readBlocks handleResult bs (p s) =
      ((readBlocks handleResult' bs s).1, p (readBlocks handleResult' bs s).2) := by
  induction bs generalizing s with
  | nil => rfl
  | cons b bs ih =>
    unfold readBlocks
    cases b.error with
    | some status => rfl
    | none =>
      obtain ⟨⟨more, s1⟩, hresult⟩ : ∃ r, readBlock handleResult' b.entries s = r := ⟨_, rfl⟩
      simp only [readBlock_map p hstep, hresult]
      cases more with
      | true => exact ih s1
      | false => rfl

theorem internalGet_map (t : BlockTable K V) (k : InternalKey K) (s : T) :
    t.internalGet handleResult k (p s) =
      ((t.internalGet handleResult' k s).1, p (t.internalGet handleResult' k s).2) := by
  unfold internalGet
  split
  · rfl
  · split
    · exact readBlocks_map p hstep _ s
    · rfl

end

/-- `SaveValue` does what it does with the record. -/
theorem readBlock_recorded (es : List (Entry K V)) (s : Saver K V × List (Entry K V)) :
    readBlock saveValue es s.1 = ((readBlock saveValueRecorded es s).1,
      (readBlock saveValueRecorded es s).2.1) :=
  readBlock_map (fun s : Saver K V × List (Entry K V) => s.1) (fun _ _ => rfl) es s

theorem internalGet_recorded (t : BlockTable K V) (k : InternalKey K)
    (s : Saver K V × List (Entry K V)) :
    t.internalGet saveValue k s.1 = ((t.internalGet saveValueRecorded k s).1,
      (t.internalGet saveValueRecorded k s).2.1) :=
  internalGet_map (fun s : Saver K V × List (Entry K V) => s.1) (fun _ _ => rfl) t k s

variable (t : BlockTable K V)

/-- The entries of a key up to a sequence number, in the order of the table. -/
def versions (k : K) (snapshot : Nat) : List (Entry K V) :=
  t.table.entries.filter fun e => Visible k snapshot e

theorem versions_newestFirst (k : K) (snapshot : Nat) :
    (t.versions k snapshot).Pairwise fun a b => b.key.sequence ≤ a.key.sequence := by
  refine (t.table.sorted.filter _).imp_of_mem fun {a b} ha hb hab => ?_
  have hka := (of_decide_eq_true (List.mem_filter.1 ha).2 : Visible k snapshot a).1
  have hkb := (of_decide_eq_true (List.mem_filter.1 hb).2 : Visible k snapshot b).1
  exact sequence_le hab (hka.trans hkb.symm)

/-- The block the index leads to is the first whose index key is at or after the key. -/
theorem exists_of_dropWhile {k : InternalKey K} {b : DataBlock K V} {after : List (DataBlock K V)}
    (h : (t.blocks.dropWhile fun b => b.indexKey < k) = b :: after) :
    ∃ before, t.blocks = before ++ b :: after ∧ (∀ a ∈ before, a.indexKey < k) ∧
      k ≤ b.indexKey := by
  refine ⟨t.blocks.takeWhile fun b => b.indexKey < k, ?_, fun a ha => ?_, ?_⟩
  · rw [← h, List.takeWhile_append_dropWhile]
  · have := List.mem_takeWhile_imp ha
    exact of_decide_eq_true this
  · have hhead := List.head_dropWhile_not (fun b : DataBlock K V => decide (b.indexKey < k))
      (show t.blocks.dropWhile _ ≠ [] by simp [h])
    simpa [h] using hhead

/-- What a lookup is passed of its versions, and the status: the versions as far as blocks were
read, and all that it takes if the status is ok. -/
def Passed (st : LookupState K V) (r : Nat) (got : Status × Saver K V × List (Entry K V)) : Prop :=
  ∃ read, got.2 = (⟨(st.take read).2, false⟩, (st.take read).1) ∧
    read <+: t.versions st.userKey r ∧
    (got.1 = .ok → st.take read = st.take (t.versions st.userKey r) ∧
      ∀ e ∈ read, ∃ b ∈ t.blocks, b.error = none ∧ e ∈ b.entries) ∧
    (got.1 ≠ .ok → ∃ b ∈ t.blocks, b.error ≠ none)

theorem versions_eq (k : K) (r : Nat) : t.versions k r =
    (t.table.seek (lookupKey k r)).takeWhile fun e => e.key.userKey = k :=
  (t.table.seek_visible k r).symm

/-- Where no entry from the key on is one of its user key, nothing needs to be passed. -/
theorem passed_nothing {st : LookupState K V} {r : Nat}
    (h : ∀ e ∈ t.table.seek (lookupKey st.userKey r), e.key.userKey ≠ st.userKey) :
    t.Passed st r (.ok, ⟨st, false⟩, []) := by
  have hempty : t.versions st.userKey r = [] := by
    rw [versions_eq]
    cases hseek : t.table.seek (lookupKey st.userKey r) with
    | nil => rfl
    | cons e es =>
      have hne := h e (by simp [hseek])
      exact List.takeWhile_cons_of_neg (by simpa using hne)
  exact ⟨[], rfl, List.nil_prefix, fun _ => ⟨by rw [hempty], by simp⟩, fun h => absurd rfl h⟩

/-- Blocks that hold the rest of the table from the key on pass what is needed. -/
theorem passed_readBlocks {st : LookupState K V} {r : Nat} {bs : List (DataBlock K V)}
    (hflat : bs.flatMap (·.entries) = t.table.seek (lookupKey st.userKey r))
    (hmem : ∀ a ∈ bs, ∃ a' ∈ t.blocks, a'.error = a.error ∧ ∀ e ∈ a.entries, e ∈ a'.entries) :
    t.Passed st r (readBlocks saveValueRecorded bs (⟨st, false⟩, [])) := by
  have htypes : ∀ as : List (DataBlock K V), (∀ a ∈ as, a ∈ bs) →
      ∀ e ∈ as.flatMap (·.entries), e.key.type ≠ .rangeDeletion := by
    intro as has e he
    obtain ⟨a, ha, he⟩ := List.mem_flatMap.1 he
    obtain ⟨a', ha', -, hsub⟩ := hmem a (has a ha)
    exact t.types a' ha' e (hsub e he)
  obtain ⟨read, rest, rfl, hok, hstate, hstop⟩ :=
    readBlocks_spec saveValueRecorded bs (⟨st, false⟩, [])
  have hread := readBlock_saveValueRecorded
    (htypes read fun a ha => List.mem_append_left rest ha) st []
  have hall := readBlock_saveValueRecorded (htypes (read ++ rest) fun a ha => ha) st []
  rw [hflat, ← versions_eq] at hall
  rw [List.nil_append] at hread hall
  refine ⟨_, hstate.trans hread, ?_, fun hstatus => ⟨?_, fun e he => ?_⟩, fun hstatus => ?_⟩
  · rw [versions_eq, ← hflat, List.flatMap_append]
    exact takeWhile_prefix _ _ _
  · rcases hstop with ⟨-, hstop⟩ | ⟨-, b, hb, herror⟩
    · by_cases hmore : (readBlock saveValueRecorded (read.flatMap (·.entries))
          (⟨st, false⟩, [])).1 = true
      · rw [versions_eq, ← hflat, hstop hmore, List.append_nil]
      · -- stopped by the lookup, it would have read no more of the rest
        have hsame := readBlock_append saveValueRecorded (read.flatMap (·.entries))
          (rest.flatMap (·.entries)) (⟨st, false⟩, [])
        rw [if_neg hmore, ← List.flatMap_append, hflat] at hsame
        rw [hsame, hread] at hall
        simp only [Prod.mk.injEq, Saver.mk.injEq, and_true] at hall
        exact Prod.ext hall.2 hall.1
    · obtain ⟨b', hb', herror', -⟩ := hmem b (List.mem_append_right read hb)
      rw [herror, hstatus] at herror'
      exact absurd herror' (t.error_ne b' hb')
  · obtain ⟨a, ha, he⟩ := List.mem_flatMap.1 ((List.takeWhile_sublist _).subset he)
    obtain ⟨a', ha', herror, hsub⟩ := hmem a (List.mem_append_left rest ha)
    exact ⟨a', ha', herror.trans (hok a ha), hsub e he⟩
  · rcases hstop with ⟨h, -⟩ | ⟨-, b, hb, herror⟩
    · exact absurd h hstatus
    · obtain ⟨b', hb', herror', -⟩ := hmem b (List.mem_append_right read hb)
      exact ⟨b', hb', by simp [herror', herror]⟩

/-- **What a lookup is passed** by `InternalGet`. -/
theorem passed_internalGet (st : LookupState K V) (r : Nat) :
    t.Passed st r
      (t.internalGet saveValueRecorded (lookupKey st.userKey r) (⟨st, false⟩, [])) := by
  unfold internalGet
  split
  · rename_i hdrop
    refine t.passed_nothing ?_
    rw [t.seek_eq_nil fun b hb => of_decide_eq_true (List.dropWhile_eq_nil_iff.1 hdrop b hb)]
    simp
  · rename_i b after hdrop
    obtain ⟨before, hblocks, hbefore, hb⟩ := t.exists_of_dropWhile hdrop
    split
    · apply t.passed_readBlocks
      · rw [t.seek_eq hblocks hbefore hb]
        rfl
      · intro a ha
        rcases List.mem_cons.1 ha with rfl | ha
        · exact ⟨b, by simp [hblocks], rfl, fun e he => (List.dropWhile_sublist _).subset he⟩
        · exact ⟨a, by simp [hblocks, ha], rfl, fun e he => he⟩
    · rename_i hfilter
      exact t.passed_nothing (t.no_version_of_filter hblocks hbefore hb hfilter)

/-- **A table feeds a lookup all it needs**: the versions of its key, newest first and no others,
until it is settled or they run out; fewer only with an error, which it is told whenever a block that
holds one of them cannot be read. The record of what is passed (`saveValueRecorded`) is beside what
`SaveValue` does. -/
theorem internalGet_feeds (st : LookupState K V) (r : Nat) :
    let versions := t.versions st.userKey r
    let got := t.internalGet saveValueRecorded (lookupKey st.userKey r) (⟨st, false⟩, [])
    t.internalGet saveValue (lookupKey st.userKey r) ⟨st, false⟩ = (got.1, got.2.1) ∧
      (versions.Pairwise fun a b => b.key.sequence ≤ a.key.sequence) ∧
      got.2.2 <+: (st.take versions).1 ∧
      (got.1 = .ok → got.2 = (⟨(st.take versions).2, false⟩, (st.take versions).1)) ∧
      ((∃ b ∈ t.blocks, b.error ≠ none ∧ ∃ e ∈ b.entries, e ∈ (st.take versions).1) →
        got.1 ≠ .ok) ∧
      ((∀ b ∈ t.blocks, b.error = none) → got.1 = .ok) := by
  intro versions got
  obtain ⟨read, hgot, hprefix, hok, herror⟩ := t.passed_internalGet st r
  refine ⟨?_, t.versions_newestFirst _ _, ?_, fun hstatus => ?_, ?_, fun hnone => ?_⟩
  · exact t.internalGet_recorded (lookupKey st.userKey r) (⟨st, false⟩, [])
  · show got.2.2 <+: _
    rw [hgot]
    exact LookupState.take_prefix hprefix st
  · show got.2 = _
    rw [hgot, (hok hstatus).1]
  · rintro ⟨b, hb, hunread, e, he, htaken⟩ hstatus
    obtain ⟨htake, hreadable⟩ := hok hstatus
    rw [← htake] at htaken
    obtain ⟨b', hb', hnone, he'⟩ := hreadable e (LookupState.take_subset read st e htaken)
    rw [t.block_unique hb hb' he he'] at hunread
    exact hunread hnone
  · by_contra hstatus
    obtain ⟨b, hb, hunread⟩ := herror hstatus
    exact hunread (hnone b hb)

theorem readBlock_eq_internalGet (es : List (Entry K V)) (s : Saver K V) :
    (readBlock saveValue es s).2 = LevelDb.internalGet es s := by
  induction es generalizing s with
  | nil => rfl
  | cons e es ih =>
    obtain ⟨⟨more, s1⟩, hresult⟩ : ∃ r, saveValue s e = r := ⟨_, rfl⟩
    simp only [readBlock, LevelDb.internalGet, hresult]
    cases more with
    | true => exact ih s1
    | false => rfl

/-- **A table that can be read** answers a lookup as its entries in one list do: `Version::Get` may
be modelled over them. -/
theorem internalGet_eq_seek (hnone : ∀ b ∈ t.blocks, b.error = none) (st : LookupState K V)
    (r : Nat) :
    t.internalGet saveValue (lookupKey st.userKey r) ⟨st, false⟩ =
      (.ok, LevelDb.internalGet (t.table.seek (lookupKey st.userKey r)) ⟨st, false⟩) := by
  obtain ⟨read, hgot, -, hok, herror⟩ := t.passed_internalGet st r
  have hstatus : (t.internalGet saveValueRecorded (lookupKey st.userKey r)
      (⟨st, false⟩, [])).1 = .ok := by
    by_contra hstatus
    obtain ⟨b, hb, hunread⟩ := herror hstatus
    exact hunread (hnone b hb)
  have htypes : ∀ e ∈ t.table.seek (lookupKey st.userKey r), e.key.type ≠ .rangeDeletion :=
    fun e he => t.table.types e ((List.dropWhile_sublist _).subset he)
  have hlist := readBlock_saveValueRecorded htypes st []
  rw [← versions_eq, ← (hok hstatus).1, List.nil_append, ← hgot] at hlist
  have hblocks := t.internalGet_recorded (lookupKey st.userKey r) (⟨st, false⟩, [])
  have hentries := readBlock_recorded (t.table.seek (lookupKey st.userKey r)) (⟨st, false⟩, [])
  rw [hlist] at hentries
  rw [hblocks, hstatus, ← readBlock_eq_internalGet, hentries]

/-- The operands of key 1 end the first block, and its base begins the last. -/
def sampleBlocks : BlockTable Nat Nat where
  blocks :=
    [⟨⟨1, 8, .merge⟩, [⟨⟨0, 3, .value⟩, 7⟩, ⟨⟨1, 9, .merge⟩, 10⟩, ⟨⟨1, 8, .merge⟩, 20⟩],
        fun k => k ≤ 1, none⟩,
      ⟨⟨3, kMaxSequenceNumber, kValueTypeForSeek⟩, [⟨⟨1, 4, .value⟩, 5⟩, ⟨⟨2, 6, .value⟩, 1⟩],
        fun k => k = 1 ∨ k = 2, none⟩]
  sorted := by decide
  types := by decide
  nonempty := by decide
  index_last := by simp [DataBlock.KeepsLast]
  index_next := by simp [DataBlock.KeepsLast]
  filter := by decide
  error_ne := by decide

def sampleLookup : LookupState Nat Nat := ⟨1, 8, some (.counter Nat), none, [], false, .ok, none⟩

/-- A read of key 1 goes on from the first block into the last. -/
theorem internalGet_feeds_sampleBlocks :
    (sampleBlocks.internalGet saveValue (lookupKey sampleLookup.userKey 8)
        ⟨sampleLookup, false⟩).1 = .ok ∧
      (sampleBlocks.internalGet saveValue (lookupKey sampleLookup.userKey 8)
        ⟨sampleLookup, false⟩).2.state.value = some 25 := by
  obtain ⟨hgot, -, -, htake, -, hstatus⟩ := sampleBlocks.internalGet_feeds sampleLookup 8
  have hok := hstatus (by decide)
  rw [hgot, htake hok]
  exact ⟨hok, by decide⟩

end BlockTable
end LevelDb
