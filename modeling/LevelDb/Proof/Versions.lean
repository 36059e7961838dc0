import LevelDb.Db.History
import LevelDb.Proof.Levels

/-!
# The versions of a key, wherever they lie

Where no two entries of a key have one sequence number (`Layer.Distinct`), the versions of a key do
not depend on how its entries are spread over memtables and files (`Layer.versions_perm`). A record
newer than all else adds at most one version (`versions_addRecord`), and a memtable of records holds
what the records say one at a time (`ofRecords_entries`, `ofRecords_tombstones`).
-/

namespace LevelDb

open Mvcc

variable {K V : Type} [LinearOrder K]

/-! ## Layers that hold the same -/

namespace Layer

/-- The layers hold the same entries, and their tombstones hide the same. -/
structure Alike (l l' : Layer K V) : Prop where
  entries : l.entries.Perm l'.entries
  tombSeqs : ∀ k s, s ∈ l.tombSeqs k ↔ s ∈ l'.tombSeqs k

variable {l l' l'' : Layer K V} {k : K} {snapshot : Nat}

theorem Alike.symm (h : l.Alike l') : l'.Alike l :=
  ⟨h.entries.symm, fun k s => (h.tombSeqs k s).symm⟩

theorem Alike.trans (h : l.Alike l') (h' : l'.Alike l'') : l.Alike l'' :=
  ⟨h.entries.trans h'.entries, fun k s => (h.tombSeqs k s).trans (h'.tombSeqs k s)⟩

theorem Alike.seqsAt (h : l.Alike l') (k : K) (s : Nat) : s ∈ l.seqsAt k ↔ s ∈ l'.seqsAt k := by
  rw [Layer.seqsAt, Layer.seqsAt, List.mem_append, List.mem_append, h.tombSeqs k s]
  exact or_congr_left ((h.entries.filter _).map _).mem_iff

theorem hidden_congr (h : ∀ s, s ∈ l.tombSeqs k ↔ s ∈ l'.tombSeqs k) (seq : Nat) :
    Hidden l.tombstones k snapshot seq ↔ Hidden l'.tombstones k snapshot seq := by
  rw [hidden_iff, hidden_iff]
  simp only [h]

/-- **The layout does not matter**: a reader sees the same versions of a key. -/
theorem versions_alike (hd : l.Distinct) (h : l.Alike l') (k : K) (snapshot : Nat) :
    l.versions k snapshot = l'.versions k snapshot := by
  rw [versions, versions, hd.sorted_eq h.entries]
  refine List.map_congr_left fun e he => ?_
  rw [List.mem_insertionSort, List.mem_filter, decide_eq_true_iff] at he
  simp only [versionOp, he.2.1, hidden_congr (h.tombSeqs k)]

end Layer

/-! ## One record -/

/-- The tombstone a record adds to a memtable. -/
def Record.tombstone (seq : Nat) : Record K V → Option (RangeTombstone K)
  | .deleteRange b e => if e ≤ b then none else some ⟨b, e, seq, 0⟩
  | _ => none

theorem Record.tombstone_seq {r : Record K V} {seq : Nat} {t : RangeTombstone K}
    (ht : r.tombstone seq = some t) : t.seq = seq := by
  cases r with
  | deleteRange b e =>
    simp only [tombstone] at ht
    split at ht
    · cases ht
    · cases ht
      rfl
  | _ => cases ht

section
variable [Inhabited V]

/-- The entry a record puts into a memtable. -/
def Record.entry (seq : Nat) : Record K V → Option (Entry K V)
  | .put k v => some ⟨⟨k, seq, .value⟩, v⟩
  | .delete k => some ⟨⟨k, seq, .deletion⟩, default⟩
  | .merge k v => some ⟨⟨k, seq, .merge⟩, v⟩
  | .deleteRange _ _ => none

omit [LinearOrder K] in
theorem Record.entry_sequence {r : Record K V} {seq : Nat} {e : Entry K V}
    (he : r.entry seq = some e) : e.key.sequence = seq := by
  cases r <;> cases he <;> rfl

/-- What the records hold. -/
def Layer.ofRecords (records : List (Nat × Record K V)) : Layer K V :=
  ⟨records.filterMap fun r => r.2.entry r.1, records.filterMap fun r => r.2.tombstone r.1⟩

theorem MemTable.addRecord_spec (m : MemTable K V) (seq : Nat) (r : Record K V) :
    (m.addRecord seq r).table.entries.Perm (m.table.entries ++ (r.entry seq).toList) ∧
      (m.addRecord seq r).rangeDels = m.rangeDels ++ (r.tombstone seq).toList := by
  have hinsert : ∀ (e : Entry K V) (he : e.key.type ≠ .rangeDeletion),
      (m.table.insert e he).entries.Perm (m.table.entries ++ [e]) := fun e he =>
    (List.perm_orderedInsert _ e m.table.entries).trans (List.perm_append_singleton e _).symm
  cases r with
  | put k v => exact ⟨hinsert _ (by simp), (List.append_nil _).symm⟩
  | delete k => exact ⟨hinsert _ (by simp), (List.append_nil _).symm⟩
  | merge k v => exact ⟨hinsert _ (by simp), (List.append_nil _).symm⟩
  | deleteRange b e =>
    simp only [addRecord, addRange, Record.entry, Record.tombstone]
    split <;> simp

/-- **A memtable of records** holds what they say. -/
theorem ofRecords_alike (records : List (Nat × Record K V)) :
    (MemTable.ofRecords records).layer.Alike (.ofRecords records) := by
  have hfold : ∀ m : MemTable K V,
      (records.foldl (fun m r => m.addRecord r.1 r.2) m).table.entries.Perm
          (m.table.entries ++ (Layer.ofRecords records).entries) ∧
        (records.foldl (fun m r => m.addRecord r.1 r.2) m).rangeDels =
          m.rangeDels ++ (Layer.ofRecords records).tombstones := by
    induction records with
    | nil => simp [Layer.ofRecords]
    | cons r records ih =>
      intro m
      obtain ⟨h1, h2⟩ := ih (m.addRecord r.1 r.2)
      obtain ⟨h3, h4⟩ := m.addRecord_spec r.1 r.2
      constructor
      · refine h1.trans ((h3.append_right _).trans ?_)
        cases hr : r.2.entry r.1 <;> simp [Layer.ofRecords, hr]
      · rw [List.foldl_cons, h2, h4]
        cases hr : r.2.tombstone r.1 <;> simp [Layer.ofRecords, hr]
  obtain ⟨h1, h2⟩ := hfold .empty
  refine ⟨h1, fun k s => ?_⟩
  rw [Layer.mem_tombSeqs, Layer.mem_tombSeqs, MemTable.layer_tombstones, MemTable.ofRecords, h2]
  rfl

namespace Layer

/-- One more record. -/
def add (l : Layer K V) (seq : Nat) (r : Record K V) : Layer K V :=
  ⟨(r.entry seq).toList ++ l.entries, (r.tombstone seq).toList ++ l.tombstones⟩

variable {l : Layer K V} {k : K} {seq snapshot : Nat} {r : Record K V}

/-- A reader does not see what is newer than its snapshot. -/
theorem add_unseen (h : snapshot < seq) :
    (l.add seq r).versions k snapshot = l.versions k snapshot := by
  have hentries : ((l.add seq r).entries.filter fun e => Visible k snapshot e) =
      l.entries.filter fun e => Visible k snapshot e := by
    rw [add, List.filter_append, List.append_left_eq_self, List.filter_eq_nil_iff]
    intro e he hvis
    have hseq := Record.entry_sequence (Option.mem_toList.1 he)
    have := (of_decide_eq_true hvis).2
    omega
  have hhidden : ∀ q, Hidden (l.add seq r).tombstones k snapshot q ↔
      Hidden l.tombstones k snapshot q := by
    intro q
    constructor
    · intro hhid
      obtain ⟨t, ht, hcover, hlt, hle⟩ := hhid
      rcases List.mem_append.1 ht with ht | ht
      · have hseq := Record.tombstone_seq (Option.mem_toList.1 ht)
        omega
      · exact ⟨t, ht, hcover, hlt, hle⟩
    · intro hhid
      obtain ⟨t, ht, hcover⟩ := hhid
      exact ⟨t, List.mem_append_right _ ht, hcover⟩
  rw [versions, versions, hentries]
  refine List.map_congr_left fun e he => ?_
  rw [List.mem_insertionSort, List.mem_filter, decide_eq_true_iff] at he
  simp only [versionOp, he.2.1, hhidden]

omit [LinearOrder K] [Inhabited V] in
theorem orderedInsert_newest {es : List (Entry K V)} {e : Entry K V}
    (h : ∀ a ∈ es, a.key.sequence ≤ e.key.sequence) :
    es.orderedInsert (fun a b => b.key.sequence ≤ a.key.sequence) e = e :: es := by
  cases es with
  | nil => rfl
  | cons a es => exact List.orderedInsert_cons_of_le _ es (h a List.mem_cons_self)

/-- A record that is no entry of the key and covers it with no tombstone does nothing to it. -/
theorem versions_add_other
    (hentries : ((l.add seq r).entries.filter fun e => Visible k snapshot e) =
      l.entries.filter fun e => Visible k snapshot e)
    (htomb : ∀ s, s ∈ (l.add seq r).tombSeqs k ↔ s ∈ l.tombSeqs k) :
    (l.add seq r).versions k snapshot = l.versions k snapshot := by
  rw [versions, versions, hentries]
  refine List.map_congr_left fun e he => ?_
  rw [List.mem_insertionSort, List.mem_filter, decide_eq_true_iff] at he
  simp only [versionOp, he.2.1, hidden_congr htomb]

/-- A newest entry of the key comes first. -/
theorem versions_add_point {e : Entry K V} (h : seq ≤ snapshot) (hnew : ∀ s ∈ l.seqsAt k, s < seq)
    (he : r.entry seq = some e) (ht : r.tombstone seq = none) :
    (l.add seq r).versions k snapshot =
      (if e.key.userKey = k then [e.op] else []) ++ l.versions k snapshot := by
  have hseq := Record.entry_sequence he
  split
  · rename_i hk
    have hle : ∀ a ∈ (l.entries.filter fun a => Visible k snapshot a).insertionSort
        (fun a b => b.key.sequence ≤ a.key.sequence), a.key.sequence ≤ e.key.sequence := by
      intro a ha
      rw [List.mem_insertionSort, List.mem_filter, decide_eq_true_iff] at ha
      have := hnew _ (ha.2.1 ▸ seqsAt_of_entry ha.1)
      omega
    have hfilter : ((l.add seq r).entries.filter fun a => Visible k snapshot a) =
        e :: l.entries.filter fun a => Visible k snapshot a := by
      rw [add, he, Option.toList_some, List.singleton_append, List.filter_cons, if_pos]
      exact decide_eq_true ⟨hk, hseq.trans_le h⟩
    have hop : versionOp l.tombstones snapshot e = e.op := by
      refine if_neg fun hhid => ?_
      obtain ⟨s, hs, hlt, -⟩ := hidden_iff.1 hhid
      have := hnew s (hk ▸ seqsAt_of_tombSeqs hs)
      omega
    rw [versions, versions, hfilter, List.insertionSort_cons, orderedInsert_newest hle, List.map_cons, add,
      ht, Option.toList_none, List.nil_append, hop, List.singleton_append]
  · rename_i hk
    refine versions_add_other ?_ fun s => ?_
    · rw [add, he, Option.toList_some, List.singleton_append, List.filter_cons, if_neg]
      simpa using fun hvis : Visible k snapshot e => hk hvis.1
    · rw [add, tombSeqs, ht]
      rfl

/-- A range that does not hold the key adds no number over it. -/
theorem mem_tombSeqs_add_range {b e : K} (hk : ¬ (b ≤ k ∧ k < e)) (s : Nat) :
    s ∈ (l.add seq (.deleteRange b e)).tombSeqs k ↔ s ∈ l.tombSeqs k := by
  rw [mem_tombSeqs, mem_tombSeqs]
  constructor
  · intro hs
    obtain ⟨t, ht, hcover, hs⟩ := hs
    rcases List.mem_append.1 ht with ht | ht
    · simp only [Record.tombstone] at ht
      split at ht
      · cases ht
      · obtain rfl := List.mem_singleton.1 ht
        exact absurd hcover hk
    · exact ⟨t, ht, hcover, hs⟩
  · intro hs
    obtain ⟨t, ht, hcover⟩ := hs
    exact ⟨t, List.mem_append_right _ ht, hcover⟩

/-- **The newest record** does to a key what it says. -/
theorem add_seen (fold : Option V → List V → Option V) (h : seq ≤ snapshot)
    (hnew : ∀ s ∈ l.seqsAt k, s < seq) :
    SameBottom fold ((l.add seq r).versions k snapshot)
      ((r.opAt k).toList ++ l.versions k snapshot) := by
  cases r with
  | put k' v =>
    rw [versions_add_point h hnew rfl rfl, Record.opAt]
    split <;> exact .refl _
  | delete k' =>
    rw [versions_add_point h hnew rfl rfl, Record.opAt]
    split <;> exact .refl _
  | merge k' v =>
    rw [versions_add_point h hnew rfl rfl, Record.opAt]
    split <;> exact .refl _
  | deleteRange b e =>
    rw [Record.opAt]
    split
    · -- a tombstone over the key hides all there is
      rename_i hk
      refine (sameBottom_deletes fun op hop => ?_).trans (sameBottom_delete _).symm
      obtain ⟨a, ha, rfl⟩ := List.mem_map.1 hop
      rw [List.mem_insertionSort, List.mem_filter, decide_eq_true_iff] at ha
      obtain ⟨hin, hak, -⟩ := ha
      refine if_pos ⟨⟨b, e, seq, 0⟩, ?_, ?_, hnew _ ?_, h⟩
      · have hlt := hk.1.trans_lt hk.2
        simp [add, Record.tombstone, hlt]
      · rw [hak]
        exact hk
      · exact hak ▸ seqsAt_of_entry hin
    · rename_i hk
      have hsame : (l.add seq (.deleteRange b e)).versions k snapshot = l.versions k snapshot :=
        versions_add_other rfl (mem_tombSeqs_add_range hk)
      exact hsame ▸ .refl _

end Layer
end
end LevelDb
