import LevelDb.Proof.Layers
import LevelDb.Proof.Lookup

/-!
# A lookup in one memtable

`MemTable.versions` is what a lookup of a key finds in a memtable, newest first
(`MemTable.get_answer`). A record above all numbers of the memtable changes it in one of four ways:
an entry of the key comes before the others (`versions_add`), a tombstone over the key hides them all
(`versions_addRange`), and any other record leaves them (`versions_add_of_not_visible`,
`versions_addRange_of_not_covers`).
-/

namespace LevelDb

open Mvcc

variable {K V : Type} [LinearOrder K]

/-- What a lookup of the key finds there, newest first. -/
def MemTable.versions (m : MemTable K V) (k : K) (snapshot : Nat) : List (Op V) :=
  (m.table.entries.filter fun e => Visible k snapshot e).map (versionOp m.rangeDels snapshot)

theorem MemTable.covers_iff (m : MemTable K V) (k : K) (snapshot seq : Nat) :
    (RangeDelView.mk (some m) none none).covers k seq snapshot = true ↔
      Hidden m.rangeDels k snapshot seq := by
  have hsees : (RangeDelView.mk (some m) none none).Sees (m.getRangeTombstones 0 kLayerMem) :=
    ⟨[], by simp, .inr ⟨rfl, rfl⟩⟩
  rw [RangeDelView.covers, decide_eq_true_iff, RangeDelView.lt_maxCovering hsees]
  constructor
  · rintro ⟨_, ht, hc, hle, -, hlt⟩
    obtain ⟨t, hmem, rfl⟩ := List.mem_map.1 ht
    exact ⟨t, hmem, hc, hlt, hle⟩
  · rintro ⟨t, ht, hc, hlt, hle⟩
    exact ⟨_, List.mem_map_of_mem ht, hc, hle, (by decide : kLayerMem < kAllLayers), hlt⟩

/-- **A lookup that has only the memtable** answers what its versions read as. -/
theorem MemTable.get_answer (m : MemTable K V) (k : K) (snapshot : Nat)
    (mergeOp : Option (MergeOperator K V)) {st : LookupState K V}
    (h : st.For k snapshot mergeOp (some ⟨some m, none, none⟩)) (hdone : st.done = false)
    (hoperands : st.operands = []) :
    ((m.get k snapshot st).2.finish.status, (m.get k snapshot st).2.finish.value) =
      answer mergeOp (read (foldOf mergeOp k) (m.versions k snapshot)) := by
  have htypes : ∀ e ∈ m.table.seek (lookupKey k snapshot), e.key.type ≠ .rangeDeletion :=
    fun e he => m.table.types e (List.dropWhile_subset _ he)
  obtain ⟨hfor, -, hanswers⟩ := @MemTable.feed_spec K V _ k snapshot mergeOp
    (some ⟨some m, none, none⟩) m.rangeDels (m.covers_iff k snapshot) _ htypes st h hdone
  rw [Table.seek_visible] at hanswers
  rw [MemTable.get, LookupState.finish_answers hfor, hanswers, List.append_nil]
  simp [LookupState.answers, hdone, hoperands, h.mergeOp, h.userKey, Mvcc.read, versions]

/-- An entry that a reader does not see changes nothing for it. -/
theorem Table.filter_insert_of_not_visible (t : Table K V) {e : Entry K V}
    (he : e.key.type ≠ .rangeDeletion) {k : K} {snapshot : Nat} (h : ¬ Visible k snapshot e) :
    ((t.insert e he).entries.filter fun a => Visible k snapshot a) =
      t.entries.filter fun a => Visible k snapshot a := by
  show (t.entries.orderedInsert (fun a b => a.key ≤ b.key) e).filter _ = _
  rw [List.orderedInsert_eq_take_drop, List.filter_append,
    List.filter_cons_of_neg (by simpa using h), ← List.filter_append,
    List.takeWhile_append_dropWhile]

/-- The newest entry of a key is the first that a reader meets. -/
theorem Table.filter_insert_of_newest (t : Table K V) {e : Entry K V}
    (he : e.key.type ≠ .rangeDeletion) {snapshot : Nat} (hseq : e.key.sequence ≤ snapshot)
    (hnew : ∀ a ∈ t.entries, a.key.sequence < e.key.sequence) :
    ((t.insert e he).entries.filter fun a => Visible e.key.userKey snapshot a) =
      e :: t.entries.filter fun a => Visible e.key.userKey snapshot a := by
  have hbefore : ((t.entries.takeWhile fun b => !decide (e.key ≤ b.key)).filter fun a =>
      Visible e.key.userKey snapshot a) = [] := by
    apply List.filter_eq_nil_iff.2
    intro a ha hvis
    have hmem := List.takeWhile_subset _ ha
    have hlt : a.key < e.key := by
      have := List.mem_takeWhile_imp ha
      simpa using this
    have hle := sequence_le hlt.le (of_decide_eq_true hvis).1
    have := hnew a hmem
    omega
  have hsplit : (t.entries.filter fun a => Visible e.key.userKey snapshot a) =
      (t.entries.dropWhile fun b => !decide (e.key ≤ b.key)).filter fun a =>
        Visible e.key.userKey snapshot a := by
    conv_lhs => rw [← List.takeWhile_append_dropWhile (p := fun b => !decide (e.key ≤ b.key))
      (l := t.entries)]
    rw [List.filter_append, hbefore, List.nil_append]
  show (t.entries.orderedInsert (fun a b => a.key ≤ b.key) e).filter _ = _
  rw [List.orderedInsert_eq_take_drop, List.filter_append]
  simp only [decide_not] at hbefore hsplit ⊢
  have hvis : decide (Visible e.key.userKey snapshot e) = true := decide_eq_true ⟨rfl, hseq⟩
  rw [hbefore, List.nil_append, List.filter_cons, if_pos hvis, hsplit]

/-- A tombstone that a reader does not see hides nothing from it. -/
theorem hidden_append_of_lt (ts : List (RangeTombstone K)) {t : RangeTombstone K} {snapshot : Nat}
    (h : snapshot < t.seq) (k : K) (seq : Nat) :
    Hidden (ts ++ [t]) k snapshot seq ↔ Hidden ts k snapshot seq := by
  constructor
  · rintro ⟨u, hu, hc, hlt, hle⟩
    rcases List.mem_append.1 hu with hu | hu
    · exact ⟨u, hu, hc, hlt, hle⟩
    · obtain rfl := List.mem_singleton.1 hu
      omega
  · rintro ⟨u, hu, h⟩
    exact ⟨u, List.mem_append_left _ hu, h⟩

theorem hidden_congr {ts : List (RangeTombstone K)} {n snapshot : Nat} (h : ∀ t ∈ ts, t.seq ≤ n)
    (hle : n ≤ snapshot) (k : K) (seq : Nat) :
    Hidden ts k snapshot seq ↔ Hidden ts k n seq := by
  constructor
  · rintro ⟨t, ht, hc, hlt, -⟩
    exact ⟨t, ht, hc, hlt, h t ht⟩
  · rintro ⟨t, ht, hc, hlt, hn⟩
    exact ⟨t, ht, hc, hlt, hn.trans hle⟩

namespace MemTable

/-- Every number in the memtable is at most `n`. -/
structure UpTo (m : MemTable K V) (n : Nat) : Prop where
  entries : ∀ e ∈ m.table.entries, e.key.sequence ≤ n
  rangeDels : ∀ t ∈ m.rangeDels, t.seq ≤ n

theorem versions_congr {m m' : MemTable K V} {k : K} {snapshot snapshot' : Nat}
    (hentries : (m.table.entries.filter fun e => Visible k snapshot e) =
      m'.table.entries.filter fun e => Visible k snapshot' e)
    (hhidden : ∀ seq, Hidden m.rangeDels k snapshot seq ↔ Hidden m'.rangeDels k snapshot' seq) :
    m.versions k snapshot = m'.versions k snapshot' := by
  rw [versions, versions, hentries]
  apply List.map_congr_left
  intro e he
  have hvis : Visible k snapshot' e := of_decide_eq_true (List.mem_filter.1 he).2
  simp only [versionOp, hvis.1, hhidden]

/-- Readers at the last number and later see the same. -/
theorem UpTo.versions_eq {m : MemTable K V} {n snapshot : Nat} (h : m.UpTo n) (hle : n ≤ snapshot)
    (k : K) : m.versions k snapshot = m.versions k n := by
  refine versions_congr (List.filter_congr fun e he => ?_) (hidden_congr h.rangeDels hle k)
  have hseq := h.entries e he
  apply decide_eq_decide.2
  exact and_congr_right fun _ => iff_of_true (hseq.trans hle) hseq

/-! ### One more record -/

theorem versions_add_of_not_visible (m : MemTable K V) {e : Entry K V}
    (he : e.key.type ≠ .rangeDeletion) {k : K} {snapshot : Nat} (h : ¬ Visible k snapshot e) :
    (m.add e he).versions k snapshot = m.versions k snapshot :=
  versions_congr (m.table.filter_insert_of_not_visible he h) fun _ => Iff.rfl

/-- The newest entry comes before the versions that were there. -/
theorem versions_add {m : MemTable K V} {n : Nat} (h : m.UpTo n) {e : Entry K V}
    (he : e.key.type ≠ .rangeDeletion) (hseq : e.key.sequence = n + 1) :
    (m.add e he).versions e.key.userKey (n + 1) = e.op :: m.versions e.key.userKey n := by
  have hfilter := m.table.filter_insert_of_newest he hseq.le fun a ha => by
    have := h.entries a ha
    omega
  have hop : versionOp m.rangeDels (n + 1) e = e.op := by
    refine if_neg ?_
    rintro ⟨t, ht, -, hlt, -⟩
    have := h.rangeDels t ht
    omega
  rw [← h.versions_eq (Nat.le_succ n), versions]
  show ((m.table.insert e he).entries.filter fun a => Visible e.key.userKey (n + 1) a).map
    (versionOp m.rangeDels (n + 1)) = _
  rw [hfilter, List.map_cons, hop]
  rfl

theorem versions_addRange_of_lt (m : MemTable K V) (beginKey endKey k : K) {snapshot seq : Nat}
    (h : snapshot < seq) :
    (m.addRange beginKey endKey seq).versions k snapshot = m.versions k snapshot := by
  unfold addRange
  split
  · rfl
  · exact versions_congr rfl (hidden_append_of_lt m.rangeDels h k)

/-- Outside its range a tombstone changes nothing. -/
theorem versions_addRange_of_not_covers {m : MemTable K V} {n : Nat} (h : m.UpTo n)
    {beginKey endKey k : K} (hk : ¬ (beginKey ≤ k ∧ k < endKey)) :
    (m.addRange beginKey endKey (n + 1)).versions k (n + 1) = m.versions k n := by
  rw [← h.versions_eq (Nat.le_succ n)]
  unfold addRange
  split
  · rfl
  · refine versions_congr rfl fun seq => ⟨?_, ?_⟩
    · rintro ⟨t, ht, hc, hlt⟩
      rcases List.mem_append.1 ht with ht | ht
      · exact ⟨t, ht, hc, hlt⟩
      · obtain rfl := List.mem_singleton.1 ht
        exact absurd hc hk
    · rintro ⟨t, ht, hc⟩
      exact ⟨t, List.mem_append_left _ ht, hc⟩

/-- The newest tombstone hides all there is in its range. -/
theorem versions_addRange {m : MemTable K V} {n : Nat} (h : m.UpTo n) {beginKey endKey k : K}
    (hbegin : beginKey ≤ k) (hend : k < endKey) :
    ∀ op ∈ (m.addRange beginKey endKey (n + 1)).versions k (n + 1), op = .delete := by
  intro op hop
  rw [addRange, dif_neg (hbegin.trans_lt hend).not_ge] at hop
  obtain ⟨e, he, rfl⟩ := List.mem_map.1 hop
  rw [List.mem_filter, decide_eq_true_iff] at he
  have hseq := h.entries e he.1
  refine if_pos ⟨⟨beginKey, endKey, n + 1, 0⟩, List.mem_append_right _ (List.mem_singleton.2 rfl), ?_,
    Nat.lt_succ_of_le hseq, le_rfl⟩
  rw [he.2.1]
  exact ⟨hbegin, hend⟩

theorem UpTo.add {m : MemTable K V} {n : Nat} (h : m.UpTo n) {e : Entry K V}
    (he : e.key.type ≠ .rangeDeletion) (hseq : e.key.sequence = n + 1) :
    (m.add e he).UpTo (n + 1) := by
  refine ⟨fun a ha => ?_, fun t ht => (h.rangeDels t ht).trans (Nat.le_succ n)⟩
  rcases (List.mem_orderedInsert _).1 ha with rfl | ha
  · exact hseq.le
  · exact (h.entries a ha).trans (Nat.le_succ n)

theorem UpTo.addRange {m : MemTable K V} {n : Nat} (h : m.UpTo n) (beginKey endKey : K) :
    (m.addRange beginKey endKey (n + 1)).UpTo (n + 1) := by
  have hm : m.UpTo (n + 1) := ⟨fun a ha => (h.entries a ha).trans (Nat.le_succ n),
    fun t ht => (h.rangeDels t ht).trans (Nat.le_succ n)⟩
  unfold MemTable.addRange
  split
  · exact hm
  · refine ⟨hm.entries, fun t ht => ?_⟩
    rcases List.mem_append.1 ht with ht | ht
    · exact hm.rangeDels t ht
    · obtain rfl := List.mem_singleton.1 ht
      exact le_rfl

end MemTable

/-- Deletions alone read as nothing. -/
theorem read_deletes (fold : Option V → List V → Option V) {ops : List (Op V)}
    (h : ∀ op ∈ ops, op = .delete) : Mvcc.read fold ops = some none := by
  cases ops with
  | nil => rfl
  | cons op ops =>
    obtain rfl := h op List.mem_cons_self
    rfl

end LevelDb
