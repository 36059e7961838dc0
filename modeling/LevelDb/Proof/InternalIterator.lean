import LevelDb.Db.InternalIterator
import LevelDb.Proof.Merges
import LevelDb.Proof.Get
import LevelDb.Proof.RangeDels
import LevelDb.Proof.Versions

/-!
# What an iterator runs over

The children of the merging iterator leave out, of the layers of a family, what a tombstone of a newer
layer hides: below the first layer where that happens to a key nothing of the key is left, and all that
is left out is deleted for the reader (`opsOf_split`). So the entries of a key that the internal
iterator yields read as all entries of the key do (`sameBottom_internal`).
-/

namespace LevelDb

open Mvcc

variable {K V : Type} [LinearOrder K]

namespace ColumnFamily

variable {cf : ColumnFamily K V} {k : K} {snapshot : Nat}

/-- An entry is skipped where a tombstone of a newer layer covers its key. -/
theorem skipped_iff (cf : ColumnFamily K V) (k : K) (snapshot layer : Nat) :
    (cf.rangeDels.bind fun v => v.coveredRange k snapshot layer).isNone = true ↔
      ¬ hiddenBelow cf.rangeDels k snapshot layer = true := by
  cases h : cf.rangeDels with
  | none => simp [hiddenBelow]
  | some v =>
    have hspec := (v.coveredRange_spec k snapshot layer).1
    rw [← Prod.exists (p := fun r => v.coveredRange k snapshot layer = some r)] at hspec
    rw [Option.bind_some, Option.isNone_iff_eq_none, hiddenBelow, Option.elim_some,
      decide_eq_true_iff, Nat.pos_iff_ne_zero, ← hspec]
    exact Option.eq_none_iff_forall_ne_some.trans not_exists.symm

theorem hiddenBelow_mono {layer layer' : Nat} (hle : layer ≤ layer')
    (h : hiddenBelow cf.rangeDels k snapshot layer = true) :
    hiddenBelow cf.rangeDels k snapshot layer' = true := by
  obtain ⟨t, ht, hc, hle', hlt, hpos⟩ := cf.lt_covering.1 (of_decide_eq_true h)
  exact decide_eq_true (cf.lt_covering.2 ⟨t, ht, hc, hle', hlt.trans_le hle, hpos⟩)

theorem not_hiddenBelow_zero : ¬ hiddenBelow cf.rangeDels k snapshot 0 = true := by
  intro h
  obtain ⟨t, -, -, -, hlt, -⟩ := cf.lt_covering.1 (of_decide_eq_true h)
  exact absurd hlt (Nat.not_lt_zero _)

/-- What a reader of the key sees of the children. -/
theorem children_visible (cf : ColumnFamily K V) (k : K) (snapshot : Nat) :
    ((cf.internalChildren snapshot).flatten.filter fun e => Visible k snapshot e) =
      cf.layers.zipIdx.flatMap fun p =>
        if hiddenBelow cf.rangeDels k snapshot p.2 = true then []
        else p.1.entries.filter fun e => Visible k snapshot e := by
  have hskip : ∀ p : Layer K V × Nat,
      ((skipping cf.rangeDels snapshot (p.1.entries, p.2)).filter fun e => Visible k snapshot e) =
        if hiddenBelow cf.rangeDels k snapshot p.2 = true then []
        else p.1.entries.filter fun e => Visible k snapshot e := by
    intro p
    rw [skipping, List.filter_filter]
    split
    · rename_i hhid
      refine List.filter_eq_nil_iff.2 fun e _ he => ?_
      rw [Bool.and_eq_true, decide_eq_true_iff] at he
      exact (cf.skipped_iff _ _ _).1 he.2 (he.1.1 ▸ hhid)
    · rename_i hhid
      refine List.filter_congr fun e _ => ?_
      rw [Bool.eq_iff_iff, Bool.and_eq_true, decide_eq_true_iff, and_iff_left_iff_imp]
      intro hvis
      exact (cf.skipped_iff _ _ _).2 (hvis.1 ▸ hhid)
  rw [flatten_internalChildren, List.filter_append, List.filter_flatMap]
  simp only [hskip]
  have hlayers : cf.layers.zipIdx = (cf.mem.layer, 0) :: cf.layers.tail.zipIdx 1 := rfl
  rw [hlayers, List.flatMap_cons, if_neg not_hiddenBelow_zero]
  rfl

/-- **Below a tombstone nothing is left**: the layers of the key that a reader goes through, and
below them versions that are all deleted. -/
theorem opsOf_split (h : cf.WellFormed) {n : Nat} {ls : List (Layer K V)} (hls : cf.layers.drop n = ls) :
    ∃ deleted : List (Op V), (∀ op ∈ deleted, op = .delete) ∧
      ls.flatMap (cf.opsOf k snapshot) = ((ls.zipIdx n).flatMap fun p =>
        if hiddenBelow cf.rangeDels k snapshot p.2 = true then []
        else cf.opsOf k snapshot p.1) ++ deleted := by
  induction ls generalizing n with
  | nil => exact ⟨[], by simp, rfl⟩
  | cons l ls ih =>
    by_cases hhid : hiddenBelow cf.rangeDels k snapshot n = true
    · -- all from here on is deleted
      have hnil : ((l :: ls).zipIdx n).flatMap (fun p =>
          if hiddenBelow cf.rangeDels k snapshot p.2 = true then [] else cf.opsOf k snapshot p.1) =
            [] := by
        refine List.flatMap_eq_nil_iff.2 fun p hp => if_pos ?_
        exact hiddenBelow_mono (List.mem_zipIdx (x := p.1) (i := p.2) hp).1 hhid
      refine ⟨_, fun op hop => ?_, by rw [hnil, List.nil_append]⟩
      obtain ⟨m, hm, hop⟩ := List.mem_flatMap.1 hop
      obtain ⟨e, he, rfl⟩ := List.mem_map.1 hop
      rw [List.mem_filter, decide_eq_true_iff] at he
      obtain ⟨i, hi⟩ := List.mem_iff_getElem?.1 hm
      rw [← hls, List.getElem?_drop] at hi
      exact hidden_of_covered h hhid (Nat.le_add_right n i) hi he.1 he.2
    · have hrest : cf.layers.drop (n + 1) = ls := by
        rw [← List.tail_drop, hls]
        rfl
      obtain ⟨deleted, hdeleted, heq⟩ := ih hrest
      refine ⟨deleted, hdeleted, ?_⟩
      rw [List.flatMap_cons, heq, List.zipIdx_cons, List.flatMap_cons, if_neg hhid,
        List.append_assoc]

/-- What the view of an iterator stands for. -/
theorem tagged_tombSeqs (h : cf.WellFormed) (k : K) (s : Nat) :
    s ∈ (Layer.mk (K := K) (V := V) [] cf.tagged).tombSeqs k ↔ s ∈ cf.contents.tombSeqs k := by
  rw [Layer.mem_tombSeqs, Layer.mem_tombSeqs]
  constructor
  · intro hs
    obtain ⟨t, ht, hc, hs⟩ := hs
    obtain ⟨l, hl, u, hu, heq⟩ := mem_tagged h.numbers ht
    rw [heq] at hc hs
    exact ⟨u, List.mem_flatMap.2 ⟨l, List.mem_of_getElem? hl, hu⟩, hc, hs⟩
  · intro hs
    obtain ⟨t, ht, hc, hs⟩ := hs
    obtain ⟨layer, hin, -⟩ := tagged_of_mem ht
    exact ⟨_, hin, hc, hs⟩

/-- What the children yield is a part of what there is. -/
theorem flatten_sublist (cf : ColumnFamily K V) (snapshot : Nat) :
    (cf.internalChildren snapshot).flatten.Sublist cf.contents.entries := by
  have hparts : ∀ ps : List (Layer K V × Nat),
      (ps.flatMap fun p => skipping cf.rangeDels snapshot (p.1.entries, p.2)).Sublist
        (ps.flatMap fun p => p.1.entries) := by
    intro ps
    induction ps with
    | nil => exact .refl _
    | cons p ps ih => exact List.filter_sublist.append ih
  have hall : (cf.layers.tail.zipIdx 1).flatMap (fun p => p.1.entries) =
      cf.layers.tail.flatMap (·.entries) := by
    conv_rhs => rw [← List.zipIdx_map_fst 1 cf.layers.tail]
    rw [List.flatMap_map]
  rw [flatten_internalChildren]
  exact (hall ▸ hparts _).append_left _

/-- **What the internal iterator yields of a key** reads as all there is of it. -/
theorem sameBottom_internal (h : cf.WellFormed) (hdistinct : cf.contents.Distinct) (k : K)
    (snapshot : Nat) :
    SameBottom (foldOf cf.mergeOp k)
      ((Layer.mk (cf.newIterator snapshot).internal.entries cf.tagged).versions k snapshot)
      (cf.contents.versions k snapshot) := by
  have hchildren : (Layer.mk (cf.internalChildren snapshot).flatten cf.contents.tombstones).Distinct :=
    hdistinct.sublist (flatten_sublist cf snapshot)
  have halike : (Layer.mk (cf.internalChildren snapshot).flatten cf.contents.tombstones).Alike
      (Layer.mk (cf.newIterator snapshot).internal.entries cf.tagged) :=
    ⟨(List.perm_insertionSort _ _).symm, fun k s => (tagged_tombSeqs h k s).symm⟩
  have hsplit : ((cf.internalChildren snapshot).flatten.filter fun e => Visible k snapshot e).Sublist
      (cf.layers.flatMap fun l => l.entries.filter fun e => Visible k snapshot e) := by
    have := (flatten_sublist cf snapshot).filter fun e => decide (Visible k snapshot e)
    rwa [contents, Layer.concat, List.filter_flatMap] at this
  obtain ⟨deleted, hdeleted, hops⟩ := @opsOf_split _ _ _ cf k snapshot h 0 _ List.drop_zero
  rw [← Layer.versions_alike hchildren halike, versions_eq_opsOf h, hops, Layer.versions,
    ((visible_sorted h k snapshot).sublist hsplit).insertionSort_eq, children_visible,
    List.map_flatMap]
  have hshown : ∀ p : Layer K V × Nat,
      ((if hiddenBelow cf.rangeDels k snapshot p.2 = true then []
        else p.1.entries.filter fun e => Visible k snapshot e).map
          (versionOp cf.contents.tombstones snapshot)) =
        if hiddenBelow cf.rangeDels k snapshot p.2 = true then [] else cf.opsOf k snapshot p.1 := by
    intro p
    split <;> rfl
  simp only [hshown]
  generalize (cf.layers.zipIdx.flatMap fun p =>
    if hiddenBelow cf.rangeDels k snapshot p.2 = true then [] else cf.opsOf k snapshot p.1) = shown
  have hbottom : SameBottom (foldOf cf.mergeOp k) (shown ++ []) (shown ++ deleted) :=
    (sameBottom_deletes hdeleted).symm.append_left shown
  rwa [List.append_nil] at hbottom

/-- The view of an iterator is that of the tombstones of the family, and it can merge what a reader
of all there is can. -/
theorem newIterator_merges (h : cf.WellFormed) (hdistinct : cf.contents.Distinct) {snapshot : Nat}
    (hreads : ∀ k, (read (foldOf cf.mergeOp k) (cf.contents.versions k snapshot)).isSome = true) :
    DBIter.Merges (cf.newIterator snapshot) cf.tagged where
  view := by
    obtain ⟨hsome, hnone⟩ := cf.rangeDels_spec
    change cf.rangeDels = none ∧ _ ∨ ∃ v, cf.rangeDels = some v ∧ _
    cases hview : cf.rangeDels with
    | none => exact .inl ⟨rfl, hnone hview⟩
    | some v => exact .inr ⟨v, rfl, hsome v hview⟩
  layers t ht := by
    obtain ⟨l, hl, -⟩ := mem_tagged h.numbers ht
    have hlength : cf.layers.length = 2 + (cf.current.files 0).length + (kNumLevels - 1) := by
      simp [layers, Version.layers, Version.newestFirst]
      omega
    have hlt := (List.getElem?_eq_some_iff.1 hl).1
    have hfew := h.few
    unfold kFirstTableLayer kNumLevels at *
    omega
  merges k := by
    have hsame := sameBottom_internal h hdistinct k snapshot []
    rw [List.nil_append, List.nil_append] at hsame
    exact hsame ▸ hreads k

end ColumnFamily

/-! ## What readers are given -/

/-- The family gives a reader at this sequence number what the history says. -/
structure ColumnFamily.Serves (cf : ColumnFamily K V) (history : List (Nat × Record K V))
    (snapshot : Nat) : Prop where
  formed : cf.WellFormed
  distinct : cf.contents.Distinct
  lt : snapshot < kMaxSequenceNumber
  same : ∀ k, read (foldOf cf.mergeOp k) (cf.contents.versions k snapshot) =
    read (foldOf cf.mergeOp k) (opsAt history k snapshot)

theorem mapAt_sorted (mergeOp : Option (MergeOperator K V)) (history : List (Nat × Record K V))
    (snapshot : Nat) : (mapAt mergeOp history snapshot).Pairwise fun p q => p.1 < q.1 := by
  have hle := List.pairwise_insertionSort (· ≤ ·) (history.filterMap fun r => r.2.key).dedup
  have hne : ((history.filterMap fun r => r.2.key).dedup.insertionSort (· ≤ ·)).Nodup :=
    (List.perm_insertionSort _ _).nodup_iff.2 (List.nodup_dedup _)
  rw [mapAt, List.pairwise_filterMap]
  refine (hle.and hne).imp fun {a b} hab p hp q hq => ?_
  obtain ⟨v, -, rfl⟩ := Option.map_eq_some_iff.1 hp
  obtain ⟨w, -, rfl⟩ := Option.map_eq_some_iff.1 hq
  exact lt_of_le_of_ne hab.1 hab.2

/-- A key is in the map when its records make a value. -/
theorem mem_mapAt {mergeOp : Option (MergeOperator K V)} {history : List (Nat × Record K V)}
    {snapshot : Nat} {k : K} {v : V} : (k, v) ∈ mapAt mergeOp history snapshot ↔
      read (foldOf mergeOp k) (opsAt history k snapshot) = some (some v) := by
  simp only [mapAt, List.mem_filterMap, List.mem_insertionSort, List.mem_dedup,
    Option.map_eq_some_iff, Prod.mk.injEq, Option.join_eq_some_iff]
  constructor
  · intro h
    obtain ⟨k', -, v', hread, rfl, rfl⟩ := h
    exact hread
  · intro hread
    refine ⟨k, ?_, v, hread, rfl, rfl⟩
    -- with tombstones only, nothing is there
    by_contra hno
    have hdeleted : ∀ op ∈ opsAt history k snapshot, op = .delete := by
      intro op hop
      obtain ⟨r, hr, hop⟩ := List.mem_filterMap.1 (List.mem_reverse.1 hop)
      have hin := (List.mem_filter.1 hr).1
      obtain ⟨seq, record⟩ := r
      cases record with
      | put _ _ | delete _ | merge _ _ =>
        simp only [Record.opAt] at hop
        split at hop
        · rename_i heq
          exact absurd ⟨_, hin, congrArg some heq⟩ hno
        · cases hop
      | deleteRange b e =>
        simp only [Record.opAt] at hop
        split at hop
        · exact (Option.some.inj hop).symm
        · cases hop
    have hbottom : SameBottom (foldOf mergeOp k) (opsAt history k snapshot) [] :=
      sameBottom_deletes hdeleted
    have hnone := hbottom []
    rw [List.nil_append, hread] at hnone
    cases hnone

namespace ColumnFamily.Serves

variable {cf : ColumnFamily K V} {history : List (Nat × Record K V)} {snapshot : Nat}

theorem get_eq (h : cf.Serves history snapshot) (k : K) :
    cf.get k snapshot = answerAt cf.mergeOp history k snapshot := by
  -- the memtable, then what is left
  have hnext : ∀ st : LookupState K V, st.For k snapshot cf.mergeOp cf.rangeDels →
      st.done = false → cf.getImm k snapshot st =
        st.answers (cf.layers.tail.flatMap (cf.opsOf k snapshot)) :=
    fun st => getImm_spec h.formed h.lt
  have hfor : (⟨k, snapshot, cf.mergeOp, cf.rangeDels, [], false, .ok, none⟩ :
      LookupState K V).For k snapshot cf.mergeOp cf.rangeDels := ⟨rfl, rfl, rfl, rfl, fun _ => rfl⟩
  rw [answerAt, ← h.same, versions_eq_opsOf h.formed]
  exact memGet_spec h.formed cf.mem hfor rfl hnext

variable (hmerges : ∀ k, (read (foldOf cf.mergeOp k) (opsAt history k snapshot)).isSome = true)
include hmerges

theorem iterator_merges (h : cf.Serves history snapshot) :
    DBIter.Merges (cf.newIterator snapshot) cf.tagged :=
  newIterator_merges h.formed h.distinct fun k => h.same k ▸ hmerges k

/-- **The map an iterator goes over** is that of the history. -/
theorem contents_eq_newest (h : cf.Serves history snapshot) :
    (cf.newIterator snapshot).contents cf.tagged = mapAt cf.mergeOp history snapshot := by
  have hiter := h.iterator_merges hmerges
  have hmem : ∀ p, p ∈ (cf.newIterator snapshot).contents cf.tagged ↔
      p ∈ mapAt cf.mergeOp history snapshot := by
    intro p
    obtain ⟨k, v⟩ := p
    have hsame := sameBottom_internal h.formed h.distinct k snapshot []
    rw [List.nil_append, List.nil_append] at hsame
    rw [hiter.mem_contents, mem_mapAt, ← h.same k, ← hsame]
    rfl
  have hleft := DBIter.contents_sorted (cf.newIterator snapshot) cf.tagged
  have hright := mapAt_sorted cf.mergeOp history snapshot
  have hperm := (List.perm_ext_iff_of_nodup (hleft.imp fun hlt heq => absurd (heq ▸ hlt) (lt_irrefl _))
    (hright.imp fun hlt heq => absurd (heq ▸ hlt) (lt_irrefl _))).2 hmem
  exact hperm.eq_of_pairwise (fun a b _ _ hab hba => absurd hab (lt_asymm hba)) hleft hright

/-- **The iterator is a cursor** over the map of the history. -/
theorem run_walk [Inhabited K] [Inhabited V] [Infinite V] (h : cf.Serves history snapshot)
    (calls : List (IterCall K)) :
    ((DBIter.system (cf.newIterator snapshot)).run .new calls).map (fun it => (it.shown, it.status)) =
      ((walk (mapAt cf.mergeOp history snapshot)).run none calls).map
        fun c => (c.map (·.here), .ok) := by
  rw [← h.contents_eq_newest hmerges]
  exact DBIter.run_shown_of_merges (h.iterator_merges hmerges) calls

end ColumnFamily.Serves
end LevelDb
