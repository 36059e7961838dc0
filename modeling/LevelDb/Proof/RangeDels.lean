import LevelDb.Db.MemTable
import LevelDb.Proof.Blocks

/-!
# Tombstones under every structure that holds them

A read sees the tombstones through a memtable's fragment map, through an index over a version's
files, or through a view of both. `RangeDelMap.map_answers` and `RangeDelView.index_answers` say that
each answers as the bare list of tombstones does, and that a range it gives out is covered throughout
by the same tombstones: no tombstone begins or ends inside a fragment. So a flush, which moves a
memtable's tombstones from one structure to the other by way of a block of the table file, changes
no answer (`MemTable.flush_keeps`).
-/

namespace LevelDb

open Fragments

variable {K V : Type} [LinearOrder K]

/-! ## The map -/

namespace RangeDelMap

/-- The loop ends, after at most two rounds a fragment, with the fragments `addFrom` gives. -/
theorem addLoop_eq (seq : Nat) (stop : K) (rest : List (Frag K (List Nat))) :
    ∀ (rounds : Nat) (pos : K), 2 * rest.length + 2 ≤ rounds →
      addLoop seq stop rounds pos rest = some (addFrom seq stop pos rest) := by
  have hdone : ∀ (rounds : Nat) (it : List (Frag K (List Nat))), 0 < rounds →
      addLoop seq stop rounds stop it = some it := by
    intro rounds it hr
    obtain ⟨n, rfl⟩ : ∃ n, rounds = n + 1 := ⟨rounds - 1, by omega⟩
    unfold addLoop
    rw [if_neg (lt_irrefl _)]
  induction rest with
  | nil =>
    intro rounds pos hr
    obtain ⟨n, rfl⟩ : ∃ n, rounds = n + 1 := ⟨rounds - 1, by omega⟩
    have hn : 0 < n := by simp at hr; omega
    unfold addLoop addFrom
    split
    · rw [hdone n [] hn]
      rfl
    · rfl
  | cons f fs ih =>
    -- a round at the fragment itself
    have hat : ∀ n : Nat, 2 * fs.length + 2 ≤ n →
        (if stop < f.hi then
          (addLoop seq stop n stop ({ f with lo := stop } :: fs)).map
            (⟨f.lo, stop, insertSeq seq f.data⟩ :: ·)
        else (addLoop seq stop n f.hi fs).map ({ f with data := insertSeq seq f.data } :: ·)) =
          some (addAt seq stop f fs (addFrom seq stop f.hi fs)) := by
      intro n hn
      unfold addAt
      split
      · rw [hdone n _ (by omega)]
        rfl
      · rw [ih n f.hi hn]
        rfl
    intro rounds pos hr
    obtain ⟨n, rfl⟩ : ∃ n, rounds = n + 2 := ⟨rounds - 2, by omega⟩
    simp only [List.length_cons] at hr
    rw [addLoop, addFrom]
    split
    · split
      · dsimp only
        split
        · -- a gap, then the fragment
          rename_i hin
          rw [addLoop, if_pos hin]
          dsimp only
          rw [if_neg (lt_irrefl _), hat n (by omega)]
          rfl
        · rw [hdone (n + 1) _ (by omega)]
          rfl
      · exact hat (n + 1) (by omega)
    · rfl

/-- Splitting keeps the bounds. -/
theorem bound_split {frags : List (Frag K (List Nat))} {c : K} (pos : K) (hc : Bound frags c) :
    Bound (split pos frags) c := by
  have hparts := List.takeWhile_append_dropWhile (p := fun f => decide (f.lo ≤ pos)) (l := frags)
  unfold split
  cases hlast : (frags.takeWhile fun f => decide (f.lo ≤ pos)).getLast? with
  | none => simpa only [hlast] using hc
  | some prev =>
    obtain ⟨init, hinit⟩ := List.getLast?_eq_some_iff.1 hlast
    simp only [hlast]
    split
    · rw [← hparts, hinit, bound_append, bound_append, bound_cons] at hc
      rw [hinit, List.dropLast_concat, bound_append, bound_cons, bound_cons]
      dsimp only
      rcases hc with (hc | hc | hc | hc) | hc
      · exact .inl hc
      · exact .inr (.inl hc)
      · exact .inr (.inr (.inr (.inr (.inl hc))))
      · obtain ⟨f, hf, -⟩ := hc
        cases hf
      · exact .inr (.inr (.inr (.inr (.inr hc))))
    · exact hc

/-- The loop keeps the bounds, and makes bounds of the two ends of its range. -/
theorem bound_addFrom (seq : Nat) (stop : K) {rest : List (Frag K (List Nat))} {pos : K}
    (hpos : ∀ f ∈ rest, pos ≤ f.lo) (ho : Ordered rest) {c : K}
    (hc : Bound rest c ∨ pos < stop ∧ (c = pos ∨ c = stop)) :
    Bound (addFrom seq stop pos rest) c := by
  induction rest generalizing pos with
  | nil =>
    unfold addFrom
    rcases hc with ⟨f, hf, -⟩ | ⟨hlt, hc⟩
    · cases hf
    · rw [if_pos hlt, bound_cons]
      rcases hc with rfl | rfl
      · exact .inl rfl
      · exact .inr (.inl rfl)
  | cons f fs ih =>
    obtain ⟨hf, hfs, hofs⟩ := ordered_cons.1 ho
    -- the round at the fragment
    have hat : f.lo < stop → Bound (f :: fs) c ∨ c = stop →
        Bound (addAt seq stop f fs (addFrom seq stop f.hi fs)) c := by
      intro hlt hc
      unfold addAt
      split
      · rw [bound_cons, bound_cons]
        dsimp only
        rcases hc with hc | rfl
        · rcases bound_cons.1 hc with hc | hc | hc
          · exact .inl hc
          · exact .inr (.inr (.inr (.inl hc)))
          · exact .inr (.inr (.inr (.inr hc)))
        · exact .inr (.inl rfl)
      · rename_i hs
        rw [bound_cons]
        dsimp only
        rcases hc with hc | rfl
        · rcases bound_cons.1 hc with hc | hc | hc
          · exact .inl hc
          · exact .inr (.inl hc)
          · exact .inr (.inr (ih hfs hofs (.inl hc)))
        · rcases (not_lt.1 hs).eq_or_lt with heq | hlt'
          · exact .inr (.inl heq)
          · exact .inr (.inr (ih hfs hofs (.inr ⟨hlt', .inr rfl⟩)))
    unfold addFrom
    by_cases hlt : pos < stop
    · rw [if_pos hlt]
      have hc : Bound (f :: fs) c ∨ c = pos ∨ c = stop := hc.imp_right And.right
      split
      · split
        · rename_i hin
          rw [bound_cons]
          dsimp only
          rcases hc with hc | rfl | hc
          · exact .inr (.inr (hat hin (.inl hc)))
          · exact .inl rfl
          · exact .inr (.inr (hat hin (.inr hc)))
        · rw [bound_cons]
          dsimp only
          rcases hc with hc | rfl | rfl
          · exact .inr (.inr hc)
          · exact .inl rfl
          · exact .inr (.inl rfl)
      · rename_i hgap
        have heq : f.lo = pos := le_antisymm (not_lt.1 hgap) (hpos f (by simp))
        rcases hc with hc | rfl | hc
        · exact hat (heq ▸ hlt) (.inl hc)
        · exact hat (heq ▸ hlt) (.inl (bound_cons.2 (.inl heq)))
        · exact hat (heq ▸ hlt) (.inr hc)
    · rw [if_neg hlt]
      rcases hc with hc | hc
      · exact hc
      · exact absurd hc.1 hlt

/-- **`Add`** keeps the bounds, and makes bounds of the tombstone's begin and end. -/
theorem bound_addFrags {frags : List (Frag K (List Nat))} (ho : Ordered frags)
    (beginKey endKey : K) (seq : Nat) {c : K}
    (hc : Bound frags c ∨ beginKey < endKey ∧ (c = beginKey ∨ c = endKey)) :
    Bound (addFrags frags beginKey endKey seq) c := by
  unfold addFrags
  split
  · rename_i hle
    rcases hc with hc | hc
    · exact hc
    · exact absurd hc.1 (not_lt.2 hle)
  · have hparts := List.takeWhile_append_dropWhile
      (p := fun f => decide (f.lo < beginKey)) (l := split beginKey frags)
    have hos := (split_spec ho beginKey).1
    have hrest : ∀ f ∈ (split beginKey frags).dropWhile fun f => decide (f.lo < beginKey),
        beginKey ≤ f.lo := fun f hf => hos.le_lo_of_mem_dropWhile hf
    have hor : Ordered ((split beginKey frags).dropWhile fun f => decide (f.lo < beginKey)) := by
      rw [← hparts] at hos
      exact (ordered_append.1 hos).2.1
    rw [bound_append]
    rcases hc with hc | hc
    · have hs := bound_split beginKey hc
      rw [← hparts, bound_append] at hs
      exact hs.imp_right fun h => bound_addFrom seq endKey hrest hor (.inl h)
    · exact .inr (bound_addFrom seq endKey hrest hor (.inr hc))

/-- Every tombstone added begins and ends at bounds of fragments. -/
theorem bound_foldl (ts : List (RangeTombstone K)) (m : RangeDelMap K) {c : K}
    (hc : Bound m.frags c ∨ ∃ t ∈ ts, t.beginKey < t.endKey ∧ (c = t.beginKey ∨ c = t.endKey)) :
    Bound (ts.foldl (fun m t => m.add t.beginKey t.endKey t.seq) m).frags c := by
  induction ts generalizing m with
  | nil =>
    rcases hc with hc | ⟨t, ht, -⟩
    · exact hc
    · cases ht
  | cons t ts ih =>
    apply ih
    rcases hc with hc | ⟨u, hu, hc⟩
    · exact .inl (bound_addFrags m.ordered _ _ _ (.inl hc))
    · rcases List.mem_cons.1 hu with rfl | hu
      · exact .inl (bound_addFrags m.ordered _ _ _ (.inr hc))
      · exact .inr ⟨u, hu, hc⟩

theorem mem_of_find {m : RangeDelMap K} {k : K} {f : Frag K (List Nat)} (h : m.find k = some f) :
    f ∈ m.frags ∧ f.Has k := by
  unfold find at h
  rw [lastLe_eq m.ordered] at h
  exact ⟨List.mem_of_find?_eq_some h, by simpa using List.find?_some h⟩

/-- The keys of one fragment are covered by the same tombstones. -/
theorem covers_iff {ts : List (RangeTombstone K)} {f : Frag K (List Nat)}
    (hf : f ∈ (ofTombstones ts).frags) {k k' : K} (hk : f.Has k) (hk' : f.Has k')
    {t : RangeTombstone K} (ht : t ∈ ts) : t.Covers k ↔ t.Covers k' := by
  by_cases hlt : t.beginKey < t.endKey
  · have hclear : ∀ c, c = t.beginKey ∨ c = t.endKey → Clear (ofTombstones ts).frags c :=
      fun c hc => (ofTombstones ts).ordered.clear (bound_foldl ts empty (.inr ⟨t, ht, hlt, hc⟩))
    have hb := (hclear _ (.inl rfl)).le_iff hf hk hk'
    have he := (hclear _ (.inr rfl)).le_iff hf hk hk'
    simp only [RangeTombstone.Covers, hb, ← not_le, he]
  · exact iff_of_false (fun h => hlt (h.1.trans_lt h.2)) (fun h => hlt (h.1.trans_lt h.2))

/-- `Add` comes back, with the fragments of `add`. -/
theorem addWithin_eq (frags : List (Frag K (List Nat))) (beginKey endKey : K) (seq : Nat) :
    ∃ rounds, addWithin rounds frags beginKey endKey seq =
      some (addFrags frags beginKey endKey seq) := by
  refine ⟨2 * ((split beginKey frags).dropWhile fun f => decide (f.lo < beginKey)).length + 2, ?_⟩
  unfold addWithin addFrags
  split
  · rfl
  · dsimp only
    rw [addLoop_eq _ _ _ _ _ le_rfl]
    rfl

/-- **`CoveredRange`** finds a range exactly when something visible covers the key. -/
theorem coveredRange_isSome (m : RangeDelMap K) (k : K) (snapshot : Nat) :
    (∃ b e, m.coveredRange k snapshot = some (b, e)) ↔ m.maxCovering k snapshot ≠ 0 := by
  unfold coveredRange maxCovering
  cases m.find k with
  | none => simp
  | some f =>
    dsimp only [Option.elim_some]
    split
    · rename_i h
      simp [h]
    · rename_i h
      simp [h]

theorem find_of_coveredRange {m : RangeDelMap K} {k b e : K} {snapshot : Nat}
    (h : m.coveredRange k snapshot = some (b, e)) :
    ∃ f ∈ m.frags, f.Has k ∧ f.lo = b ∧ f.hi = e := by
  unfold coveredRange at h
  split at h
  · rename_i f hfind
    split at h
    · cases h
    · cases h
      exact ⟨f, (mem_of_find hfind).1, (mem_of_find hfind).2, rfl, rfl⟩
  · cases h

/-- The keys of a range given out are covered up to the same number. -/
theorem maxCovering_of_coveredRange {m : RangeDelMap K} {k b e : K} {snapshot : Nat}
    (h : m.coveredRange k snapshot = some (b, e)) {k' : K} (hb : b ≤ k') (he : k' < e) :
    m.maxCovering k' snapshot = m.maxCovering k snapshot := by
  obtain ⟨f, hf, hk, rfl, rfl⟩ := find_of_coveredRange h
  have hfind : ∀ {k : K}, f.Has k → m.find k = some f := fun hk => by
    rw [find, lastLe_eq m.ordered, m.ordered.find?_eq hf hk]
  rw [maxCovering, maxCovering, hfind hk, hfind ⟨hb, he⟩]

/-- **The incremental fragment map is exact.** `Add` comes back; the fragments are not empty, in
order, and each has its numbers downwards; `MaxCovering` and `CoveredRange` answer as the
tombstones added do. -/
theorem map_answers (ts : List (RangeTombstone K)) :
    (∀ beginKey endKey seq, ∃ rounds,
      addWithin rounds (ofTombstones ts).frags beginKey endKey seq =
        some ((ofTombstones ts).add beginKey endKey seq).frags) ∧
    Ordered (ofTombstones ts).frags ∧
    (∀ f ∈ (ofTombstones ts).frags, f.data.Pairwise (· ≥ ·)) ∧
    ∀ (k : K) (snapshot : Nat),
      (ofTombstones ts).maxCovering k snapshot =
        maxSeq ((ts.filter fun t => t.Covers k ∧ t.seq ≤ snapshot).map (·.seq)) ∧
      ((∃ b e, (ofTombstones ts).coveredRange k snapshot = some (b, e)) ↔
        (ofTombstones ts).maxCovering k snapshot ≠ 0) ∧
      ∀ b e, (ofTombstones ts).coveredRange k snapshot = some (b, e) →
        (b ≤ k ∧ k < e) ∧
          ∀ k', b ≤ k' → k' < e → ∀ t ∈ ts, t.Covers k' ↔ t.Covers k := by
  refine ⟨fun b e seq => addWithin_eq _ b e seq, (ofTombstones ts).ordered, fun f hf => ?_,
    fun k snapshot => ⟨maxCovering_ofTombstones ts k snapshot, coveredRange_isSome _ k snapshot,
      fun b e h => ?_⟩⟩
  · -- the numbers of a fragment are those at its first key
    have hlo : f.Has f.lo := ⟨le_rfl, (ofTombstones ts).ordered.nonempty f hf⟩
    have hdata : seqsAt (ofTombstones ts).frags f.lo = f.data := by
      rw [seqsAt, (ofTombstones ts).ordered.at?_eq hf hlo]
      rfl
    rw [← hdata]
    exact (seqsAt_foldl ts empty f.lo (by simp [seqsAt, empty])).1
  · obtain ⟨f, hf, hk, rfl, rfl⟩ := find_of_coveredRange h
    exact ⟨hk, fun k' hb he t ht => covers_iff hf ⟨hb, he⟩ hk ht⟩

end RangeDelMap
/-! ## The index -/

namespace RangeDelIndex

theorem le_lo_sweep {cuts : List K} {lo : K} (hcuts : (lo :: cuts).Pairwise (· < ·))
    (pending active : List (RangeTombstone K)) {f : Frag K (List (Nat × Nat))}
    (hf : f ∈ sweep (lo :: cuts) pending active) : lo ≤ f.lo := by
  induction cuts generalizing lo pending active with
  | nil => cases hf
  | cons hi cuts ih =>
    rw [List.pairwise_cons] at hcuts
    have hlohi : lo ≤ hi := (hcuts.1 hi (by simp)).le
    rw [sweep] at hf
    split at hf
    · exact hlohi.trans (ih hcuts.2 _ _ hf)
    · rcases List.mem_cons.1 hf with rfl | hf
      · exact le_rfl
      · exact hlohi.trans (ih hcuts.2 _ _ hf)

/-- The fragments lie between the cuts. -/
theorem clear_sweep {cuts : List K} (hcuts : cuts.Pairwise (· < ·))
    (pending active : List (RangeTombstone K)) {c : K} (hc : c ∈ cuts) :
    Clear (sweep cuts pending active) c := by
  induction cuts generalizing pending active with
  | nil => cases hc
  | cons lo cuts ih =>
    cases cuts with
    | nil =>
      intro f hf
      cases hf
    | cons hi cuts =>
      rw [List.pairwise_cons] at hcuts
      obtain ⟨hlo, hcuts⟩ := hcuts
      -- the fragment that starts at `lo` ends at the next cut
      have hhead : ∀ seqs : List (Nat × Nat), hi ≤ c ∨ c ≤ (⟨lo, hi, seqs⟩ : Frag K _).lo := by
        intro seqs
        rcases List.mem_cons.1 hc with rfl | hc
        · exact .inr le_rfl
        · rcases List.mem_cons.1 hc with rfl | hc
          · exact .inl le_rfl
          · exact .inl ((List.pairwise_cons.1 hcuts).1 c hc).le
      have hrest : ∀ pending active, Clear (sweep (hi :: cuts) pending active) c := by
        intro pending active
        rcases List.mem_cons.1 hc with rfl | hc
        · exact fun f hf => .inr ((hlo hi (by simp)).le.trans (le_lo_sweep hcuts _ _ hf))
        · exact ih hcuts pending active hc
      rw [sweep]
      split
      · exact hrest _ _
      · intro f hf
        rcases List.mem_cons.1 hf with rfl | hf
        · exact hhead _
        · exact hrest _ _ f hf

theorem mem_of_find {ix : RangeDelIndex K} {k : K} {f : Frag K (List (Nat × Nat))}
    (h : ix.find k = some f) : f ∈ ix.fragments ∧ f.Has k := by
  rw [find_eq] at h
  exact ⟨List.mem_of_find?_eq_some h, by simpa using List.find?_some h⟩

/-- The keys of one fragment are covered by the same tombstones. -/
theorem covers_iff {ts : List (RangeTombstone K)} {f : Frag K (List (Nat × Nat))}
    (hf : f ∈ (ofTombstones ts).fragments) {k k' : K} (hk : f.Has k) (hk' : f.Has k')
    {t : RangeTombstone K} (ht : t ∈ ts) : t.Covers k ↔ t.Covers k' := by
  by_cases hlt : t.beginKey < t.endKey
  · have hcut := mem_cuts (@List.mem_filter _ (fun t => decide (t.beginKey < t.endKey)) _ _ |>.2
      ⟨ht, decide_eq_true hlt⟩)
    have hclear : ∀ c, c ∈ cuts (ts.filter fun t => t.beginKey < t.endKey) →
        Clear (ofTombstones ts).fragments c :=
      fun c hc => clear_sweep (cuts_sorted _) _ _ hc
    have hb := (hclear _ hcut.1).le_iff hf hk hk'
    have he := (hclear _ hcut.2).le_iff hf hk hk'
    simp only [RangeTombstone.Covers, hb, ← not_le, he]
  · exact iff_of_false (fun h => hlt (h.1.trans_lt h.2)) (fun h => hlt (h.1.trans_lt h.2))

/-- **`CoveredRange`** finds a range exactly when something visible covers the key. -/
theorem coveredRange_isSome (ix : RangeDelIndex K) (k : K) (snapshot belowLayer : Nat) :
    (∃ b e, ix.coveredRange k snapshot belowLayer = some (b, e)) ↔
      ix.maxCovering k snapshot belowLayer ≠ 0 := by
  unfold coveredRange maxCovering
  cases ix.find k with
  | none => simp
  | some f =>
    dsimp only [Option.elim_some]
    split
    · rename_i h
      simp [h]
    · rename_i h
      simp [h]

theorem find_of_coveredRange {ix : RangeDelIndex K} {k b e : K} {snapshot belowLayer : Nat}
    (h : ix.coveredRange k snapshot belowLayer = some (b, e)) :
    ∃ f ∈ ix.fragments, f.Has k ∧ f.lo = b ∧ f.hi = e := by
  unfold coveredRange at h
  split at h
  · rename_i f hfind
    split at h
    · cases h
    · cases h
      exact ⟨f, (mem_of_find hfind).1, (mem_of_find hfind).2, rfl, rfl⟩
  · cases h

/-- The keys of a range given out are covered up to the same number. -/
theorem maxCovering_of_coveredRange {ix : RangeDelIndex K} {k b e : K} {snapshot belowLayer : Nat}
    (h : ix.coveredRange k snapshot belowLayer = some (b, e)) {k' : K} (hb : b ≤ k') (he : k' < e) :
    ix.maxCovering k' snapshot belowLayer = ix.maxCovering k snapshot belowLayer := by
  obtain ⟨f, hf, hk, rfl, rfl⟩ := find_of_coveredRange h
  have hfind : ∀ {k : K}, f.Has k → ix.find k = some f := fun hk => by
    rw [find_eq, ix.ordered.find?_eq hf hk]
  rw [maxCovering, maxCovering, hfind hk, hfind ⟨hb, he⟩]

/-- **The index is exact** about the range, in whatever order the tombstones came. -/
theorem coveredRange_ofTombstones {ts : List (RangeTombstone K)} {k b e : K}
    {snapshot belowLayer : Nat}
    (h : (ofTombstones ts).coveredRange k snapshot belowLayer = some (b, e)) :
    (b ≤ k ∧ k < e) ∧ ∀ k', b ≤ k' → k' < e → ∀ t ∈ ts, t.Covers k' ↔ t.Covers k := by
  obtain ⟨f, hf, hk, rfl, rfl⟩ := find_of_coveredRange h
  exact ⟨hk, fun k' hb he t ht => covers_iff hf ⟨hb, he⟩ hk ht⟩

end RangeDelIndex
/-! ## The view -/

namespace RangeDelView

/-- **`MaxCovering`** is the largest number at or below the snapshot among all the tombstones of
layers below `belowLayer` that cover the key. -/
theorem maxCovering_eq {v : RangeDelView K V} {ts : List (RangeTombstone K)} (hv : v.Sees ts)
    (k : K) (snapshot belowLayer : Nat) :
    v.maxCovering k snapshot belowLayer =
      maxSeq ((ts.filter fun t => t.Covers k ∧ t.seq ≤ snapshot ∧ t.layer < belowLayer).map
        (·.seq)) := by
  apply eq_of_forall_lt_iff
  intro s
  rw [lt_maxCovering hv, lt_maxSeq]
  constructor
  · intro ⟨t, ht, hc, hle, hl, hlt⟩
    exact ⟨t.seq, List.mem_map.2 ⟨t, List.mem_filter.2 ⟨ht, decide_eq_true ⟨hc, hle, hl⟩⟩, rfl⟩,
      hlt⟩
  · intro ⟨s', hs', hlt⟩
    obtain ⟨t, ht, rfl⟩ := List.mem_map.1 hs'
    rw [List.mem_filter, decide_eq_true_iff] at ht
    exact ⟨t, ht.1, ht.2.1, ht.2.2.1, ht.2.2.2, hlt⟩

theorem memCoveredRange_isSome (m : Option (MemTable K V)) (layer : Nat) (k : K)
    (snapshot belowLayer : Nat) :
    (∃ r, memCoveredRange m layer k snapshot belowLayer = some r) ↔
      memCovering m layer k snapshot belowLayer ≠ 0 := by
  cases m with
  | none => simp [memCoveredRange, memCovering]
  | some m =>
    simp only [memCoveredRange, memCovering]
    split
    · rw [Prod.exists]
      exact RangeDelMap.coveredRange_isSome m.rangeDelMap k snapshot
    · simp

theorem memCovering_of_memCoveredRange {m : Option (MemTable K V)} {layer : Nat} {k b e : K}
    {snapshot belowLayer : Nat}
    (h : memCoveredRange m layer k snapshot belowLayer = some (b, e)) :
    (b ≤ k ∧ k < e) ∧ ∀ k', b ≤ k' → k' < e →
      memCovering m layer k' snapshot belowLayer = memCovering m layer k snapshot belowLayer := by
  cases m with
  | none => cases h
  | some m =>
    simp only [memCoveredRange] at h
    split at h
    · rename_i hin
      obtain ⟨f, hf, hk, rfl, rfl⟩ := RangeDelMap.find_of_coveredRange h
      refine ⟨hk, fun k' hb he => ?_⟩
      simp only [memCovering, if_pos hin]
      exact RangeDelMap.maxCovering_of_coveredRange h hb he
    · cases h

/-- **`CoveredRange`** gives a range exactly when something visible of those layers covers the
key; it has the key, and something visible covers every other key in it. -/
theorem coveredRange_spec (v : RangeDelView K V) (k : K) (snapshot belowLayer : Nat) :
    ((∃ b e, v.coveredRange k snapshot belowLayer = some (b, e)) ↔
      v.maxCovering k snapshot belowLayer ≠ 0) ∧
    ∀ b e, v.coveredRange k snapshot belowLayer = some (b, e) →
      (b ≤ k ∧ k < e) ∧ ∀ k', b ≤ k' → k' < e → v.maxCovering k' snapshot belowLayer ≠ 0 := by
  have hmem := memCoveredRange_isSome v.mem kLayerMem k snapshot belowLayer
  have himm := memCoveredRange_isSome v.imm kLayerImm k snapshot belowLayer
  have htab : (∃ r, (v.tables.bind fun ix => ix.coveredRange k snapshot belowLayer) = some r) ↔
      (v.tables.elim 0 fun ix => ix.maxCovering k snapshot belowLayer) ≠ 0 := by
    cases v.tables with
    | none => simp
    | some ix =>
      rw [Prod.exists]
      exact RangeDelIndex.coveredRange_isSome ix k snapshot belowLayer
  constructor
  · rw [← Prod.exists (p := fun r => v.coveredRange k snapshot belowLayer = some r)]
    unfold coveredRange maxCovering
    cases hm : memCoveredRange v.mem kLayerMem k snapshot belowLayer with
    | some r => simp [← hmem, hm]
    | none =>
      cases hi : memCoveredRange v.imm kLayerImm k snapshot belowLayer with
      | some r => simp [← himm, hi]
      | none =>
        have hm0 : memCovering v.mem kLayerMem k snapshot belowLayer = 0 := by
          simpa [hm] using hmem
        have hi0 : memCovering v.imm kLayerImm k snapshot belowLayer = 0 := by
          simpa [hi] using himm
        rw [hm0, hi0, Option.none_or, Option.none_or, Nat.max_self, Nat.zero_max]
        exact htab
  · intro b e h
    unfold coveredRange at h
    unfold maxCovering
    cases hm : memCoveredRange v.mem kLayerMem k snapshot belowLayer with
    | some r =>
      rw [hm] at h
      cases h
      obtain ⟨hk, hall⟩ := memCovering_of_memCoveredRange hm
      refine ⟨hk, fun k' hb he => ?_⟩
      have := hall k' hb he
      have := hmem.1 ⟨_, hm⟩
      omega
    | none =>
      rw [hm, Option.none_or] at h
      cases hi : memCoveredRange v.imm kLayerImm k snapshot belowLayer with
      | some r =>
        rw [hi] at h
        cases h
        obtain ⟨hk, hall⟩ := memCovering_of_memCoveredRange hi
        refine ⟨hk, fun k' hb he => ?_⟩
        have := hall k' hb he
        have := himm.1 ⟨_, hi⟩
        omega
      | none =>
        rw [hi, Option.none_or] at h
        cases ht : v.tables with
        | none =>
          rw [ht] at h
          cases h
        | some ix =>
          rw [ht, Option.bind_some] at h
          obtain ⟨f, hf, hk, rfl, rfl⟩ := RangeDelIndex.find_of_coveredRange h
          refine ⟨hk, fun k' hb he => ?_⟩
          have h1 := RangeDelIndex.maxCovering_of_coveredRange h hb he
          have h2 := (RangeDelIndex.coveredRange_isSome ix k snapshot belowLayer).1 ⟨_, _, h⟩
          rw [Option.elim_some, h1]
          omega

end RangeDelView
/-! ## A flush -/

/-- A memtable with this many copies of `[b, e)@5`. -/
def repeatedMemTable {b e : K} (h : b < e) (n : Nat) : MemTable K V where
  table := .empty
  rangeDels := List.replicate n ⟨b, e, 5, 0⟩
  ranges := fun t ht => by
    rw [List.eq_of_mem_replicate ht]
    exact h
  rangeDelMap := .ofTombstones (List.replicate n ⟨b, e, 5, 0⟩)
  map_eq := rfl

theorem maxCovering_repeatedMemTable {b e : K} (h : b < e) {n : Nat} (hn : 0 < n) :
    (repeatedMemTable h n : MemTable K V).maxCoveringRangeDel b 5 = 5 := by
  have hcovers : (⟨b, e, 5, 0⟩ : RangeTombstone K).Covers b := ⟨le_rfl, h⟩
  rw [MemTable.maxCoveringRangeDel, MemTable.map_eq, RangeDelMap.maxCovering_ofTombstones]
  show maxSeq (((List.replicate n _).filter _).map _) = 5
  rw [List.filter_replicate, if_pos (decide_eq_true ⟨hcovers, le_rfl⟩), List.map_replicate]
  refine eq_of_forall_lt_iff fun s => ?_
  simp [lt_maxSeq, hn.ne']

section
open Coding Sstable

variable [LinearOrder Bytes]

/-- A memtable whose tombstones fit into a block: the sizes and numbers that are stored do. -/
def MemTable.Fits (m : MemTable Bytes V) : Prop :=
  (∀ t ∈ m.rangeDels, TombstoneFits t) ∧ m.rangeDels.length < 2 ^ 32

/-- The block of a memtable's tombstones is read back. -/
theorem MemTable.decode_getRangeTombstones {m : MemTable Bytes V} (hm : m.Fits) (layer : Nat) :
    decodeRangeTombstones (encodeRangeTombstones (m.getRangeTombstones 0 layer)) =
      .ok (m.rangeDels.map stored) := by
  rw [getRangeTombstones, List.drop_zero, decode_encodeRangeTombstones, List.map_map]
  · rfl
  · intro t ht
    obtain ⟨u, hu, rfl⟩ := List.mem_map.1 ht
    exact hm.1 u hu
  · rw [List.length_map]
    exact hm.2

/-- The numbers of tombstones that cover a key do not change when all get one layer. -/
theorem RangeDelIndex.maxCovering_layered (ts : List (RangeTombstone Bytes)) {layer belowLayer : Nat}
    (hlt : layer < belowLayer) (k : Bytes) (snapshot : Nat) :
    (ofTombstones (ts.map fun t => { stored t with layer })).maxCovering k snapshot belowLayer =
      (RangeDelMap.ofTombstones ts).maxCovering k snapshot := by
  rw [maxCovering_ofTombstones, RangeDelMap.maxCovering_ofTombstones, List.filter_map, List.map_map]
  congr 2
  refine List.filter_congr fun t _ => ?_
  exact decide_eq_decide.2 ⟨fun h => ⟨h.1, h.2.1⟩, fun h => ⟨h.1, h.2, hlt⟩⟩

/-- **A flush keeps every answer**: the index over the tombstones of the block answers as the
memtable's map did. -/
theorem MemTable.flush_keeps {m : MemTable Bytes V} (hm : m.Fits) (layer : Nat) :
    ∃ ts, decodeRangeTombstones (encodeRangeTombstones (m.getRangeTombstones 0 layer)) = .ok ts ∧
      ∀ tableLayer belowLayer, tableLayer < belowLayer → ∀ k snapshot,
        (RangeDelIndex.ofTombstones (ts.map fun t => { t with layer := tableLayer })).maxCovering
          k snapshot belowLayer = m.maxCoveringRangeDel k snapshot := by
  refine ⟨_, m.decode_getRangeTombstones hm layer, fun tableLayer belowLayer hlt k snapshot => ?_⟩
  rw [MemTable.maxCoveringRangeDel, m.map_eq, List.map_map]
  exact RangeDelIndex.maxCovering_layered m.rangeDels hlt k snapshot

/-- **The table index** answers as the bare tombstones do; as long as a memtable's tombstones fit
into a block, it answers as the memtable did before the flush; and the view over memtables and
tables answers as the union of their tombstones does. -/
theorem RangeDelView.index_answers :
    (∀ (ts : List (RangeTombstone K)) (k : K) (snapshot belowLayer : Nat),
      (RangeDelIndex.ofTombstones ts).maxCovering k snapshot belowLayer =
        maxSeq ((ts.filter fun t => t.Covers k ∧ t.seq ≤ snapshot ∧ t.layer < belowLayer).map
          (·.seq)) ∧
      ((∃ b e, (RangeDelIndex.ofTombstones ts).coveredRange k snapshot belowLayer = some (b, e)) ↔
        (RangeDelIndex.ofTombstones ts).maxCovering k snapshot belowLayer ≠ 0) ∧
      ∀ b e, (RangeDelIndex.ofTombstones ts).coveredRange k snapshot belowLayer = some (b, e) →
        (b ≤ k ∧ k < e) ∧ ∀ k', b ≤ k' → k' < e → ∀ t ∈ ts, t.Covers k' ↔ t.Covers k) ∧
    (∀ (m : MemTable Bytes V), m.Fits → ∀ layer, ∃ ts,
      decodeRangeTombstones (encodeRangeTombstones (m.getRangeTombstones 0 layer)) = .ok ts ∧
      ∀ tableLayer belowLayer, tableLayer < belowLayer → ∀ k snapshot,
        (RangeDelIndex.ofTombstones (ts.map fun t => { t with layer := tableLayer })).maxCovering
          k snapshot belowLayer = m.maxCoveringRangeDel k snapshot) ∧
    ∀ (v : RangeDelView K V) (ts : List (RangeTombstone K)), v.Sees ts →
      ∀ (k : K) (snapshot belowLayer : Nat),
        v.maxCovering k snapshot belowLayer =
          maxSeq ((ts.filter fun t => t.Covers k ∧ t.seq ≤ snapshot ∧ t.layer < belowLayer).map
            (·.seq)) ∧
        ((∃ b e, v.coveredRange k snapshot belowLayer = some (b, e)) ↔
          v.maxCovering k snapshot belowLayer ≠ 0) ∧
        ∀ b e, v.coveredRange k snapshot belowLayer = some (b, e) →
          (b ≤ k ∧ k < e) ∧ ∀ k', b ≤ k' → k' < e → v.maxCovering k' snapshot belowLayer ≠ 0 := by
  refine ⟨fun ts k snapshot belowLayer =>
      ⟨RangeDelIndex.maxCovering_ofTombstones ts k snapshot belowLayer,
        RangeDelIndex.coveredRange_isSome _ k snapshot belowLayer,
        fun b e h => RangeDelIndex.coveredRange_ofTombstones h⟩,
    fun m hm layer => m.flush_keeps hm layer, fun v ts hv k snapshot belowLayer => ?_⟩
  obtain ⟨hsome, hrange⟩ := coveredRange_spec v k snapshot belowLayer
  exact ⟨maxCovering_eq hv k snapshot belowLayer, hsome, hrange⟩

/-- The count of a block is stored in 32 bits. -/
theorem MemTable.decode_of_length {m : MemTable Bytes V} (hm : m.rangeDels.length % 2 ^ 32 = 0)
    (layer : Nat) :
    decodeRangeTombstones (encodeRangeTombstones (m.getRangeTombstones 0 layer)) = .ok [] := by
  have hlength : (m.getRangeTombstones 0 layer).length = m.rangeDels.length := by
    simp [MemTable.getRangeTombstones]
  have hread := @reads_getVarint32 0 (by decide)
    ((m.getRangeTombstones 0 layer).flatMap putTombstone)
  rw [decodeRangeTombstones, encodeRangeTombstones, hlength, hm, decodeRangeTombstonesInto, hread]
  rfl

end

theorem bytewise_lt : bytewise.lt [97] [99] := by decide

/-- A memtable over byte strings with this many copies of `["a", "c")@5`. -/
def sampleMemTable (n : Nat) : @MemTable Coding.Bytes Unit bytewise :=
  @repeatedMemTable _ _ bytewise _ _ bytewise_lt n

/-- Two tombstones fit into the block. -/
theorem index_answers_sampleMemTable :
    ∃ ts, Sstable.decodeRangeTombstones (Sstable.encodeRangeTombstones
        (@MemTable.getRangeTombstones _ _ bytewise (sampleMemTable 2) 0 kLayerImm)) = .ok ts ∧
      @RangeDelIndex.maxCovering _ bytewise (@RangeDelIndex.ofTombstones _ bytewise
        (ts.map fun t => { t with layer := 2 })) [97] 5 kAllLayers = 5 := by
  let order := bytewise
  have hfits : ∀ t ∈ (sampleMemTable 2).rangeDels, Sstable.TombstoneFits t := by
    intro t ht
    rw [List.eq_of_mem_replicate ht]
    exact ⟨by decide, by decide, by decide⟩
  obtain ⟨ts, hts, hall⟩ := (@RangeDelView.index_answers Nat Unit _ bytewise).2.1
    (sampleMemTable 2) ⟨hfits, by decide⟩ kLayerImm
  exact ⟨ts, hts, (hall 2 kAllLayers (by decide) [97] 5).trans
    (@maxCovering_repeatedMemTable _ _ bytewise _ _ bytewise_lt 2 (by decide))⟩

theorem overfull_sampleMemTable {n : Nat} (hn : 0 < n) (hmod : n % 2 ^ 32 = 0) :
    @MemTable.maxCoveringRangeDel _ _ bytewise (sampleMemTable n) [97] 5 = 5 ∧
    ∃ ts, Sstable.decodeRangeTombstones (Sstable.encodeRangeTombstones
        (@MemTable.getRangeTombstones _ _ bytewise (sampleMemTable n) 0 kLayerImm)) = .ok ts ∧
      @RangeDelIndex.maxCovering _ bytewise (@RangeDelIndex.ofTombstones _ bytewise
        (ts.map fun t => { t with layer := 2 })) [97] 5 kAllLayers = 0 := by
  have hlength : (@MemTable.rangeDels _ _ bytewise (sampleMemTable n)).length % 2 ^ 32 = 0 := by
    show (List.replicate n _).length % 2 ^ 32 = 0
    rw [List.length_replicate, hmod]
  refine ⟨@maxCovering_repeatedMemTable _ _ bytewise _ _ bytewise_lt n hn, [],
    @MemTable.decode_of_length _ bytewise _ hlength kLayerImm, ?_⟩
  rw [@RangeDelIndex.maxCovering_ofTombstones]
  rfl

/-- **Too many tombstones for a block**: their count comes back as 0, and none is read. -/
theorem not_index_answers :
    @MemTable.maxCoveringRangeDel _ _ bytewise (sampleMemTable (2 ^ 32)) [97] 5 = 5 ∧
    ∃ ts, Sstable.decodeRangeTombstones (Sstable.encodeRangeTombstones
        (@MemTable.getRangeTombstones _ _ bytewise (sampleMemTable (2 ^ 32)) 0 kLayerImm)) =
          .ok ts ∧
      @RangeDelIndex.maxCovering _ bytewise (@RangeDelIndex.ofTombstones _ bytewise
        (ts.map fun t => { t with layer := 2 })) [97] 5 kAllLayers = 0 :=
  overfull_sampleMemTable (Nat.two_pow_pos 32) (Nat.mod_self _)

end LevelDb
