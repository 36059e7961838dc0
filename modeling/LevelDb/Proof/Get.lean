import LevelDb.Db.Counter
import LevelDb.Proof.Layers
import LevelDb.Proof.Lookup
import Mathlib.Data.Fintype.Basic
import Mathlib.Data.List.Pairwise

/-!
# `Get` returns what the contents say

`ColumnFamily.get_eq_answer`: on a well-formed family, `Get` of a key at a snapshot is the answer
of `Mvcc.read` on the versions of the key in the whole contents. The parts:

* `overlapping_visible`: the files `Version::Get` reads have all the visible entries of the key;
* `hidden_of_covered`: a tombstone of a newer layer hides all of the key in a layer, which is why
  a read may stop there;
* `match_spec`, `forEach_spec`: the walk over the files.
-/

namespace LevelDb

open Fragments Mvcc

variable {K V : Type} [LinearOrder K]

/-! ## The files that are read -/

/-- A file that ends before the lookup key has nothing for it. -/
theorem not_visible_of_largest_lt {f : FileMetaData K V} {k : K} {snapshot : Nat}
    (h : f.largest < lookupKey k snapshot) : ∀ e ∈ f.table.entries, ¬ Visible k snapshot e := by
  rintro e he ⟨hk, hs⟩
  rcases lt_lookupKey.1 ((f.bounded.entries_le e he).2.trans_lt h) with hlt | ⟨-, hlt⟩
  · exact absurd hk hlt.ne
  · omega

/-- Of a level whose files are apart, only the file `FindFile` finds can have visible entries. -/
theorem level_visible {files : List (FileMetaData K V)} {k : K} {snapshot : Nat}
    (hr : snapshot < kMaxSequenceNumber)
    (hdisjoint : files.Pairwise fun f g => f.largest < g.smallest)
    (hone : files.Pairwise fun f g =>
      ∀ a ∈ f.table.entries, ∀ b ∈ g.table.entries, a.key.userKey ≠ b.key.userKey) :
    (files.flatMap fun f => f.table.entries.filter fun e => Visible k snapshot e) =
      ((files[findFile files (lookupKey k snapshot)]?.bind fun f =>
        if k < f.smallest.userKey then none else some f).elim [] fun f =>
          f.table.entries.filter fun e => Visible k snapshot e) := by
  have hnil : ∀ f : FileMetaData K V, (∀ e ∈ f.table.entries, ¬ Visible k snapshot e) →
      f.table.entries.filter (fun e => decide (Visible k snapshot e)) = [] :=
    fun f h => List.filter_eq_nil_iff.2 fun e he => by simpa using h e he
  have hmono : files.Pairwise fun f g => decide (g.largest < lookupKey k snapshot) = true →
      decide (f.largest < lookupKey k snapshot) = true := by
    refine hdisjoint.imp_of_mem fun {f g} _ hg hfg hlt => decide_eq_true ?_
    have hgg : g.smallest ≤ g.largest := by
      rcases g.bounded.smallest_eq with ⟨e, he, -⟩ | ⟨t, ht, hs⟩
      · exact (g.bounded.entries_le e he).1.trans (g.bounded.entries_le e he).2
      · have hlu : t.lower < t.upper := InternalKey.lt_iff.2 (.inl (g.ranges t ht))
        exact (g.bounded.tombstones_le t ht).1.trans
          (hlu.le.trans (g.bounded.tombstones_le t ht).2)
    exact (hfg.trans_le hgg).trans (of_decide_eq_true hlt)
  rw [findFile, bisect_takeWhile _ hmono]
  have hsplit := List.takeWhile_append_dropWhile
    (p := fun f : FileMetaData K V => decide (f.largest < lookupKey k snapshot)) (l := files)
  generalize hbefore : files.takeWhile (fun f => decide (f.largest < lookupKey k snapshot)) =
    before at hsplit
  generalize hafter : files.dropWhile (fun f => decide (f.largest < lookupKey k snapshot)) =
    after at hsplit
  have hb : (before.flatMap fun f => f.table.entries.filter fun e => Visible k snapshot e) = [] := by
    refine List.flatMap_eq_nil_iff.2 fun f hf => hnil f (not_visible_of_largest_lt ?_)
    rw [← hbefore] at hf
    simpa using List.mem_takeWhile_imp hf
  rw [← hsplit, List.flatMap_append, hb, List.nil_append,
    List.getElem?_append_right (Nat.le_refl _), Nat.sub_self]
  cases after with
  | nil => rfl
  | cons f rest =>
    have hge : lookupKey k snapshot ≤ f.largest := by
      have := List.dropWhile_get_zero_not
        (fun f : FileMetaData K V => decide (f.largest < lookupKey k snapshot)) files
        (by rw [hafter]; simp)
      simpa [hafter] using this
    rw [← hsplit, List.pairwise_append] at hdisjoint hone
    have hrest : (rest.flatMap fun f => f.table.entries.filter fun e => Visible k snapshot e) =
        [] := by
      refine List.flatMap_eq_nil_iff.2 fun g hg => hnil g fun e he hv => ?_
      have hlt := (List.pairwise_cons.1 hdisjoint.2.1).1 g hg
      have hle : f.largest < e.key := hlt.trans_le (g.bounded.entries_le e he).1
      have hkey : f.largest.userKey = k :=
        le_antisymm ((userKey_le hle.le).trans hv.1.le) (userKey_le hge)
      rcases f.bounded.largest_eq with ⟨a, ha, heq⟩ | ⟨t, -, heq⟩
      · -- the file found holds the key itself, so no other does
        exact (List.pairwise_cons.1 hone.2.1).1 g hg a ha e he (by rw [← heq, hkey, hv.1])
      · -- the file found ends right before the key
        have hseq := sequence_le hge hkey.symm
        rw [heq] at hseq
        exact absurd hr (not_lt.2 hseq)
    rw [List.flatMap_cons, hrest, List.append_nil]
    simp only [List.getElem?_cons_zero, Option.bind_some]
    split
    · rename_i hlt
      refine hnil f fun e he hv => ?_
      exact absurd (userKey_le (f.bounded.entries_le e he).1) (not_le.2 (hv.1 ▸ hlt))
    · rfl

section

variable {cf : ColumnFamily K V} {k : K} {snapshot : Nat}

namespace Version

variable {v : Version K V}

theorem mem_overlapping {ikey : InternalKey K} {c : Nat × FileMetaData K V}
    (hc : c ∈ v.overlapping k ikey) : c.1 < kNumLevels ∧ c.2 ∈ v.files c.1 := by
  rcases List.mem_append.1 hc with hc | hc
  · obtain ⟨f, hf, rfl⟩ := List.mem_map.1 hc
    rw [List.mem_insertionSort, List.mem_filter] at hf
    exact ⟨(by decide : 0 < kNumLevels), hf.1⟩
  · obtain ⟨level, hlevel, hc⟩ := List.mem_filterMap.1 hc
    rw [List.mem_range'] at hlevel
    obtain ⟨i, hi, rfl⟩ := hlevel
    split at hc
    · rename_i f hf
      split at hc
      · cases hc
      · cases hc
        exact ⟨by unfold kNumLevels at *; simp only; omega, List.mem_of_getElem? hf⟩
    · cases hc

/-- The file that a level has for a key is taken with that level. -/
theorem level_of_candidate {v : Version K V} {k : K} {ikey : InternalKey K} {level : Nat}
    {c : Nat × FileMetaData K V}
    (h : (match (v.files level)[findFile (v.files level) ikey]? with
      | some f => if k < f.smallest.userKey then none else some (level, f)
      | none => none) = some c) : c.1 = level := by
  split at h
  · split at h
    · cases h
    · cases h
      rfl
  · cases h

/-- The files are visited in the order of their layers. -/
theorem overlapping_sorted (v : Version K V) (k : K) (ikey : InternalKey K) :
    (v.overlapping k ikey).Pairwise fun c d => v.layerOf c.1 c.2 ≤ v.layerOf d.1 d.2 := by
  have := byNumber_total (K := K) (V := V)
  have := byNumber_trans (K := K) (V := V)
  refine List.pairwise_append.2 ⟨?_, ?_, ?_⟩
  · refine List.pairwise_map.2 ((List.pairwise_insertionSort _ _).imp fun {f g} hle => ?_)
    simp only [layerOf, Nat.lt_irrefl, if_false]
    refine Nat.add_le_add_left (List.countP_mono_left fun a _ ha => ?_) _
    simp only [decide_eq_true_eq] at ha ⊢
    omega
  · refine List.pairwise_filterMap.2 ?_
    have hrange : (List.range' 1 (kNumLevels - 1)).Pairwise (· < ·) := List.pairwise_lt_range'
    refine hrange.imp_of_mem fun {a b} ha hb hab c hc d hd => ?_
    rw [List.mem_range'] at ha hb
    obtain ⟨i, -, rfl⟩ := ha
    obtain ⟨j, -, rfl⟩ := hb
    rw [layerOf, layerOf, level_of_candidate hc, level_of_candidate hd, if_pos (by omega),
      if_pos (by omega)]
    omega
  · intro c hc d hd
    obtain ⟨f, -, rfl⟩ := List.mem_map.1 hc
    obtain ⟨level, hlevel, hd⟩ := List.mem_filterMap.1 hd
    rw [List.mem_range'] at hlevel
    obtain ⟨i, -, rfl⟩ := hlevel
    have hcount := (v.files 0).countP_le_length (p := fun g => decide (f.number < g.number))
    split at hd
    · split at hd
      · cases hd
      · cases hd
        simp only [layerOf, Nat.lt_irrefl, if_false]
        rw [if_pos (by omega)]
        omega
    · cases hd

end Version

namespace ColumnFamily

/-- **The files read** have all the visible entries of the key, in the order of the layers. -/
theorem overlapping_visible (h : cf.WellFormed) (hr : snapshot < kMaxSequenceNumber) :
    ((cf.current.overlapping k (lookupKey k snapshot)).flatMap fun c =>
        c.2.table.entries.filter fun e => Visible k snapshot e) =
      cf.current.layers.flatMap fun l => l.entries.filter fun e => Visible k snapshot e := by
  have := byNumber_total (K := K) (V := V)
  have := byNumber_trans (K := K) (V := V)
  rw [Version.overlapping, Version.layers, List.flatMap_append, List.flatMap_append,
    List.flatMap_map, List.flatMap_map, List.flatMap_map]
  congr 1
  · -- level 0: a file whose range does not have the key has none of its entries
    have hsort : ((cf.current.files 0).filter fun f =>
        f.smallest.userKey ≤ k ∧ k ≤ f.largest.userKey).insertionSort
          (fun f g => g.number ≤ f.number) =
        cf.current.newestFirst.filter fun f =>
          f.smallest.userKey ≤ k ∧ k ≤ f.largest.userKey := by
      have hperm := (List.perm_insertionSort (fun f g : FileMetaData K V => g.number ≤ f.number)
        ((cf.current.files 0).filter fun f => f.smallest.userKey ≤ k ∧ k ≤ f.largest.userKey)).trans
          ((List.perm_insertionSort (fun f g : FileMetaData K V => g.number ≤ f.number)
            (cf.current.files 0)).symm.filter _)
      have hstrict := (Version.newestFirst_sorted h.numbers).filter fun f =>
        decide (f.smallest.userKey ≤ k ∧ k ≤ f.largest.userKey)
      refine hperm.eq_of_pairwise (fun f g hf hg h1 h2 => ?_)
        (List.pairwise_insertionSort _ _) (hstrict.imp fun h => h.le)
      by_contra hne
      have hin : f ∈ cf.current.files 0 := by
        rw [List.mem_insertionSort, List.mem_filter] at hf
        exact hf.1
      have hin' : g ∈ cf.current.files 0 :=
        Version.mem_newestFirst.1 (List.mem_filter.1 hg).1
      have : Std.Symm fun f g : FileMetaData K V => f.number ≠ g.number :=
        ⟨fun _ _ h h' => h h'.symm⟩
      exact h.numbers.forall hin hin' hne (Nat.le_antisymm h2 h1)
    rw [hsort]
    generalize cf.current.newestFirst = files
    induction files with
    | nil => rfl
    | cons f files ih =>
      rw [List.flatMap_cons, ← ih]
      by_cases hf : f.smallest.userKey ≤ k ∧ k ≤ f.largest.userKey
      · rw [List.filter_cons_of_pos (by simpa using hf), List.flatMap_cons]
        rfl
      · have hnone : f.table.entries.filter (fun e => decide (Visible k snapshot e)) = [] := by
          refine List.filter_eq_nil_iff.2 fun e he hv => hf ?_
          obtain ⟨hk, -⟩ := of_decide_eq_true hv
          have hle := f.bounded.entries_le e he
          exact ⟨hk ▸ userKey_le hle.1, hk ▸ userKey_le hle.2⟩
        rw [List.filter_cons_of_neg (by simpa using hf), FileMetaData.layer_entries, hnone,
          List.nil_append]
  · rw [List.filterMap_eq_flatMap_toList, List.flatMap_assoc]
    refine List.flatMap_congr fun level hlevel => ?_
    rw [List.mem_range'] at hlevel
    obtain ⟨i, hi, rfl⟩ := hlevel
    have hl : 1 + 1 * i < kNumLevels := by unfold kNumLevels at *; omega
    have hv := level_visible (k := k) hr (h.disjoint _ hl (by omega)) (h.oneFile _ hl (by omega))
    simp only [Layer.concat, List.flatMap_map, List.filter_flatMap, FileMetaData.layer_entries]
    rw [hv]
    cases hget : (cf.current.files (1 + 1 * i))[findFile (cf.current.files (1 + 1 * i))
        (lookupKey k snapshot)]? with
    | none => rfl
    | some f =>
      simp only [Option.bind_some]
      split <;> simp

/-! ## Stopping early -/

/-- What the view says is hidden is what the contents say. -/
theorem covers_iff (h : cf.WellFormed) (seq : Nat) :
    cf.rangeDels.elim false (·.covers k seq snapshot) = true ↔
      Hidden cf.contents.tombstones k snapshot seq := by
  have hcov : cf.rangeDels.elim false (·.covers k seq snapshot) = true ↔
      seq < cf.rangeDels.elim 0 (·.maxCovering k snapshot kAllLayers) := by
    cases cf.rangeDels with
    | none => simp
    | some v => simp [RangeDelView.covers]
  rw [hcov, cf.lt_covering]
  constructor
  · rintro ⟨t, ht, hc, hle, -, hlt⟩
    obtain ⟨l, hl, u, hu, heq⟩ := mem_tagged h.numbers ht
    rw [heq] at hc hle hlt
    exact ⟨u, List.mem_flatMap.2 ⟨l, List.mem_of_getElem? hl, hu⟩, hc, hlt, hle⟩
  · rintro ⟨t, ht, hc, hlt, hle⟩
    obtain ⟨layer, hin, hlayer⟩ := tagged_of_mem ht
    exact ⟨_, hin, hc, hle, hlayer.trans_le h.few, hlt⟩

/-- **A tombstone of a newer layer** hides all of the key in a layer. -/
theorem hidden_of_covered (h : cf.WellFormed) {layer i : Nat} {l : Layer K V} {e : Entry K V}
    (hcov : hiddenBelow cf.rangeDels k snapshot layer = true) (hi : layer ≤ i)
    (hl : cf.layers[i]? = some l) (he : e ∈ l.entries) (hv : Visible k snapshot e) :
    versionOp cf.contents.tombstones snapshot e = .delete := by
  obtain ⟨t, ht, hc, hle, hlt, -⟩ := cf.lt_covering.1 (of_decide_eq_true hcov)
  obtain ⟨l', hl', u, hu, heq⟩ := mem_tagged h.numbers ht
  rw [heq] at hc hle
  obtain ⟨hi1, rfl⟩ := List.getElem?_eq_some_iff.1 hl'
  obtain ⟨hi2, rfl⟩ := List.getElem?_eq_some_iff.1 hl
  have hnewer := List.pairwise_iff_getElem.1 h.ages t.layer i hi1 hi2 (by omega) k
  have hseq := hnewer u.seq (Layer.mem_seqsAt.2 (.inr ⟨u, hu, hc, rfl⟩)) e.key.sequence
    (Layer.mem_seqsAt.2 (.inl ⟨e, he, hv.1, rfl⟩))
  rw [versionOp, if_pos]
  exact ⟨u, List.mem_flatMap.2 ⟨_, List.getElem_mem hi1, hu⟩, hv.1 ▸ hc, hseq, hle⟩

/-! ## The walk over the files -/

/-- The walk gives the answer of the visible entries of the files it is given. -/
theorem forEach_spec (h : cf.WellFormed) {mergeOp : Option (MergeOperator K V)}
    {cs : List (Nat × FileMetaData K V)}
    (hmem : ∀ c ∈ cs, c.1 < kNumLevels ∧ c.2 ∈ cf.current.files c.1)
    (hsorted : cs.Pairwise fun c d => cf.current.layerOf c.1 c.2 ≤ cf.current.layerOf d.1 d.2)
    {s s' : Version.GetState K V} (hfor : s.saver.state.For k snapshot mergeOp cf.rangeDels)
    (hdone : s.saver.state.done = false) (hcorrupt : s.saver.corrupt = false)
    (hstatus : s.status = .ok)
    (hs' : Version.forEach (cf.current.match_ cf.rangeDels (lookupKey k snapshot)) cs s = s') :
    s'.status = .ok ∧ s'.saver.state.For k snapshot mergeOp cf.rangeDels ∧
      s'.saver.state.answers [] = s.saver.state.answers
        ((cs.flatMap fun c => c.2.table.entries.filter fun e => Visible k snapshot e).map
          (versionOp cf.contents.tombstones snapshot)) := by
  induction cs generalizing s with
  | nil =>
    subst hs'
    exact ⟨hstatus, hfor, rfl⟩
  | cons c cs ih =>
    obtain ⟨level, f⟩ := c
    rw [List.pairwise_cons] at hsorted
    rw [Version.forEach, Version.match_] at hs'
    simp only [hfor.userKey, hfor.snapshot] at hs'
    by_cases hcov : hiddenBelow cf.rangeDels k snapshot (cf.current.layerOf level f) = true
    · rw [if_pos (of_decide_eq_true hcov)] at hs'
      obtain ⟨h1, h2⟩ := LookupState.settleDeleted_spec hfor
      subst hs'
      refine ⟨hstatus, h1, (h2 []).trans (LookupState.answers_deleted fun op hop => ?_).symm⟩
      obtain ⟨e, he, rfl⟩ := List.mem_map.1 hop
      obtain ⟨d, hd, he⟩ := List.mem_flatMap.1 he
      rw [List.mem_filter, decide_eq_true_iff] at he
      obtain ⟨hlevel, hfile⟩ := hmem d hd
      obtain ⟨l, hl, hsub, -⟩ := layers_layerOf h.numbers hlevel hfile
      refine hidden_of_covered h hcov ?_ hl (hsub he.1) he.2
      rcases List.mem_cons.1 hd with rfl | hd
      · exact Nat.le_refl _
      · exact hsorted.1 d hd
    · rw [if_neg (by simpa [hiddenBelow] using hcov)] at hs'
      have htypes : ∀ e ∈ f.table.seek (lookupKey k snapshot), e.key.type ≠ .rangeDeletion :=
        fun e he => f.table.types e (List.dropWhile_subset _ he)
      obtain ⟨h1, -, h3⟩ := MemTable.feed_spec (covers_iff h) htypes hfor hdone
      have hstate : ∀ t : Version.GetState K V, t.saver = s.saver →
          internalGet (f.table.seek (lookupKey k snapshot)) t.saver =
            ⟨(MemTable.feed k (f.table.seek (lookupKey k snapshot)) s.saver.state).2, false⟩ := by
        intro t ht
        rw [ht, internalGet_eq htypes hfor.userKey, hcorrupt]
      generalize ht : (if s.stats.seekFile.isNone = true ∧ s.lastFileRead.isSome = true then
        { s with stats := ⟨s.lastFileRead, s.lastFileReadLevel⟩ } else s) = t at hs'
      have hsaver : t.saver = s.saver := by
        rw [← ht]
        split <;> rfl
      have htstatus : t.status = .ok := by
        rw [← ht]
        split <;> exact hstatus
      rw [Table.seek_visible] at h3
      rw [hstate t hsaver] at hs'
      generalize (MemTable.feed k (f.table.seek (lookupKey k snapshot)) s.saver.state).2 = st
        at h1 h3 hs'
      rw [List.flatMap_cons, List.map_append, ← h3]
      cases hd : st.done with
      | true =>
        simp only [hd, Bool.not_true, Bool.false_eq_true, if_false] at hs'
        subst hs'
        exact ⟨htstatus, h1, by simp [LookupState.answers, hd]⟩
      | false =>
        simp only [hd, Bool.not_false, Bool.false_eq_true, if_false] at hs'
        have hmem' : ∀ c ∈ cs, c.1 < kNumLevels ∧ c.2 ∈ cf.current.files c.1 :=
          fun c hc => hmem c (List.mem_cons_of_mem _ hc)
        exact ih (s := ⟨⟨st, false⟩, t.stats, some f, some level, t.status⟩) hmem' hsorted.2 h1 hd
          rfl htstatus hs'

/-! ## The read -/

/-- The visible entries of the layers, in order, are newest first. -/
theorem visible_sorted (h : cf.WellFormed) (k : K) (snapshot : Nat) :
    (cf.layers.flatMap fun l => l.entries.filter fun e => Visible k snapshot e).Pairwise
      fun a b => b.key.sequence ≤ a.key.sequence := by
  have hsort : ∀ es : List (Entry K V), es.Pairwise (fun a b => a.key ≤ b.key) →
      (es.filter fun e => Visible k snapshot e).Pairwise
        fun a b => b.key.sequence ≤ a.key.sequence := by
    intro es hes
    refine (hes.filter _).imp_of_mem fun ha hb hab => sequence_le hab ?_
    rw [List.mem_filter, decide_eq_true_iff] at ha hb
    rw [ha.2.1, hb.2.1]
  refine List.pairwise_flatMap.2 ⟨fun l hl => ?_, h.ages.imp fun hnew a ha b hb => ?_⟩
  · simp only [layers, List.mem_cons, Version.layers, List.mem_append, List.mem_map] at hl
    rcases hl with rfl | rfl | ⟨f, -, rfl⟩ | ⟨level, hlevel, rfl⟩
    · exact hsort _ cf.mem.table.sorted
    · cases cf.imm with
      | none => simp
      | some m => exact hsort _ m.table.sorted
    · exact hsort _ f.table.sorted
    · refine hsort _ ?_
      rw [List.mem_range'] at hlevel
      obtain ⟨i, hi, rfl⟩ := hlevel
      have hl : 1 + 1 * i < kNumLevels := by unfold kNumLevels at *; omega
      simp only [Layer.concat, List.flatMap_map, FileMetaData.layer_entries]
      refine List.pairwise_flatMap.2 ⟨fun f _ => f.table.sorted,
        (h.disjoint _ hl (by omega)).imp fun {f g} hfg a ha b hb => ?_⟩
      exact ((f.bounded.entries_le a ha).2.trans_lt hfg).le.trans (g.bounded.entries_le b hb).1
  · rw [List.mem_filter, decide_eq_true_iff] at ha hb
    exact (hnew k a.key.sequence (Layer.mem_seqsAt.2 (.inl ⟨a, ha.1, ha.2.1, rfl⟩))
      b.key.sequence (Layer.mem_seqsAt.2 (.inl ⟨b, hb.1, hb.2.1, rfl⟩))).le

/-- The versions of a key are its visible entries, layer by layer. -/
theorem versions_eq (h : cf.WellFormed) (k : K) (snapshot : Nat) :
    cf.contents.versions k snapshot =
      (cf.layers.flatMap fun l => l.entries.filter fun e => Visible k snapshot e).map
        (versionOp cf.contents.tombstones snapshot) := by
  rw [Layer.versions, contents, Layer.concat, List.filter_flatMap,
    (visible_sorted h k snapshot).insertionSort_eq]

/-- What a layer adds to the versions of the key. -/
def opsOf (cf : ColumnFamily K V) (k : K) (snapshot : Nat) (l : Layer K V) : List (Op V) :=
  (l.entries.filter fun e => Visible k snapshot e).map (versionOp cf.contents.tombstones snapshot)

theorem versions_eq_opsOf (h : cf.WellFormed) (k : K) (snapshot : Nat) :
    cf.contents.versions k snapshot = cf.layers.flatMap (cf.opsOf k snapshot) := by
  rw [versions_eq h, List.map_flatMap]
  rfl

variable {mergeOp : Option (MergeOperator K V)} {st : LookupState K V}

/-- A read that stops below a tombstone of a newer layer gives the answer of all the layers it
leaves out. -/
theorem conclude_settleDeleted (h : cf.WellFormed) {layer : Nat} {ls : List (Layer K V)}
    (hcov : hiddenBelow cf.rangeDels k snapshot layer = true)
    (hls : ∀ l ∈ ls, ∃ i, layer ≤ i ∧ cf.layers[i]? = some l)
    (hfor : st.For k snapshot mergeOp cf.rangeDels) :
    conclude st.settleDeleted = st.answers (ls.flatMap (cf.opsOf k snapshot)) := by
  obtain ⟨h1, h2⟩ := LookupState.settleDeleted_spec hfor
  refine (LookupState.finish_answers h1).trans ((h2 []).trans
    (LookupState.answers_deleted fun op hop => ?_).symm)
  obtain ⟨l, hl, hop⟩ := List.mem_flatMap.1 hop
  obtain ⟨e, he, rfl⟩ := List.mem_map.1 hop
  rw [List.mem_filter, decide_eq_true_iff] at he
  obtain ⟨i, hi, hget⟩ := hls l hl
  exact hidden_of_covered h hcov hi hget he.1 he.2

/-- A read of a memtable takes its versions, and goes on unless it is settled. -/
theorem memGet_spec (h : cf.WellFormed) (m : MemTable K V)
    (hfor : st.For k snapshot mergeOp cf.rangeDels) (hdone : st.done = false)
    {next : LookupState K V → Status × Option V} {rest : List (Op V)}
    (hnext : ∀ st', st'.For k snapshot mergeOp cf.rangeDels → st'.done = false →
      next st' = st'.answers rest) :
    (match m.get k snapshot st with
      | (true, st') => conclude st'
      | (false, st') => next st') = st.answers (cf.opsOf k snapshot m.layer ++ rest) := by
  have htypes : ∀ e ∈ m.table.seek (lookupKey k snapshot), e.key.type ≠ .rangeDeletion :=
    fun e he => m.table.types e (List.dropWhile_subset _ he)
  obtain ⟨h1, h2, h3⟩ := MemTable.feed_spec (covers_iff h) htypes hfor hdone
  rw [Table.seek_visible] at h3
  rw [opsOf, MemTable.layer_entries, ← h3, MemTable.get]
  generalize MemTable.feed k (m.table.seek (lookupKey k snapshot)) st = r at h1 h2
  obtain ⟨settled, st'⟩ := r
  cases settled with
  | true =>
    have hd : st'.done = true := h2.symm
    simp only [conclude]
    rw [LookupState.finish_answers h1]
    simp [LookupState.answers, hd]
  | false => exact hnext st' h1 h2.symm

theorem getFiles_spec (h : cf.WellFormed) (hr : snapshot < kMaxSequenceNumber)
    (hfor : st.For k snapshot mergeOp cf.rangeDels) (hdone : st.done = false) :
    cf.getFiles k snapshot st =
      st.answers (cf.current.layers.flatMap (cf.opsOf k snapshot)) := by
  unfold getFiles
  split
  · rename_i hcov
    refine conclude_settleDeleted h hcov (fun l hl => ?_) hfor
    obtain ⟨i, hi⟩ := List.mem_iff_getElem?.1 hl
    exact ⟨i + 2, by unfold kFirstTableLayer; omega, hi⟩
  · obtain ⟨h1, h2, h3⟩ := forEach_spec (s := { saver := { state := st } }) h
      (fun c hc => Version.mem_overlapping hc)
      (Version.overlapping_sorted cf.current k (lookupKey k snapshot)) hfor hdone rfl rfl rfl
    rw [overlapping_visible h hr, List.map_flatMap] at h3
    change (cf.current.get k snapshot st cf.rangeDels).status = .ok at h1
    simp only [h1, if_true]
    exact (LookupState.finish_answers h2).trans h3

theorem getImm_spec (h : cf.WellFormed) (hr : snapshot < kMaxSequenceNumber)
    (hfor : st.For k snapshot mergeOp cf.rangeDels) (hdone : st.done = false) :
    cf.getImm k snapshot st = st.answers (cf.layers.tail.flatMap (cf.opsOf k snapshot)) := by
  unfold getImm
  cases himm : cf.imm with
  | none =>
    rw [layers, himm]
    exact getFiles_spec h hr hfor hdone
  | some imm =>
    have htail : cf.layers.tail = imm.layer :: cf.current.layers := by
      rw [layers, himm]
      rfl
    simp only [htail]
    split
    · rename_i hcov
      refine conclude_settleDeleted h hcov (fun l hl => ?_) hfor
      rw [← htail] at hl
      obtain ⟨i, hi⟩ := List.mem_iff_getElem?.1 hl
      exact ⟨i + 1, by unfold kLayerImm; omega, by rw [← hi, List.getElem?_tail]⟩
    · exact memGet_spec h imm hfor hdone fun st' => getFiles_spec h hr

/-- **`Get`** of a key at a snapshot is the answer of the versions of the key: an entry is deleted
when a tombstone between it and the snapshot covers the key, and the operands down to the first
put or deletion are merged onto it. -/
theorem get_eq_answer (h : cf.WellFormed) (k : K) {snapshot : Nat}
    (hr : snapshot < kMaxSequenceNumber) :
    cf.get k snapshot =
      answer cf.mergeOp (Mvcc.read (foldOf cf.mergeOp k) (cf.contents.versions k snapshot)) := by
  have hnext : ∀ st' : LookupState K V, st'.For k snapshot cf.mergeOp cf.rangeDels →
      st'.done = false → cf.getImm k snapshot st' =
        st'.answers (cf.layers.tail.flatMap (cf.opsOf k snapshot)) :=
    fun st' => getImm_spec h hr
  have hfor : (⟨k, snapshot, cf.mergeOp, cf.rangeDels, [], false, .ok, none⟩ :
      LookupState K V).For k snapshot cf.mergeOp cf.rangeDels := ⟨rfl, rfl, rfl, rfl, fun _ => rfl⟩
  rw [versions_eq_opsOf h]
  exact memGet_spec h cf.mem hfor rfl hnext

end ColumnFamily
end

/-! ## An instance -/

/-- An operand `x` at 7 in the memtable over a put at 3 in a level-1 file, whose tombstone at 5
covers another key. -/
def sampleFamily : ColumnFamily (Fin 3) Nat where
  mem := MemTable.empty.add ⟨⟨1, 7, .merge⟩, 4⟩ (by decide)
  imm := none
  current := ⟨fun level => if level = 1 then
    [⟨12, 100, ⟨0, 5, .rangeDeletion⟩, ⟨1, 3, .value⟩, ⟨[⟨⟨1, 3, .value⟩, 8⟩], by decide, by decide⟩,
      [⟨0, 1, 5, 0⟩], by decide, by decide⟩] else []⟩
  mergeOp := some (.counter _)

theorem sampleFamily_wellFormed : sampleFamily.WellFormed := by
  refine ⟨by decide, by decide, fun level _ _ => ?_, fun level _ _ => ?_, by decide⟩
  all_goals
    simp only [sampleFamily]
    split <;> simp

theorem get_sampleFamily : sampleFamily.get 1 9 = (.ok, some 12) :=
  (ColumnFamily.get_eq_answer sampleFamily_wellFormed 1 (by decide)).trans (by decide)

end LevelDb
