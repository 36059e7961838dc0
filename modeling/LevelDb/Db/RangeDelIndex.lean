import LevelDb.Db.Format
import LevelDb.Lib.Fragments
import Mathlib.Data.List.Sort
import Mathlib.Data.List.Dedup

/-!
# `RangeDelIndex`: the tombstones of a version's files (`db/range_del.cc`)

`finish` cuts the key space at every begin and end key and sweeps over the cuts (`sweep`), keeping
the tombstones that are open at the current cut. Each fragment has the numbers of the tombstones
over it with their layers, largest number first.

`RangeDelIndex.maxCovering_ofTombstones`: `maxCovering` is the largest number visible at the
snapshot among the tombstones of newer layers that cover the key.
-/

namespace LevelDb

open Fragments

variable {K : Type} [LinearOrder K]

namespace RangeDelIndex

/-- Every begin and end, sorted, each once. -/
def cuts (pending : List (RangeTombstone K)) : List K :=
  ((pending.flatMap fun t => [t.beginKey, t.endKey]).insertionSort (· ≤ ·)).dedup

/-- The numbers of a fragment under these tombstones, largest first. -/
def fragmentSeqs (active : List (RangeTombstone K)) : List (Nat × Nat) :=
  (active.map fun t => (t.seq, t.layer)).insertionSort fun a b => b.1 ≤ a.1

/-- The loop of `Finish` over the cuts. `pending` is what it has not reached yet, by begin key;
`active` the tombstones it has reached and not passed. -/
def sweep : List K → List (RangeTombstone K) → List (RangeTombstone K) →
    List (Frag K (List (Nat × Nat)))
  | lo :: hi :: cuts, pending, active =>
    let active := (active ++ pending.takeWhile fun t => t.beginKey ≤ lo).filter
      fun t => lo < t.endKey
    let pending := pending.dropWhile fun t => t.beginKey ≤ lo
    if active.isEmpty then sweep (hi :: cuts) pending active
    else ⟨lo, hi, fragmentSeqs active⟩ :: sweep (hi :: cuts) pending active
  | _, _, _ => []

/-- `RangeDelIndex::Finish`. -/
def finish (pending : List (RangeTombstone K)) : List (Frag K (List (Nat × Nat))) :=
  sweep (cuts pending) (pending.insertionSort fun a b => a.beginKey ≤ b.beginKey) []

/-- The numbers at a key. -/
def seqsAt (frags : List (Frag K (List (Nat × Nat)))) (k : K) : List (Nat × Nat) :=
  (at? frags k).getD []

/-! ## What the sweep builds -/

theorem cuts_sorted (pending : List (RangeTombstone K)) : (cuts pending).Pairwise (· < ·) := by
  have hle : (cuts pending).Pairwise (· ≤ ·) :=
    (List.pairwise_insertionSort _ _).sublist (List.dedup_sublist _)
  have hne : (cuts pending).Pairwise (· ≠ ·) := List.nodup_dedup _
  exact (hle.and hne).imp fun h => lt_of_le_of_ne h.1 h.2

theorem mem_cuts {pending : List (RangeTombstone K)} {t : RangeTombstone K} (ht : t ∈ pending) :
    t.beginKey ∈ cuts pending ∧ t.endKey ∈ cuts pending := by
  simp only [cuts, List.mem_dedup, List.mem_insertionSort, List.mem_flatMap]
  exact ⟨⟨t, ht, by simp⟩, ⟨t, ht, by simp⟩⟩

omit [LinearOrder K] in
theorem fragmentSeqs_desc (active : List (RangeTombstone K)) :
    (fragmentSeqs active).Pairwise fun a b => b.1 ≤ a.1 := by
  have : Std.Total fun a b : Nat × Nat => b.1 ≤ a.1 := ⟨fun a b => Nat.le_total b.1 a.1⟩
  have : IsTrans (Nat × Nat) fun a b => b.1 ≤ a.1 := ⟨fun a b c h h' => Nat.le_trans h' h⟩
  exact List.pairwise_insertionSort _ _

omit [LinearOrder K] in
theorem fragmentSeqs_perm (active : List (RangeTombstone K)) :
    (fragmentSeqs active).Perm (active.map fun t => (t.seq, t.layer)) :=
  List.perm_insertionSort _ _

/-- What the sweep knows when it stands at the cut `lo`, with `cuts` to come. -/
structure Sweeping (lo : K) (cuts : List K) (pending active : List (RangeTombstone K)) : Prop where
  begun : ∀ t ∈ active, t.beginKey ≤ lo
  pending_sorted : pending.Pairwise fun a b => a.beginKey ≤ b.beginKey
  begin_mem : ∀ t ∈ pending, t.beginKey = lo ∨ t.beginKey ∈ cuts
  end_mem : ∀ t ∈ active ++ pending, lo < t.endKey → t.endKey ∈ cuts

/-- The fragments from `lo` on are right for the tombstones in hand. -/
structure Swept (lo : K) (ts : List (RangeTombstone K)) (frags : List (Frag K (List (Nat × Nat)))) :
    Prop where
  ordered : Ordered frags
  le_lo : ∀ f ∈ frags, lo ≤ f.lo
  desc : ∀ k, (seqsAt frags k).Pairwise fun a b => b.1 ≤ a.1
  perm : ∀ k, lo ≤ k →
    (seqsAt frags k).Perm ((ts.filter fun t => t.Covers k).map fun t => (t.seq, t.layer))

section
variable {lo hi : K} {cuts : List K} {pending active : List (RangeTombstone K)}

/-- The tombstones over the keys from the cut to the next. -/
def spanning (lo : K) (pending active : List (RangeTombstone K)) : List (RangeTombstone K) :=
  (active ++ pending.takeWhile fun t => t.beginKey ≤ lo).filter fun t => lo < t.endKey

/-- Those it has not reached at the cut. -/
def beyond (lo : K) (pending : List (RangeTombstone K)) : List (RangeTombstone K) :=
  pending.dropWhile fun t => t.beginKey ≤ lo

theorem sweep_cons_cons : sweep (lo :: hi :: cuts) pending active =
    if (spanning lo pending active).isEmpty then
      sweep (hi :: cuts) (beyond lo pending) (spanning lo pending active)
    else ⟨lo, hi, fragmentSeqs (spanning lo pending active)⟩ ::
      sweep (hi :: cuts) (beyond lo pending) (spanning lo pending active) := by
  rw [sweep]
  rfl

theorem mem_spanning {t : RangeTombstone K} (ht : t ∈ spanning lo pending active) :
    t ∈ active ++ pending ∧ (t ∈ active ∨ t.beginKey ≤ lo) ∧ lo < t.endKey := by
  rw [spanning, List.mem_filter, decide_eq_true_iff, List.mem_append] at ht
  obtain ⟨hin | hin, hlt⟩ := ht
  · exact ⟨List.mem_append_left _ hin, .inl hin, hlt⟩
  · have hle := List.mem_takeWhile_imp hin
    exact ⟨List.mem_append_right _ ((List.takeWhile_sublist _).subset hin),
      .inr (of_decide_eq_true hle), hlt⟩

theorem lt_of_mem_beyond (hs : pending.Pairwise fun a b => a.beginKey ≤ b.beginKey)
    {t : RangeTombstone K} (ht : t ∈ beyond lo pending) : lo < t.beginKey := by
  rw [beyond] at ht
  induction pending with
  | nil => cases ht
  | cons u us ih =>
    rw [List.pairwise_cons] at hs
    by_cases hu : u.beginKey ≤ lo
    · rw [List.dropWhile_cons_of_pos (by simpa using hu)] at ht
      exact ih hs.2 ht
    · rw [List.dropWhile_cons_of_neg (by simpa using hu)] at ht
      rcases List.mem_cons.1 ht with rfl | ht
      · exact not_le.1 hu
      · exact (not_le.1 hu).trans_le (hs.1 t ht)

/-- What the cut drops does not reach past it. -/
theorem filter_covers (active pending : List (RangeTombstone K)) {k : K} (hk : lo ≤ k) :
    (active ++ pending).filter (fun t => decide (t.Covers k)) =
      (spanning lo pending active ++ beyond lo pending).filter fun t => decide (t.Covers k) := by
  have hdrop : (spanning lo pending active).filter (fun t => decide (t.Covers k)) =
      (active ++ pending.takeWhile fun t => t.beginKey ≤ lo).filter fun t =>
        decide (t.Covers k) := by
    rw [spanning, List.filter_filter]
    refine List.filter_congr fun t _ => ?_
    by_cases hc : t.Covers k
    · simp [hc, hk.trans_lt hc.2]
    · simp [hc]
  symm
  rw [List.filter_append, hdrop, beyond, ← List.filter_append, List.append_assoc,
    List.takeWhile_append_dropWhile]

namespace Sweeping

theorem begun_spanning (h : Sweeping lo (hi :: cuts) pending active) {t : RangeTombstone K}
    (ht : t ∈ spanning lo pending active) : t.beginKey ≤ lo := by
  obtain ⟨-, hin | hle, -⟩ := mem_spanning ht
  · exact h.begun t hin
  · exact hle

/-- No tombstone ends between two cuts, -/
theorem le_end (h : Sweeping lo (hi :: cuts) pending active) (hhi : ∀ c ∈ hi :: cuts, hi ≤ c)
    {t : RangeTombstone K} (ht : t ∈ spanning lo pending active) : hi ≤ t.endKey := by
  obtain ⟨hin, -, hlt⟩ := mem_spanning ht
  exact hhi _ (h.end_mem t hin hlt)

theorem begin_mem_beyond (h : Sweeping lo (hi :: cuts) pending active) {t : RangeTombstone K}
    (ht : t ∈ beyond lo pending) : t.beginKey ∈ hi :: cuts := by
  rcases h.begin_mem t ((List.dropWhile_sublist _).subset ht) with heq | hm
  · exact absurd (lt_of_mem_beyond h.pending_sorted ht) (by simp [heq])
  · exact hm

/-- or begins there. -/
theorem filter_covers_between (h : Sweeping lo (hi :: cuts) pending active)
    (hhi : ∀ c ∈ hi :: cuts, hi ≤ c) {k : K} (hk : lo ≤ k) (hk' : k < hi) :
    (spanning lo pending active ++ beyond lo pending).filter (fun t => decide (t.Covers k)) =
      spanning lo pending active := by
  rw [List.filter_append, List.filter_eq_self.2, List.filter_eq_nil_iff.2, List.append_nil]
  · intro t ht hc
    have hle := hhi _ (h.begin_mem_beyond ht)
    exact absurd (of_decide_eq_true hc : t.Covers k).1 (not_le.2 (hk'.trans_le hle))
  · intro t ht
    exact decide_eq_true ⟨(h.begun_spanning ht).trans hk, hk'.trans_le (h.le_end hhi ht)⟩

/-- To the next cut. -/
theorem next (h : Sweeping lo (hi :: cuts) pending active) (hlohi : lo < hi) :
    Sweeping hi cuts (beyond lo pending) (spanning lo pending active) where
  begun t ht := (h.begun_spanning ht).trans hlohi.le
  pending_sorted := h.pending_sorted.sublist (List.dropWhile_sublist _)
  begin_mem t ht := List.mem_cons.1 (h.begin_mem_beyond ht)
  end_mem t ht hlt := by
    have hin : t ∈ active ++ pending := by
      rcases List.mem_append.1 ht with ht | ht
      · exact (mem_spanning ht).1
      · exact List.mem_append_right _ ((List.dropWhile_sublist _).subset ht)
    rcases List.mem_cons.1 (h.end_mem t hin (hlohi.trans hlt)) with heq | hm
    · exact absurd hlt (by simp [heq])
    · exact hm

end Sweeping

theorem sweep_spec (hcuts : (lo :: cuts).Pairwise (· < ·)) (h : Sweeping lo cuts pending active) :
    Swept lo (active ++ pending) (sweep (lo :: cuts) pending active) := by
  induction cuts generalizing lo pending active with
  | nil =>
    refine ⟨.nil, by simp [sweep], fun k => by simp [sweep, seqsAt], fun k hk => ?_⟩
    have hno : (active ++ pending).filter (fun t => decide (t.Covers k)) = [] := by
      refine List.filter_eq_nil_iff.2 fun t ht hc => ?_
      have hlt := hk.trans_lt (of_decide_eq_true hc : t.Covers k).2
      exact absurd (h.end_mem t ht hlt) (by simp)
    simp [sweep, seqsAt, hno]
  | cons hi cuts ih =>
    rw [List.pairwise_cons] at hcuts
    obtain ⟨hlo, hcuts⟩ := hcuts
    have hlohi : lo < hi := hlo hi (by simp)
    have hhi : ∀ c ∈ hi :: cuts, hi ≤ c := by
      intro c hc
      rcases List.mem_cons.1 hc with rfl | hc
      · exact le_rfl
      · exact ((List.pairwise_cons.1 hcuts).1 c hc).le
    have ih := ih hcuts (h.next hlohi)
    have hno : ∀ k, k < hi →
        at? (sweep (hi :: cuts) (beyond lo pending) (spanning lo pending active)) k = none :=
      fun k hk => at?_none fun f hf => not_has_of_lt (hk.trans_le (ih.le_lo f hf))
    rw [sweep_cons_cons]
    split
    · rename_i hemp
      have hemp := List.isEmpty_iff.1 hemp
      refine ⟨ih.ordered, fun f hf => hlohi.le.trans (ih.le_lo f hf), ih.desc, fun k hk => ?_⟩
      rw [filter_covers active pending hk]
      rcases lt_or_ge k hi with hk' | hk'
      · rw [h.filter_covers_between hhi hk hk', seqsAt, hno k hk', hemp]
        simp
      · exact ih.perm k hk'
    · refine ⟨ordered_cons.2 ⟨hlohi, ih.le_lo, ih.ordered⟩, ?_, fun k => ?_, fun k hk => ?_⟩
      · intro f hf
        rcases List.mem_cons.1 hf with rfl | hf
        · exact le_rfl
        · exact hlohi.le.trans (ih.le_lo f hf)
      · rw [seqsAt, at?_cons]
        split
        · exact fragmentSeqs_desc _
        · exact ih.desc k
      · rw [filter_covers active pending hk, seqsAt, at?_cons]
        rcases lt_or_ge k hi with hk' | hk'
        · rw [if_pos ⟨hk, hk'⟩, h.filter_covers_between hhi hk hk']
          exact fragmentSeqs_perm _
        · rw [if_neg (not_has_of_le hk')]
          exact ih.perm k hk'

end

/-- **`Finish`**: ordered fragments with the numbers of the tombstones over each key. -/
theorem finish_spec (pending : List (RangeTombstone K)) :
    Ordered (finish pending) ∧ ∀ k,
      (seqsAt (finish pending) k).Pairwise (fun a b => b.1 ≤ a.1) ∧
      (seqsAt (finish pending) k).Perm
        ((pending.filter fun t => t.Covers k).map fun t => (t.seq, t.layer)) := by
  have htot : Std.Total fun a b : RangeTombstone K => a.beginKey ≤ b.beginKey :=
    ⟨fun a b => le_total _ _⟩
  have htrans : IsTrans (RangeTombstone K) fun a b => a.beginKey ≤ b.beginKey :=
    ⟨fun a b c h h' => le_trans h h'⟩
  unfold finish
  have hperm := List.perm_insertionSort (fun a b : RangeTombstone K => a.beginKey ≤ b.beginKey)
    pending
  have hsorted := List.pairwise_insertionSort
    (fun a b : RangeTombstone K => a.beginKey ≤ b.beginKey) pending
  generalize pending.insertionSort (fun a b => a.beginKey ≤ b.beginKey) = sorted at hperm hsorted
  have hcuts := cuts_sorted pending
  have hmem : ∀ t ∈ sorted, t.beginKey ∈ cuts pending ∧ t.endKey ∈ cuts pending :=
    fun t ht => mem_cuts (hperm.mem_iff.1 ht)
  cases hc : cuts pending with
  | nil =>
    have hnil : pending = [] := by
      refine List.eq_nil_iff_forall_not_mem.2 fun t ht => ?_
      have := (mem_cuts ht).1
      simp [hc] at this
    simp [sweep, seqsAt, hnil, Ordered.nil]
  | cons lo rest =>
    rw [hc] at hcuts hmem
    have hlo : ∀ c ∈ lo :: rest, lo ≤ c := by
      intro c h
      rcases List.mem_cons.1 h with rfl | h
      · exact le_rfl
      · exact ((List.pairwise_cons.1 hcuts).1 c h).le
    have hstart : Sweeping lo rest sorted [] := by
      refine ⟨by simp, hsorted, fun t ht => by simpa using (hmem t ht).1, fun t ht hlt => ?_⟩
      rcases List.mem_cons.1 (hmem t (by simpa using ht)).2 with h | h
      · exact absurd hlt (by simp [h])
      · exact h
    have hs := sweep_spec hcuts hstart
    refine ⟨hs.ordered, fun k => ⟨hs.desc k, ?_⟩⟩
    rcases lt_or_ge k lo with hk | hk
    · have hno : at? (sweep (lo :: rest) sorted []) k = none :=
        at?_none fun f hf => not_has_of_lt (hk.trans_le (hs.le_lo f hf))
      have hnone : pending.filter (fun t => decide (t.Covers k)) = [] := by
        refine List.filter_eq_nil_iff.2 fun t ht hcov => ?_
        have := hlo _ (hmem t (hperm.mem_iff.2 ht)).1
        exact absurd (of_decide_eq_true hcov : t.Covers k).1 (not_le.2 (hk.trans_le this))
      simp [seqsAt, hno, hnone]
    · exact (hs.perm k hk).trans (((hperm.filter _).map _))

end RangeDelIndex

/-! ## The index -/

/-- An immutable index over a set of tombstones. -/
structure RangeDelIndex (K : Type) [LinearOrder K] where
  fragments : List (Frag K (List (Nat × Nat)))
  ordered : Ordered fragments

namespace RangeDelIndex

/-- Adds the tombstones (`Add` leaves out empty ranges), then `Finish`. -/
def ofTombstones (ts : List (RangeTombstone K)) : RangeDelIndex K :=
  ⟨finish (ts.filter fun t => t.beginKey < t.endKey), (finish_spec _).1⟩

/-- The last fragment that starts at or before the key, by binary search, if it ends after it. -/
def find (ix : RangeDelIndex K) (userKey : K) : Option (Frag K (List (Nat × Nat))) :=
  match bisect (fun mid => (ix.fragments[mid]?.map fun f => decide (f.lo ≤ userKey)).getD false)
    0 ix.fragments.length with
  | 0 => none
  | lo + 1 => ix.fragments[lo]?.filter fun f => userKey < f.hi

/-- The largest number visible at the snapshot of a layer below `belowLayer`, 0 if none. -/
def best (seqs : List (Nat × Nat)) (snapshot belowLayer : Nat) : Nat :=
  (seqs.find? fun p => p.1 ≤ snapshot ∧ p.2 < belowLayer).elim 0 Prod.fst

def maxCovering (ix : RangeDelIndex K) (userKey : K) (snapshot : Nat)
    (belowLayer : Nat := kAllLayers) : Nat :=
  (ix.find userKey).elim 0 fun f => best f.data snapshot belowLayer

def coveredRange (ix : RangeDelIndex K) (userKey : K) (snapshot belowLayer : Nat) :
    Option (K × K) :=
  match ix.find userKey with
  | some f => if best f.data snapshot belowLayer = 0 then none else some (f.lo, f.hi)
  | none => none

/-- Binary search finds the fragment that has the key. -/
theorem find_eq (ix : RangeDelIndex K) (k : K) :
    ix.find k = ix.fragments.find? fun f => f.Has k := by
  have hmono : ix.fragments.Pairwise fun a b =>
      decide (b.lo ≤ k) = true → decide (a.lo ≤ k) = true := by
    refine ix.ordered.disjoint.imp_of_mem fun ha _ hab hb => ?_
    exact decide_eq_true ((ix.ordered.nonempty _ ha).le.trans (hab.trans (of_decide_eq_true hb)))
  rw [find, bisect_takeWhile _ hmono, ← lastLe_eq ix.ordered]
  cases hlen : (ix.fragments.takeWhile fun f => decide (f.lo ≤ k)).length with
  | zero => rw [List.length_eq_zero_iff.1 hlen]; rfl
  | succ n =>
    have hpre := ix.fragments.takeWhile_prefix (fun f => decide (f.lo ≤ k))
    rw [List.getLast?_eq_getElem?, hlen, Nat.add_sub_cancel]
    have hn : n < (ix.fragments.takeWhile fun f => decide (f.lo ≤ k)).length := by omega
    have hn' := hn.trans_le hpre.length_le
    simp only [List.getElem?_eq_getElem hn, List.getElem?_eq_getElem hn']
    rw [hpre.getElem hn]

/-- **`MaxCovering`** is the largest number at or below the snapshot among the tombstones of
layers below `belowLayer` that cover the key. -/
theorem maxCovering_ofTombstones (ts : List (RangeTombstone K)) (k : K)
    (snapshot belowLayer : Nat) :
    (ofTombstones ts).maxCovering k snapshot belowLayer =
      maxSeq ((ts.filter fun t => t.Covers k ∧ t.seq ≤ snapshot ∧ t.layer < belowLayer).map
        (·.seq)) := by
  obtain ⟨-, hspec⟩ := finish_spec (ts.filter fun t => t.beginKey < t.endKey)
  obtain ⟨hdesc, hperm⟩ := hspec k
  have hbest : (ofTombstones ts).maxCovering k snapshot belowLayer =
      best (seqsAt (finish (ts.filter fun t => t.beginKey < t.endKey)) k) snapshot belowLayer := by
    rw [maxCovering, find_eq, seqsAt, at?]
    change ((finish _).find? _).elim _ _ = _
    cases (finish _).find? fun f => decide (f.Has k) <;> rfl
  rw [hbest, best, find?_eq_maxSeq Prod.fst _ hdesc,
    maxSeq_perm ((hperm.filter _).map _), List.filter_map, List.filter_filter, List.filter_filter,
    List.map_map]
  congr 1
  rw [Function.comp_def]
  congr 1
  refine List.filter_congr fun t _ => ?_
  by_cases hc : t.Covers k
  · have := hc.1.trans_lt hc.2
    simp [hc, this]
  · simp [hc]

end RangeDelIndex
end LevelDb
