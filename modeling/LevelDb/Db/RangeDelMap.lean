import LevelDb.Db.Format
import LevelDb.Lib.Fragments

/-!
# `RangeDelMap`: a memtable's tombstones (`db/range_del.cc`)

The key space under tombstones is cut into disjoint fragments, each with the sequence numbers of
the tombstones over it, largest first. `add` is the loop of `RangeDelMap::Add` on the list of
fragments in key order (the `std::map`): it splits the fragment straddling the tombstone's begin,
then walks from there, filling the gaps and adding the number to the fragments it meets
(`addFrom`).

`RangeDelMap.maxCovering_eq`: after any additions, `maxCovering` is the largest number visible at
the snapshot among the tombstones that cover the key.
-/

namespace LevelDb

open Fragments

variable {K : Type} [LinearOrder K]

namespace RangeDelMap

/-- Inserts a number into a list sorted downwards, after those it equals (`std::upper_bound` with
`std::greater`). -/
def insertSeq (seq : Nat) (v : List Nat) : List Nat :=
  v.takeWhile (fun s => seq ≤ s) ++ seq :: v.dropWhile (fun s => seq ≤ s)

/-- Splits the fragment that straddles `pos`, if there is one: it can only be the last one that
starts at or before `pos`. -/
def split (pos : K) (frags : List (Frag K (List Nat))) : List (Frag K (List Nat)) :=
  let before := frags.takeWhile fun f => f.lo ≤ pos
  let after := frags.dropWhile fun f => f.lo ≤ pos
  match before.getLast? with
  | some prev =>
    if prev.lo < pos ∧ pos < prev.hi then
      before.dropLast ++ { prev with hi := pos } :: { prev with lo := pos } :: after
    else frags
  | none => frags

/-- One round of the loop at a fragment that starts at the position reached: it takes the number
up to `stop`, and the loop goes on with `next` when it ends before that. -/
def addAt (seq : Nat) (stop : K) (f : Frag K (List Nat)) (fs next : List (Frag K (List Nat))) :
    List (Frag K (List Nat)) :=
  if stop < f.hi then ⟨f.lo, stop, insertSeq seq f.data⟩ :: { f with lo := stop } :: fs
  else { f with data := insertSeq seq f.data } :: next

/-- The loop from `pos` to `stop` over the fragments that start at `pos` or later. -/
def addFrom (seq : Nat) (stop : K) : K → List (Frag K (List Nat)) → List (Frag K (List Nat))
  | pos, [] => if pos < stop then [⟨pos, stop, [seq]⟩] else []
  | pos, f :: fs =>
    if pos < stop then
      if pos < f.lo then
        -- a gap up to the next fragment (or the end of the tombstone)
        if f.lo < stop then ⟨pos, f.lo, [seq]⟩ :: addAt seq stop f fs (addFrom seq stop f.hi fs)
        else ⟨pos, stop, [seq]⟩ :: f :: fs
      else addAt seq stop f fs (addFrom seq stop f.hi fs)
    else f :: fs

/-- The `while` loop itself, from `pos` with the iterator at the first of the fragments: `rounds`
rounds of it at most. -/
def addLoop (seq : Nat) (stop : K) :
    Nat → K → List (Frag K (List Nat)) → Option (List (Frag K (List Nat)))
  | 0, _, _ => none
  | rounds + 1, pos, it =>
    if pos < stop then
      match it with
      | [] => (addLoop seq stop rounds stop []).map (⟨pos, stop, [seq]⟩ :: ·)
      | f :: fs =>
        if pos < f.lo then
          let gapEnd := if f.lo < stop then f.lo else stop
          (addLoop seq stop rounds gapEnd (f :: fs)).map (⟨pos, gapEnd, [seq]⟩ :: ·)
        else if stop < f.hi then
          (addLoop seq stop rounds stop ({ f with lo := stop } :: fs)).map
            (⟨f.lo, stop, insertSeq seq f.data⟩ :: ·)
        else (addLoop seq stop rounds f.hi fs).map ({ f with data := insertSeq seq f.data } :: ·)
    else some it

/-- `RangeDelMap::Add` on the fragments. -/
def addFrags (frags : List (Frag K (List Nat))) (beginKey endKey : K) (seq : Nat) :
    List (Frag K (List Nat)) :=
  if endKey ≤ beginKey then frags
  else
    let frags := split beginKey frags
    frags.takeWhile (fun f => f.lo < beginKey) ++
      addFrom seq endKey beginKey (frags.dropWhile fun f => f.lo < beginKey)

/-- `RangeDelMap::Add` with its loop cut off after these rounds. -/
def addWithin (rounds : Nat) (frags : List (Frag K (List Nat))) (beginKey endKey : K) (seq : Nat) :
    Option (List (Frag K (List Nat))) :=
  if endKey ≤ beginKey then some frags
  else
    let frags := split beginKey frags
    (addLoop seq endKey rounds beginKey (frags.dropWhile fun f => f.lo < beginKey)).map
      (frags.takeWhile (fun f => f.lo < beginKey) ++ ·)

/-- The numbers at a key. -/
def seqsAt (frags : List (Frag K (List Nat))) (k : K) : List Nat := (at? frags k).getD []

/-! ## What the steps of `add` do -/

/-- Splitting keeps the fragments ordered and their data, and leaves none across `pos`. -/
theorem split_spec {frags : List (Frag K (List Nat))} (hf : Ordered frags) (pos : K) :
    Ordered (split pos frags) ∧ (∀ k, at? (split pos frags) k = at? frags k) ∧
      ∀ f ∈ split pos frags, f.lo < pos → f.hi ≤ pos := by
  have hafter : ∀ f ∈ frags.dropWhile (fun f => decide (f.lo ≤ pos)), pos < f.lo :=
    fun f h => hf.lt_lo_of_mem_dropWhile h
  have hparts := List.takeWhile_append_dropWhile (p := fun f => decide (f.lo ≤ pos)) (l := frags)
  unfold split
  cases hlast : (frags.takeWhile fun f => decide (f.lo ≤ pos)).getLast? with
  | none =>
    simp only [hlast]
    refine ⟨hf, fun _ => trivial, fun f hmem hlt => ?_⟩
    rw [List.getLast?_eq_none_iff.1 hlast, List.nil_append] at hparts
    rw [← hparts] at hmem
    exact absurd hlt (lt_asymm (hafter f hmem))
  | some prev =>
    obtain ⟨init, hinit⟩ := List.getLast?_eq_some_iff.1 hlast
    rw [hinit, List.append_assoc] at hparts
    generalize frags.dropWhile (fun f => decide (f.lo ≤ pos)) = after at hafter hparts
    subst hparts
    obtain ⟨hoi, hop, hip⟩ := ordered_append.1 hf
    simp only [List.singleton_append] at hop hip
    obtain ⟨hprev, hpa, hoa⟩ := ordered_cons.1 hop
    have hle : prev.lo ≤ pos := by
      have : prev ∈ (init ++ ([prev] ++ after)).takeWhile fun f => decide (f.lo ≤ pos) := by
        rw [hinit]; simp
      simpa using List.mem_takeWhile_imp this
    simp only [hinit, List.dropLast_concat, List.getLast?_concat]
    split
    · rename_i hs
      refine ⟨ordered_append.2 ⟨hoi, ordered_cons.2 ⟨hs.1, ?_, ordered_cons.2 ⟨hs.2, hpa, hoa⟩⟩, ?_⟩,
        fun k => ?_, fun f hmem hlt => ?_⟩
      · intro g hg
        rcases List.mem_cons.1 hg with rfl | hg
        · exact le_rfl
        · exact (hafter g hg).le
      · intro f hfi g hg
        rcases List.mem_cons.1 hg with rfl | hg
        · exact hip f hfi prev (by simp)
        · rcases List.mem_cons.1 hg with rfl | hg
          · exact (hip f hfi prev (by simp)).trans hle
          · exact hip f hfi g (by simp [hg])
      · rw [at?_append, at?_append, at?_cut hs.1.le hs.2.le, List.singleton_append]
      · rcases List.mem_append.1 hmem with hm | hm
        · exact (hip f hm prev (by simp)).trans hle
        · rcases List.mem_cons.1 hm with rfl | hm
          · exact le_rfl
          · rcases List.mem_cons.1 hm with rfl | hm
            · exact absurd hlt (lt_irrefl _)
            · exact absurd hlt (lt_asymm (hafter f hm))
    · rename_i hs
      refine ⟨hf, fun _ => rfl, fun f hmem hlt => ?_⟩
      rcases List.mem_append.1 hmem with hm | hm
      · exact (hip f hm prev (by simp)).trans hle
      · rcases List.mem_cons.1 hm with rfl | hm
        · exact not_lt.1 fun hc => hs ⟨hlt, hc⟩
        · exact absurd hlt (lt_asymm (hafter f hm))

/-- `R` is `rest` with the number added on `[pos, stop)`; it starts at `pos` or later. -/
structure Added (seq : Nat) (pos stop : K) (rest R : List (Frag K (List Nat))) : Prop where
  ordered : Ordered R
  le_lo : ∀ f ∈ R, pos ≤ f.lo
  data : ∀ k, at? R k =
    if pos ≤ k ∧ k < stop then some (insertSeq seq (seqsAt rest k)) else at? rest k

theorem addAt_spec {seq : Nat} {stop : K} {f : Frag K (List Nat)}
    {fs next : List (Frag K (List Nat))} (ho : Ordered (f :: fs)) (hlt : f.lo < stop)
    (hnext : Added seq f.hi stop fs next) :
    Added seq f.lo stop (f :: fs) (addAt seq stop f fs next) := by
  obtain ⟨hf, hfs, hofs⟩ := ordered_cons.1 ho
  unfold addAt
  split
  · rename_i hs
    refine ⟨ordered_cons.2 ⟨hlt, ?_, ordered_cons.2 ⟨hs, hfs, hofs⟩⟩, ?_, fun k => ?_⟩
    · intro g hg
      rcases List.mem_cons.1 hg with rfl | hg
      · exact le_rfl
      · exact hs.le.trans (hfs g hg)
    · intro g hg
      rcases List.mem_cons.1 hg with rfl | hg
      · exact le_rfl
      · rcases List.mem_cons.1 hg with rfl | hg
        · exact hlt.le
        · exact hf.le.trans (hfs g hg)
    · by_cases h1 : f.lo ≤ k ∧ k < stop
      · simp [at?_cons, Frag.Has, seqsAt, h1, h1.2.trans hs]
      · have h2 : (stop ≤ k ∧ k < f.hi) ↔ (f.lo ≤ k ∧ k < f.hi) :=
          ⟨fun h => ⟨hlt.le.trans h.1, h.2⟩, fun h => ⟨not_lt.1 fun h' => h1 ⟨h.1, h'⟩, h.2⟩⟩
        simp [at?_cons, Frag.Has, h1, h2]
  · rename_i hs
    refine ⟨ordered_cons.2 ⟨hf, hnext.le_lo, hnext.ordered⟩, ?_, fun k => ?_⟩
    · intro g hg
      rcases List.mem_cons.1 hg with rfl | hg
      · exact le_rfl
      · exact hf.le.trans (hnext.le_lo g hg)
    · have hle := not_lt.1 hs
      rcases lt_or_ge k f.hi with hk | hk
      · by_cases h1 : f.lo ≤ k
        · simp [at?_cons, Frag.Has, seqsAt, h1, hk, hk.trans_le hle]
        · simp [at?_cons, Frag.Has, hnext.data, h1, not_le.2 hk]
      · simp [at?_cons, Frag.Has, hnext.data, seqsAt, not_lt.2 hk, hk, hf.le.trans hk]

/-- **The loop** adds the number on `[pos, stop)` and changes nothing else. -/
theorem addFrom_spec (seq : Nat) (stop : K) {rest : List (Frag K (List Nat))}
    (ho : Ordered rest) {pos : K} (hpos : ∀ f ∈ rest, pos ≤ f.lo) :
    Added seq pos stop rest (addFrom seq stop pos rest) := by
  induction rest generalizing pos with
  | nil =>
    unfold addFrom
    split
    · rename_i hs
      refine ⟨ordered_cons.2 ⟨hs, by simp, .nil⟩, by simp, fun k => ?_⟩
      simp [at?_cons, Frag.Has, seqsAt, insertSeq]
    · rename_i hs
      refine ⟨.nil, by simp, fun k => ?_⟩
      rw [if_neg fun h => hs (h.1.trans_lt h.2)]
  | cons f fs ih =>
    obtain ⟨hf, hfs, hofs⟩ := ordered_cons.1 ho
    have hnext : Added seq f.hi stop fs (addFrom seq stop f.hi fs) := ih hofs hfs
    unfold addFrom
    split
    · rename_i hs
      split
      · rename_i hgap
        split
        · rename_i hin
          have hat := addAt_spec ho hin hnext
          refine ⟨ordered_cons.2 ⟨hgap, hat.le_lo, hat.ordered⟩, ?_, fun k => ?_⟩
          · intro g hg
            rcases List.mem_cons.1 hg with rfl | hg
            · exact le_rfl
            · exact hgap.le.trans (hat.le_lo g hg)
          · rw [at?_cons, hat.data]
            simp only [Frag.Has]
            rcases lt_or_ge k f.lo with hk | hk
            · have hno : at? (f :: fs) k = none := by
                refine at?_none fun g hg => ?_
                rcases List.mem_cons.1 hg with rfl | hg
                · exact not_has_of_lt hk
                · exact not_has_of_lt (hk.trans (hf.trans_le (hfs g hg)))
              by_cases h1 : pos ≤ k
              · simp [h1, hk, hk.trans hin, seqsAt, hno, insertSeq]
              · simp [h1, not_le.2 hk, hno]
            · simp [not_lt.2 hk, hk, hgap.le.trans hk]
        · rename_i hin
          have hle := not_lt.1 hin
          refine ⟨ordered_cons.2 ⟨hs, ?_, ho⟩, ?_, fun k => ?_⟩
          · intro g hg
            rcases List.mem_cons.1 hg with rfl | hg
            · exact hle
            · exact hle.trans (hf.le.trans (hfs g hg))
          · intro g hg
            rcases List.mem_cons.1 hg with rfl | hg
            · exact le_rfl
            · exact hpos g hg
          · rw [at?_cons]
            by_cases hk : pos ≤ k ∧ k < stop
            · have hno : at? (f :: fs) k = none := by
                refine at?_none fun g hg => not_has_of_lt ((hk.2.trans_le hle).trans_le ?_)
                rcases List.mem_cons.1 hg with rfl | hg
                · exact le_rfl
                · exact hf.le.trans (hfs g hg)
              simp [Frag.Has, hk, seqsAt, hno, insertSeq]
            · simp only [Frag.Has, hk, if_false]
      · rename_i hgap
        have heq : f.lo = pos := le_antisymm (not_lt.1 hgap) (hpos f (by simp))
        have hat := addAt_spec ho (heq ▸ hs) hnext
        rw [heq] at hat
        exact hat
    · rename_i hs
      refine ⟨ho, hpos, fun k => ?_⟩
      rw [if_neg fun h => hs (h.1.trans_lt h.2)]

/-- **`Add`** puts the number on the keys of the range. -/
theorem addFrags_spec {frags : List (Frag K (List Nat))} (ho : Ordered frags)
    (beginKey endKey : K) (seq : Nat) :
    Ordered (addFrags frags beginKey endKey seq) ∧
      ∀ k, seqsAt (addFrags frags beginKey endKey seq) k =
        if beginKey ≤ k ∧ k < endKey then insertSeq seq (seqsAt frags k) else seqsAt frags k := by
  unfold addFrags
  split
  · rename_i hle
    exact ⟨ho, fun k => by rw [if_neg fun h => (h.1.trans_lt h.2).not_ge hle]⟩
  · obtain ⟨hos, hat, hcut⟩ := split_spec ho beginKey
    have hparts := List.takeWhile_append_dropWhile
      (p := fun f => decide (f.lo < beginKey)) (l := split beginKey frags)
    simp only
    generalize split beginKey frags = fs at hos hat hcut hparts ⊢
    have hbefore : ∀ f ∈ fs.takeWhile (fun f => decide (f.lo < beginKey)), f.hi ≤ beginKey := by
      intro f hf
      exact hcut f ((List.takeWhile_subset _) hf) (by simpa using List.mem_takeWhile_imp hf)
    have hrest : ∀ f ∈ fs.dropWhile (fun f => decide (f.lo < beginKey)), beginKey ≤ f.lo :=
      fun f hf => hos.le_lo_of_mem_dropWhile hf
    rw [← hparts] at hos
    obtain ⟨hob, hor, -⟩ := ordered_append.1 hos
    have hadd := addFrom_spec seq endKey hor hrest
    refine ⟨ordered_append.2 ⟨hob, hadd.ordered, fun f hf g hg =>
      (hbefore f hf).trans (hadd.le_lo g hg)⟩, fun k => ?_⟩
    have hk : at? frags k = (at? (fs.takeWhile fun f => decide (f.lo < beginKey)) k).or
        (at? (fs.dropWhile fun f => decide (f.lo < beginKey)) k) := by
      rw [← at?_append, hparts, hat]
    simp only [seqsAt, at?_append, hadd.data, hk]
    rcases lt_or_ge k beginKey with h | h
    · simp [not_le.2 h]
    · have hno : at? (fs.takeWhile fun f => decide (f.lo < beginKey)) k = none :=
        at?_none fun f hf => not_has_of_le ((hbefore f hf).trans h)
      rw [hno]
      by_cases h' : k < endKey <;> simp [h, h']

end RangeDelMap

/-! ## The map -/

/-- Fragmented tombstones, kept up to date as tombstones arrive. -/
structure RangeDelMap (K : Type) [LinearOrder K] where
  frags : List (Frag K (List Nat))
  ordered : Ordered frags

namespace RangeDelMap

def empty : RangeDelMap K := ⟨[], .nil⟩

/-- `RangeDelMap::Add`. -/
def add (m : RangeDelMap K) (beginKey endKey : K) (seq : Nat) : RangeDelMap K :=
  ⟨addFrags m.frags beginKey endKey seq, (addFrags_spec m.ordered beginKey endKey seq).1⟩

/-- The fragment that has the key: the last one that starts at or before it, if it ends after
it. -/
def find (m : RangeDelMap K) (userKey : K) : Option (Frag K (List Nat)) :=
  (m.frags.takeWhile fun f => f.lo ≤ userKey).getLast?.filter fun f => userKey < f.hi

/-- The largest number visible at the snapshot, 0 if there is none. -/
def best (seqs : List Nat) (snapshot : Nat) : Nat := (seqs.find? (· ≤ snapshot)).elim 0 id

def maxCovering (m : RangeDelMap K) (userKey : K) (snapshot : Nat) : Nat :=
  (m.find userKey).elim 0 fun f => best f.data snapshot

def coveredRange (m : RangeDelMap K) (userKey : K) (snapshot : Nat) : Option (K × K) :=
  match m.find userKey with
  | some f => if best f.data snapshot = 0 then none else some (f.lo, f.hi)
  | none => none

/-- The map after a list of tombstones, oldest first. -/
def ofTombstones (ts : List (RangeTombstone K)) : RangeDelMap K :=
  ts.foldl (fun m t => m.add t.beginKey t.endKey t.seq) empty

theorem insertSeq_perm (seq : Nat) (v : List Nat) : (insertSeq seq v).Perm (seq :: v) := by
  unfold insertSeq
  refine List.perm_middle.trans ?_
  rw [List.takeWhile_append_dropWhile]

theorem insertSeq_desc (seq : Nat) {v : List Nat} (hv : v.Pairwise (· ≥ ·)) :
    (insertSeq seq v).Pairwise (· ≥ ·) := by
  unfold insertSeq
  induction v with
  | nil => simp
  | cons a v ih =>
    rw [List.pairwise_cons] at hv
    by_cases ha : seq ≤ a
    · rw [List.takeWhile_cons_of_pos (by simpa using ha),
        List.dropWhile_cons_of_pos (by simpa using ha), List.cons_append, List.pairwise_cons]
      refine ⟨fun b hb => ?_, ih hv.2⟩
      have : b ∈ insertSeq seq v := hb
      rcases List.mem_cons.1 ((insertSeq_perm seq v).mem_iff.1 this) with rfl | hb
      · exact ha
      · exact hv.1 b hb
    · rw [List.takeWhile_cons_of_neg (by simpa using ha),
        List.dropWhile_cons_of_neg (by simpa using ha), List.nil_append, List.pairwise_cons,
        List.pairwise_cons]
      refine ⟨fun b hb => ?_, hv⟩
      rcases List.mem_cons.1 hb with rfl | hb
      · exact (not_le.1 ha).le
      · exact (hv.1 b hb).trans (not_le.1 ha).le

/-- After any tombstones, the numbers at a key are those of the tombstones covering it, largest
first. -/
theorem seqsAt_foldl (ts : List (RangeTombstone K)) (m : RangeDelMap K) (k : K)
    (hm : (seqsAt m.frags k).Pairwise (· ≥ ·)) :
    let m' := ts.foldl (fun m t => m.add t.beginKey t.endKey t.seq) m
    (seqsAt m'.frags k).Pairwise (· ≥ ·) ∧
      (seqsAt m'.frags k).Perm
        ((ts.filter fun t => t.Covers k).map (·.seq) ++ seqsAt m.frags k) := by
  induction ts generalizing m with
  | nil => exact ⟨hm, by simp⟩
  | cons t ts ih =>
    have hadd := (addFrags_spec m.ordered t.beginKey t.endKey t.seq).2 k
    have hdesc : (seqsAt (m.add t.beginKey t.endKey t.seq).frags k).Pairwise (· ≥ ·) := by
      simp only [add, hadd]
      split
      · exact insertSeq_desc _ hm
      · exact hm
    obtain ⟨h1, h2⟩ := ih (m.add t.beginKey t.endKey t.seq) hdesc
    refine ⟨h1, h2.trans ?_⟩
    simp only [add, hadd]
    by_cases hc : t.Covers k
    · have hc' : t.beginKey ≤ k ∧ k < t.endKey := hc
      rw [List.filter_cons_of_pos (by simpa using hc), if_pos hc', List.map_cons, List.cons_append]
      exact ((insertSeq_perm _ _).append_left _).trans List.perm_middle
    · have hc' : ¬ (t.beginKey ≤ k ∧ k < t.endKey) := hc
      rw [List.filter_cons_of_neg (by simpa using hc), if_neg hc']

/-- **`MaxCovering`** is the largest number at or below the snapshot among the tombstones that
cover the key. -/
theorem maxCovering_ofTombstones (ts : List (RangeTombstone K)) (k : K) (snapshot : Nat) :
    (ofTombstones ts).maxCovering k snapshot =
      maxSeq ((ts.filter fun t => t.Covers k ∧ t.seq ≤ snapshot).map (·.seq)) := by
  obtain ⟨hdesc, hperm⟩ := seqsAt_foldl ts empty k (by simp [seqsAt, empty])
  change (seqsAt (ofTombstones ts).frags k).Pairwise (· ≥ ·) at hdesc
  change (seqsAt (ofTombstones ts).frags k).Perm _ at hperm
  have hbest : (ofTombstones ts).maxCovering k snapshot =
      best (seqsAt (ofTombstones ts).frags k) snapshot := by
    unfold maxCovering find seqsAt at?
    rw [lastLe_eq (ofTombstones ts).ordered]
    cases (ofTombstones ts).frags.find? fun f => decide (f.Has k) <;> rfl
  rw [hbest, best, find?_eq_maxSeq id (· ≤ snapshot) hdesc]
  have hperm' : (seqsAt (ofTombstones ts).frags k).Perm
      ((ts.filter fun t => t.Covers k).map (·.seq)) := by
    simpa [seqsAt, empty] using hperm
  rw [List.map_id, maxSeq_perm (hperm'.filter _), List.filter_map, List.filter_filter]
  congr 3
  funext t
  simp [and_comm]

end RangeDelMap
end LevelDb
