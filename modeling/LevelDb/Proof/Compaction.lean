import LevelDb.Db.Counter
import LevelDb.Proof.CompactOutputs
import Mathlib.Data.Fintype.Basic

/-!
# A compaction is invisible

`read_doCompactionWork`: with newer data above and older data below, replacing the inputs of a
compaction by its outputs leaves what every reader makes of every key, at every live snapshot and
at every sequence number from the last one on; nor does a reader tell them apart by what is written
on top of them later (`sameBottom_doCompactionWork`). `seqsAt_outputLayer`: at a key, the outputs
have only sequence numbers the inputs have.

A reader sees a stripe whole or not at all (`le_of_bound`). One it sees is either hidden whole, by
a tombstone above it that is kept (`stripe_hidden`), or has hidden exactly the entries that
`cover` rewrites (`stripe_open`), and then it reads the same by `compactStripe_same`.
-/

namespace LevelDb.Compaction

open Mvcc Runs

variable {K V : Type} [LinearOrder K]

/-- What the input files hold. -/
def inputLayer (c : Compaction K V) : Layer K V := .concat (c.inputs.map (·.layer))

def Output.layer (o : Output K V) : Layer K V := ⟨o.entries, o.tombstones⟩

/-- What the outputs hold. -/
def outputLayer (c : Compaction K V) : Layer K V := .concat (c.doCompactionWork.map Output.layer)

/-- What a compaction may rely on; `older` is what the deeper levels hold. -/
structure Sound (c : Compaction K V) (older : Layer K V) : Prop where
  snapshots : c.snapshots.Pairwise (· ≤ ·)
  distinct : c.inputLayer.entries.Pairwise fun a b =>
    a.key.userKey = b.key.userKey → a.key.sequence ≠ b.key.sequence
  seqs_le : ∀ k, ∀ s ∈ c.inputLayer.seqsAt k, s ≤ c.lastSequence
  last_le : c.lastSequence ≤ kMaxSequenceNumber
  baseKey : ∀ k, c.isBaseLevelForKey k = true → ∀ e ∈ older.entries, e.key.userKey ≠ k
  baseRange : ∀ b m, c.isBaseLevelForRange b m = true →
    ∀ e ∈ older.entries, ¬ (b ≤ e.key.userKey ∧ e.key.userKey < m)
  laws : ∀ op, c.mergeOp = some op → ∀ k, Laws (op.fullMerge k) (op.partialMerge k)

variable {c : Compaction K V} {k : K}

/-! ## Inputs and outputs at a key -/

/-- The group of a key. -/
def group (c : Compaction K V) (k : K) : List (Entry K V) :=
  c.input.filter fun e => e.key.userKey = k

theorem mem_group {e : Entry K V} :
    e ∈ c.group k ↔ e ∈ c.inputLayer.entries ∧ e.key.userKey = k := by
  simp [group, input, inputLayer, Layer.concat, List.flatMap_map]

/-- **The outputs' entries of a key** are what its group compacts to. -/
theorem outputs_filter (c : Compaction K V) (k : K) :
    c.outputLayer.entries.filter (fun e => e.key.userKey = k) = c.compactGroup (c.group k) := by
  have hentries : c.outputLayer.entries = c.doCompactionWork.flatMap (·.entries) := by
    simp [outputLayer, Layer.concat, List.flatMap_map, Output.layer]
  have hsorted : c.input.Pairwise fun a b => a.key.userKey ≤ b.key.userKey :=
    c.input_sorted.imp fun h => userKey_le h
  rw [hentries, c.doCompactionWork_written.1, flatMap_runs_filter hsorted]
  · change (if c.group k = [] then [] else c.compactGroup (c.group k)) = _
    split
    · rename_i h
      rw [h]
      rfl
    · rfl
  · intro g hg o ho a ha
    obtain ⟨e, he, hof⟩ := mem_compactGroup (fun e he => eq_of_mem_run hg he ha) ho
    rw [hof.1]
    exact eq_of_mem_run hg he ha

theorem tombSeqs_inputLayer {s : Nat} :
    s ∈ c.inputLayer.tombSeqs k ↔ ∃ t ∈ c.inputTombstones, t.Covers k ∧ t.seq = s := by
  rw [Layer.mem_tombSeqs]
  simp only [inputLayer, Layer.concat, List.mem_flatMap, List.mem_map, inputTombstones]
  constructor
  · rintro ⟨t, ⟨_, ⟨f, hf, rfl⟩, ht⟩, hc, hs⟩
    refine ⟨{ t with layer := 0 }, ⟨f, hf, ?_⟩, hc, hs⟩
    have ht : t ∈ f.tombstones := ht
    rw [if_pos (by simpa [FileMetaData.hasRangeDels] using List.ne_nil_of_mem ht)]
    exact List.mem_map.2 ⟨t, ht, rfl⟩
  · rintro ⟨t, ⟨f, hf, ht⟩, hc, hs⟩
    split at ht
    · obtain ⟨u, hu, rfl⟩ := List.mem_map.1 ht
      exact ⟨u, ⟨_, ⟨f, hf, rfl⟩, hu⟩, hc, hs⟩
    · cases ht

/-- A tombstone in the outputs is part of an input one. -/
theorem tombSeqs_outputLayer {s : Nat} (hs : s ∈ c.outputLayer.tombSeqs k) :
    s ∈ c.inputLayer.tombSeqs k := by
  obtain ⟨u, hu, hc, rfl⟩ := Layer.mem_tombSeqs.1 hs
  simp only [outputLayer, Layer.concat, List.mem_flatMap, List.mem_map] at hu
  obtain ⟨_, ⟨o, ho, rfl⟩, hu⟩ := hu
  obtain ⟨-, t, ht, hseq, hb, he⟩ := c.doCompactionWork_written.2.1.parts o ho u hu
  rw [tombSeqs_inputLayer]
  exact ⟨t, (mem_tombstones ht).1, ⟨hb.trans hc.1, hc.2.trans_le he⟩, hseq.symm⟩

/-- A tombstone of the inputs goes to the outputs, unless every reader sees it and nothing deeper
is in its range. -/
theorem tombSeqs_kept {s : Nat} (hs : s ∈ c.inputLayer.tombSeqs k) :
    s ∈ c.outputLayer.tombSeqs k ∨ s ≤ c.smallestSnapshot ∧
      ∃ b m, c.isBaseLevelForRange b m = true ∧ b ≤ k ∧ k < m := by
  obtain ⟨t, ht, hc, rfl⟩ := tombSeqs_inputLayer.1 hs
  by_cases hdrop : t.seq ≤ c.smallestSnapshot ∧ c.isBaseLevelForRange t.beginKey t.endKey = true
  · exact .inr ⟨hdrop.1, _, _, hdrop.2, hc.1, hc.2⟩
  · left
    have hin : t ∈ c.tombstones := by
      rw [tombstones, List.mem_insertionSort, List.mem_filter]
      exact ⟨ht, by simpa [imp_iff_not_or] using hdrop⟩
    obtain ⟨o, ho, u, hu, hcu, hseq⟩ := c.doCompactionWork_written.2.2 k t hin hc
    refine Layer.mem_tombSeqs.2 ⟨u, ?_, hcu, hseq⟩
    simp only [outputLayer, Layer.concat, List.mem_flatMap, List.mem_map]
    exact ⟨_, ⟨o, ho, rfl⟩, hu⟩

/-- **What comes out at a key was there**: the outputs have no sequence number at a key that the
inputs do not have there. -/
theorem seqsAt_outputLayer {s : Nat} (hs : s ∈ c.outputLayer.seqsAt k) :
    s ∈ c.inputLayer.seqsAt k := by
  rw [Layer.seqsAt, List.mem_append] at hs
  rcases hs with hs | hs
  · rw [outputs_filter] at hs
    have := (seqs_compactGroup c (c.group k)).subset hs
    obtain ⟨e, he, rfl⟩ := List.mem_map.1 this
    obtain ⟨hin, rfl⟩ := mem_group.1 he
    exact Layer.seqsAt_of_entry hin
  · exact Layer.seqsAt_of_tombSeqs (tombSeqs_outputLayer hs)

/-! ## Stripes -/

theorem stripeOf_mono (c : Compaction K V) {s s' : Nat} (h : s ≤ s') :
    c.stripeOf s ≤ c.stripeOf s' := by
  refine List.findIdx_le_findIdx fun x _ hx => ?_
  simp only [decide_eq_true_eq] at hx ⊢
  omega

theorem le_bound {s : Nat} (hs : s ≤ kMaxSequenceNumber) : s ≤ c.bound (c.stripeOf s) := by
  unfold bound
  by_cases hi : c.stripeOf s < c.snapshots.length
  · rw [List.getElem?_eq_getElem hi]
    exact of_decide_eq_true (List.findIdx_getElem (w := hi))
  · rw [List.getElem?_eq_none (Nat.le_of_not_lt hi)]
    exact hs

/-- No reader sees a part of a stripe only: what is at or below the bound of a stripe with a
visible entry is visible. -/
theorem le_of_bound (hsnap : c.snapshots.Pairwise (· ≤ ·)) {r : Nat}
    (hr : r ∈ c.snapshots ∨ c.lastSequence ≤ r) {a s : Nat} (ha : a ≤ r)
    (hs : s ≤ c.bound (c.stripeOf a)) (hlast : s ≤ c.lastSequence) : s ≤ r := by
  rcases hr with hr | hr
  · obtain ⟨j, hj, rfl⟩ := List.mem_iff_getElem.1 hr
    have hle : c.stripeOf a ≤ j := by
      apply Nat.le_of_not_lt
      intro hlt
      exact absurd ha (of_decide_eq_false (List.not_of_lt_findIdx hlt))
    have hi : c.stripeOf a < c.snapshots.length := hle.trans_lt hj
    rw [bound, List.getElem?_eq_getElem hi, Option.getD_some] at hs
    rcases hle.eq_or_lt with heq | hlt
    · simpa [heq] using hs
    · exact hs.trans (List.pairwise_iff_getElem.1 hsnap _ _ hi hj hlt)
  · exact hlast.trans hr

/-- What is above the bound of a stripe is not dropped with the tombstones every reader sees. -/
theorem not_le_smallest (hsnap : c.snapshots.Pairwise (· ≤ ·))
    (hlast : c.lastSequence ≤ kMaxSequenceNumber) {i s : Nat} (hs : c.bound i < s)
    (hsl : s ≤ c.lastSequence) : ¬ s ≤ c.smallestSnapshot := by
  unfold bound at hs
  unfold smallestSnapshot
  intro hle
  cases hsn : c.snapshots with
  | nil =>
    simp only [hsn, List.getElem?_nil, Option.getD_none] at hs
    omega
  | cons a as =>
    rw [hsn, List.head?_cons, Option.getD_some] at hle
    cases hi : c.snapshots[i]? with
    | none =>
      rw [hi, Option.getD_none] at hs
      omega
    | some b =>
      rw [hi, Option.getD_some] at hs
      rw [hsn] at hi hsnap
      cases i with
      | zero =>
        simp only [List.getElem?_cons_zero, Option.some.injEq] at hi
        omega
      | succ i =>
        rw [List.getElem?_cons_succ] at hi
        have := (List.pairwise_cons.1 hsnap).1 b (List.mem_of_getElem? hi)
        omega

/-- `input_rd` covers an entry at a bound when an input tombstone between them covers its key. -/
theorem covers_inputRd {seq b : Nat} :
    c.inputRd.covers k seq b = true ↔ ∃ s ∈ c.inputLayer.tombSeqs k, seq < s ∧ s ≤ b := by
  have hmax : c.inputRd.covers k seq b = true ↔ seq < c.inputRd.maxCovering k b := by
    rw [RangeDelIndex.covers, Bool.and_eq_true, decide_eq_true_iff]
    refine ⟨fun h => h.2, fun h => ⟨?_, h⟩⟩
    cases hf : c.inputRd.fragments with
    | nil =>
      rw [RangeDelIndex.maxCovering, RangeDelIndex.find_eq, hf] at h
      exact absurd h (Nat.not_lt_zero _)
    | cons f fs => rfl
  rw [hmax, inputRd, RangeDelIndex.maxCovering_ofTombstones, lt_maxSeq]
  constructor
  · rintro ⟨s, hs, hlt⟩
    obtain ⟨t, ht, rfl⟩ := List.mem_map.1 hs
    rw [List.mem_filter, decide_eq_true_iff] at ht
    exact ⟨t.seq, tombSeqs_inputLayer.2 ⟨t, ht.1, ht.2.1, rfl⟩, hlt, ht.2.2.1⟩
  · rintro ⟨s, hs, hlt, hle⟩
    obtain ⟨t, ht, hc, rfl⟩ := tombSeqs_inputLayer.1 hs
    refine ⟨t.seq, List.mem_map.2 ⟨t, List.mem_filter.2 ⟨ht, decide_eq_true ⟨hc, hle, ?_⟩⟩, rfl⟩,
      hlt⟩
    obtain ⟨f, -, ht⟩ := List.mem_flatMap.1 ht
    split at ht
    · obtain ⟨u, -, rfl⟩ := List.mem_map.1 ht
      exact (by decide : 0 < kAllLayers)
    · cases ht

/-! ## What a reader sees of the inputs and of the outputs -/

theorem filter_visible (es : List (Entry K V)) (k : K) (r : Nat) :
    (es.filter fun e => Visible k r e) =
      (es.filter fun e => e.key.userKey = k).filter fun e => e.key.sequence ≤ r := by
  rw [List.filter_filter]
  refine List.filter_congr fun e _ => ?_
  rw [Bool.eq_iff_iff, Bool.and_eq_true, decide_eq_true_iff, decide_eq_true_iff, decide_eq_true_iff]
  exact and_comm

/-- The entries of a key in the inputs are newest first. -/
theorem group_sorted (c : Compaction K V) (k : K) :
    (c.group k).Pairwise fun a b => b.key.sequence ≤ a.key.sequence := by
  refine (c.input_sorted.filter _).imp_of_mem fun {a b} ha hb hab => ?_
  exact sequence_le hab ((mem_group.1 ha).2.trans (mem_group.1 hb).2.symm)

/-- What a reader sees of a key in the inputs. -/
theorem inputLayer_visible (h : c.inputLayer.Distinct) (k : K) (r : Nat) :
    (c.inputLayer.entries.filter fun e => Visible k r e).insertionSort
        (fun a b => b.key.sequence ≤ a.key.sequence) =
      (c.group k).filter fun e => e.key.sequence ≤ r := by
  have hperm : c.inputLayer.entries.Perm (⟨c.input, []⟩ : Layer K V).entries := by
    have hentries : c.inputLayer.entries = c.inputs.flatMap fun f => f.table.entries := by
      simp [inputLayer, Layer.concat, List.flatMap_map]
    rw [hentries]
    exact (List.perm_insertionSort _ _).symm
  rw [h.sorted_eq hperm, filter_visible]
  exact ((group_sorted c k).filter _).insertionSort_eq

/-- What a reader sees of a key in the outputs. -/
theorem outputLayer_visible (c : Compaction K V) (k : K) (r : Nat) :
    (c.outputLayer.entries.filter fun e => Visible k r e).insertionSort
        (fun a b => b.key.sequence ≤ a.key.sequence) =
      (c.compactGroup (c.group k)).filter fun e => e.key.sequence ≤ r := by
  have hsorted : ((c.compactGroup (c.group k)).map (·.key.sequence)).Pairwise fun a b => b ≤ a :=
    (List.pairwise_map.2 (group_sorted c k)).sublist (seqs_compactGroup c (c.group k))
  rw [filter_visible, outputs_filter]
  exact ((List.pairwise_map.1 hsorted).filter _).insertionSort_eq

/-! ## A reader at a stripe -/

/-- What a family holds with this in the place of the compacted files. -/
def around (newer older l : Layer K V) : Layer K V := .concat [newer, l, older]

section

variable {newer older : Layer K V} {r : Nat}

theorem hidden_around {l : Layer K V} {seq : Nat} :
    Hidden (around newer older l).tombstones k r seq ↔
      ∃ s, (s ∈ newer.tombSeqs k ∨ s ∈ l.tombSeqs k ∨ s ∈ older.tombSeqs k) ∧ seq < s ∧ s ≤ r := by
  rw [Layer.hidden_iff]
  refine exists_congr fun s => and_congr_left fun _ => ?_
  rw [around, Layer.tombSeqs_concat]
  simp

variable (h : c.Sound older)
  (hages : [newer, c.inputLayer, older].Pairwise Layer.NewerThan)
  (hr : r ∈ c.snapshots ∨ c.lastSequence ≤ r)

include h hages

/-- A tombstone above a stripe hides it whole, and what it compacts to as well. -/
theorem stripe_hidden {a s : Nat} (hs : s ∈ newer.tombSeqs k ∨
      s ∈ c.inputLayer.tombSeqs k ∧ c.bound (c.stripeOf a) < s) (hsr : s ≤ r) {seq : Nat}
    (hseq : seq ∈ c.inputLayer.seqsAt k) (hstripe : c.stripeOf seq = c.stripeOf a) :
    Hidden (around newer older c.inputLayer).tombstones k r seq ∧
      Hidden (around newer older c.outputLayer).tombstones k r seq := by
  rw [hidden_around, hidden_around]
  simp only [List.pairwise_cons] at hages
  rcases hs with hs | ⟨hs, hb⟩
  · have hlt := hages.1 _ (by simp) k s (Layer.seqsAt_of_tombSeqs hs) seq hseq
    exact ⟨⟨s, .inl hs, hlt, hsr⟩, ⟨s, .inl hs, hlt, hsr⟩⟩
  · have hsl := h.seqs_le k s (Layer.seqsAt_of_tombSeqs hs)
    have hseql := (h.seqs_le k seq hseq).trans h.last_le
    have hlt : seq < s := by
      have := le_bound (c := c) hseql
      rw [hstripe] at this
      omega
    have hkept : s ∈ c.outputLayer.tombSeqs k := by
      rcases tombSeqs_kept hs with hkept | ⟨hle, -⟩
      · exact hkept
      · exact absurd hle (not_le_smallest h.snapshots h.last_le hb hsl)
    exact ⟨⟨s, .inr (.inl hs), hlt, hsr⟩, ⟨s, .inr (.inl hkept), hlt, hsr⟩⟩

include hr

/-- With no tombstone above a visible stripe, an entry is hidden exactly when `cover` rewrites
it, and what comes out is hidden only if it is rewritten. -/
theorem stripe_open {a : Nat} (ha : a ≤ r)
    (hnone : ∀ s ≤ r, s ∉ newer.tombSeqs k ∧
      (s ∈ c.inputLayer.tombSeqs k → s ≤ c.bound (c.stripeOf a)))
    {seq : Nat} (hseq : seq ∈ c.inputLayer.seqsAt k) :
    (Hidden (around newer older c.inputLayer).tombstones k r seq ↔
        c.inputRd.covers k seq (c.bound (c.stripeOf a)) = true) ∧
      (Hidden (around newer older c.outputLayer).tombstones k r seq →
        c.inputRd.covers k seq (c.bound (c.stripeOf a)) = true) := by
  rw [hidden_around, hidden_around, covers_inputRd]
  simp only [List.pairwise_cons] at hages
  have hold : ∀ s ∈ older.tombSeqs k, s < seq := fun s hs =>
    hages.2.1 _ (by simp) k seq hseq s (Layer.seqsAt_of_tombSeqs hs)
  refine ⟨⟨?_, ?_⟩, ?_⟩
  · rintro ⟨s, hs | hs | hs, hlt, hle⟩
    · exact absurd hs (hnone s hle).1
    · exact ⟨s, hs, hlt, (hnone s hle).2 hs⟩
    · have := hold s hs
      omega
  · rintro ⟨s, hs, hlt, hle⟩
    have hsl := h.seqs_le k s (Layer.seqsAt_of_tombSeqs hs)
    exact ⟨s, .inr (.inl hs), hlt, le_of_bound h.snapshots hr ha hle hsl⟩
  · rintro ⟨s, hs | hs | hs, hlt, hle⟩
    · exact absurd hs (hnone s hle).1
    · have hs := tombSeqs_outputLayer hs
      exact ⟨s, hs, hlt, (hnone s hle).2 hs⟩
    · have := hold s hs
      omega

/-- The entries of one stripe of a key. -/
structure Striped (c : Compaction K V) (k : K) (newest : Entry K V) (rest : List (Entry K V)) :
    Prop where
  group : ∀ e ∈ newest :: rest, e ∈ c.group k
  stripe : ∀ e ∈ newest :: rest, c.stripeOf e.key.sequence = c.stripeOf newest.key.sequence

namespace Striped

variable {newest : Entry K V} {rest : List (Entry K V)} {base last : Bool}

omit h hages hr in
theorem key (hs : Striped c k newest rest) : ∀ e ∈ newest :: rest, e.key.userKey = k :=
  fun e he => (mem_group.1 (hs.group e he)).2

omit h hages hr in
theorem seqs (hs : Striped c k newest rest) :
    ∀ e ∈ newest :: rest, e.key.sequence ∈ c.inputLayer.seqsAt k :=
  fun e he => hs.key e he ▸ Layer.seqsAt_of_entry (mem_group.1 (hs.group e he)).1

omit h hages hr in
/-- Where an entry of what a stripe compacts to comes from. -/
theorem exists_cover (hs : Striped c k newest rest) {o : Entry K V}
    (ho : o ∈ c.compactStripe base last (newest :: rest)) : o.key.userKey = k ∧
      ∃ e ∈ newest :: rest, o.key.sequence = e.key.sequence ∧
        (o = c.cover (c.bound (c.stripeOf newest.key.sequence)) e ∨
          (c.cover (c.bound (c.stripeOf newest.key.sequence)) e).key.type = .merge) := by
  obtain ⟨h1, _, hcov, h2, h3⟩ := mem_compactStripe hs.key ho
  obtain ⟨e, he, rfl⟩ := List.mem_map.1 hcov
  refine ⟨h1, e, he, by simpa using h2, ?_⟩
  rcases h3 with h3 | h3
  · exact .inl h3
  · exact .inr h3.1

omit hages in
/-- The reader sees all of the stripe or nothing. -/
theorem visible_iff (hs : Striped c k newest rest) :
    ∀ e ∈ newest :: rest, (e.key.sequence ≤ r ↔ newest.key.sequence ≤ r) := by
  have hbound : ∀ a ∈ newest :: rest, ∀ b ∈ newest :: rest, a.key.sequence ≤ r →
      b.key.sequence ≤ r := by
    intro a ha b hb har
    have hle := h.seqs_le k _ (hs.seqs b hb)
    refine le_of_bound h.snapshots hr har ?_ hle
    rw [hs.stripe a ha, ← hs.stripe b hb]
    exact le_bound (hle.trans h.last_le)
  exact fun e he => ⟨hbound e he newest List.mem_cons_self, hbound newest List.mem_cons_self e he⟩

omit hr in
/-- Under a tombstone above it, a stripe and what it compacts to hide what is below. -/
theorem same_of_hidden (hs : Striped c k newest rest)
    (hlast : c.stripeOf newest.key.sequence = 0 → last = true)
    (hup : ∃ s ≤ r, s ∈ newer.tombSeqs k ∨
      s ∈ c.inputLayer.tombSeqs k ∧ c.bound (c.stripeOf newest.key.sequence) < s) :
    SameOver (foldOf c.mergeOp k) (last = true ∧ base = true)
      ((newest :: rest).map (versionOp (around newer older c.inputLayer).tombstones r))
      ((c.compactStripe base last (newest :: rest)).map
        (versionOp (around newer older c.outputLayer).tombstones r)) := by
  obtain ⟨s, hsr, hup⟩ := hup
  have hhide : ∀ e ∈ newest :: rest,
      Hidden (around newer older c.inputLayer).tombstones k r e.key.sequence ∧
      Hidden (around newer older c.outputLayer).tombstones k r e.key.sequence :=
    fun e he => stripe_hidden h hages hup hsr (hs.seqs e he) (hs.stripe e he)
  have hbefore : versionOp (around newer older c.inputLayer).tombstones r newest = .delete := by
    rw [versionOp, if_pos]
    rw [hs.key newest List.mem_cons_self]
    exact (hhide newest List.mem_cons_self).1
  have hafter : ∀ o ∈ c.compactStripe base last (newest :: rest),
      versionOp (around newer older c.outputLayer).tombstones r o = .delete := by
    intro o ho
    obtain ⟨hk, e, he, hseq, -⟩ := hs.exists_cover ho
    rw [versionOp, if_pos]
    rw [hk, hseq]
    exact (hhide e he).2
  rw [List.map_cons, hbefore]
  cases hout : c.compactStripe base last (newest :: rest) with
  | nil =>
    obtain ⟨hzero, hbase⟩ := compactStripe_ne_nil hout
    exact .inr ⟨⟨hlast hzero, hbase⟩, sameBottom_delete _⟩
  | cons o os =>
    rw [List.map_cons, hafter o (by simp [hout])]
    exact .inl (same_delete _ _)

/-- Without one, `cover` alone hides entries of the stripe. -/
theorem same_of_open (hs : Striped c k newest rest) (hv : newest.key.sequence ≤ r)
    (hlast : c.stripeOf newest.key.sequence = 0 → last = true)
    (hnone : ∀ s ≤ r, s ∉ newer.tombSeqs k ∧
      (s ∈ c.inputLayer.tombSeqs k → s ≤ c.bound (c.stripeOf newest.key.sequence))) :
    SameOver (foldOf c.mergeOp k) (last = true ∧ base = true)
      ((newest :: rest).map (versionOp (around newer older c.inputLayer).tombstones r))
      ((c.compactStripe base last (newest :: rest)).map
        (versionOp (around newer older c.outputLayer).tombstones r)) := by
  have hopen := fun e he => stripe_open h hages hr hv hnone (hs.seqs e he)
  have hbefore : (newest :: rest).map (versionOp (around newer older c.inputLayer).tombstones r) =
      ((newest :: rest).map (c.cover (c.bound (c.stripeOf newest.key.sequence)))).map Entry.op := by
    rw [List.map_map]
    refine List.map_congr_left fun e he => ?_
    simp only [versionOp, Function.comp, cover, hs.key e he, (hopen e he).1]
    by_cases hcov : c.inputRd.covers k e.key.sequence
        (c.bound (c.stripeOf newest.key.sequence)) = true
    · cases ht : e.key.type <;> simp [hcov, Entry.op, ht]
    · simp [hcov]
  have hafter : (c.compactStripe base last (newest :: rest)).map
      (versionOp (around newer older c.outputLayer).tombstones r) =
        (c.compactStripe base last (newest :: rest)).map Entry.op := by
    refine List.map_congr_left fun o ho => ?_
    obtain ⟨hk, e, he, hseq, hof⟩ := hs.exists_cover ho
    rw [versionOp]
    split
    · rename_i hhid
      rw [hk, hseq] at hhid
      have hcov := (hopen e he).2 hhid
      -- a covered entry is a deletion already
      have hdel : (c.cover (c.bound (c.stripeOf newest.key.sequence)) e).key.type = .deletion := by
        unfold cover
        rw [hs.key e he]
        by_cases ht : e.key.type = .deletion
        · simp [ht]
        · simp [ht, hcov]
      rcases hof with rfl | hof
      · unfold Entry.op
        rw [hdel]
      · exact absurd (hof.symm.trans hdel) (by decide)
    · rfl
  rw [hbefore, hafter]
  exact compactStripe_same (fun op hop => h.laws op hop k) (hs.key newest List.mem_cons_self) hlast

end Striped

/-- **One stripe, one reader**: what the reader makes of the stripe and of what it compacts to. -/
theorem stripe_same (base last : Bool) {newest : Entry K V} {rest : List (Entry K V)}
    (hs : Striped c k newest rest) (hlast : c.stripeOf newest.key.sequence = 0 → last = true) :
    SameOver (foldOf c.mergeOp k) (last = true ∧ base = true)
      (((newest :: rest).filter fun e => e.key.sequence ≤ r).map
        (versionOp (around newer older c.inputLayer).tombstones r))
      (((c.compactStripe base last (newest :: rest)).filter fun e => e.key.sequence ≤ r).map
        (versionOp (around newer older c.outputLayer).tombstones r)) := by
  have hvis := hs.visible_iff h hr
  by_cases hv : newest.key.sequence ≤ r
  · rw [List.filter_eq_self.2 fun e he => decide_eq_true ((hvis e he).2 hv),
      List.filter_eq_self.2 fun o ho => ?_]
    swap
    · obtain ⟨-, e, he, hseq, -⟩ := hs.exists_cover ho
      exact decide_eq_true (hseq ▸ (hvis e he).2 hv)
    by_cases hup : ∃ s ≤ r, s ∈ newer.tombSeqs k ∨
        s ∈ c.inputLayer.tombSeqs k ∧ c.bound (c.stripeOf newest.key.sequence) < s
    · exact hs.same_of_hidden h hages hlast hup
    · refine hs.same_of_open h hages hr hv hlast fun s hsr => ?_
      refine ⟨fun hn => hup ⟨s, hsr, .inl hn⟩, fun hi => ?_⟩
      exact Nat.le_of_not_lt fun hlt => hup ⟨s, hsr, .inr ⟨hi, hlt⟩⟩
  · rw [List.filter_eq_nil_iff.2 fun e he => by simpa using mt (hvis e he).1 hv,
      List.filter_eq_nil_iff.2 fun o ho => ?_]
    · exact .inl (Same.refl _)
    · obtain ⟨-, e, he, hseq, -⟩ := hs.exists_cover ho
      rw [hseq]
      simpa using mt (hvis e he).1 hv

/-- The stripes of a group in turn, newest first. -/
theorem stripes_same (base : Bool) (stripes : List (List (Entry K V)))
    (hne : ∀ s ∈ stripes, s ≠ [])
    (hgroup : ∀ s ∈ stripes, ∀ e ∈ s, e ∈ c.group k)
    (hstripe : ∀ s ∈ stripes, ∀ a ∈ s, ∀ b ∈ s, c.stripeKey a = c.stripeKey b)
    (hdown : stripes.Pairwise fun s s' => ∀ a ∈ s, ∀ b ∈ s', c.stripeKey a < c.stripeKey b) :
    SameOver (foldOf c.mergeOp k) (base = true)
      ((stripes.flatten.filter fun e => e.key.sequence ≤ r).map
        (versionOp (around newer older c.inputLayer).tombstones r))
      (((c.compactStripes base stripes).filter fun e => e.key.sequence ≤ r).map
        (versionOp (around newer older c.outputLayer).tombstones r)) := by
  induction stripes with
  | nil => exact .inl (Same.refl _)
  | cons s stripes ih =>
    obtain ⟨newest, rest, rfl⟩ := List.exists_cons_of_ne_nil (hne s (by simp))
    rw [List.pairwise_cons] at hdown
    have hlast : c.stripeOf newest.key.sequence = 0 → stripes.isEmpty = true := by
      intro hzero
      cases stripes with
      | nil => rfl
      | cons s' stripes =>
        obtain ⟨b, hb⟩ := List.exists_mem_of_ne_nil s' (hne s' (by simp))
        have hlt : c.stripeOf b.key.sequence < c.stripeOf newest.key.sequence :=
          hdown.1 s' (by simp) newest (by simp) b hb
        omega
    have hstriped : Striped c k newest rest := ⟨hgroup _ List.mem_cons_self,
      fun e he => hstripe _ List.mem_cons_self e he newest List.mem_cons_self⟩
    have hsame := stripe_same h hages hr base _ hstriped hlast
    have ih := ih (fun s hs => hne s (by simp [hs])) (fun s hs => hgroup s (by simp [hs]))
      (fun s hs => hstripe s (by simp [hs])) hdown.2
    rw [List.flatten_cons, compactStripes, List.filter_append, List.filter_append, List.map_append,
      List.map_append]
    cases stripes with
    | nil =>
      simp only [List.flatten_nil, compactStripes, List.filter_nil, List.map_nil, List.append_nil]
      rcases hsame with hsame | ⟨⟨-, hbase⟩, hsame⟩
      · exact .inl hsame
      · exact .inr ⟨hbase, hsame⟩
    | cons s' stripes =>
      rcases hsame with hsame | ⟨⟨hfalse, -⟩, -⟩
      · exact .append hsame ih
      · cases hfalse

/-- The entries of the compacted files that a reader sees of a key, and what it sees of what they
compact to. -/
theorem group_same :
    SameOver (foldOf c.mergeOp k) (c.isBaseLevelForKey k = true)
      (((c.group k).filter fun e => e.key.sequence ≤ r).map
        (versionOp (around newer older c.inputLayer).tombstones r))
      (((c.compactGroup (c.group k)).filter fun e => e.key.sequence ≤ r).map
        (versionOp (around newer older c.outputLayer).tombstones r)) := by
  cases hg : c.group k with
  | nil => exact .inl (Same.refl _)
  | cons first rest =>
    have hfirst : first.key.userKey = k := (mem_group.1 (by rw [hg]; simp)).2
    have hsorted : (c.group k).Pairwise fun a b => c.stripeKey a ≤ c.stripeKey b := by
      refine (c.input_sorted.filter _).imp_of_mem fun {a b} ha hb hab => ?_
      have hab := sequence_le hab ((mem_group.1 ha).2.trans (mem_group.1 hb).2.symm)
      exact OrderDual.toDual_le_toDual.2 (stripeOf_mono c hab)
    have hsame := stripes_same h hages hr (c.isBaseLevelForKey k)
      (runs c.stripeKey (c.group k)) (fun s hs => run_ne_nil hs)
      (fun s hs e he => mem_of_mem_run hs he) (fun s hs a ha b hb => eq_of_mem_run hs ha hb)
      (runs_pairwise hsorted)
    rw [flatten_runs, hg] at hsame
    rw [compactGroup, hfirst]
    exact hsame

omit hr in
/-- Replacing the inputs changes nothing for the entries above and below them. -/
theorem hidden_elsewhere {e : Entry K V} (he : e ∈ newer.entries ∨ e ∈ older.entries)
    (hk : e.key.userKey = k) :
    Hidden (around newer older c.outputLayer).tombstones k r e.key.sequence ↔
      Hidden (around newer older c.inputLayer).tombstones k r e.key.sequence := by
  simp only [List.pairwise_cons] at hages
  rw [hidden_around, hidden_around]
  refine exists_congr fun s => and_congr_left fun hs => or_congr_right (or_congr_left ?_)
  refine ⟨tombSeqs_outputLayer, fun hin => ?_⟩
  rcases tombSeqs_kept hin with hkept | ⟨-, b, m, hbase, hb, hm⟩
  · exact hkept
  · rcases he with he | he
    · have := hages.1 _ (by simp) k _ (hk ▸ Layer.seqsAt_of_entry he) s
        (Layer.seqsAt_of_tombSeqs hin)
      omega
    · exact absurd ⟨hk ▸ hb, hk ▸ hm⟩ (h.baseRange b m hbase e he)

omit hr in
/-- Above and below the compacted files a reader sees the same. -/
theorem map_elsewhere {l : Layer K V} (hl : ∀ e ∈ l.entries, e ∈ newer.entries ∨ e ∈ older.entries)
    (k : K) (r : Nat) :
    ((l.entries.filter fun e => Visible k r e).insertionSort
        fun a b => b.key.sequence ≤ a.key.sequence).map
          (versionOp (around newer older c.outputLayer).tombstones r) =
      ((l.entries.filter fun e => Visible k r e).insertionSort
        fun a b => b.key.sequence ≤ a.key.sequence).map
          (versionOp (around newer older c.inputLayer).tombstones r) := by
  refine List.map_congr_left fun e he => ?_
  rw [List.mem_insertionSort, List.mem_filter, decide_eq_true_iff] at he
  simp only [versionOp, he.2.1, hidden_elsewhere h hages (hl e he.1) he.2.1]

omit h hr in
theorem ages_outputLayer : [newer, c.outputLayer, older].Pairwise Layer.NewerThan := by
  simp only [List.pairwise_cons, List.mem_cons, List.not_mem_nil, or_false, forall_eq_or_imp,
    forall_eq, List.Pairwise.nil, and_true, IsEmpty.forall_iff, implies_true] at hages ⊢
  obtain ⟨⟨h1, h2⟩, h3⟩ := hages
  exact ⟨⟨fun k s hs t ht => h1 k s hs t (seqsAt_outputLayer ht), h2⟩,
    fun k s hs t ht => h3 k s (seqsAt_outputLayer hs) t ht⟩

/-- **Whatever is on top**, the versions of a key read the same. -/
theorem sameBottom_doCompactionWork (k : K) :
    SameBottom (foldOf c.mergeOp k) ((around newer older c.outputLayer).versions k r)
      ((around newer older c.inputLayer).versions k r) := by
  have hbottom : c.isBaseLevelForKey k = true →
      ((older.entries.filter fun e => Visible k r e).insertionSort
        fun a b => b.key.sequence ≤ a.key.sequence).map
          (versionOp (around newer older c.inputLayer).tombstones r) = [] := by
    intro hbase
    have hnil : older.entries.filter (fun e => decide (Visible k r e)) = [] :=
      List.filter_eq_nil_iff.2 fun e he hv => h.baseKey k hbase e he (of_decide_eq_true hv).1
    rw [hnil]
    rfl
  intro tops
  have hbefore := Layer.versions_concat hages k r
  have hafter := Layer.versions_concat (ages_outputLayer hages) k r
  simp only [List.flatMap_cons, List.flatMap_nil, List.append_nil, outputLayer_visible,
    inputLayer_visible h.distinct] at hbefore hafter
  have hnewer := map_elsewhere h hages (l := newer) (fun e he => .inl he) k r
  have holder := map_elsewhere h hages (l := older) (fun e he => .inr he) k r
  rw [around] at hnewer holder
  rw [hnewer, holder] at hafter
  rw [around, around, hbefore, hafter, ← List.append_assoc tops, ← List.append_assoc tops]
  exact ((group_same h hages hr).read_eq hbottom _).symm

/-- **A compaction is invisible** to every reader at a live snapshot, or at a sequence number from
the last one on. -/
theorem read_doCompactionWork (k : K) :
    read (foldOf c.mergeOp k) ((around newer older c.outputLayer).versions k r) =
      read (foldOf c.mergeOp k) ((around newer older c.inputLayer).versions k r) :=
  sameBottom_doCompactionWork h hages hr k []

end

/-! ## An instance -/

/-- An operand at 5 over a put at 3, with a tombstone at 4 between them and a snapshot there. -/
def sampleCompaction : Compaction (Fin 3) Nat where
  inputs := [⟨7, 100, ⟨0, 4, .rangeDeletion⟩, ⟨2, kMaxSequenceNumber, .rangeDeletion⟩,
    ⟨[⟨⟨1, 5, .merge⟩, 2⟩, ⟨⟨1, 3, .value⟩, 10⟩], by decide, by decide⟩, [⟨0, 2, 4, 0⟩], by decide,
    by decide⟩]
  isBaseLevelForKey _ := true
  isBaseLevelForRange _ _ := true
  shouldStopBefore _ := false
  fileFull _ := true
  snapshots := [4]
  lastSequence := 6
  mergeOp := some (.counter _)

theorem sampleCompaction_sound : sampleCompaction.Sound ⟨[], []⟩ where
  snapshots := by decide
  distinct := by decide
  seqs_le := by decide
  last_le := by decide
  baseKey := by simp
  baseRange := by simp
  laws op h k := by
    simp only [sampleCompaction, Option.some.injEq] at h
    subst h
    exact MergeOperator.counter_laws k

theorem read_sampleCompaction :
    read (foldOf sampleCompaction.mergeOp 1)
        ((around ⟨[⟨⟨1, 7, .merge⟩, 1⟩], []⟩ ⟨[], []⟩ sampleCompaction.outputLayer).versions 1 9) =
      some (some 3) :=
  (read_doCompactionWork sampleCompaction_sound (by decide) (.inr (by decide)) 1).trans
    (by decide)

end LevelDb.Compaction
