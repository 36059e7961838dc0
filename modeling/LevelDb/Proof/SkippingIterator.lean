import LevelDb.Db.SkippingIterator
import LevelDb.Proof.RangeDels
import LevelDb.Proof.Layers

/-!
# The skipping iterator is a plain one

A pass of a skipping loop goes past the range it was given (or before it), and every entry it goes
over is hidden: so the loop ends, at the next entry that is not hidden (`skipForward_eq`,
`skipBackward_eq`). After any calls the iterator is where a plain iterator over the entries that are
not hidden is (`run_filtered`), whatever newer tombstones the memtable takes meanwhile.
-/

namespace LevelDb

variable {K V : Type} [LinearOrder K]

/-! ## A view that writers add to -/

/-- `w` is `v` after writers have added tombstones above the snapshot to the memtable. -/
structure RangeDelView.Later (snapshot : Nat) (v w : RangeDelView K V) : Prop where
  mem : (v.mem = none ∧ w.mem = none) ∨
    ∃ m m' ts, v.mem = some m ∧ w.mem = some m' ∧ m'.rangeDels = m.rangeDels ++ ts ∧
      ∀ t ∈ ts, snapshot < t.seq
  imm : w.imm = v.imm
  tables : w.tables = v.tables

/-- A tombstone of a newer layer that the snapshot sees covers the key. Sequence numbers start
at 1. -/
def HiddenAt (ts : List (RangeTombstone K)) (snapshot layer : Nat) (k : K) : Prop :=
  ∃ t ∈ ts, t.Covers k ∧ 0 < t.seq ∧ t.seq ≤ snapshot ∧ t.layer < layer

instance (ts : List (RangeTombstone K)) (snapshot layer : Nat) (k : K) :
    Decidable (HiddenAt ts snapshot layer k) := List.decidableBEx _ _

theorem RangeDelView.Later.memCovering_eq {snapshot : Nat} {v w : RangeDelView K V}
    (h : v.Later snapshot w) (k : K) (belowLayer : Nat) :
    memCovering w.mem kLayerMem k snapshot belowLayer =
      memCovering v.mem kLayerMem k snapshot belowLayer := by
  apply eq_of_forall_lt_iff
  intro s
  rw [lt_memCovering, lt_memCovering]
  rcases h.mem with ⟨hv, hw⟩ | ⟨m, m', ts, hv, hw, hdels, hts⟩
  · rw [hv, hw]
  · simp only [hv, hw, Option.elim_some, MemTable.getRangeTombstones, List.drop_zero, List.mem_map,
      hdels, List.mem_append]
    constructor
    · intro hs
      obtain ⟨_, ⟨t, ht, rfl⟩, hc, hle, hrest⟩ := hs
      rcases ht with ht | ht
      · exact ⟨_, ⟨t, ht, rfl⟩, hc, hle, hrest⟩
      · exact absurd (hts t ht) (Nat.not_lt.2 hle)
    · intro hs
      obtain ⟨_, ⟨t, ht, rfl⟩, hrest⟩ := hs
      exact ⟨_, ⟨t, .inl ht, rfl⟩, hrest⟩

/-- What writers add above the snapshot changes no answer at the snapshot. -/
theorem RangeDelView.Later.maxCovering_eq {snapshot : Nat} {v w : RangeDelView K V}
    (h : v.Later snapshot w) (k : K) (belowLayer : Nat) :
    w.maxCovering k snapshot belowLayer = v.maxCovering k snapshot belowLayer := by
  rw [maxCovering, maxCovering, h.memCovering_eq, h.imm, h.tables]

theorem RangeDelView.maxCovering_eq_zero {v : RangeDelView K V} {ts : List (RangeTombstone K)}
    (hv : v.Sees ts) {k : K} {snapshot belowLayer : Nat} :
    v.maxCovering k snapshot belowLayer = 0 ↔ ¬ HiddenAt ts snapshot belowLayer k := by
  rw [← not_iff_not, not_not, ← ne_eq, ← Nat.pos_iff_ne_zero, lt_maxCovering hv]
  constructor
  · intro ⟨t, ht, hc, hle, hl, hpos⟩
    exact ⟨t, ht, hc, hpos, hle, hl⟩
  · intro ⟨t, ht, hc, hpos, hle, hl⟩
    exact ⟨t, ht, hc, hle, hl, hpos⟩

/-! ## The loops -/

namespace RangeDelSkippingIterator

/-- Every answer of the view is right about which keys are hidden, and the entries have sequence
numbers of 56 bits. -/
structure Skips (src : SkippingSource K V) (hidden : K → Bool) : Prop where
  covered : ∀ n k, (∃ b e, (src.view n).coveredRange k src.snapshot src.layer = some (b, e)) ↔
    hidden k = true
  range : ∀ n k b e, (src.view n).coveredRange k src.snapshot src.layer = some (b, e) →
    (b ≤ k ∧ k < e) ∧ ∀ k', b ≤ k' → k' < e → hidden k' = true
  seqs : ∀ e ∈ src.entries.entries, e.key.sequence ≤ kMaxSequenceNumber

/-- The entries that are not hidden. -/
def visible (hidden : K → Bool) (e : Entry K V) : Bool := !hidden e.key.userKey

variable {src : SkippingSource K V} {hidden : K → Bool}

/-- Where a loop stands, it asks about the entry there. -/
theorem Skips.covered_cases (h : Skips src hidden) (it : RangeDelSkippingIterator K V)
    (e : Entry K V) :
    (it.covered src e = none ∧ visible hidden e = true) ∨
      ∃ b hi, it.covered src e = some (b, hi) ∧ visible hidden e = false ∧
        (b ≤ e.key.userKey ∧ e.key.userKey < hi) ∧
        ∀ k, b ≤ k → k < hi → hidden k = true := by
  have hiff := h.covered it.asked e.key.userKey
  cases hc : it.covered src e with
  | none =>
    left
    refine ⟨rfl, ?_⟩
    rw [visible, Bool.not_eq_true', ← Bool.not_eq_true, ← hiff]
    intro ⟨b, hi, hsome⟩
    exact absurd (hc.symm.trans hsome) nofun
  | some r =>
    right
    obtain ⟨b, hi⟩ := r
    have hhidden : hidden e.key.userKey = true := hiff.1 ⟨b, hi, hc⟩
    obtain ⟨hin, hall⟩ := h.range _ _ _ _ hc
    exact ⟨b, hi, rfl, by rw [visible, hhidden]; rfl, hin, hall⟩

omit [LinearOrder K] in
theorem visible_eq_false {e : Entry K V} (h : hidden e.key.userKey = true) :
    visible hidden e = false := by
  rw [visible, h]
  rfl

/-- The seek of a loop goes past the smaller user keys. -/
theorem Skips.lt_target (h : Skips src hidden) {e : Entry K V} (he : e ∈ src.entries.entries)
    {k : K} : e.key < ⟨k, kMaxSequenceNumber, kValueTypeForSeek⟩ ↔ e.key.userKey < k := by
  have hseq := h.seqs e he
  have hiff : e.key < lookupKey k kMaxSequenceNumber ↔ _ := lt_lookupKey
  rw [lookupKey] at hiff
  rw [hiff]
  constructor
  · rintro (hlt | ⟨-, hlt⟩)
    · exact hlt
    · exact absurd hseq (Nat.not_le.2 hlt)
  · exact .inl

/-- **A pass forwards** goes from a hidden entry past the range that hides it, over hidden entries
only. -/
theorem Skips.forwardPass (h : Skips src hidden) {before after : List (Entry K V)} {e : Entry K V}
    (hsplit : before.reverse ++ e :: after = src.entries.entries) {b hi : K}
    (hin : b ≤ e.key.userKey ∧ e.key.userKey < hi) (hall : ∀ k, b ≤ k → k < hi → hidden k = true) :
    ∃ passed rest, after = passed ++ rest ∧ seekUserKey src hi =
        Cursor.front (passed.reverse ++ e :: before) rest ∧
      (∀ a ∈ passed, visible hidden a = false) ∧ ∀ a ∈ rest.head?, hi ≤ a.key.userKey := by
  have hsorted := src.entries.sorted
  rw [← hsplit, List.pairwise_append, List.pairwise_cons] at hsorted
  obtain ⟨hbefore, ⟨hge, -⟩, hacross⟩ := hsorted
  have hmem : ∀ a ∈ before.reverse ++ e :: after, a ∈ src.entries.entries := by
    rw [hsplit]
    exact fun a ha => ha
  let p : Entry K V → Bool := fun a => a.key < ⟨hi, kMaxSequenceNumber, kValueTypeForSeek⟩
  have hp : ∀ a ∈ src.entries.entries, (p a = true ↔ a.key.userKey < hi) := fun a ha => by
    rw [← h.lt_target ha]
    exact decide_eq_true_iff
  refine ⟨after.takeWhile p, after.dropWhile p, (List.takeWhile_append_dropWhile).symm, ?_, ?_, ?_⟩
  · have hfront : ∀ a ∈ before.reverse ++ [e], p a = true := by
      intro a ha
      rcases List.mem_append.1 ha with ha | ha
      · rw [hp a (hmem a (by simp [List.mem_reverse.1 ha]))]
        exact (userKey_le (hacross a ha e (by simp))).trans_lt hin.2
      · rw [List.mem_singleton] at ha
        rw [ha, hp e (hmem e (by simp))]
        exact hin.2
    have hlist : src.entries.entries = (before.reverse ++ [e]) ++ after := by rw [← hsplit]; simp
    rw [seekUserKey, hlist, Cursor.seek_append hfront]
    simp
  · intro a ha
    have hain : a ∈ after := List.takeWhile_subset _ ha
    refine visible_eq_false (hall _ (hin.1.trans (userKey_le (hge a hain))) ?_)
    exact (hp a (hmem a (by simp [hain]))).1 (List.mem_takeWhile_imp ha)
  · intro a ha
    have hnot := List.head?_dropWhile_not p after
    rw [Option.mem_def] at ha
    rw [ha] at hnot
    have hain : a ∈ after := List.dropWhile_subset _ (List.mem_of_head? ha)
    have hiff := hp a (hmem a (by simp [hain]))
    rw [← not_lt, ← hiff, Bool.not_eq_true]
    exact hnot

/-- **The loop of `SkipForward`** ends, at the first entry from here on that is not hidden. -/
theorem Skips.skipForward_eq (h : Skips src hidden) {passes : Nat} :
    ∀ {before l : List (Entry K V)} {asked : Nat},
      before.reverse ++ l = src.entries.entries → l.length < passes →
        ∃ asked', skipForward src passes ⟨Cursor.front before l, asked⟩ =
          some ⟨Cursor.firstFrom (visible hidden) before l, asked'⟩ := by
  induction passes with
  | zero => exact fun _ hlt => absurd hlt (Nat.not_lt_zero _)
  | succ passes ih =>
    intro before l asked hsplit hlt
    cases l with
    | nil => exact ⟨asked, rfl⟩
    | cons e after =>
      rcases h.covered_cases ⟨Cursor.front before (e :: after), asked⟩ e with
        ⟨hnone, hvis⟩ | ⟨b, hi, hsome, hvis, hin, hall⟩
      · refine ⟨asked + 1, ?_⟩
        rw [Cursor.firstFrom, if_pos hvis]
        simp only [skipForward, skip, RangeDelSkippingIterator.forwardPass, Cursor.front,
          Option.bind_some]
        rw [Cursor.front] at hnone
        rw [hnone]
        rfl
      · obtain ⟨passed, rest, rfl, hseek, hover, -⟩ := h.forwardPass hsplit hin hall
        obtain ⟨asked', hih⟩ := @ih (passed.reverse ++ e :: before) rest (asked + 1)
          (by rw [← hsplit]; simp) (by simp at hlt; omega)
        refine ⟨asked', ?_⟩
        rw [Cursor.firstFrom, if_neg (by rw [hvis]; decide), Cursor.firstFrom_append hover, ← hih,
          ← hseek]
        simp only [skipForward, skip, RangeDelSkippingIterator.forwardPass, Cursor.front,
          Option.bind_some]
        rw [Cursor.front] at hsome
        rw [hsome]
        rfl

/-- **A pass backwards** goes before the range that hides the entry, over hidden entries only. -/
theorem Skips.backwardPass (h : Skips src hidden) {before after : List (Entry K V)}
    {e : Entry K V} (hsplit : before.reverse ++ e :: after = src.entries.entries) {b hi : K}
    (hin : b ≤ e.key.userKey ∧ e.key.userKey < hi) (hall : ∀ k, b ≤ k → k < hi → hidden k = true) :
    ∃ passed rest, before = passed ++ rest ∧
      (seekUserKey src b).elim (Cursor.last src.entries.entries) (·.prev) =
        Cursor.back (passed.reverse ++ e :: after) rest ∧
      (∀ a ∈ passed, visible hidden a = false) ∧ ∀ a ∈ rest, a.key.userKey < b := by
  have hsorted := src.entries.sorted
  rw [← hsplit, List.pairwise_append, List.pairwise_cons, List.pairwise_reverse] at hsorted
  obtain ⟨hbefore, ⟨hge, -⟩, hacross⟩ := hsorted
  have hmem : ∀ a ∈ before.reverse ++ e :: after, a ∈ src.entries.entries := by
    rw [hsplit]
    exact fun a ha => ha
  have hbmem : ∀ a ∈ before, a ∈ src.entries.entries := fun a ha =>
    hmem a (List.mem_append_left _ (List.mem_reverse.2 ha))
  let p : Entry K V → Bool := fun a => a.key < ⟨b, kMaxSequenceNumber, kValueTypeForSeek⟩
  have hp : ∀ a ∈ src.entries.entries, (p a = true ↔ a.key.userKey < b) := fun a ha => by
    rw [← h.lt_target ha]
    exact decide_eq_true_iff
  -- nearest first, the entries at or after `b` come first
  have hdown : before.Pairwise fun a a' => (!p a') = true → (!p a) = true := by
    refine hbefore.imp_of_mem fun {a a'} ha ha' hle => ?_
    rw [Bool.not_eq_true', Bool.not_eq_true', ← Bool.not_eq_true, ← Bool.not_eq_true,
      hp a (hbmem a ha), hp a' (hbmem a' ha')]
    exact fun hnot hlt => hnot ((userKey_le hle).trans_lt hlt)
  have htake := Fragments.takeWhile_eq_filter (fun a => !p a) hdown
  have hdrop := Fragments.dropWhile_eq_filter (fun a => !p a) hdown
  have hparts := List.takeWhile_append_dropWhile (p := fun a => !p a) (l := before)
  generalize before.takeWhile (fun a => !p a) = passed at htake hparts
  generalize before.dropWhile (fun a => !p a) = rest at hdrop hparts
  have hrest : ∀ a ∈ rest, p a = true := fun a ha => by
    rw [hdrop, List.mem_filter, Bool.not_not] at ha
    exact ha.2
  have hover : ∀ a ∈ passed, p a = false := fun a ha => by
    rw [htake, List.mem_filter, Bool.not_eq_true'] at ha
    exact ha.2
  have hbover : ∀ a ∈ passed, a ∈ before := fun a ha => hparts ▸ List.mem_append_left _ ha
  have hkey : ∀ a ∈ e :: after, b ≤ a.key.userKey := by
    intro a ha
    rcases List.mem_cons.1 ha with rfl | ha
    · exact hin.1
    · exact hin.1.trans (userKey_le (hge a ha))
  refine ⟨passed, rest, hparts.symm, ?_, fun a ha => ?_, fun a ha => ?_⟩
  · have hlist : src.entries.entries = rest.reverse ++ (passed.reverse ++ e :: after) := by
      rw [← hsplit, ← hparts, List.reverse_append, List.append_assoc]
    have hback : ∀ a ∈ passed.reverse ++ e :: after, p a = false := by
      intro a ha
      rcases List.mem_append.1 ha with ha | ha
      · exact hover a (List.mem_reverse.1 ha)
      · rw [← Bool.not_eq_true, hp a (hmem a (List.mem_append_right _ ha)), not_lt]
        exact hkey a ha
    rw [seekUserKey, hlist, Cursor.seek_eq (by simpa using hrest) hback, List.reverse_reverse]
    exact Cursor.elim_front_prev rest _
  · have hle := userKey_le (hacross a (List.mem_reverse.2 (hbover a ha)) e (by simp))
    refine visible_eq_false (hall _ ?_ (hle.trans_lt hin.2))
    rw [← not_lt, ← hp a (hbmem a (hbover a ha)), Bool.not_eq_true]
    exact hover a ha
  · exact (hp a (hbmem a (hparts ▸ List.mem_append_right _ ha))).1 (hrest a ha)

/-- **The loop of `SkipBackward`** ends, at the last entry up to here that is not hidden. -/
theorem Skips.skipBackward_eq (h : Skips src hidden) {passes : Nat} :
    ∀ {after l : List (Entry K V)} {asked : Nat},
      l.reverse ++ after = src.entries.entries → l.length < passes →
        ∃ asked', skipBackward src passes ⟨Cursor.back after l, asked⟩ =
          some ⟨Cursor.lastFrom (visible hidden) after l, asked'⟩ := by
  induction passes with
  | zero => exact fun _ hlt => absurd hlt (Nat.not_lt_zero _)
  | succ passes ih =>
    intro after l asked hsplit hlt
    cases l with
    | nil => exact ⟨asked, rfl⟩
    | cons e before =>
      rcases h.covered_cases ⟨Cursor.back after (e :: before), asked⟩ e with
        ⟨hnone, hvis⟩ | ⟨b, hi, hsome, hvis, hin, hall⟩
      · refine ⟨asked + 1, ?_⟩
        rw [Cursor.lastFrom, if_pos hvis]
        simp only [skipBackward, skip, RangeDelSkippingIterator.backwardPass, Cursor.back,
          Option.bind_some]
        rw [Cursor.back] at hnone
        rw [hnone]
        rfl
      · have hsplit' : before.reverse ++ e :: after = src.entries.entries := by
          rw [← hsplit]
          simp
        obtain ⟨passed, rest, rfl, hseek, hover, -⟩ := h.backwardPass hsplit' hin hall
        obtain ⟨asked', hih⟩ := @ih (passed.reverse ++ e :: after) rest (asked + 1)
          (by rw [← hsplit']; simp) (by simp at hlt; omega)
        refine ⟨asked', ?_⟩
        rw [Cursor.lastFrom, if_neg (by rw [hvis]; decide), Cursor.lastFrom_append hover, ← hih,
          ← hseek]
        simp only [skipBackward, skip, RangeDelSkippingIterator.backwardPass, Cursor.back,
          Option.bind_some]
        rw [Cursor.back] at hsome
        rw [hsome]
        rfl

/-! ## Calls -/

/-- The plain iterator over the entries that are not hidden is at the same entry. -/
structure Filters (src : SkippingSource K V) (hidden : K → Bool) (it : RangeDelSkippingIterator K V)
    (c : Option (Cursor (Entry K V))) : Prop where
  place : it.iter.map (Cursor.filter (visible hidden)) = c
  here : ∀ d, it.iter = some d → d.toList = src.entries.entries ∧ visible hidden d.here = true

theorem Skips.filters_forward (h : Skips src hidden) {passes asked : Nat}
    {before l : List (Entry K V)} (hpasses : src.entries.entries.length < passes)
    (hsplit : before.reverse ++ l = src.entries.entries) :
    Option.Rel (Filters src hidden) (skipForward src passes ⟨Cursor.front before l, asked⟩)
      (some (Cursor.front (before.filter (visible hidden)) (l.filter (visible hidden)))) := by
  obtain ⟨asked', heq⟩ := @Skips.skipForward_eq _ _ _ _ _ h passes before l asked hsplit
    (by rw [← hsplit] at hpasses; simp at hpasses; omega)
  rw [heq]
  refine .some ⟨Cursor.filter_firstFrom before l, fun d hd => ?_⟩
  rw [← hsplit]
  exact Cursor.toList_of_firstFrom hd

theorem Skips.filters_backward (h : Skips src hidden) {passes asked : Nat}
    {after l : List (Entry K V)} (hpasses : src.entries.entries.length < passes)
    (hsplit : l.reverse ++ after = src.entries.entries) :
    Option.Rel (Filters src hidden) (skipBackward src passes ⟨Cursor.back after l, asked⟩)
      (some (Cursor.back (after.filter (visible hidden)) (l.filter (visible hidden)))) := by
  obtain ⟨asked', heq⟩ := @Skips.skipBackward_eq _ _ _ _ _ h passes after l asked hsplit
    (by rw [← hsplit] at hpasses; simp at hpasses; omega)
  rw [heq]
  refine .some ⟨Cursor.filter_lastFrom after l, fun d hd => ?_⟩
  rw [← hsplit]
  exact Cursor.toList_of_lastFrom hd

/-- Seeking and filtering. -/
theorem seek_filter (t : Table K V) (target : InternalKey K) (p : Entry K V → Bool) :
    Cursor.seek (fun e => decide (e.key < target)) (t.entries.filter p) =
      Cursor.front
        ((t.entries.takeWhile fun e => decide (e.key < target)).reverse.filter p)
        ((t.entries.dropWhile fun e => decide (e.key < target)).filter p) := by
  have hdown : t.entries.Pairwise fun a b =>
      decide (b.key < target) = true → decide (a.key < target) = true :=
    t.sorted.imp fun hle hlt => decide_eq_true (hle.trans_lt (of_decide_eq_true hlt))
  have hdown' := hdown.sublist (List.filter_sublist (p := p))
  rw [Cursor.seek, Fragments.takeWhile_eq_filter _ hdown, Fragments.dropWhile_eq_filter _ hdown,
    Fragments.takeWhile_eq_filter _ hdown', Fragments.dropWhile_eq_filter _ hdown',
    List.filter_reverse, List.filter_comm,
    List.filter_comm (fun e : Entry K V => !decide (e.key < target))]

/-- **One call** moves both alike. -/
theorem Skips.step (h : Skips src hidden) {passes : Nat}
    (hpasses : src.entries.entries.length < passes) {it : RangeDelSkippingIterator K V}
    {c : Option (Cursor (Entry K V))} (hrel : Filters src hidden it c) (call : EntryCall K) :
    Option.Rel (Filters src hidden) ((system src passes).step it call)
      ((entryIterator (src.entries.entries.filter (visible hidden))).step c call) := by
  obtain ⟨hplace, hhere⟩ := hrel
  cases call with
  | seek target =>
    simp only [system, entryIterator, Option.bind_some]
    rw [seek_filter]
    exact h.filters_forward hpasses (by rw [List.reverse_reverse, List.takeWhile_append_dropWhile])
  | seekToFirst => exact h.filters_forward hpasses rfl
  | seekToLast =>
    simp only [system, entryIterator, Option.bind_some]
    rw [Cursor.last, Cursor.last, ← List.filter_reverse]
    exact h.filters_backward hpasses (by rw [List.reverse_reverse, List.append_nil])
  | next =>
    subst hplace
    cases hit : it.iter with
    | none =>
      simp only [system, entryIterator, hit, Option.map_none]
      exact .none
    | some d =>
      obtain ⟨hlist, hvis⟩ := hhere d hit
      have hfront := @Skips.filters_forward _ _ _ _ _ h passes it.asked (d.here :: d.before) d.after
        hpasses (by rw [← hlist]; simp [Cursor.toList])
      rw [List.filter_cons, if_pos hvis] at hfront
      simp only [system, entryIterator, hit, Option.map_some]
      exact hfront
  | prev =>
    subst hplace
    cases hit : it.iter with
    | none =>
      simp only [system, entryIterator, hit, Option.map_none]
      exact .none
    | some d =>
      obtain ⟨hlist, hvis⟩ := hhere d hit
      have hback := @Skips.filters_backward _ _ _ _ _ h passes it.asked (d.here :: d.after) d.before
        hpasses hlist
      rw [List.filter_cons, if_pos hvis] at hback
      simp only [system, entryIterator, hit, Option.map_some]
      exact hback

/-- What a source is made of at `DBImpl::NewInternalIterator`: `v` is the view then, over these
tombstones, and later only tombstones above the snapshot are added. -/
structure Sound (src : SkippingSource K V) (ts : List (RangeTombstone K)) : Prop where
  view : ∃ v : RangeDelView K V, v.Sees ts ∧ ∀ n, v.Later src.snapshot (src.view n)
  seqs : ∀ e ∈ src.entries.entries, e.key.sequence ≤ kMaxSequenceNumber

theorem Sound.skips {ts : List (RangeTombstone K)} (h : Sound src ts) :
    Skips src fun k => HiddenAt ts src.snapshot src.layer k := by
  obtain ⟨v, hv, hlater⟩ := h.view
  have hzero : ∀ n k, (src.view n).maxCovering k src.snapshot src.layer ≠ 0 ↔
      decide (HiddenAt ts src.snapshot src.layer k) = true := fun n k => by
    rw [(hlater n).maxCovering_eq, Ne, RangeDelView.maxCovering_eq_zero hv, not_not,
      decide_eq_true_iff]
  refine ⟨fun n k => ?_, fun n k b e hrange => ?_, h.seqs⟩
  · rw [← hzero n k]
    exact ((src.view n).coveredRange_spec k src.snapshot src.layer).1
  · obtain ⟨hin, hall⟩ := ((src.view n).coveredRange_spec k src.snapshot src.layer).2 b e hrange
    exact ⟨hin, fun k' hb he => (hzero n k').1 (hall k' hb he)⟩

/-- The entries of the layer that no tombstone of a newer layer hides from the snapshot. -/
def shown (src : SkippingSource K V) (ts : List (RangeTombstone K)) : Entry K V → Bool :=
  visible fun k => HiddenAt ts src.snapshot src.layer k

/-- **The skipping iterator is an ordinary iterator over the filtered layer**: with one pass more
than there are entries the loops end, and after any calls it is where the plain iterator over the
entries that are shown is. A pass goes past the range it was given, or before it. -/
theorem run_filtered {ts : List (RangeTombstone K)} (h : Sound src ts) {passes : Nat}
    (hpasses : src.entries.entries.length < passes) :
    (∀ calls : List (EntryCall K),
      ((system src passes).run new calls).map
          (fun it => it.iter.map (Cursor.filter (shown src ts))) =
        (entryIterator (src.entries.entries.filter (shown src ts))).run none calls) ∧
    (∀ (it it' : RangeDelSkippingIterator K V) (c : Cursor (Entry K V)), it.iter = some c →
      c.toList = src.entries.entries → forwardPass src it = some it' →
        ∃ b e, it.covered src c.here = some (b, e) ∧ c.here.key.userKey < e ∧
          ∀ c', it'.iter = some c' → e ≤ c'.here.key.userKey) ∧
    ∀ (it it' : RangeDelSkippingIterator K V) (c : Cursor (Entry K V)), it.iter = some c →
      c.toList = src.entries.entries → backwardPass src it = some it' →
        ∃ b e, it.covered src c.here = some (b, e) ∧ b ≤ c.here.key.userKey ∧
          ∀ c', it'.iter = some c' → c'.here.key.userKey < b := by
  have hskips := h.skips
  refine ⟨fun calls => ?_, fun it it' c hc hlist hpass => ?_, fun it it' c hc hlist hpass => ?_⟩
  · have hrun := Transition.System.run_rel (system src passes)
      (entryIterator (src.entries.entries.filter (shown src ts)))
      (fun it c call hrel => hskips.step hpasses hrel call)
      (⟨rfl, nofun⟩ : Filters src _ new none) calls
    generalize (system src passes).run new calls = x,
      (entryIterator (src.entries.entries.filter (shown src ts))).run none calls = y at hrun
    cases hrun with
    | none => rfl
    | some hrel => exact congrArg some hrel.place
  · rw [forwardPass, hc, Option.bind_some] at hpass
    rcases hskips.covered_cases it c.here with ⟨hnone, -⟩ | ⟨b, e, hsome, -, hin, hall⟩
    · rw [hnone] at hpass
      cases hpass
    · rw [hsome] at hpass
      cases hpass
      refine ⟨b, e, hsome, hin.2, fun c' hc' => ?_⟩
      obtain ⟨passed, rest, -, hseek, -, hrest⟩ := hskips.forwardPass hlist hin hall
      have hplace : seekUserKey src e = some c' := hc'
      rw [hseek] at hplace
      cases rest with
      | nil => cases hplace
      | cons a rest =>
        cases hplace
        exact hrest a rfl
  · rw [backwardPass, hc, Option.bind_some] at hpass
    rcases hskips.covered_cases it c.here with ⟨hnone, -⟩ | ⟨b, e, hsome, -, hin, hall⟩
    · rw [hnone] at hpass
      cases hpass
    · rw [hsome] at hpass
      cases hpass
      refine ⟨b, e, hsome, hin.1, fun c' hc' => ?_⟩
      obtain ⟨passed, rest, -, hseek, -, hrest⟩ := hskips.backwardPass hlist hin hall
      have hplace : (seekUserKey src b).elim (Cursor.last src.entries.entries) (·.prev) = some c' := hc'
      rw [hseek] at hplace
      cases rest with
      | nil => cases hplace
      | cons a rest =>
        cases hplace
        exact hrest a (List.mem_cons_self)

/-- A layer under a table whose tombstone hides keys 1 and 2; after the first question a tombstone
above the snapshot is in the memtable. -/
def sampleSkipping : SkippingSource Nat Nat where
  entries := ⟨[⟨⟨0, 2, .value⟩, 7⟩, ⟨⟨1, 4, .value⟩, 8⟩, ⟨⟨2, 3, .value⟩, 9⟩, ⟨⟨3, 1, .value⟩, 10⟩],
    by decide, by decide⟩
  view n := ⟨some (if n = 0 then .empty else MemTable.empty.addRange 0 9 9), none,
    some (.ofTombstones [⟨1, 3, 5, 2⟩])⟩
  layer := 3
  snapshot := 6

theorem sound_sampleSkipping : Sound sampleSkipping [⟨1, 3, 5, 2⟩] := by
  refine ⟨⟨⟨some .empty, none, some (.ofTombstones [⟨1, 3, 5, 2⟩])⟩, ⟨_, rfl, .inl rfl⟩, fun n =>
    ⟨.inr ?_, rfl, rfl⟩⟩, by decide⟩
  cases n with
  | zero => exact ⟨.empty, .empty, [], rfl, rfl, rfl, nofun⟩
  | succ n => exact ⟨.empty, _, [⟨0, 9, 9, 0⟩], rfl, rfl, rfl, by decide⟩

theorem run_filtered_sampleSkipping :
    ((system sampleSkipping 5).run new [.seekToFirst, .next]).map
        (fun it => it.iter.map (Cursor.filter (shown sampleSkipping [⟨1, 3, 5, 2⟩]))) =
      some (some ⟨[⟨⟨0, 2, .value⟩, 7⟩], ⟨⟨3, 1, .value⟩, 10⟩, []⟩) :=
  ((run_filtered sound_sampleSkipping (by decide)).1 _).trans rfl

end RangeDelSkippingIterator
end LevelDb
