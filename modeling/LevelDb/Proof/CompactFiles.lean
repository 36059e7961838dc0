import LevelDb.Lib.Tiling
import LevelDb.Proof.Levels

/-!
# The files of a compaction

The cuts of a compaction divide the user keys (`Cutting`, the invariant of the loop over the
groups): each output has the entries of one interval and the parts of the kept tombstones in it, and
so the parts of a tombstone tile it. `files_partition` says what that means for the files: their
keys go up, their bounds are around what they hold, and their ranges do not meet.
-/

namespace LevelDb.Compaction

open Runs Tiling

variable {K V : Type} [LinearOrder K] {c : Compaction K V} {k : K}

/-! ## The keys of a group -/

theorem tag_cover_le (c : Compaction K V) (b : Nat) (e : Entry K V) :
    (c.cover b e).key.tag ≤ e.key.tag := by
  unfold cover
  split
  · show e.key.sequence * 256 + 0 ≤ e.key.sequence * 256 + e.key.type.code
    omega
  · exact le_rfl

/-- What a stripe compacts to is newest first, without two of one tag. -/
theorem tags_compactStripe {base last : Bool} {group : List (Entry K V)}
    (hdesc : group.Pairwise fun a b => b.key.tag < a.key.tag) :
    (c.compactStripe base last group).Pairwise fun a b => b.key.tag < a.key.tag := by
  cases group with
  | nil => exact .nil
  | cons newest rest =>
    obtain ⟨ops, tail, hes, -, hmerge, -, hout⟩ := c.compactStripe_cases base last newest rest
    generalize c.bound (c.stripeOf newest.key.sequence) = b at hes
    obtain ⟨xs, ys, hsplit, hxs, hys⟩ := List.map_eq_append_iff.1 hes
    -- operands are as they were
    have hops : xs = ops := by
      rw [← hxs, eq_comm]
      conv_rhs => rw [← List.map_id xs]
      refine List.map_congr_left fun e he => ?_
      rcases c.cover_type b e with h | h
      · have hm := hmerge (c.cover b e) (hxs ▸ List.mem_map_of_mem he)
        rw [h] at hm
        cases hm
      · exact h
    subst hops
    rw [hsplit, List.pairwise_append] at hdesc
    have hkeep : (xs ++ tail.head?.toList).Pairwise fun a b => b.key.tag < a.key.tag := by
      cases ys with
      | nil =>
        rw [← hys]
        simpa using hdesc.1
      | cons y ys =>
        rw [← hys]
        refine List.pairwise_append.2 ⟨hdesc.1, List.pairwise_singleton _ _, fun x hx z hz => ?_⟩
        rw [List.map_cons, List.head?_cons, Option.toList_some, List.mem_singleton] at hz
        rw [hz]
        exact (c.tag_cover_le b y).trans_lt (hdesc.2.2 x hx y (by simp))
    rcases hout with ⟨-, -, -, -, hnil⟩ | ⟨-, hout⟩ | ⟨-, hout⟩
    · rw [hnil]
      exact .nil
    · rw [hout]
      exact hkeep
    · rw [hout, mergeOrKeep]
      split
      · exact List.pairwise_singleton _ _
      · exact hkeep

omit [LinearOrder K] in
theorem tag_lt_of_sequence_lt {a b : InternalKey K} (h : a.sequence < b.sequence) :
    a.tag < b.tag := by
  have := a.type.code_le
  unfold InternalKey.tag
  omega

/-- Older stripes have smaller sequence numbers. -/
theorem tags_compactStripes {base : Bool} {stripes : List (List (Entry K V))}
    (hdesc : ∀ s ∈ stripes, s.Pairwise fun a b => b.key.tag < a.key.tag)
    (hup : stripes.Pairwise fun s s' => ∀ a ∈ s, ∀ b ∈ s', c.stripeKey a < c.stripeKey b) :
    (c.compactStripes base stripes).Pairwise fun a b => b.key.tag < a.key.tag := by
  induction stripes with
  | nil => exact .nil
  | cons s stripes ih =>
    rw [List.pairwise_cons] at hup
    rw [compactStripes, List.pairwise_append]
    refine ⟨tags_compactStripe (hdesc s (by simp)), ih (fun s hs => hdesc s (by simp [hs])) hup.2,
      fun a ha b hb => ?_⟩
    have hain := (seqs_compactStripe c base stripes.isEmpty s).subset (List.mem_map_of_mem ha)
    have hbin := (seqs_compactStripes c base stripes).subset (List.mem_map_of_mem hb)
    obtain ⟨a', ha', hseqa⟩ := List.mem_map.1 hain
    obtain ⟨b', hb', hseqb⟩ := List.mem_map.1 hbin
    obtain ⟨s', hs', hbs'⟩ := List.mem_flatten.1 hb'
    have hlt := hup.1 s' hs' a' ha' b' hbs'
    apply tag_lt_of_sequence_lt
    rw [← hseqa, ← hseqb]
    exact lt_of_not_ge fun hge => absurd (stripeOf_mono c hge) (not_le.2 hlt)

/-- **What a group compacts to** is newest first, without two of one internal key. -/
theorem tags_compactGroup {group : List (Entry K V)}
    (hdesc : group.Pairwise fun a b => b.key.tag < a.key.tag) :
    (c.compactGroup group).Pairwise fun a b => b.key.tag < a.key.tag := by
  cases group with
  | nil => exact .nil
  | cons first rest =>
    have hsorted : (first :: rest).Pairwise fun a b => c.stripeKey a ≤ c.stripeKey b := by
      refine hdesc.imp fun {a b} hlt => ?_
      refine OrderDual.toDual_le_toDual.2 (stripeOf_mono c (not_lt.1 fun h => ?_))
      exact absurd (tag_lt_of_sequence_lt h) (Nat.lt_asymm hlt)
    refine tags_compactStripes (fun s hs => ?_) (runs_pairwise hsorted)
    exact hdesc.sublist ((List.sublist_flatten_of_mem hs).trans (flatten_runs c.stripeKey _ ▸ .refl _))

/-- The input has each internal key once, and its sequence numbers are of records. -/
structure WellFormed (c : Compaction K V) : Prop where
  distinct : ((c.inputs.flatMap fun f => f.table.entries).map (·.key)).Nodup
  entries : ∀ f ∈ c.inputs, ∀ e ∈ f.table.entries, e.key.sequence < kMaxSequenceNumber
  tombstones : ∀ t ∈ c.inputTombstones, t.seq < kMaxSequenceNumber

theorem input_perm (c : Compaction K V) :
    c.input.Perm (c.inputs.flatMap fun f => f.table.entries) := List.perm_insertionSort _ _

theorem WellFormed.input_lt (hc : c.WellFormed) : c.input.Pairwise fun a b => a.key < b.key := by
  have hne : c.input.Pairwise fun a b => a.key ≠ b.key := by
    have := (c.input_perm.map (·.key)).nodup_iff.2 hc.distinct
    exact List.pairwise_map.1 this
  exact (c.input_sorted.and hne).imp fun h => lt_of_le_of_ne h.1 h.2

/-- **The internal keys of the outputs go up**, within an output and across. -/
theorem WellFormed.entries_lt (hc : c.WellFormed) :
    (c.doCompactionWork.flatMap (·.entries)).Pairwise fun a b => a.key < b.key := by
  rw [c.doCompactionWork_written.1, List.pairwise_flatMap]
  have hup := runs_pairwise (f := fun e : Entry K V => e.key.userKey)
    (c.input_sorted.imp fun {a b} h => userKey_le h)
  have hout : ∀ g ∈ runs (fun e : Entry K V => e.key.userKey) c.input, ∀ o ∈ c.compactGroup g,
      ∃ e ∈ g, o.key.userKey = e.key.userKey := by
    intro g hg o ho
    obtain ⟨a, ha⟩ := List.exists_mem_of_ne_nil g (run_ne_nil hg)
    obtain ⟨e, he, hof⟩ := mem_compactGroup (fun e he => eq_of_mem_run hg he ha) ho
    exact ⟨e, he, hof.1⟩
  constructor
  · intro g hg
    have hlt := hc.input_lt.sublist
      ((List.sublist_flatten_of_mem hg).trans
        (flatten_runs (fun e : Entry K V => e.key.userKey) _ ▸ .refl _))
    have hdesc : g.Pairwise fun a b => b.key.tag < a.key.tag := by
      refine hlt.imp_of_mem fun {a b} ha hb hab => ?_
      rcases InternalKey.lt_iff.1 hab with h | h
      · exact absurd (eq_of_mem_run hg ha hb) h.ne
      · exact h.2
    refine (tags_compactGroup hdesc).imp_of_mem fun {a b} ha hb hab => ?_
    obtain ⟨a', ha', hka⟩ := hout g hg a ha
    obtain ⟨b', hb', hkb⟩ := hout g hg b hb
    refine InternalKey.lt_iff.2 (.inr ⟨?_, hab⟩)
    rw [hka, hkb]
    exact eq_of_mem_run hg ha' hb'
  · refine hup.imp_of_mem fun {g h} hg hh hgh a ha b hb => ?_
    obtain ⟨a', ha', hka⟩ := hout g hg a ha
    obtain ⟨b', hb', hkb⟩ := hout h hh b hb
    refine InternalKey.lt_iff.2 (.inl ?_)
    rw [hka, hkb]
    exact hgh a' ha' b' hb'

/-! ## The cuts -/

/-- The output has the entries of the interval, and the parts of the kept tombstones in it. -/
structure Within (c : Compaction K V) (o : Output K V) (iv : Option K × Option K) : Prop where
  tombstones : o.tombstones = c.tombstones.filterMap (cut iv.1 iv.2)
  entries : ∀ e ∈ o.entries, Inside iv e.key.userKey

/-- The invariant of the loop: the finished outputs lie between these cuts. -/
structure Cutting (c : Compaction K V) (s : State K V) (cuts : List K) : Prop where
  outputs : List.Forall₂ (Within c) s.outputs (bounded none cuts)
  lowerCut : s.lowerCut = cuts.getLast?
  up : cuts.Pairwise (· < ·)
  builder : ∀ es, s.builder = some es → es ≠ [] ∧
    ∀ e ∈ es, ∀ l, s.lowerCut = some l → l ≤ e.key.userKey

variable {s : State K V} {cuts : List K}

/-- Cutting at a key past everything written. -/
theorem Cutting.finishOutput (h : Cutting c s cuts) (hk : Ahead s k) :
    ∃ cuts', Cutting c (c.finishOutput (some k) s) cuts' := by
  unfold Compaction.finishOutput
  cases hb : s.builder with
  | none => exact ⟨cuts, h⟩
  | some es =>
    obtain ⟨hne, hes⟩ := h.builder es hb
    obtain ⟨e, he⟩ := List.exists_mem_of_ne_nil es hne
    refine ⟨cuts ++ [k], ?_, ?_, ?_, nofun⟩
    · rw [bounded_concat, Option.or_none, ← h.lowerCut]
      refine List.rel_append h.outputs (.cons ⟨rfl, fun e he => ⟨fun l hl => hes e he l hl, ?_⟩⟩ .nil)
      intro u hu
      cases hu
      exact hk.builder es hb e he
    · rw [List.getLast?_concat]
      rfl
    · refine List.pairwise_append.2 ⟨h.up, List.pairwise_singleton _ _, fun a ha b hb' => ?_⟩
      rw [List.mem_singleton.1 hb']
      have hlast : ∀ l, cuts.getLast? = some l → l < k := fun l hl =>
        (hes e he l (h.lowerCut.trans hl)).trans_lt (hk.builder es hb e he)
      rcases List.eq_nil_or_concat cuts with rfl | ⟨init, l, rfl⟩
      · cases ha
      · have hup := h.up
        rw [List.concat_eq_append] at ha hlast hup
        have hl := hlast l (List.getLast?_concat ..)
        rcases List.mem_append.1 ha with ha | ha
        · exact ((List.pairwise_append.1 hup).2.2 a ha l (List.mem_singleton_self l)).trans hl
        · rwa [List.mem_singleton.1 ha]

/-- **One group** of the loop. -/
theorem Cutting.flushGroup (h : Cutting c s cuts) {group : List (Entry K V)} (hne : group ≠ [])
    (hkey : ∀ e ∈ group, e.key.userKey = k) (hk : Ahead s k) :
    ∃ cuts', Cutting c (c.flushGroup s group) cuts' := by
  obtain ⟨first, rest, rfl⟩ := List.exists_cons_of_ne_nil hne
  have hfirst := hkey first (by simp)
  have hout : ∀ o ∈ c.compactGroup (first :: rest), o.key.userKey = k := by
    intro o ho
    obtain ⟨e, he, hof⟩ := mem_compactGroup hkey ho
    rw [hof.1, hkey e he]
  obtain ⟨s1, s2, hs1, hs2, hs⟩ := @flushGroup_cases _ _ _ c k s first rest hfirst
  -- the cut before the group
  have h1 : (∃ cuts', Cutting c s1 cuts') ∧ ∀ l, s1.lowerCut = some l → l ≤ k := by
    have hasked : Cutting c { s with asked := first.key :: s.asked } cuts :=
      ⟨h.outputs, h.lowerCut, h.up, h.builder⟩
    have hahead : Ahead { s with asked := first.key :: s.asked } k := ⟨hk.builder, hk.lowerCut⟩
    rcases hs1 with rfl | ⟨hcut, rfl⟩
    · exact ⟨⟨cuts, hasked⟩, hk.lowerCut⟩
    · obtain ⟨cuts', h1⟩ := hasked.finishOutput hahead
      obtain ⟨es, hes⟩ := Option.isSome_iff_exists.1 hcut
      refine ⟨⟨cuts', h1.outputs, h1.lowerCut, h1.up, h1.builder⟩, fun l hl => ?_⟩
      simp only [Compaction.finishOutput, hes, Option.some_or, Option.some.injEq] at hl
      exact hl.ge
  obtain ⟨⟨cuts', h1⟩, hle⟩ := h1
  -- then the group's result
  have h2 : Cutting c s2 cuts' := by
    rcases hs2 with ⟨-, rfl⟩ | ⟨hemp, rfl⟩
    · exact h1
    · refine ⟨h1.outputs, h1.lowerCut, h1.up, fun es hes => ?_⟩
      simp only [Option.some.injEq] at hes
      subst hes
      refine ⟨fun hnil => hemp (List.append_eq_nil_iff.1 hnil).2, ?_⟩
      intro e he l hl
      rcases List.mem_append.1 he with he | he
      · cases hb : s1.builder with
        | none => simp [hb] at he
        | some es => exact (h1.builder es hb).2 e (by simpa [hb] using he) l hl
      · rw [hout e he]
        exact hle l hl
  refine ⟨cuts', ?_⟩
  rcases hs with hs | hs
  · rw [hs]
    exact h2
  · rw [hs]
    exact ⟨h2.outputs, h2.lowerCut, h2.up, h2.builder⟩

theorem Cutting.foldl {done : List (List (Entry K V))} (hw : Written c done s)
    (h : ∃ cuts, Cutting c s cuts) {groups : List (List (Entry K V))}
    (hne : ∀ g ∈ groups, g ≠ [])
    (heq : ∀ g ∈ groups, ∀ a ∈ g, ∀ b ∈ g, a.key.userKey = b.key.userKey)
    (hup : groups.Pairwise fun g g' => ∀ a ∈ g, ∀ b ∈ g', a.key.userKey < b.key.userKey)
    (hk : ∀ g ∈ groups, ∀ a ∈ g, Ahead s a.key.userKey) :
    ∃ cuts, Cutting c (groups.foldl c.flushGroup s) cuts := by
  induction groups generalizing done s with
  | nil => exact h
  | cons g groups ih =>
    obtain ⟨cuts, h⟩ := h
    obtain ⟨a, ha⟩ := List.exists_mem_of_ne_nil g (hne g (by simp))
    rw [List.pairwise_cons] at hup
    have hkey : ∀ e ∈ g, e.key.userKey = a.key.userKey := fun e he => heq g (by simp) e he a ha
    obtain ⟨hw1, hahead⟩ := hw.flushGroup (hne g (by simp)) hkey (hk g (by simp) a ha)
    exact ih hw1 (h.flushGroup (hne g (by simp)) hkey (hk g (by simp) a ha))
      (fun g hg => hne g (by simp [hg])) (fun g hg => heq g (by simp [hg])) hup.2
      fun g' hg' b hb => hahead _ (hup.1 g' hg' a ha b hb)

/-- The intervals of the outputs: none where there is nothing to write, else all that the cuts
make. -/
def Divided (c : Compaction K V) (ivs : List (Option K × Option K)) : Prop :=
  (ivs = [] ∧ c.tombstones = []) ∨ ∃ cuts : List K, cuts.Pairwise (· < ·) ∧ ivs = intervals none cuts

/-- A cut at or past the end of all kept tombstones makes no difference to the last output. -/
theorem Within.unbounded {o : Output K V} {lower : Option K} {u : K}
    (h : Within c o (lower, some u)) (hend : ∀ t ∈ c.tombstones, t.endKey ≤ u) :
    Within c o (lower, none) := by
  refine ⟨?_, fun e he => ⟨(h.entries e he).1, nofun⟩⟩
  rw [h.tombstones]
  refine List.filterMap_congr fun t ht => ?_
  have hno : ¬ u < t.endKey := not_lt.2 (hend t ht)
  simp only [cut, Option.elim_some, Option.elim_none, if_neg hno]
  rfl

/-- **The cuts divide the keys among the outputs.** -/
theorem doCompactionWork_within (c : Compaction K V) :
    ∃ ivs, List.Forall₂ (Within c) c.doCompactionWork ivs ∧ Divided c ivs := by
  have hstart : Written c [] ({} : State K V) :=
    ⟨rfl, ⟨.nil, by simp, by simp⟩, fun _ => rfl, by simp, by simp, by simp⟩
  obtain ⟨cuts, h⟩ := Cutting.foldl hstart ⟨[], .nil, rfl, .nil, nofun⟩
    (fun g hg => run_ne_nil hg) (fun g hg a ha b hb => eq_of_mem_run hg ha hb)
    (runs_pairwise (c.input_sorted.imp fun {a b} h => userKey_le h))
    fun g hg a ha => ⟨by simp, by simp⟩
  unfold doCompactionWork
  generalize (runs (fun e : Entry K V => e.key.userKey) c.input).foldl c.flushGroup {} = s at h
  -- the open output reaches to the end
  have hopen : ∀ es, (∀ e ∈ es, ∀ l, s.lowerCut = some l → l ≤ e.key.userKey) →
      ∃ ivs, List.Forall₂ (Within c)
        (s.outputs ++ [⟨es, c.tombstones.filterMap (cut s.lowerCut none)⟩]) ivs ∧ Divided c ivs := by
    intro es hes
    refine ⟨intervals none cuts, ?_, .inr ⟨cuts, h.up, rfl⟩⟩
    rw [intervals_eq, Option.or_none, ← h.lowerCut]
    exact List.rel_append h.outputs (.cons ⟨rfl, fun e he => ⟨hes e he, nofun⟩⟩ .nil)
  unfold openLeft
  split
  · exact hopen [] (by simp)
  · rename_i hleft
    cases hb : s.builder with
    | some es =>
      simp only [Compaction.finishOutput, hb]
      exact hopen es (h.builder es hb).2
    | none =>
      simp only [Compaction.finishOutput, hb]
      have hend : ∀ t ∈ c.tombstones,
          s.lowerCut.elim true (fun l => decide (l < t.endKey)) = false := by
        intro t ht
        have hany : ¬ c.tombstones.any
            (fun t => s.lowerCut.elim true fun l => decide (l < t.endKey)) = true :=
          fun h => hleft ⟨by simp [hb], h⟩
        simpa using List.any_eq_false.1 (by simpa using hany) t ht
      rcases List.eq_nil_or_concat cuts with rfl | ⟨init, l, rfl⟩
      · refine ⟨[], h.outputs, .inl ⟨rfl, List.eq_nil_iff_forall_not_mem.2 fun t ht => ?_⟩⟩
        have := hend t ht
        rw [h.lowerCut] at this
        cases this
      · rw [List.concat_eq_append] at h
        have hlast : s.lowerCut = some l := h.lowerCut.trans (List.getLast?_concat ..)
        have houtputs := h.outputs
        rw [bounded_concat, Option.or_none] at houtputs
        obtain ⟨os, o, hos, ho, heq⟩ : ∃ os os', List.Forall₂ (Within c) os (bounded none init) ∧
            List.Forall₂ (Within c) os' [(init.getLast?, some l)] ∧ s.outputs = os ++ os' :=
          ⟨_, _, List.forall₂_take_append _ _ _ houtputs, List.forall₂_drop_append _ _ _ houtputs,
            (List.take_append_drop _ _).symm⟩
        refine ⟨intervals none init, ?_, .inr ⟨init, (List.pairwise_append.1 h.up).1, rfl⟩⟩
        rw [heq, intervals_eq, Option.or_none]
        refine List.rel_append hos ?_
        cases ho with
        | cons ho hnil =>
          refine .cons (ho.unbounded fun t ht => ?_) hnil
          have := hend t ht
          rw [hlast, Option.elim_some, decide_eq_false_iff_not] at this
          exact not_lt.1 this

/-! ## The parts of a tombstone -/

theorem cut_eq_clip (t : RangeTombstone K) (iv : Option K × Option K) :
    (cut iv.1 iv.2 t).map (fun u => (u.beginKey, u.endKey)) = clip t.beginKey t.endKey iv := by
  have hcut : cut iv.1 iv.2 t = if clipLower iv.1 t.beginKey < clipUpper iv.2 t.endKey then
      some ⟨clipLower iv.1 t.beginKey, clipUpper iv.2 t.endKey, t.seq, 0⟩ else none := rfl
  rw [hcut, clip]
  split
  · rfl
  · rfl

/-- **The parts of a kept tombstone** tile it. -/
theorem Divided.tiles {ivs : List (Option K × Option K)} (h : Divided c ivs) {t : RangeTombstone K}
    (ht : t ∈ c.tombstones) :
    Tiles t.beginKey t.endKey
      ((ivs.filterMap fun iv => cut iv.1 iv.2 t).map fun u => (u.beginKey, u.endKey)) := by
  rcases h with ⟨-, hnil⟩ | ⟨cuts, hup, rfl⟩
  · rw [hnil] at ht
    cases ht
  · rw [List.map_filterMap]
    simp only [cut_eq_clip]
    exact (tiles_clip hup fun l (hl : none = some l) => nomatch hl).1 (mem_tombstones ht).2.1

/-! ## The files -/

/-- What an output must be for a file of it to be written. -/
structure Output.Writable (o : Output K V) : Prop where
  sorted : o.entries.Pairwise fun a b => a.key ≤ b.key
  types : ∀ e ∈ o.entries, e.key.type ≠ .rangeDeletion
  ranges : ∀ t ∈ o.tombstones, t.beginKey < t.endKey
  nonempty : o.entries ≠ [] ∨ o.tombstones ≠ []

/-- What a file holds. -/
def Output.ofFile (f : FileMetaData K V) : Output K V := ⟨f.table.entries, f.tombstones⟩

theorem exists_outputFiles (sizes : Nat → Nat) {outputs : List (Output K V)}
    (h : ∀ o ∈ outputs, o.Writable) (number : Nat) :
    ∃ files, outputFiles sizes number outputs = some files ∧ outputs = files.map Output.ofFile := by
  induction outputs generalizing number with
  | nil => exact ⟨[], rfl, rfl⟩
  | cons o os ih =>
    obtain ⟨files, hfiles, hholds⟩ := ih (fun o ho => h o (by simp [ho])) (number + 1)
    obtain ⟨hsorted, htypes, hranges, hne⟩ := h o (by simp)
    obtain ⟨f, hf, hfo⟩ : ∃ f, o.toFile number (sizes number) = some f ∧ o = Output.ofFile f := by
      unfold Output.toFile
      rw [dif_pos ⟨hsorted, htypes, hranges⟩]
      cases hb : FileMetaData.build number (sizes number) ⟨o.entries, hsorted, htypes⟩ o.tombstones
        hranges with
      | none =>
        obtain ⟨h1, h2⟩ := FileMetaData.build_eq_none hb
        exact absurd hne (by simp [show o.entries = [] from h1, h2])
      | some f =>
        obtain ⟨-, -, h3, h4⟩ := FileMetaData.build_eq_some hb
        exact ⟨f, rfl, by rw [Output.ofFile, h3, h4]⟩
    refine ⟨f :: files, ?_, by rw [List.map_cons, ← hfo, ← hholds]⟩
    rw [outputFiles, hf, Option.bind_some, hfiles]
    rfl

/-- Where an entry of an output comes from. -/
theorem exists_from {o : Output K V} (ho : o ∈ c.doCompactionWork) {e : Entry K V}
    (he : e ∈ o.entries) : ∃ f ∈ c.inputs, ∃ e' ∈ f.table.entries, c.From e e' := by
  have hmem : e ∈ c.doCompactionWork.flatMap (·.entries) := List.mem_flatMap.2 ⟨o, ho, he⟩
  rw [c.doCompactionWork_written.1] at hmem
  obtain ⟨g, hg, heg⟩ := List.mem_flatMap.1 hmem
  obtain ⟨a, ha⟩ := List.exists_mem_of_ne_nil g (run_ne_nil hg)
  obtain ⟨e', he', hfrom⟩ := mem_compactGroup (fun e he => eq_of_mem_run hg he ha) heg
  obtain ⟨f, hf, hef⟩ := List.mem_flatMap.1 (c.input_perm.subset (mem_of_mem_run hg he'))
  exact ⟨f, hf, e', hef, hfrom⟩

theorem WellFormed.writable (hc : c.WellFormed) {o : Output K V} (ho : o ∈ c.doCompactionWork) :
    o.Writable := by
  obtain ⟨-, hfinished, -⟩ := c.doCompactionWork_written
  refine ⟨?_, fun e he => ?_, fun t ht => (hfinished.parts o ho t ht).1, hfinished.nonempty o ho⟩
  · exact ((List.pairwise_flatMap.1 hc.entries_lt).1 o ho).imp le_of_lt
  · obtain ⟨f, -, e', he', hfrom⟩ := exists_from ho he
    exact hfrom.type_ne (f.table.types e' he')

/-- No sequence number that is written is the reserved one. -/
theorem WellFormed.sequence_lt (hc : c.WellFormed) {o : Output K V} (ho : o ∈ c.doCompactionWork) :
    (∀ e ∈ o.entries, e.key.sequence < kMaxSequenceNumber) ∧
      ∀ t ∈ o.tombstones, t.seq < kMaxSequenceNumber := by
  constructor
  · intro e he
    obtain ⟨f, hf, e', he', hfrom⟩ := exists_from ho he
    rw [hfrom.2.1]
    exact hc.entries f hf e' he'
  · intro t ht
    obtain ⟨-, u, hu, hseq, -⟩ := c.doCompactionWork_written.2.1.parts o ho t ht
    rw [hseq]
    exact hc.tombstones u (mem_tombstones hu).1

/-- The bounds of a file are before those of a later one. -/
theorem largest_lt_smallest {f g : FileMetaData K V} {u : K}
    (hf : (∀ e ∈ f.table.entries, e.key.userKey < u) ∧ ∀ t ∈ f.tombstones, t.endKey ≤ u)
    (hg : (∀ e ∈ g.table.entries, u ≤ e.key.userKey) ∧ ∀ t ∈ g.tombstones, u ≤ t.beginKey)
    (hseq : (∀ e ∈ g.table.entries, e.key.sequence < kMaxSequenceNumber) ∧
      ∀ t ∈ g.tombstones, t.seq < kMaxSequenceNumber) : f.largest < g.smallest := by
  have hlow : u ≤ g.smallest.userKey ∧ g.smallest.sequence < kMaxSequenceNumber := by
    rcases g.bounded.smallest_eq with ⟨e, he, heq⟩ | ⟨t, ht, heq⟩
    · rw [heq]
      exact ⟨hg.1 e he, hseq.1 e he⟩
    · rw [heq]
      exact ⟨hg.2 t ht, hseq.2 t ht⟩
  rcases f.bounded.largest_eq with ⟨e, he, heq⟩ | ⟨t, ht, heq⟩
  · rw [heq]
    exact InternalKey.lt_iff.2 (.inl ((hf.1 e he).trans_le hlow.1))
  · rw [heq]
    -- the end of a part is excluded, so the next file may start with an entry of that key
    rcases ((hf.2 t ht).trans hlow.1).lt_or_eq with hlt | hkey
    · exact InternalKey.lt_iff.2 (.inl hlt)
    · exact InternalKey.lt_iff.2 (.inr ⟨hkey, tag_lt_of_sequence_lt hlow.2⟩)

/-- **The files of a compaction** partition its keys and tombstones. -/
theorem files_partition (hc : c.WellFormed) (sizes : Nat → Nat) (number : Nat) :
    ∃ files ivs, outputFiles sizes number c.doCompactionWork = some files ∧
      (files.flatMap fun f => f.table.entries).Pairwise (fun a b => a.key < b.key) ∧
      files.Pairwise (fun f g => ∀ a ∈ f.table.entries, ∀ b ∈ g.table.entries,
        a.key.userKey ≠ b.key.userKey) ∧
      List.Forall₂ (fun f iv => f.tombstones = c.tombstones.filterMap (cut iv.1 iv.2) ∧
        ∀ e ∈ f.table.entries, Inside iv e.key.userKey) files ivs ∧
      (∀ t ∈ c.tombstones,
        Tiles t.beginKey t.endKey
          ((ivs.filterMap fun iv => cut iv.1 iv.2 t).map fun u => (u.beginKey, u.endKey)) ∧
        ∀ u ∈ ivs.filterMap fun iv => cut iv.1 iv.2 t, u.seq = t.seq) ∧
      (∀ f ∈ files, (∀ e ∈ f.table.entries, f.smallest ≤ e.key ∧ e.key ≤ f.largest) ∧
        ∀ t ∈ f.tombstones, f.smallest ≤ ⟨t.beginKey, t.seq, .rangeDeletion⟩ ∧
          ⟨t.endKey, kMaxSequenceNumber, .rangeDeletion⟩ ≤ f.largest) ∧
      files.Pairwise (fun f g => f.largest < g.smallest) ∧
      ∀ f ∈ files, (f.hasRangeDels = true ↔ f.tombstones ≠ []) ∧
        (f.table.entries ≠ [] ∨ f.tombstones ≠ []) := by
  obtain ⟨ivs, hwithin, hdivided⟩ := c.doCompactionWork_within
  obtain ⟨files, hfiles, hholds⟩ := exists_outputFiles sizes (fun o ho => hc.writable ho) number
  have hlt := hc.entries_lt
  have hapart := c.doCompactionWork_written.2.1.apart
  have hseq : ∀ f ∈ files, _ := fun f hf =>
    hc.sequence_lt (hholds ▸ List.mem_map_of_mem hf : Output.ofFile f ∈ c.doCompactionWork)
  have hne : ∀ f ∈ files, _ := fun f hf => c.doCompactionWork_written.2.1.nonempty _
    (hholds ▸ List.mem_map_of_mem hf : Output.ofFile f ∈ c.doCompactionWork)
  rw [hholds, List.flatMap_map] at hlt
  rw [hholds, List.pairwise_map] at hapart
  rw [hholds, List.forall₂_map_left_iff] at hwithin
  refine ⟨files, ivs, hfiles, hlt, ?_, hwithin.imp fun f iv h => ⟨h.tombstones, h.entries⟩,
    fun t ht => ⟨hdivided.tiles ht, fun u hu => ?_⟩,
    fun f _ => ⟨f.bounded.entries_le, f.bounded.tombstones_le⟩, ?_, fun f hf => ⟨?_, hne f hf⟩⟩
  · refine hapart.imp fun {f g} h a ha b hb => ?_
    obtain ⟨u, hbelow, habove⟩ := h
    exact ((hbelow.1 a ha).trans_le (habove.1 b hb)).ne
  · obtain ⟨iv, -, hcut⟩ := List.mem_filterMap.1 hu
    exact (cut_spec hcut).1
  · refine hapart.imp_of_mem fun {f g} _ hg h => ?_
    obtain ⟨u, hbelow, habove⟩ := h
    exact largest_lt_smallest hbelow habove (hseq g hg)
  · simp [FileMetaData.hasRangeDels]

/-- Two keys under one tombstone, a deeper level that may have them, and outputs of one key each. -/
def cutCompaction : Compaction (Fin 4) Nat where
  inputs := [⟨7, 100, ⟨0, 4, .rangeDeletion⟩, ⟨3, kMaxSequenceNumber, .rangeDeletion⟩,
    ⟨[⟨⟨1, 5, .value⟩, 2⟩, ⟨⟨2, 6, .value⟩, 10⟩], by decide, by decide⟩, [⟨0, 3, 4, 0⟩], by decide,
    by decide⟩]
  isBaseLevelForKey _ := false
  isBaseLevelForRange _ _ := false
  shouldStopBefore _ := false
  fileFull _ := true
  snapshots := []
  lastSequence := 6
  mergeOp := none

theorem wellFormed_cutCompaction : cutCompaction.WellFormed := ⟨by decide, by decide, by decide⟩

theorem files_partition_cutCompaction :
    ∃ files, outputFiles (fun _ => 50) 9 cutCompaction.doCompactionWork = some files ∧
      files.Pairwise fun f g => f.largest < g.smallest := by
  obtain ⟨files, ivs, hfiles, -, -, -, -, -, hapart, -⟩ :=
    files_partition wellFormed_cutCompaction (fun _ => 50) 9
  exact ⟨files, hfiles, hapart⟩

end LevelDb.Compaction
