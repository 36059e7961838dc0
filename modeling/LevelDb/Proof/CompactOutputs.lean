import LevelDb.Proof.CompactStripe
import LevelDb.Proof.Layers

/-!
# The outputs of a compaction

`doCompactionWork_written`: the outputs hold what the groups compact to, in order; between two
outputs there is a key that all of the first is below and all of the second at or above; each
tombstone in an output is part of a kept one, and the parts of a kept tombstone cover what it
covers. The invariant of the loop over the groups is `Written`.
-/

namespace LevelDb.Compaction

open Runs

variable {K V : Type} [LinearOrder K] {c : Compaction K V} {k : K}

/-! ## Groups -/

theorem seqs_compactStripes (c : Compaction K V) (base : Bool) (stripes : List (List (Entry K V))) :
    ((c.compactStripes base stripes).map (·.key.sequence)).Sublist
      (stripes.flatten.map (·.key.sequence)) := by
  induction stripes with
  | nil => exact .refl _
  | cons s stripes ih =>
    rw [compactStripes, List.map_append, List.flatten_cons, List.map_append]
    exact (seqs_compactStripe c base _ s).append ih

/-- The sequence numbers a group compacts to are among its own, in order. -/
theorem seqs_compactGroup (c : Compaction K V) (group : List (Entry K V)) :
    ((c.compactGroup group).map (·.key.sequence)).Sublist (group.map (·.key.sequence)) := by
  cases group with
  | nil => exact .refl _
  | cons e group =>
    have := seqs_compactStripes c (c.isBaseLevelForKey e.key.userKey) (runs c.stripeKey (e :: group))
    rwa [flatten_runs] at this

/-- Where an entry of a group's result comes from. -/
def From (c : Compaction K V) (o e : Entry K V) : Prop :=
  o.key.userKey = e.key.userKey ∧ o.key.sequence = e.key.sequence ∧
    (o = c.cover (c.bound (c.stripeOf e.key.sequence)) e ∨
      (c.cover (c.bound (c.stripeOf e.key.sequence)) e).key.type = .merge ∧
        (o.key.type = .value ∨ o.key.type = .merge))

theorem mem_compactStripes {base : Bool} {stripes : List (List (Entry K V))}
    (hne : ∀ s ∈ stripes, s ≠ [])
    (hstripe : ∀ s ∈ stripes, ∀ a ∈ s, ∀ b ∈ s, c.stripeKey a = c.stripeKey b)
    (hkey : ∀ s ∈ stripes, ∀ e ∈ s, e.key.userKey = k) {o : Entry K V}
    (ho : o ∈ c.compactStripes base stripes) : ∃ e ∈ stripes.flatten, c.From o e := by
  induction stripes with
  | nil => cases ho
  | cons s stripes ih =>
    rw [compactStripes, List.mem_append] at ho
    rcases ho with ho | ho
    · obtain ⟨newest, rest, rfl⟩ := List.exists_cons_of_ne_nil (hne s (by simp))
      obtain ⟨h1, _, hcov, h2, h3⟩ := mem_compactStripe (hkey (newest :: rest) (by simp)) ho
      obtain ⟨e, he, rfl⟩ := List.mem_map.1 hcov
      have hidx : c.stripeOf newest.key.sequence = c.stripeOf e.key.sequence :=
        hstripe (newest :: rest) (by simp) newest (by simp) e he
      rw [hidx] at h2 h3
      refine ⟨e, List.mem_append_left _ he, ?_, ?_, h3⟩
      · rw [h1, hkey (newest :: rest) (by simp) e he]
      · rw [h2, cover_sequence]
    · obtain ⟨e, he, h⟩ := ih (fun s hs => hne s (by simp [hs]))
        (fun s hs => hstripe s (by simp [hs])) (fun s hs => hkey s (by simp [hs])) ho
      exact ⟨e, List.mem_append_right _ he, h⟩

/-- Every entry a group compacts to comes from one of its entries. -/
theorem mem_compactGroup {group : List (Entry K V)} (hkey : ∀ e ∈ group, e.key.userKey = k)
    {o : Entry K V} (ho : o ∈ c.compactGroup group) : ∃ e ∈ group, c.From o e := by
  cases group with
  | nil => cases ho
  | cons a group =>
    obtain ⟨e, he, h⟩ := mem_compactStripes (fun s hs => run_ne_nil hs)
      (fun s hs a ha b hb => eq_of_mem_run hs ha hb)
      (fun s hs e he => hkey e (mem_of_mem_run hs he)) ho
    rw [flatten_runs] at he
    exact ⟨e, he, h⟩

theorem From.type_ne {o e : Entry K V} (h : c.From o e) (he : e.key.type ≠ .rangeDeletion) :
    o.key.type ≠ .rangeDeletion := by
  obtain ⟨-, -, rfl | ⟨-, h | h⟩⟩ := h
  · rcases cover_type c (c.bound (c.stripeOf e.key.sequence)) e with h | h
    · rw [h]; decide
    · rwa [h]
  · rw [h]; decide
  · rw [h]; decide

/-! ## Cutting the tombstones -/

/-- A kept tombstone is one of an input file. -/
theorem mem_tombstones {t : RangeTombstone K} (ht : t ∈ c.tombstones) :
    t ∈ c.inputTombstones ∧ t.beginKey < t.endKey ∧
      ¬ (t.seq ≤ c.smallestSnapshot ∧ c.isBaseLevelForRange t.beginKey t.endKey = true) := by
  rw [tombstones, List.mem_insertionSort, List.mem_filter] at ht
  obtain ⟨ht, hkeep⟩ := ht
  refine ⟨ht, ?_, by simpa [imp_iff_not_or] using hkeep⟩
  obtain ⟨f, -, ht⟩ := List.mem_flatMap.1 ht
  split at ht
  · obtain ⟨u, hu, rfl⟩ := List.mem_map.1 ht
    exact f.ranges u hu
  · cases ht

/-- The part of a tombstone between two cuts covers what it covers there. -/
theorem cut_spec {lower upper : Option K} {t u : RangeTombstone K} (h : cut lower upper t = some u) :
    u.seq = t.seq ∧ u.beginKey < u.endKey ∧ t.beginKey ≤ u.beginKey ∧ u.endKey ≤ t.endKey ∧
      (∀ l, lower = some l → l ≤ u.beginKey) ∧ ∀ m, upper = some m → u.endKey ≤ m := by
  unfold cut at h
  simp only at h
  split at h
  · rename_i hlt
    cases h
    refine ⟨rfl, hlt, ?_, ?_, ?_, ?_⟩
    · cases lower with
      | none => exact le_rfl
      | some l =>
        simp only [Option.elim_some]
        split
        · rename_i h; exact h.le
        · exact le_rfl
    · cases upper with
      | none => exact le_rfl
      | some m =>
        simp only [Option.elim_some]
        split
        · rename_i h; exact h.le
        · exact le_rfl
    · rintro l rfl
      simp only [Option.elim_some]
      split
      · exact le_rfl
      · rename_i h; exact not_lt.1 h
    · rintro m rfl
      simp only [Option.elim_some]
      split
      · exact le_rfl
      · rename_i h; exact not_lt.1 h
  · cases h

theorem exists_cut {lower upper : Option K} {t : RangeTombstone K} (hc : t.Covers k)
    (hlower : ∀ l, lower = some l → l ≤ k) (hupper : ∀ m, upper = some m → k < m) :
    ∃ u, cut lower upper t = some u ∧ u.Covers k ∧ u.seq = t.seq := by
  have hb : (lower.elim t.beginKey fun l => if t.beginKey < l then l else t.beginKey) ≤ k := by
    cases lower with
    | none => exact hc.1
    | some l =>
      simp only [Option.elim_some]
      split
      · exact hlower l rfl
      · exact hc.1
  have he : k < upper.elim t.endKey fun m => if m < t.endKey then m else t.endKey := by
    cases upper with
    | none => exact hc.2
    | some m =>
      simp only [Option.elim_some]
      split
      · exact hupper m rfl
      · exact hc.2
  exact ⟨_, if_pos (hb.trans_lt he), ⟨hb, he⟩, rfl⟩

/-! ## The loop over the groups -/

/-- All of the output is below the key. -/
def Output.Below (o : Output K V) (u : K) : Prop :=
  (∀ e ∈ o.entries, e.key.userKey < u) ∧ ∀ t ∈ o.tombstones, t.endKey ≤ u

/-- All of the output is at or above the key. -/
def Output.Above (o : Output K V) (u : K) : Prop :=
  (∀ e ∈ o.entries, u ≤ e.key.userKey) ∧ ∀ t ∈ o.tombstones, u ≤ t.beginKey

/-- Finished outputs: apart, not empty, with parts of the kept tombstones. -/
structure Finished (c : Compaction K V) (outputs : List (Output K V)) : Prop where
  apart : outputs.Pairwise fun o p => ∃ u, o.Below u ∧ p.Above u
  nonempty : ∀ o ∈ outputs, o.entries ≠ [] ∨ o.tombstones ≠ []
  parts : ∀ o ∈ outputs, ∀ u ∈ o.tombstones, u.beginKey < u.endKey ∧
    ∃ t ∈ c.tombstones, u.seq = t.seq ∧ t.beginKey ≤ u.beginKey ∧ u.endKey ≤ t.endKey

/-- The parts of the kept tombstones in the outputs cover what those cover at the key. -/
def Covered (c : Compaction K V) (outputs : List (Output K V)) (k : K) : Prop :=
  ∀ t ∈ c.tombstones, t.Covers k → ∃ o ∈ outputs, ∃ u ∈ o.tombstones, u.Covers k ∧ u.seq = t.seq

/-- The invariant of the loop: what is written once the groups `done` are flushed. -/
structure Written (c : Compaction K V) (done : List (List (Entry K V))) (s : State K V) :
    Prop where
  entries : s.outputs.flatMap (·.entries) ++ s.builder.getD [] = done.flatMap c.compactGroup
  finished : Finished c s.outputs
  fresh : s.lowerCut = none → s.outputs = []
  below : ∀ l, s.lowerCut = some l → ∀ o ∈ s.outputs, o.Below l
  covered : ∀ l, s.lowerCut = some l → ∀ k < l, Covered c s.outputs k
  builder : ∀ es, s.builder = some es → es ≠ [] ∧
    ∀ l, s.lowerCut = some l → ∀ e ∈ es, l ≤ e.key.userKey

/-- The key is past everything written so far. -/
structure Ahead (s : State K V) (k : K) : Prop where
  builder : ∀ es, s.builder = some es → ∀ e ∈ es, e.key.userKey < k
  lowerCut : ∀ l, s.lowerCut = some l → l ≤ k

variable {done : List (List (Entry K V))} {s : State K V}

/-- What finishing the open output adds to the finished ones. -/
theorem Finished.snoc {outputs : List (Output K V)} (h : Finished c outputs)
    {lower upper : Option K} {es : List (Entry K V)}
    (hfresh : lower = none → outputs = []) (hbelow : ∀ l, lower = some l → ∀ o ∈ outputs, o.Below l)
    (hes : ∀ l, lower = some l → ∀ e ∈ es, l ≤ e.key.userKey)
    (hne : es ≠ [] ∨ c.tombstones.filterMap (cut lower upper) ≠ []) :
    Finished c (outputs ++ [⟨es, c.tombstones.filterMap (cut lower upper)⟩]) := by
  refine ⟨List.pairwise_append.2 ⟨h.apart, List.pairwise_singleton _ _, fun o ho p hp => ?_⟩,
    fun o ho => ?_, fun o ho u hu => ?_⟩
  · rw [List.mem_singleton] at hp
    subst hp
    cases hl : lower with
    | none =>
      rw [hfresh hl] at ho
      cases ho
    | some l =>
      refine ⟨l, hbelow l hl o ho, hes l hl, fun t ht => ?_⟩
      obtain ⟨t', -, hcut⟩ := List.mem_filterMap.1 ht
      exact (cut_spec hcut).2.2.2.2.1 l rfl
  · rcases List.mem_append.1 ho with ho | ho
    · exact h.nonempty o ho
    · rw [List.mem_singleton] at ho
      subst ho
      exact hne
  · rcases List.mem_append.1 ho with ho | ho
    · exact h.parts o ho u hu
    · rw [List.mem_singleton] at ho
      subst ho
      obtain ⟨t, ht, hcut⟩ := List.mem_filterMap.1 hu
      obtain ⟨h1, h2, h3, h4, -, -⟩ := cut_spec hcut
      exact ⟨h2, t, ht, h1, h3, h4⟩

/-- What the outputs cover once one more is finished. -/
theorem Covered.snoc {outputs : List (Output K V)} {lower upper : Option K}
    {es : List (Entry K V)} (hold : ∀ l, lower = some l → k < l → Covered c outputs k)
    (hupper : ∀ m, upper = some m → k < m) :
    Covered c (outputs ++ [⟨es, c.tombstones.filterMap (cut lower upper)⟩]) k := by
  intro t ht hc
  by_cases hlow : ∃ l, lower = some l ∧ k < l
  · obtain ⟨l, hl, hlt⟩ := hlow
    obtain ⟨o, ho, hu⟩ := hold l hl hlt t ht hc
    exact ⟨o, List.mem_append_left _ ho, hu⟩
  · have hlow' : ∀ l, lower = some l → l ≤ k := fun l hl => not_lt.1 fun hlt => hlow ⟨l, hl, hlt⟩
    obtain ⟨u, hcut, hu⟩ := exists_cut hc hlow' hupper
    exact ⟨_, List.mem_append_right _ (List.mem_singleton_self _), u,
      List.mem_filterMap.2 ⟨t, ht, hcut⟩, hu⟩

/-- Cutting the output at a key past everything written. -/
theorem Written.finishOutput (h : Written c done s) (hk : Ahead s k) :
    Written c done (c.finishOutput (some k) s) ∧ Ahead (c.finishOutput (some k) s) k := by
  unfold Compaction.finishOutput
  cases hb : s.builder with
  | none => exact ⟨h, hk⟩
  | some es =>
    obtain ⟨hne, hes⟩ := h.builder es hb
    refine ⟨⟨?_, h.finished.snoc h.fresh h.below hes (.inl hne), by simp, ?_, ?_, by simp⟩, by simp,
      by simp⟩
    · have := h.entries
      rw [hb, Option.getD_some] at this
      simpa using this
    · intro l hl o ho
      simp only [Option.some_or, Option.some.injEq] at hl
      subst hl
      rcases List.mem_append.1 ho with ho | ho
      · cases hl : s.lowerCut with
        | none =>
          rw [h.fresh hl] at ho
          cases ho
        | some l =>
          obtain ⟨h1, h2⟩ := h.below l hl o ho
          exact ⟨fun e he => (h1 e he).trans_le (hk.lowerCut l hl),
            fun t ht => (h2 t ht).trans (hk.lowerCut l hl)⟩
      · rw [List.mem_singleton] at ho
        subst ho
        refine ⟨hk.builder es hb, fun t ht => ?_⟩
        obtain ⟨t', -, hcut⟩ := List.mem_filterMap.1 ht
        exact (cut_spec hcut).2.2.2.2.2 _ rfl
    · intro l hl k' hk'
      simp only [Option.some_or, Option.some.injEq] at hl
      subst hl
      refine Covered.snoc (fun l hl hlt => h.covered l hl k' hlt) fun m hm => ?_
      cases hm
      exact hk'

/-- `flushGroup` in its parts: the open output may be cut, the group's result is written, and the open
output may be found full. -/
theorem flushGroup_cases (s : Compaction.State K V) {first : Entry K V} (rest : List (Entry K V))
    (hfirst : first.key.userKey = k) : ∃ s1 s2,
      (s1 = { s with asked := first.key :: s.asked } ∨ s.builder.isSome = true ∧
        s1 = { c.finishOutput (some k) { s with asked := first.key :: s.asked } with
          pendingCut := false }) ∧
      (c.compactGroup (first :: rest) = [] ∧ s2 = s1 ∨ c.compactGroup (first :: rest) ≠ [] ∧
        s2 = { s1 with builder := some (s1.builder.getD [] ++ c.compactGroup (first :: rest)) }) ∧
      (c.flushGroup s (first :: rest) = s2 ∨
        c.flushGroup s (first :: rest) = { s2 with pendingCut := true }) := by
  unfold Compaction.flushGroup
  simp only [hfirst]
  generalize hs1 : (if s.builder.isSome = true ∧ (s.pendingCut = true ∨
      c.shouldStopBefore (first.key :: s.asked) = true) then
    { c.finishOutput (some k) { s with asked := first.key :: s.asked } with pendingCut := false }
    else { s with asked := first.key :: s.asked }) = s1
  generalize hs2 : (if (c.compactGroup (first :: rest)).isEmpty = true then s1 else
    { s1 with builder := some (s1.builder.getD [] ++ c.compactGroup (first :: rest)) }) = s2
  refine ⟨s1, s2, ?_, ?_, ?_⟩
  · rw [← hs1]
    split
    · rename_i hcut
      exact .inr ⟨hcut.1, rfl⟩
    · exact .inl rfl
  · rw [← hs2]
    split
    · rename_i hemp
      exact .inl ⟨List.isEmpty_iff.1 hemp, rfl⟩
    · rename_i hemp
      exact .inr ⟨fun hnil => hemp (List.isEmpty_iff.2 hnil), rfl⟩
  · split
    · exact .inr rfl
    · exact .inl rfl

/-- **One group** of the loop, at a key past everything written. -/
theorem Written.flushGroup (h : Written c done s) {group : List (Entry K V)} (hne : group ≠ [])
    (hkey : ∀ e ∈ group, e.key.userKey = k) (hk : Ahead s k) :
    Written c (done ++ [group]) (c.flushGroup s group) ∧
      ∀ k', k < k' → Ahead (c.flushGroup s group) k' := by
  obtain ⟨first, rest, rfl⟩ := List.exists_cons_of_ne_nil hne
  have hfirst := hkey first (by simp)
  have hout : ∀ o ∈ c.compactGroup (first :: rest), o.key.userKey = k := by
    intro o ho
    obtain ⟨e, he, hof⟩ := mem_compactGroup hkey ho
    rw [hof.1, hkey e he]
  obtain ⟨s1, s2, hs1, hs2, hs⟩ := @flushGroup_cases _ _ _ c k s first rest hfirst
  -- cut the open output first if it is full or should stop
  have h1 : Written c done s1 ∧ Ahead s1 k := by
    have hasked : Written c done { s with asked := first.key :: s.asked } :=
      ⟨h.entries, h.finished, h.fresh, h.below, h.covered, h.builder⟩
    have hahead : Ahead { s with asked := first.key :: s.asked } k := ⟨hk.builder, hk.lowerCut⟩
    rcases hs1 with rfl | ⟨-, rfl⟩
    · exact ⟨hasked, hahead⟩
    · obtain ⟨h1, h2⟩ := hasked.finishOutput hahead
      exact ⟨⟨h1.entries, h1.finished, h1.fresh, h1.below, h1.covered, h1.builder⟩,
        h2.builder, h2.lowerCut⟩
  obtain ⟨h1, hk1⟩ := h1
  -- then write the group's result
  have h2 : Written c (done ++ [first :: rest]) s2 ∧ ∀ k', k < k' → Ahead s2 k' := by
    rcases hs2 with ⟨hemp, rfl⟩ | ⟨hemp, rfl⟩
    · refine ⟨⟨?_, h1.finished, h1.fresh, h1.below, h1.covered, h1.builder⟩, fun k' hk' =>
        ⟨fun es hes e he => (hk1.builder es hes e he).trans hk',
          fun l hl => (hk1.lowerCut l hl).trans hk'.le⟩⟩
      rw [h1.entries]
      simp [hemp]
    · refine ⟨⟨?_, h1.finished, h1.fresh, h1.below, h1.covered, fun es hes => ?_⟩, fun k' hk' =>
        ⟨fun es hes e he => ?_, fun l hl => (hk1.lowerCut l hl).trans hk'.le⟩⟩
      · simp only [Option.getD_some, List.flatMap_append, ← h1.entries]
        simp
      · simp only [Option.some.injEq] at hes
        subst hes
        refine ⟨fun hnil => hemp (List.append_eq_nil_iff.1 hnil).2, ?_⟩
        intro l hl e he
        rcases List.mem_append.1 he with he | he
        · cases hb : s1.builder with
          | none => simp [hb] at he
          | some es => exact (h1.builder es hb).2 l hl e (by simpa [hb] using he)
        · rw [hout e he]
          exact hk1.lowerCut l hl
      · simp only [Option.some.injEq] at hes
        subst hes
        rcases List.mem_append.1 he with he | he
        · cases hb : s1.builder with
          | none => simp [hb] at he
          | some es => exact (hk1.builder es hb e (by simpa [hb] using he)).trans hk'
        · rw [hout e he]
          exact hk'
  obtain ⟨h2, hk2⟩ := h2
  rcases hs with hs | hs
  · rw [hs]
    exact ⟨h2, hk2⟩
  · rw [hs]
    exact ⟨⟨h2.entries, h2.finished, h2.fresh, h2.below, h2.covered, h2.builder⟩,
      fun k' hk' => ⟨(hk2 k' hk').builder, (hk2 k' hk').lowerCut⟩⟩

/-- The loop over the groups, whose keys go up. -/
theorem Written.foldl (h : Written c done s) {groups : List (List (Entry K V))}
    (hne : ∀ g ∈ groups, g ≠ [])
    (heq : ∀ g ∈ groups, ∀ a ∈ g, ∀ b ∈ g, a.key.userKey = b.key.userKey)
    (hup : groups.Pairwise fun g g' => ∀ a ∈ g, ∀ b ∈ g', a.key.userKey < b.key.userKey)
    (hk : ∀ g ∈ groups, ∀ a ∈ g, Ahead s a.key.userKey) :
    Written c (done ++ groups) (groups.foldl c.flushGroup s) := by
  induction groups generalizing done s with
  | nil => simpa using h
  | cons g groups ih =>
    obtain ⟨a, ha⟩ := List.exists_mem_of_ne_nil g (hne g (by simp))
    rw [List.pairwise_cons] at hup
    obtain ⟨h1, h2⟩ := h.flushGroup (hne g (by simp))
      (fun e he => heq g (by simp) e he a ha) (hk g (by simp) a ha)
    have := ih h1 (fun g hg => hne g (by simp [hg])) (fun g hg => heq g (by simp [hg])) hup.2
      fun g' hg' b hb => h2 _ (hup.1 g' hg' a ha b hb)
    simpa using this

/-- The input entries are in internal-key order. -/
theorem input_sorted (c : Compaction K V) : c.input.Pairwise fun a b => a.key ≤ b.key := by
  have : Std.Total fun a b : Entry K V => a.key ≤ b.key := ⟨fun a b => le_total _ _⟩
  have : IsTrans (Entry K V) fun a b => a.key ≤ b.key := ⟨fun _ _ _ h h' => le_trans h h'⟩
  exact List.pairwise_insertionSort _ _

/-- **The outputs of a compaction.** -/
theorem doCompactionWork_written (c : Compaction K V) :
    c.doCompactionWork.flatMap (·.entries) =
        (runs (fun e : Entry K V => e.key.userKey) c.input).flatMap c.compactGroup ∧
      Finished c c.doCompactionWork ∧ ∀ k, Covered c c.doCompactionWork k := by
  have hstart : Written c [] ({} : State K V) :=
    ⟨rfl, ⟨.nil, by simp, by simp⟩, fun _ => rfl, by simp, by simp, by simp⟩
  have hrun := hstart.foldl (fun g hg => run_ne_nil hg) (fun g hg a ha b hb => eq_of_mem_run hg ha hb)
    (runs_pairwise (c.input_sorted.imp fun {a b} h => userKey_le h))
    fun g hg a ha => ⟨by simp, by simp⟩
  rw [List.nil_append] at hrun
  unfold doCompactionWork
  generalize (runs (fun e : Entry K V => e.key.userKey) c.input).foldl c.flushGroup {} = s at hrun
  unfold openLeft
  split
  · -- the tombstones past the last output get one of their own
    rename_i hleft
    obtain ⟨hb, hleft⟩ := hleft
    have hb : s.builder = none := by simpa using hb
    obtain ⟨t, ht, hleft⟩ := List.any_eq_true.1 hleft
    have hmine : c.tombstones.filterMap (cut s.lowerCut none) ≠ [] := by
      obtain ⟨-, hlt, -⟩ := mem_tombstones ht
      have hc : t.Covers (s.lowerCut.elim t.beginKey fun l => max t.beginKey l) := by
        cases hl : s.lowerCut with
        | none => exact ⟨le_rfl, hlt⟩
        | some l =>
          rw [hl] at hleft
          exact ⟨le_max_left _ _, max_lt hlt (of_decide_eq_true hleft)⟩
      have hpart : ∃ u, cut s.lowerCut none t = some u ∧
          u.Covers (s.lowerCut.elim t.beginKey fun l => max t.beginKey l) ∧ u.seq = t.seq :=
        exists_cut hc (fun l hl => by simp [hl]) (by simp)
      obtain ⟨u, hcut, -⟩ := hpart
      exact List.ne_nil_of_mem (List.mem_filterMap.2 ⟨t, ht, hcut⟩)
    simp only [Compaction.finishOutput]
    refine ⟨?_, hrun.finished.snoc hrun.fresh hrun.below (by simp) (.inr hmine), fun k => ?_⟩
    · rw [← hrun.entries, hb]
      simp
    · exact Covered.snoc (fun l hl hlt => hrun.covered l hl k hlt) (by simp)
  · rename_i hleft
    cases hb : s.builder with
    | none =>
      simp only [Compaction.finishOutput, hb]
      refine ⟨?_, hrun.finished, fun k t ht hc => ?_⟩
      · rw [← hrun.entries, hb]
        simp
      · have hend : s.lowerCut.elim true (fun l => decide (l < t.endKey)) = false := by
          have hany : ¬ c.tombstones.any
              (fun t => s.lowerCut.elim true fun l => decide (l < t.endKey)) = true :=
            fun h => hleft ⟨by simp [hb], h⟩
          simpa using List.any_eq_false.1 (by simpa using hany) t ht
        cases hl : s.lowerCut with
        | none => simp [hl] at hend
        | some l =>
          simp only [hl, Option.elim_some, decide_eq_false_iff_not, not_lt] at hend
          exact hrun.covered l hl k (hc.2.trans_le hend) t ht hc
    | some es =>
      obtain ⟨hne, hes⟩ := hrun.builder es hb
      simp only [Compaction.finishOutput, hb]
      refine ⟨?_, hrun.finished.snoc hrun.fresh hrun.below hes (.inl hne), fun k => ?_⟩
      · rw [← hrun.entries, hb]
        simp
      · exact Covered.snoc (fun l hl hlt => hrun.covered l hl k hlt) (by simp)

end LevelDb.Compaction
