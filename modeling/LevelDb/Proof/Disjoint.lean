import LevelDb.Proof.Ages
import Mathlib.Data.List.MinMax

/-!
# When the files of a level are apart

`Family.levelsDisjoint`: in every run in which no flush that a running compaction makes lands on
the level its outputs go to, between its inputs (`OutsideGaps`), the files of every level below
level 0 have disjoint ranges, bounds and tombstones included. `Family.not_levelsDisjoint` is a run
in which one does and an output then covers the flushed file.

The invariant is about the keys: of two files of a deeper level one is before the other
(`Version.Separated`), and while a compaction runs every other file of the output level is before
all its inputs or after all of them (`Running.Clear`).
-/

namespace LevelDb

variable {K V : Type} [LinearOrder K]

/-- The files of every level below level 0 have disjoint ranges. -/
def Version.LevelsDisjoint (v : Version K V) : Prop :=
  ∀ l, 0 < l → (v.files l).Pairwise fun f g => f.largest < g.smallest ∨ g.largest < f.smallest

/-! ## Bounds and keys -/

namespace FileMetaData

variable {f g : FileMetaData K V}

/-- The bound of a tombstone is past every record of its end key. -/
theorem upper_lt {k : InternalKey K} {t : RangeTombstone K} (hle : t.endKey ≤ k.userKey)
    (hseq : k.sequence < kMaxSequenceNumber) : t.upper < k := by
  rcases hle.lt_or_eq with hlt | heq
  · exact InternalKey.lt_iff.2 (.inl hlt)
  · refine InternalKey.lt_iff.2 (.inr ⟨heq, ?_⟩)
    have hcode := k.type.code_le
    have hupper : ValueType.rangeDeletion.code = 3 := rfl
    simp only [RangeTombstone.upper, InternalKey.tag, hupper]
    omega

/-- **Files apart by keys are apart by bounds**: the reserved sequence number of an exclusive
bound is above those of all records. -/
theorem largest_lt_smallest (h : f.layer.Before g.layer)
    (hseq : ∀ k, ∀ s ∈ g.layer.seqsAt k, s < kMaxSequenceNumber) : f.largest < g.smallest := by
  have hentry : ∀ (f : FileMetaData K V), ∀ e ∈ f.table.entries, e.key.userKey ∈ f.layer.keys :=
    fun f e he => ⟨_, Layer.seqsAt_of_entry he⟩
  have hcover : ∀ (f : FileMetaData K V), ∀ t ∈ f.tombstones, ∀ k, t.Covers k → k ∈ f.layer.keys :=
    fun f t ht k hc => ⟨t.seq, Layer.mem_seqsAt.2 (.inr ⟨t, ht, hc, rfl⟩)⟩
  -- the user key `g` starts with, at a sequence number of a record
  obtain ⟨hstart, hs⟩ : g.smallest.userKey ∈ g.layer.keys ∧
      g.smallest.sequence < kMaxSequenceNumber := by
    rcases g.bounded.smallest_eq with ⟨e, he, heq⟩ | ⟨t, ht, heq⟩
    · rw [heq]
      exact ⟨hentry g e he, hseq _ _ (Layer.seqsAt_of_entry he)⟩
    · have hc : t.Covers t.beginKey := ⟨le_rfl, g.ranges t ht⟩
      rw [heq]
      exact ⟨hcover g t ht _ hc, hseq t.beginKey t.seq
        (Layer.mem_seqsAt.2 (.inr ⟨t, ht, hc, rfl⟩))⟩
  rcases f.bounded.largest_eq with ⟨e, he, heq⟩ | ⟨t, ht, heq⟩
  · rw [heq]
    exact InternalKey.lt_iff.2 (.inl (h _ (hentry f e he) _ hstart))
  · rw [heq]
    refine upper_lt (not_lt.1 fun hlt => ?_) hs
    -- otherwise the tombstone covers the first key of `g` or starts after it
    have hmax : t.Covers (max t.beginKey g.smallest.userKey) :=
      ⟨le_max_left _ _, max_lt (f.ranges t ht) hlt⟩
    exact absurd (h _ (hcover f t ht _ hmax) _ hstart) (not_lt.2 (le_max_right _ _))

/-- Files whose user-key ranges do not overlap are before or after each other. -/
theorem before_of_not_overlaps (h : ¬ g.Overlaps f.smallest.userKey f.largest.userKey) :
    f.layer.Before g.layer ∨ g.layer.Before f.layer := by
  rw [Overlaps, not_and_or, not_le, not_le] at h
  rcases h with h | h
  · refine .inr fun k hk k' hk' => ?_
    exact (userKey_mem hk).2.trans_lt (h.trans_le (userKey_mem hk').1)
  · refine .inl fun k hk k' hk' => ?_
    exact (userKey_mem hk).2.trans_lt (h.trans_le (userKey_mem hk').1)

end FileMetaData

/-! ## The invariant -/

/-- Of two files of a level below level 0, one is before the other. -/
def Version.Separated (v : Version K V) : Prop :=
  ∀ l, 0 < l → ∀ f ∈ v.files l, ∀ g ∈ v.files l, f ≠ g →
    f.layer.Before g.layer ∨ g.layer.Before f.layer

/-- A file before all inputs of a compaction or after all of them. -/
def Running.Beside (r : Running K V) (g : FileMetaData K V) : Prop :=
  (∀ f ∈ r.inputs, g.layer.Before f.layer) ∨ ∀ f ∈ r.inputs, f.layer.Before g.layer

/-- Every file of the output level is an input or beside the inputs. -/
def Running.Clear (r : Running K V) (v : Version K V) : Prop :=
  ∀ g ∈ v.files (r.level + 1), g ∉ r.inputs1 → r.Beside g

theorem Running.beside_of_not_overlapsHull {r : Running K V} {g : FileMetaData K V}
    (h : ¬ OverlapsHull r.inputs g) : r.Beside g := by
  rw [OverlapsHull, not_and_or] at h
  push Not at h
  rcases h with h | h
  · refine .inl fun f hf k hk k' hk' => ?_
    exact (FileMetaData.userKey_mem hk).2.trans_lt ((h f hf).trans_le (FileMetaData.userKey_mem hk').1)
  · refine .inr fun f hf k hk k' hk' => ?_
    exact (FileMetaData.userKey_mem hk).2.trans_lt ((h f hf).trans_le (FileMetaData.userKey_mem hk').1)

section
variable {v : Version K V} (hsep : v.Separated)
  (hseq : ∀ l, ∀ f ∈ v.files l, ∀ k, ∀ s ∈ f.layer.seqsAt k, s < kMaxSequenceNumber)
include hsep hseq

theorem Version.Separated.disjoint (hnodup : ∀ l, (v.files l).Nodup) : v.LevelsDisjoint := by
  intro l hl
  refine (hnodup l).imp_of_mem fun {f g} hf hg hne => ?_
  rcases hsep l hl f hf g hg hne with h | h
  · exact .inl (FileMetaData.largest_lt_smallest h (hseq l g hg))
  · exact .inr (FileMetaData.largest_lt_smallest h (hseq l f hf))

/-- Of two files of a level, the one that ends before the other starts is before it. -/
theorem Version.Separated.before_of_lt {l : Nat} (hl : 0 < l) {f g : FileMetaData K V}
    (hf : f ∈ v.files l) (hg : g ∈ v.files l) (hlt : f.largest < g.smallest) :
    f.layer.Before g.layer := by
  have hne : f ≠ g := by
    rintro rfl
    exact absurd hlt (not_lt.2 f.smallest_le_largest)
  rcases hsep l hl f hf g hg hne with h | h
  · exact h
  · have hlt' := FileMetaData.largest_lt_smallest h (hseq l f hf)
    have := (hlt.trans_le g.smallest_le_largest).trans (hlt'.trans_le f.smallest_le_largest)
    exact absurd this (lt_irrefl _)

theorem Version.Separated.lt_or_lt {l : Nat} (hl : 0 < l) {f g : FileMetaData K V}
    (hf : f ∈ v.files l) (hg : g ∈ v.files l) (hne : f ≠ g) :
    f.largest < g.smallest ∨ g.largest < f.smallest := by
  rcases hsep l hl f hf g hg hne with h | h
  · exact .inl (FileMetaData.largest_lt_smallest h (hseq l g hg))
  · exact .inr (FileMetaData.largest_lt_smallest h (hseq l f hf))

/-- **Picking** leaves no file of the output level between the inputs: one that is before the files
that come down is before every file of its level that is picked with them, and one that is after
is after. -/
theorem Version.Separated.clear {level : Nat} {inputs0 inputs1 : List Nat}
    (hp : Picked v level inputs0 inputs1) {r : Running K V} (hlevel : r.level = level)
    (h0 : r.inputs0 = v.pick level inputs0) (h1 : r.inputs1 = v.pick (level + 1) inputs1) :
    r.Clear v := by
  subst hlevel
  intro g hg hnot
  rw [h1] at hnot
  have hnotin : g.number ∉ inputs1 := fun hin => hnot (Version.mem_pick.2 ⟨hg, hin⟩)
  have hhull : ¬ OverlapsHull (v.pick r.level inputs0) g := fun hover =>
    hnotin (hp.overlapping1 g hg hover)
  have hin1 : ∀ f ∈ v.pick (r.level + 1) inputs1, f ∈ v.files (r.level + 1) ∧ f ≠ g := by
    intro f hf
    refine ⟨(Version.mem_pick.1 hf).1, ?_⟩
    rintro rfl
    exact hnot hf
  have hpos : 0 < r.level + 1 := Nat.succ_pos _
  rw [OverlapsHull, not_and_or] at hhull
  push Not at hhull
  rcases hhull with hlow | hhigh
  · -- `g` is below what comes down
    refine .inl fun f hf => ?_
    rcases List.mem_append.1 hf with hf | hf
    · rw [h0] at hf
      intro k hk k' hk'
      exact (FileMetaData.userKey_mem hk).2.trans_lt
        ((hlow f hf).trans_le (FileMetaData.userKey_mem hk').1)
    · rw [h1] at hf
      obtain ⟨hfv, hne⟩ := hin1 f hf
      apply hsep.before_of_lt hseq hpos hg hfv
      rcases hsep.lt_or_lt hseq hpos hfv hg hne with h | h
      · obtain ⟨⟨a, ha, hle⟩, -⟩ := hp.only1 f hf
        have hfg := userKey_le (h.le.trans g.smallest_le_largest)
        exact absurd (hlow a ha) (not_lt.2 (hle.trans hfg))
      · exact h
  · -- `g` is above it
    refine .inr fun f hf => ?_
    rcases List.mem_append.1 hf with hf | hf
    · rw [h0] at hf
      intro k hk k' hk'
      exact (FileMetaData.userKey_mem hk).2.trans_lt
        ((hhigh f hf).trans_le (FileMetaData.userKey_mem hk').1)
    · rw [h1] at hf
      obtain ⟨hfv, hne⟩ := hin1 f hf
      apply hsep.before_of_lt hseq hpos hfv hg
      rcases hsep.lt_or_lt hseq hpos hfv hg hne with h | h
      · exact h
      · obtain ⟨-, b, hb, hle⟩ := hp.only1 f hf
        have hgf := userKey_le (g.smallest_le_largest.trans h.le)
        exact absurd (hhigh b hb) (not_lt.2 (hgf.trans hle))

end

/-! ## Flushes and installs -/

section
variable {v : Version K V}

theorem Version.Separated.add (h : v.Separated) {f : FileMetaData K V} {p : Nat}
    (hf : 0 < p → ∀ g ∈ v.files p, f.layer.Before g.layer ∨ g.layer.Before f.layer) :
    (v.apply { newFiles := [(p, f)] }).Separated := by
  intro l hl a ha b hb hne
  rcases Version.mem_add.1 ha with hav | ⟨rfl, rfl⟩ <;>
    rcases Version.mem_add.1 hb with hbv | ⟨hlp, rfl⟩
  · exact h l hl a hav b hbv hne
  · subst hlp
    exact (hf hl a hav).symm
  · exact hf hl b hbv
  · exact absurd rfl hne

theorem Running.Clear.add {r : Running K V} (h : r.Clear v) {f : FileMetaData K V} {p : Nat}
    (hf : p = r.level + 1 → r.Beside f) : r.Clear (v.apply { newFiles := [(p, f)] }) := by
  intro g hg hnot
  rcases Version.mem_add.1 hg with hg | ⟨rfl, rfl⟩
  · exact h g hg hnot
  · exact hf rfl

/-- **Installing a compaction** all other files of the output level are beside. -/
theorem Version.Separated.replace (h : v.Separated) {r : Running K V} (hr : r.Clear v)
    {outputs : List (FileMetaData K V)}
    (hfrom : ∀ f ∈ outputs, ∀ k, ∀ s ∈ f.layer.seqsAt k, ∃ g ∈ r.inputs, s ∈ g.layer.seqsAt k)
    (hbefore : outputs.Pairwise fun f g => f.layer.Before g.layer) :
    (v.apply (r.installEdit outputs)).Separated := by
  have hkeys : ∀ f ∈ outputs, ∀ k ∈ f.layer.keys, ∃ g ∈ r.inputs, k ∈ g.layer.keys := by
    rintro f hf k ⟨s, hs⟩
    obtain ⟨g, hg, hs⟩ := hfrom f hf k s hs
    exact ⟨g, hg, s, hs⟩
  have hbeside : ∀ a ∈ v.files (r.level + 1), a ∉ r.inputs1 → ∀ b ∈ outputs,
      a.layer.Before b.layer ∨ b.layer.Before a.layer := by
    intro a ha hnot b hb
    rcases hr a ha hnot with hall | hall
    · refine .inl fun k hk k' hk' => ?_
      obtain ⟨g, hg, hk'⟩ := hkeys b hb k' hk'
      exact hall g hg k hk k' hk'
    · refine .inr fun k hk k' hk' => ?_
      obtain ⟨g, hg, hk⟩ := hkeys b hb k hk
      exact hall g hg k hk k' hk'
  intro l hl a ha b hb hne
  rcases Running.mem_install ha with ⟨hav, -, hnot, -⟩ | ⟨rfl, hao⟩ <;>
    rcases Running.mem_install hb with ⟨hbv, -, hnot', -⟩ | ⟨hlo, hbo⟩
  · exact h l hl a hav b hbv hne
  · subst hlo
    exact hbeside a hav (hnot rfl) b hbo
  · exact (hbeside b hbv (hnot' rfl) a hao).symm
  · have : Std.Symm fun f g : FileMetaData K V =>
        f.layer.Before g.layer ∨ g.layer.Before f.layer := ⟨fun _ _ h => h.symm⟩
    have heither : outputs.Pairwise fun f g =>
        f.layer.Before g.layer ∨ g.layer.Before f.layer := hbefore.imp .inl
    exact heither.forall hao hbo hne

end

/-! ## The family -/

namespace Family

variable {opts : Options K V} {s s' : Family K V}

/-- The files of the levels are apart, and will be when a running compaction is installed. -/
structure Apart (s : Family K V) : Prop where
  sorted : ∀ l, (s.current.files l).Pairwise Version.bySmallest
  separated : s.current.Separated
  clear : ∀ r, s.running = some r → r.Clear s.current

theorem Inv.seq_lt (h : s.Inv) : ∀ l, ∀ f ∈ s.current.files l, ∀ k, ∀ q ∈ f.layer.seqsAt k,
    q < kMaxSequenceNumber :=
  fun l f hf k q hq => (h.stored l f hf k q hq).1.trans_lt h.last_lt

theorem Apart.flush (h : s.Apart) {number fileSize : Nat} {m : MemTable K V}
    {base : Option (Version K V)} (hbase : base = none ∨ base = some s.current)
    (hcurrent : s'.current = s.current.apply (writeLevel0Table opts number fileSize m base))
    (hrunning : ∀ r, s'.running = some r → s.running = some r ∧ ∀ f,
      (r.level + 1, f) ∈ (writeLevel0Table opts number fileSize m base).newFiles →
        ¬ OverlapsHull r.inputs f) : s'.Apart := by
  rcases writeLevel0Table_cases opts number fileSize m base with hnone | ⟨f, -, -, hfile⟩
  · have hmem : ∀ l f, f ∈ s'.current.files l ↔ f ∈ s.current.files l := by
      intro l f
      rw [hcurrent, hnone, Version.mem_apply]
      simp
    refine ⟨fun l => hcurrent ▸ Version.sorted_apply, fun l hl f hf g hg => ?_,
      fun r hr g hg => ?_⟩
    · exact h.separated l hl f ((hmem l f).1 hf) g ((hmem l g).1 hg)
    · exact h.clear r (hrunning r hr).1 g ((hmem _ g).1 hg)
  · generalize hp : (base.elim 0 fun v =>
      v.pickLevelForMemTableOutput opts f.smallest.userKey f.largest.userKey) = p at hfile
    rw [hfile] at hcurrent hrunning
    refine ⟨fun l => hcurrent ▸ Version.sorted_apply, ?_, ?_⟩
    · rw [hcurrent]
      refine h.separated.add fun hpos g hg => FileMetaData.before_of_not_overlaps fun hover => ?_
      rcases hbase with rfl | rfl
      · rw [← hp] at hpos
        exact absurd hpos (Nat.lt_irrefl 0)
      · rw [← hp] at hpos hg
        have hno := Version.overlapInLevel_of_le_pickLevel hpos le_rfl
        exact List.any_eq_false.1 hno g hg (decide_eq_true hover)
    · intro r hr
      obtain ⟨hr, hout⟩ := hrunning r hr
      rw [hcurrent]
      refine (h.clear r hr).add fun hp => Running.beside_of_not_overlapsHull (hout f ?_)
      rw [hp]
      exact List.mem_singleton_self _

theorem Apart.install (h : s.Apart) {r : Running K V} (hrun : s.running = some r)
    {shouldStopBefore : List (InternalKey K) → Bool} {fileFull : List (Entry K V) → Bool}
    {sizes : Nat → Nat} {outputs : List (FileMetaData K V)}
    (hout : outputFiles sizes s.nextFileNumber
      (r.compaction opts shouldStopBefore fileFull).doCompactionWork = some outputs) :
    (s.current.apply (r.installEdit outputs)).Separated :=
  h.separated.replace (h.clear r hrun) (fun _ hf _ _ hq => seqsAt_outputFiles hout hf hq)
    (outputFiles_before hout)

theorem Apart.trivialMove (h : s.Apart) (hinv : s.Inv) {level number : Nat} {f : FileMetaData K V}
    (hpick : s.current.pick level [number] = [f]) (hp : Picked s.current level [number] []) :
    (s.current.apply ⟨[(level, number)], [(level + 1, f)]⟩).Separated := by
  have hf : f ∈ s.current.pick level [number] := by simp [hpick]
  have hnumber := (Version.mem_pick.1 hf).2
  rw [List.mem_singleton] at hnumber
  subst hnumber
  have hclear : Running.Clear ⟨level, [f], [], s.current, [], 0⟩ s.current :=
    h.separated.clear hinv.seq_lt hp rfl hpick.symm (by simp [Version.pick])
  have hfrom : ∀ g ∈ [f], ∀ k, ∀ q ∈ g.layer.seqsAt k,
      ∃ a ∈ (Running.inputs ⟨level, [f], [], s.current, [], 0⟩), q ∈ a.layer.seqsAt k :=
    fun g hg _ _ hq => ⟨g, List.mem_append_left _ hg, hq⟩
  exact h.separated.replace hclear hfrom (List.pairwise_singleton _ _)

section
variable [Inhabited V]

/-- A flush while a compaction runs does not put its table on the level the compaction's outputs
go to, within the user-key range of the compaction's inputs. -/
def OutsideGaps (opts : Options K V) (s : Family K V) : Action K V → Prop
  | .compactMemTable fileSize => ∀ r ∈ s.running, ∀ imm ∈ s.imm,
      ∀ n ∈ (writeLevel0Table opts s.nextFileNumber fileSize (.ofRecords imm)
        (some s.current)).newFiles, n.1 = r.level + 1 → ¬ OverlapsHull r.inputs n.2
  | _ => True

instance (opts : Options K V) (s : Family K V) : ∀ a, Decidable (OutsideGaps opts s a)
  | .compactMemTable fileSize => inferInstanceAs (Decidable (∀ r ∈ s.running, ∀ imm ∈ s.imm,
      ∀ n ∈ (writeLevel0Table opts s.nextFileNumber fileSize (.ofRecords imm)
        (some s.current)).newFiles, n.1 = r.level + 1 → ¬ OverlapsHull r.inputs n.2))
  | .write _ _ | .switchMemTable | .pick _ _ _ _ | .install _ _ _ | .trivialMove _ _
  | .recover _ _ => instDecidableTrue

theorem Apart.replay (h : s.Apart) (hrunning : s.running = none) (tables : List (Nat × Nat)) :
    (replay opts tables s).Apart := by
  induction tables generalizing s with
  | nil => exact h
  | cons t tables ih =>
    obtain ⟨n, fileSize⟩ := t
    exact ih (h.flush (.inl rfl) rfl (by simp [hrunning])) hrunning

/-- **One step** that leaves the gaps alone. -/
theorem Apart.step {a : Action K V} (h : s.Apart) (hinv : s.Inv) (ha : OutsideGaps opts s a)
    (hstep : step opts s a = some s') : s'.Apart := by
  cases a with
  | write seq record =>
    simp only [Family.step] at hstep
    split at hstep
    · cases hstep
      exact ⟨h.sorted, h.separated, h.clear⟩
    · cases hstep
  | switchMemTable =>
    simp only [Family.step] at hstep
    split at hstep
    · cases hstep
      exact ⟨h.sorted, h.separated, h.clear⟩
    · cases hstep
  | compactMemTable fileSize =>
    obtain ⟨imm, himm, rfl⟩ := Option.map_eq_some_iff.1 hstep
    refine h.flush (.inr rfl) rfl fun r hr => ⟨hr, fun f hf => ?_⟩
    exact ha r hr imm himm _ hf rfl
  | pick level inputs0 inputs1 snapshots =>
    simp only [Family.step] at hstep
    split at hstep
    · rename_i hp
      cases hstep
      refine ⟨h.sorted, h.separated, fun r hr => ?_⟩
      cases hr
      exact h.separated.clear hinv.seq_lt hp.2 rfl rfl rfl
    · cases hstep
  | install shouldStopBefore fileFull sizes =>
    obtain ⟨r, hrun, hstep⟩ := Option.bind_eq_some_iff.1 hstep
    obtain ⟨outputs, hout, rfl⟩ := Option.map_eq_some_iff.1 hstep
    exact ⟨fun _ => Version.sorted_apply, h.install hrun hout, by simp⟩
  | trivialMove level number =>
    simp only [Family.step] at hstep
    split at hstep
    · rename_i f hrun hpick
      split at hstep
      · rename_i hp
        cases hstep
        exact ⟨fun _ => Version.sorted_apply, h.trivialMove hinv hpick hp.1, by simp [hrun]⟩
      · cases hstep
    · cases hstep
  | recover tables nextFileNumber =>
    simp only [Family.step] at hstep
    split at hstep
    · cases hstep
      have hstart : Apart { s with mem := s.records, imm := none, running := none, nextFileNumber } :=
        ⟨h.sorted, h.separated, by simp⟩
      exact hstart.replay rfl tables
    · cases hstep

theorem apart_of_reachableBy (h : (system opts).ReachableBy (OutsideGaps opts) s) : s.Apart := by
  refine h.invariant_of (fun s => inv_of_reachable) ?_ fun s a s' hinv hP ha => hP.step hinv ha
  rintro s rfl
  exact ⟨fun _ => .nil, fun l _ f hf => absurd hf List.not_mem_nil, by simp [empty]⟩

/-- Such a run leaves a family that reads may rely on, as long as level 0 is not too long. -/
theorem wellFormed (h : (system opts).ReachableBy (OutsideGaps opts) s)
    (hfew : kFirstTableLayer + (s.current.files 0).length + kNumLevels ≤ kAllLayers) :
    (s.columnFamily opts).WellFormed := by
  have hinv := inv_of_reachable h.reachable
  have hapart := apart_of_reachableBy h
  have hne : ∀ l, (s.current.files l).Pairwise fun f g => f ≠ g := hinv.ordered.nodup
  refine ⟨hinv.newerThan_layers, ?_, fun l _ hl => ?_, fun l _ hl => ?_, hfew⟩
  · exact (hne 0).imp_of_mem fun hf hg hne heq => hne (hinv.ordered.unique 0 0 _ _ hf hg heq).2
  · refine (((hne l).and (hapart.sorted l))).imp_of_mem fun {f g} hf hg hfg => ?_
    rcases hapart.separated.lt_or_lt hinv.seq_lt hl hf hg hfg.1 with hlt | hlt
    · exact hlt
    · -- the level is sorted by smallest key
      have hle : f.smallest ≤ g.smallest := by
        rcases hfg.2 with h | ⟨h, -⟩
        · exact h.le
        · exact h.le
      exact absurd ((g.smallest_le_largest.trans_lt hlt).trans_le hle) (lt_irrefl _)
  · refine (hne l).imp_of_mem fun {f g} hf hg hne a ha b hb heq => ?_
    have hfa : a.key.userKey ∈ f.layer.keys := ⟨_, Layer.seqsAt_of_entry ha⟩
    have hgb : b.key.userKey ∈ g.layer.keys := ⟨_, Layer.seqsAt_of_entry hb⟩
    exact Set.disjoint_left.1 (hinv.ordered.apart l f g hl hf hg hne) hfa (heq ▸ hgb)

/-- **The files of every level are apart** in every run whose flushes stay out of the gaps between
the inputs of a running compaction. -/
theorem levelsDisjoint (h : (system opts).ReachableBy (OutsideGaps opts) s) :
    s.current.LevelsDisjoint :=
  have hinv := inv_of_reachable h.reachable
  (apart_of_reachableBy h).separated.disjoint hinv.seq_lt hinv.ordered.nodup

end

/-- A flush while a compaction of level 1 runs, past its inputs. -/
def besideRun : List (Action (Fin 3) Nat) :=
  [.write 1 (.put 0 10), .switchMemTable, .compactMemTable 10,
    .write 2 (.put 0 11), .switchMemTable, .compactMemTable 10,
    .pick 1 [3] [2] [], .write 3 (.deleteRange 1 2), .switchMemTable, .compactMemTable 10,
    .install (fun _ => false) (fun _ => false) fun _ => 10]

theorem levelsDisjoint_besideRun :
    ∃ s, (system sampleOptions).runBy (OutsideGaps sampleOptions) empty besideRun = some s ∧
      s.current.LevelsDisjoint := by
  have hrun : ((system sampleOptions).runBy (OutsideGaps sampleOptions) empty besideRun).isSome =
      true := by decide +kernel
  obtain ⟨s, hs⟩ := Option.isSome_iff_exists.1 hrun
  have hempty : (system sampleOptions).ReachableBy (OutsideGaps sampleOptions) empty := .init rfl
  exact ⟨s, hs, levelsDisjoint (hempty.runBy hs)⟩

/-- Two files on level 1 over two on level 2; while they are compacted, a file between them is
flushed to level 2, and the one output spans it. -/
def gapRun : List (Action (Fin 3) Nat) :=
  [.write 1 (.put 0 10), .switchMemTable, .compactMemTable 10,
    .write 2 (.put 2 20), .switchMemTable, .compactMemTable 10,
    .write 3 (.put 0 11), .switchMemTable, .compactMemTable 10,
    .write 4 (.put 2 21), .switchMemTable, .compactMemTable 10,
    .pick 1 [4, 5] [2, 3] [], .write 5 (.put 1 30), .switchMemTable, .compactMemTable 10,
    .install (fun _ => false) (fun _ => false) fun _ => 10]

/-- **A flush in a gap** makes the files of level 2 overlap. -/
theorem not_levelsDisjoint :
    ¬ ∀ s, (system sampleOptions).Reachable s → s.current.LevelsDisjoint := by
  intro hall
  have hempty : (system sampleOptions).Reachable empty := .init rfl
  have hrun : ((system sampleOptions).run empty gapRun).any (fun s =>
      !decide ((s.current.files 2).Pairwise fun f g =>
        f.largest < g.smallest ∨ g.largest < f.smallest)) = true := by decide +kernel
  obtain ⟨s, hs, hoverlap⟩ := (Option.any_eq_true _ _).1 hrun
  have hdisjoint := hall s (hempty.run hs) 2 (by decide)
  simp [hdisjoint] at hoverlap

end Family
end LevelDb
