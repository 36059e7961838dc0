import LevelDb.Proof.Disjoint
import LevelDb.Proof.Held

/-!
# A family keeps its history

`Store.contents_read_eq`: at every live snapshot, and at the last sequence number, all that the
memtables and files of a family hold of a key reads as what the records written so far make of it.
Memtable switches, flushes, compactions with their merges and dropped tombstones, trivial moves and
recoveries come in any order. The operands of the merge operator may be grouped (`Laws`): a compaction
groups them.

The invariant is `Store.Kept`: for every reader there is, the versions of a key that the family holds
and those of the history cannot be told apart, whatever is written on top (`Kept.same`). A write puts
the same operation on both; flushes and moves keep what the family holds; a compaction is invisible to
the snapshots it was started with, and a snapshot taken later sees all of its inputs.
-/

namespace LevelDb

open Mvcc

variable {K V : Type} [LinearOrder K]

/-! ## The outputs of a compaction -/

/-- What holds of the entries of each key holds of all. -/
theorem pairwise_of_keys {R : Entry K V → Entry K V → Prop} {es : List (Entry K V)}
    (h : ∀ k, (es.filter fun e => e.key.userKey = k).Pairwise R) :
    es.Pairwise fun a b => a.key.userKey = b.key.userKey → R a b := by
  induction es with
  | nil => exact .nil
  | cons e es ih =>
    refine List.pairwise_cons.2 ⟨fun b hb hk => ?_, ih fun k => ?_⟩
    · have := h e.key.userKey
      rw [List.filter_cons, if_pos (decide_eq_true rfl), List.pairwise_cons] at this
      exact this.1 b (List.mem_filter.2 ⟨hb, decide_eq_true hk.symm⟩)
    · exact (h k).sublist ((List.sublist_cons_self e es).filter _)

theorem Compaction.outputLayer_distinct {c : Compaction K V} (h : c.inputLayer.Distinct) :
    c.outputLayer.Distinct := by
  have hinput : (⟨c.input, []⟩ : Layer K V).Distinct := by
    refine h.perm ?_
    have hentries : c.inputLayer.entries = c.inputs.flatMap fun f => f.table.entries := by
      simp [inputLayer, Layer.concat, List.flatMap_map]
    rw [hentries]
    exact (List.perm_insertionSort _ _).symm
  refine pairwise_of_keys (R := fun a b => a.key.sequence ≠ b.key.sequence) fun k => ?_
  rw [outputs_filter]
  have hgroup : ((c.group k).map (·.key.sequence)).Nodup := by
    refine List.pairwise_map.2 ((hinput.filter _).imp_of_mem fun ha hb hab => ?_)
    exact hab ((mem_group.1 ha).2.trans (mem_group.1 hb).2.symm)
  exact List.pairwise_map.1 (hgroup.sublist (seqs_compactGroup c (c.group k)))

/-- **A running compaction of a family is sound**: what its inputs hold is told apart by number, and
what is below its outputs was there when it asked. -/
theorem Family.sound {opts : Options K V} {s : Family K V} {r : Running K V}
    (hlaws : ∀ op, opts.mergeOp = some op → ∀ k, Laws (op.fullMerge k) (op.partialMerge k))
    (hb : Base r s) (hsorted : r.snapshots.Pairwise (· ≤ ·)) (hlast : r.lastSequence < kMaxSequenceNumber)
    (hdistinct : (Layer.concat (r.inputs.map (·.layer))).Distinct) {older : Layer K V}
    (holder : ∀ e ∈ older.entries, ∃ n, Below r n ∧ n.1 < kNumLevels ∧ e ∈ n.2.table.entries)
    (shouldStopBefore : List (InternalKey K) → Bool) (fileFull : List (Entry K V) → Bool) :
    (r.compaction opts shouldStopBefore fileFull).Sound older where
  snapshots := hsorted
  distinct := hdistinct
  seqs_le k q hq := by
    obtain ⟨_, hl, hq⟩ := Layer.seqsAt_concat.1 hq
    obtain ⟨f, hf, rfl⟩ := List.mem_map.1 hl
    rcases List.mem_append.1 hf with hf | hf
    · exact (hb.stored _ f (hb.mem0 f hf) k q hq).1
    · exact (hb.stored _ f (hb.mem1 f hf) k q hq).1
  last_le := hlast.le
  baseKey k hbase e he hk := by
    obtain ⟨n, hbelow, hn, hin⟩ := holder e he
    have hlevel := List.all_eq_true.1 hbase n.1 (List.mem_range'_1.2 ⟨hbelow.1, by
      have := hbelow.1
      omega⟩)
    have hfile := List.all_eq_true.1 hlevel n.2 hbelow.2
    obtain ⟨h1, h2⟩ := n.2.bounded.entries_le e hin
    simp [← hk, userKey_le h1, userKey_le h2] at hfile
  baseRange b m hbase e he hk := by
    obtain ⟨n, hbelow, hn, hin⟩ := holder e he
    have hlevel := List.all_eq_true.1 hbase n.1 (List.mem_range'_1.2 ⟨hbelow.1, by
      have := hbelow.1
      omega⟩)
    rw [Bool.not_eq_true'] at hlevel
    obtain ⟨h1, h2⟩ := n.2.bounded.entries_le e hin
    refine List.any_eq_false.1 hlevel n.2 hbelow.2 (decide_eq_true ⟨?_, ?_⟩)
    · exact hk.1.trans (userKey_le h2)
    · exact (userKey_le h1).trans hk.2.le
  laws := hlaws

/-! ## A compaction under way -/

namespace Family

variable {opts : Options K V} {s s' : Family K V} {r : Running K V}

theorem Base.congr (h : Base r s) (hrecords : ∀ record ∈ s'.records, record ∈ s.records)
    (hcurrent : s'.current = s.current) (hlast : s'.lastSequence = s.lastSequence) : Base r s' where
  nodup0 := h.nodup0
  nodup1 := h.nodup1
  mem0 := h.mem0
  mem1 := h.mem1
  stored l f hf k q hq :=
    have hold := h.stored l f hf k q hq
    ⟨hold.1, fun record hr => hold.2 record (hrecords record hr)⟩
  since l f hf := h.since l f (hcurrent ▸ hf)
  last_le := hlast ▸ h.last_le

theorem Base.write (h : Base r s) {seq : Nat} {record : Record K V} (hlt : s.lastSequence < seq)
    (hrecords : s'.records = s.records ++ [(seq, record)]) (hcurrent : s'.current = s.current)
    (hlast : s'.lastSequence = seq) : Base r s' where
  nodup0 := h.nodup0
  nodup1 := h.nodup1
  mem0 := h.mem0
  mem1 := h.mem1
  stored l f hf k q hq := by
    have hold := h.stored l f hf k q hq
    refine ⟨hold.1, fun other hr => ?_⟩
    rw [hrecords] at hr
    rcases List.mem_append.1 hr with hr | hr
    · exact hold.2 other hr
    · obtain rfl := List.mem_singleton.1 hr
      have := h.last_le
      omega
  since l f hf := h.since l f (hcurrent ▸ hf)
  last_le := by
    have := h.last_le
    omega

section
variable [Inhabited V]

theorem Base.flush (h : Base r s) (old rest : List (Nat × Record K V)) {number fileSize : Nat}
    {base : Option (Version K V)} (hold : s.records = old ++ rest) (hrecords : s'.records = rest)
    (hcurrent : s'.current = s.current.apply
      (writeLevel0Table opts number fileSize (.ofRecords old) base))
    (hlast : s'.lastSequence = s.lastSequence) : Base r s' where
  nodup0 := h.nodup0
  nodup1 := h.nodup1
  mem0 := h.mem0
  mem1 := h.mem1
  stored l f hf k q hq := by
    have hstored := h.stored l f hf k q hq
    refine ⟨hstored.1, fun record hr => hstored.2 record ?_⟩
    rw [hold]
    exact List.mem_append_right _ (hrecords ▸ hr)
  since l f hf := by
    rw [hcurrent] at hf
    rcases writeLevel0Table_cases opts number fileSize (.ofRecords old) base with
      hnone | ⟨g, -, hlayer, hfile⟩
    · rw [hnone, Version.mem_apply] at hf
      exact h.since l f (by simpa using hf)
    · rw [hfile, Version.mem_add] at hf
      rcases hf with hf | ⟨-, rfl⟩
      · exact h.since l f hf
      · -- the new file holds records, which are newer than the version the inputs are of
        refine .inr fun l' g hg k q hq t ht => ?_
        rw [hlayer, seqsAt_ofRecords] at hq
        obtain ⟨record, hin, -, rfl⟩ := hq
        refine (h.stored l' g hg k t ht).2 record ?_
        rw [hold]
        exact List.mem_append_left _ hin
  last_le := hlast ▸ h.last_le

theorem replay_lastSequence (opts : Options K V) (tables : List (Nat × Nat)) (s : Family K V) :
    (replay opts tables s).lastSequence = s.lastSequence ∧
      (replay opts tables s).running = s.running := by
  induction tables generalizing s with
  | nil => exact ⟨rfl, rfl⟩
  | cons t tables ih => exact ih _

end

theorem Inv.base (h : s.Inv) {level : Nat} {inputs0 inputs1 : List Nat} {snapshots : List Nat} :
    Base ⟨level, s.current.pick level inputs0, s.current.pick (level + 1) inputs1, s.current,
      snapshots, s.lastSequence⟩ s where
  nodup0 := (h.ordered.nodup level).filter _
  nodup1 := (h.ordered.nodup (level + 1)).filter _
  mem0 _ hf := (Version.mem_pick.1 hf).1
  mem1 _ hf := (Version.mem_pick.1 hf).1
  stored := h.stored
  since _ _ hf := .inl hf
  last_le := le_rfl

end Family

/-! ## One step of the family -/

namespace Store

variable [Inhabited V] {opts : Options K V} {s s' : Store K V}

/-- The sequence numbers there are readers at: the live snapshots, and all from the last number on. -/
def Reads (s : Store K V) (r : Nat) : Prop := r ∈ s.snapshots ∨ s.lastSequence ≤ r

/-- The compaction knows the snapshots of all readers there are. -/
structure Covered (q : Running K V) (s : Store K V) : Prop where
  base : Family.Base q s.family
  sorted : q.snapshots.Pairwise (· ≤ ·)
  covers : ∀ r, s.Reads r → r ∈ q.snapshots ∨ q.lastSequence ≤ r

/-- What every reachable store keeps. -/
structure Kept (opts : Options K V) (s : Store K V) : Prop where
  inv : s.family.Inv
  distinct : s.family.held.Distinct
  last_le : s.family.lastSequence ≤ s.lastSequence
  last_lt : s.lastSequence < kMaxSequenceNumber
  sorted : s.snapshots.Pairwise (· ≤ ·)
  snapshots_le : ∀ r ∈ s.snapshots, r ≤ s.lastSequence
  /-- No reader tells what the family holds from the history. -/
  same : ∀ k r, s.Reads r →
    SameBottom (foldOf opts.mergeOp k) (s.family.held.versions k r) (opsAt s.history k r)
  running : ∀ q, s.family.running = some q → Covered q s

theorem kept_empty : Kept opts (empty : Store K V) where
  inv := Family.inv_empty
  distinct := by
    have hnil : (empty : Store K V).family.held.entries = [] := by
      simp [empty, Family.empty, Family.held, Family.records, holding, Version.leveled,
        Layer.concat, Layer.ofRecords]
    rw [Layer.Distinct, hnil]
    exact .nil
  last_le := le_rfl
  last_lt := (by decide : 0 < kMaxSequenceNumber)
  sorted := .nil
  snapshots_le := by simp [empty]
  same k r _ := by
    have hnil : (empty : Store K V).family.held.entries = [] := by
      simp [empty, Family.empty, Family.held, Family.records, holding, Version.leveled,
        Layer.concat, Layer.ofRecords]
    rw [Layer.versions, hnil]
    exact .refl _
  running := by simp [empty, Family.empty]

/-- What a step of the family other than a write leaves to the readers. -/
structure Unseen (opts : Options K V) (s : Store K V) (family : Family K V) : Prop where
  inv : family.Inv
  distinct : family.held.Distinct
  last : family.lastSequence = s.family.lastSequence
  same : ∀ k r, s.Reads r → SameBottom (foldOf opts.mergeOp k) (family.held.versions k r)
    (s.family.held.versions k r)
  running : ∀ q, family.running = some q → Covered q { s with family }

theorem Kept.unseen (h : Kept opts s) {family : Family K V} (hf : Unseen opts s family) :
    Kept opts { s with family } where
  inv := hf.inv
  distinct := hf.distinct
  last_le := hf.last.trans_le h.last_le
  last_lt := h.last_lt
  sorted := h.sorted
  snapshots_le := h.snapshots_le
  same k r hr := (hf.same k r hr).trans (h.same k r hr)
  running := hf.running

/-- What holds the same is not told apart. -/
theorem unseen_of_alike (h : Kept opts s) {family : Family K V} (hinv : family.Inv)
    (hlast : family.lastSequence = s.family.lastSequence) (halike : s.family.held.Alike family.held)
    (hrunning : ∀ q, family.running = some q → Covered q { s with family }) :
    Unseen opts s family where
  inv := hinv
  distinct := h.distinct.perm halike.entries
  last := hlast
  same k r _ := by
    rw [Layer.versions_alike h.distinct halike]
    exact .refl _
  running := hrunning

/-- **An install** is unseen. -/
theorem Kept.install (h : Kept opts s)
    (hlaws : ∀ op, opts.mergeOp = some op → ∀ k, Laws (op.fullMerge k) (op.partialMerge k))
    {shouldStopBefore : List (InternalKey K) → Bool} {fileFull : List (Entry K V) → Bool}
    {sizes : Nat → Nat} {family : Family K V}
    (hstep : s.family.step opts (.install shouldStopBefore fileFull sizes) = some family) :
    Unseen opts s family := by
  have hinv := h.inv.step hstep
  obtain ⟨q, hrun, hout⟩ := Option.bind_eq_some_iff.1 hstep
  obtain ⟨outputs, hfiles, rfl⟩ := Option.map_eq_some_iff.1 hout
  obtain ⟨hbase, hsorted, hcovers⟩ := h.running q hrun
  obtain ⟨newer, older, hages, holder, hbefore, hafter⟩ :=
    Family.held_install h.inv (h.inv.running q hrun) hbase
  have hlast : q.lastSequence < kMaxSequenceNumber := hbase.last_le.trans_lt h.inv.last_lt
  have hparts : ∀ l ∈ [newer, Layer.concat (q.inputs.map (·.layer)), older], l.Distinct :=
    fun l hl => (h.distinct.perm hbefore.entries).of_mem hl
  have hinputs : (Layer.concat (q.inputs.map (·.layer))).Distinct := hparts _ (by simp)
  have hsound := Family.sound hlaws hbase hsorted hlast hinputs holder shouldStopBefore fileFull
  -- what replaces the inputs is what the compaction wrote
  have hlayers : Layer.concat (outputs.map (·.layer)) =
      (q.compaction opts shouldStopBefore fileFull).outputLayer :=
    congrArg Layer.concat (outputFiles_spec hfiles).1
  have hafter := hafter outputs
  rw [hlayers] at hafter
  have hdistinct : (Layer.concat [newer,
      (q.compaction opts shouldStopBefore fileFull).outputLayer, older]).Distinct := by
    refine Layer.distinct_concat (fun l hl => ?_) (Compaction.ages_outputLayer hages)
    simp only [List.mem_cons, List.not_mem_nil, or_false] at hl
    rcases hl with rfl | rfl | rfl
    · exact hparts _ (by simp)
    · exact Compaction.outputLayer_distinct hinputs
    · exact hparts _ (by simp)
  have hheld := hdistinct.perm hafter.entries.symm
  refine ⟨hinv, hheld, rfl, fun k r hr => ?_, fun q' hq => ?_⟩
  · have hsame := Compaction.sameBottom_doCompactionWork hsound hages (hcovers r hr) k
    rw [Layer.versions_alike h.distinct hbefore]
    exact Layer.versions_alike hheld hafter k r ▸ hsame
  · cases hq

/-- **The background work is unseen**, and so are switches and recoveries. -/
theorem Kept.work (h : Kept opts s)
    (hlaws : ∀ op, opts.mergeOp = some op → ∀ k, Laws (op.fullMerge k) (op.partialMerge k))
    {a : Action K V} {family : Family K V} (hstep : s.family.step opts a = some family)
    (hwrite : ∀ seq record, a ≠ .write seq record)
    (hpick : ∀ level inputs0 inputs1 snapshots, a = .pick level inputs0 inputs1 snapshots →
      snapshots = s.snapshots) : Unseen opts s family := by
  have hinv := h.inv.step hstep
  cases a with
  | write seq record => exact absurd rfl (hwrite seq record)
  | switchMemTable =>
    simp only [Family.step] at hstep
    split at hstep
    · rename_i himm
      cases hstep
      have himm : s.family.imm = none := by simpa using himm
      have hrecords : Family.records { s.family with imm := some s.family.mem, mem := [] } =
          s.family.records := by simp [Family.records, himm]
      refine unseen_of_alike h hinv rfl (Family.held_congr hrecords rfl ▸ .refl _) fun q hq => ?_
      obtain ⟨hbase, hsorted, hcovers⟩ := h.running q hq
      exact ⟨hbase.congr (fun _ hr => hrecords ▸ hr) rfl rfl, hsorted, hcovers⟩
    · cases hstep
  | compactMemTable fileSize =>
    obtain ⟨imm, himm, rfl⟩ := Option.map_eq_some_iff.1 hstep
    have hold : s.family.records = imm ++ s.family.mem := by simp [Family.records, himm]
    refine unseen_of_alike h hinv rfl
      (Family.held_flush imm s.family.mem hold (by simp [Family.records]) rfl) fun q hq => ?_
    obtain ⟨hbase, hsorted, hcovers⟩ := h.running q hq
    exact ⟨hbase.flush imm s.family.mem hold (by simp [Family.records]) rfl rfl, hsorted, hcovers⟩
  | pick level inputs0 inputs1 snapshots =>
    obtain rfl := hpick level inputs0 inputs1 snapshots rfl
    simp only [Family.step] at hstep
    split at hstep
    · cases hstep
      refine unseen_of_alike h hinv rfl (.refl _) fun q hq => ?_
      obtain rfl := Option.some.inj hq
      refine ⟨h.inv.base.congr (fun _ hr => hr) rfl rfl, h.sorted, fun r hr => ?_⟩
      exact hr.imp_right fun hle => h.last_le.trans hle
    · cases hstep
  | install shouldStopBefore fileFull sizes => exact h.install hlaws hstep
  | trivialMove level number =>
    simp only [Family.step] at hstep
    split at hstep
    · rename_i f hrun hp
      split at hstep
      · rename_i hpicked
        cases hstep
        exact unseen_of_alike h hinv rfl
          (Family.held_trivialMove h.inv hpicked.1.level_lt hp rfl rfl) (by simp [hrun])
      · cases hstep
    · cases hstep
  | recover tables nextFileNumber =>
    simp only [Family.step] at hstep
    split at hstep
    · cases hstep
      obtain ⟨hlast, hrunning⟩ := Family.replay_lastSequence opts tables
        { s.family with mem := s.family.records, imm := none, running := none, nextFileNumber }
      have hstart : Family.held
          { s.family with mem := s.family.records, imm := none, running := none, nextFileNumber } =
            s.family.held := Family.held_congr (by simp [Family.records]) rfl
      refine unseen_of_alike h hinv hlast ?_ (by simp [hrunning])
      exact hstart ▸ Family.held_replay rfl tables
    · cases hstep

/-! ## One step of the store -/

/-- Readers that are gone were there before. -/
theorem Kept.mono (h : Kept opts s) (hfamily : s'.family = s.family)
    (hlast : s'.lastSequence = s.lastSequence) (hhistory : s'.history = s.history)
    (hsorted : s'.snapshots.Pairwise (· ≤ ·))
    (hsnapshots : ∀ r ∈ s'.snapshots, r ∈ s.snapshots ∨ r = s.lastSequence) : Kept opts s' := by
  have hreads : ∀ r, s'.Reads r → s.Reads r := by
    intro r hr
    rcases hr with hr | hr
    · exact (hsnapshots r hr).imp_right fun heq => heq.ge
    · exact .inr (hlast ▸ hr)
  refine ⟨hfamily ▸ h.inv, hfamily ▸ h.distinct, ?_, hlast ▸ h.last_lt, hsorted, fun r hr => ?_,
    fun k r hr => ?_, fun q hq => ?_⟩
  · rw [hfamily, hlast]
    exact h.last_le
  · rw [hlast]
    rcases hsnapshots r hr with hr | rfl
    · exact h.snapshots_le r hr
    · exact le_rfl
  · rw [hfamily, hhistory]
    exact h.same k r (hreads r hr)
  · obtain ⟨hbase, hqsorted, hcovers⟩ := h.running q (hfamily ▸ hq)
    exact ⟨hfamily ▸ hbase, hqsorted, fun r hr => hcovers r (hreads r hr)⟩

/-- The next number was used: readers at it see what they would have seen before. -/
theorem Kept.reads_succ (h : Kept opts s) {r : Nat}
    (hr : r ∈ s.snapshots ∨ s.lastSequence + 1 ≤ r) :
    s.Reads r ∧ (s.lastSequence + 1 ≤ r ∨ r < s.lastSequence + 1) := by
  rcases hr with hr | hr
  · have := h.snapshots_le r hr
    exact ⟨.inl hr, .inr (by omega)⟩
  · exact ⟨.inr (by omega), .inl hr⟩

omit [Inhabited V] in
theorem opsAt_concat (history : List (Nat × Record K V)) (seq : Nat) (record : Record K V) (k : K)
    (r : Nat) : opsAt (history ++ [(seq, record)]) k r =
      (if seq ≤ r then (record.opAt k).toList else []) ++ opsAt history k r := by
  unfold opsAt
  rw [List.filter_append, List.filterMap_append, List.reverse_append]
  refine congrArg (· ++ _) ?_
  by_cases hle : seq ≤ r
  · cases hop : record.opAt k <;> simp [hle, hop]
  · simp [hle]

theorem Kept.writeRecord (h : Kept opts s) {record : Option (Record K V)}
    (hstep : writeRecord opts s record = some s') : Kept opts s' := by
  cases record with
  | none =>
    simp only [Store.writeRecord] at hstep
    split at hstep
    · rename_i hlt
      cases hstep
      have hlast := h.last_le
      refine ⟨h.inv, h.distinct, by simp only; omega, hlt, h.sorted,
        fun r hr => (h.snapshots_le r hr).trans (Nat.le_succ _), fun k r hr => ?_, fun q hq => ?_⟩
      · exact h.same k r (h.reads_succ hr).1
      · obtain ⟨hbase, hsorted, hcovers⟩ := h.running q hq
        exact ⟨hbase, hsorted, fun r hr => hcovers r (h.reads_succ hr).1⟩
    · cases hstep
  | some record =>
    obtain ⟨family, hfamily, rfl⟩ := Option.map_eq_some_iff.1 hstep
    have hinv := h.inv.step hfamily
    simp only [Family.step] at hfamily
    split at hfamily
    · rename_i hlt
      cases hfamily
      have hrecords : Family.records { s.family with
          mem := s.family.mem ++ [(s.lastSequence + 1, record)],
          lastSequence := s.lastSequence + 1 } =
          s.family.records ++ [(s.lastSequence + 1, record)] := by simp [Family.records]
      have halike := Family.held_write hrecords rfl
      have hdistinct := h.inv.distinct_add h.distinct hlt.1 record
      -- all that is there has smaller numbers
      have hnew : ∀ k, ∀ q ∈ s.family.held.seqsAt k, q < s.lastSequence + 1 :=
        fun k q hq => (h.inv.seqsAt_held_le hq).trans_lt hlt.1
      refine ⟨hinv, hdistinct.perm halike.entries.symm, le_rfl, hlt.2, h.sorted,
        fun r hr => (h.snapshots_le r hr).trans (Nat.le_succ _), fun k r hr => ?_, fun q hq => ?_⟩
      · obtain ⟨hreads, hcase⟩ := h.reads_succ hr
        rw [Layer.versions_alike (hdistinct.perm halike.entries.symm) halike, opsAt_concat]
        rcases hcase with hle | hlt
        · rw [if_pos hle]
          exact (Layer.add_seen _ hle (hnew k)).trans ((h.same k r hreads).append_left _)
        · rw [if_neg (by omega), Layer.add_unseen hlt]
          exact h.same k r hreads
      · obtain ⟨hbase, hsorted, hcovers⟩ := h.running q hq
        exact ⟨hbase.write hlt.1 hrecords rfl rfl, hsorted,
          fun r hr => hcovers r (h.reads_succ hr).1⟩
    · cases hfamily

theorem Kept.write (h : Kept opts s) {batch : List (Option (Record K V))}
    (hstep : s.step opts (.write batch) = some s') : Kept opts s' := by
  induction batch generalizing s with
  | nil =>
    obtain rfl := Option.some.inj hstep
    exact h
  | cons record batch ih =>
    obtain ⟨next, hnext, hstep⟩ := Option.bind_eq_some_iff.1 hstep
    exact ih (h.writeRecord hnext) hstep

/-- **One step** of the store. -/
theorem Kept.step (h : Kept opts s)
    (hlaws : ∀ op, opts.mergeOp = some op → ∀ k, Laws (op.fullMerge k) (op.partialMerge k))
    {a : StoreAction K V} (hstep : step opts s a = some s') : Kept opts s' := by
  cases a with
  | write batch => exact h.write hstep
  | getSnapshot =>
    cases hstep
    refine h.mono rfl rfl rfl ?_ fun r hr => ?_
    · refine List.pairwise_append.2 ⟨h.sorted, List.pairwise_singleton _ _, fun r hr q hq => ?_⟩
      obtain rfl := List.mem_singleton.1 hq
      exact h.snapshots_le r hr
    · exact (List.mem_append.1 hr).imp_right List.mem_singleton.1
  | releaseSnapshot seq =>
    simp only [Store.step] at hstep
    split at hstep
    · cases hstep
      exact h.mono rfl rfl rfl (h.sorted.sublist List.erase_sublist)
        fun r hr => .inl (List.mem_of_mem_erase hr)
    · cases hstep
  | work a =>
    cases a with
    | write seq record => cases hstep
    | pick level inputs0 inputs1 snapshots =>
      simp only [Store.step] at hstep
      split at hstep
      · rename_i heq
        obtain ⟨family, hfamily, rfl⟩ := Option.map_eq_some_iff.1 hstep
        refine h.unseen (h.work hlaws hfamily (by simp) fun _ _ _ _ ha => ?_)
        cases ha
        exact heq
      · cases hstep
    | recover tables nextFileNumber =>
      obtain ⟨family, hfamily, rfl⟩ := Option.map_eq_some_iff.1 hstep
      exact (h.unseen (h.work hlaws hfamily (by simp) (by simp))).mono rfl rfl rfl .nil (by simp)
    | switchMemTable | compactMemTable _ | install _ _ _ | trivialMove _ _ =>
      obtain ⟨family, hfamily, rfl⟩ := Option.map_eq_some_iff.1 hstep
      exact h.unseen (h.work hlaws hfamily (by simp) (by simp))

/-! ## Whole runs -/

/-- The steps of the family keep out of the gaps between the inputs of a running compaction. -/
def OutsideGaps (opts : Options K V) (s : Store K V) : StoreAction K V → Prop
  | .work a => Family.OutsideGaps opts s.family a
  | _ => True

instance (opts : Options K V) (s : Store K V) : ∀ a, Decidable (OutsideGaps opts s a)
  | .work a => inferInstanceAs (Decidable (Family.OutsideGaps opts s.family a))
  | .write _ | .getSnapshot | .releaseSnapshot _ => instDecidableTrue

/-- The family of a store makes runs of its own. -/
theorem family_reachableBy (h : (system opts).ReachableBy (OutsideGaps opts) s) :
    (Family.system opts).ReachableBy (Family.OutsideGaps opts) s.family := by
  refine h.invariant
    (P := fun s => (Family.system opts).ReachableBy (Family.OutsideGaps opts) s.family) ?_ ?_
  · rintro s rfl
    exact .init rfl
  · intro s a s' hs ha hstep
    cases a with
    | write batch =>
      change batch.foldlM (writeRecord opts) s = some s' at hstep
      clear ha
      induction batch generalizing s with
      | nil =>
        obtain rfl := Option.some.inj hstep
        exact hs
      | cons record batch ih =>
        obtain ⟨next, hnext, hstep⟩ := Option.bind_eq_some_iff.1 hstep
        refine ih next ?_ hstep
        cases record with
        | none =>
          simp only [writeRecord] at hnext
          split at hnext
          · cases hnext
            exact hs
          · cases hnext
        | some record =>
          obtain ⟨family, hfamily, rfl⟩ := Option.map_eq_some_iff.1 hnext
          exact hs.step (.write _ record) trivial hfamily
    | getSnapshot =>
      cases hstep
      exact hs
    | releaseSnapshot seq =>
      simp only [system, Store.step] at hstep
      split at hstep
      · cases hstep
        exact hs
      · cases hstep
    | work a =>
      have ha : Family.OutsideGaps opts s.family a := ha
      cases a with
      | write seq record => cases hstep
      | pick level inputs0 inputs1 snapshots =>
        simp only [system, Store.step] at hstep
        split at hstep
        · obtain ⟨family, hfamily, rfl⟩ := Option.map_eq_some_iff.1 hstep
          exact hs.step _ ha hfamily
        · cases hstep
      | switchMemTable | compactMemTable _ | install _ _ _ | trivialMove _ _ | recover _ _ =>
        obtain ⟨family, hfamily, rfl⟩ := Option.map_eq_some_iff.1 hstep
        exact hs.step _ ha hfamily

/-- What all layers of the family together read as is what the history reads as. -/
theorem Kept.read_contents (h : Kept opts s) {r : Nat} (hr : s.Reads r) (k : K) :
    read (foldOf opts.mergeOp k) ((s.family.columnFamily opts).contents.versions k r) =
      read (foldOf opts.mergeOp k) (opsAt s.history k r) := by
  have halike := Family.contents_alike opts s.family
  rw [Layer.versions_alike (h.distinct.perm halike.symm.entries) halike]
  exact h.same k r hr []

theorem Kept.readable (h : Kept opts s) {r : Nat} (hr : s.Readable r) :
    s.Reads r ∧ r < kMaxSequenceNumber := by
  have hlt := h.last_lt
  rcases hr with hr | hr
  · have hle := h.snapshots_le r hr
    exact ⟨.inl hr, by omega⟩
  · exact ⟨.inr hr.ge, by omega⟩

section
variable (hlaws : ∀ op, opts.mergeOp = some op → ∀ k, Laws (op.fullMerge k) (op.partialMerge k))
include hlaws

theorem kept_of_reachable (h : (system opts).Reachable s) : Kept opts s := by
  refine h.invariant (fun s hs => ?_) fun _ _ _ hs => hs.step hlaws
  obtain rfl : s = empty := hs
  exact kept_empty

/-- **No update is lost or made twice**: in every reachable state, what all memtables and files
together say of a key to a reader, at a live snapshot or at the last number, is what the history says,
for a merge operator whose operands may be grouped. -/
theorem contents_read_eq (h : (system opts).Reachable s) {r : Nat} (hr : s.Readable r) (k : K) :
    read (foldOf opts.mergeOp k) ((s.family.columnFamily opts).contents.versions k r) =
      read (foldOf opts.mergeOp k) (opsAt s.history k r) :=
  have hkept := kept_of_reachable hlaws h
  hkept.read_contents (hkept.readable hr).1 k

end

/-- A merge operator that counts. -/
def counterOptions : Options (Fin 3) Nat := ⟨some (.counter _), 100⟩

theorem counterOptions_laws : ∀ op, counterOptions.mergeOp = some op →
    ∀ k, Laws (op.fullMerge k) (op.partialMerge k) := by
  intro op hop k
  obtain rfl := Option.some.inj hop
  exact MergeOperator.counter_laws k

/-- A put on level 2 under an operand and a tombstone on level 1, compacted with a snapshot between
them. -/
def countRun : List (StoreAction (Fin 3) Nat) :=
  [.write [some (.put 0 10), none, some (.put 1 20)], .work .switchMemTable,
    .work (.compactMemTable 10), .getSnapshot, .write [some (.merge 0 5), some (.deleteRange 1 2)],
    .work .switchMemTable, .work (.compactMemTable 10), .work (.pick 1 [3] [2] [3]),
    .write [some (.merge 0 1)],
    .work (.install (fun _ => false) (fun _ => false) fun _ => 10)]

theorem countRun_reaches : ∃ s,
    (system counterOptions).runBy (OutsideGaps counterOptions) empty countRun = some s ∧
      kFirstTableLayer + (s.family.current.files 0).length + kNumLevels ≤ kAllLayers ∧
      s.Readable 3 ∧ s.Readable 6 := by
  have hrun : ((system counterOptions).runBy (OutsideGaps counterOptions) empty countRun).any
      (fun s => decide (kFirstTableLayer + (s.family.current.files 0).length + kNumLevels ≤
        kAllLayers ∧ s.Readable 3 ∧ s.Readable 6)) = true := by decide +kernel
  obtain ⟨s, hs, hholds⟩ := (Option.any_eq_true _ _).1 hrun
  exact ⟨s, hs, of_decide_eq_true hholds⟩

theorem contents_read_eq_countRun : ∃ s,
    (system counterOptions).runBy (OutsideGaps counterOptions) empty countRun = some s ∧
      read (foldOf counterOptions.mergeOp 1)
          ((s.family.columnFamily counterOptions).contents.versions 1 6) =
        read (foldOf counterOptions.mergeOp 1) (opsAt s.history 1 6) := by
  obtain ⟨s, hs, -, -, hlast⟩ := countRun_reaches
  have hempty : (system counterOptions).ReachableBy (OutsideGaps counterOptions) empty := .init rfl
  exact ⟨s, hs, contents_read_eq counterOptions_laws (hempty.runBy hs).reachable hlast 1⟩

end Store
end LevelDb
