import LevelDb.Proof.History
import LevelDb.Proof.InternalIterator

/-!
# Every read is answered from the history

`Session.reads_answered`: a `Get` or an iterator that took its references is answered, at any later
time, by the history up to its sequence number, whatever was written, switched, flushed, compacted or
released since. `Store.get_eq_answerAt` and `Store.iterator_shown` say it of the reads that start in a
state, `Store.get_stable` of two reads at one snapshot.

All this is of runs in which no flush during a compaction puts its table on the compaction's output
level between its inputs (`OutsideGaps`): after one that does, a level has overlapping files, and reads
go wrong. The layers of a version can be numbered, which they can as writes stop at 12 files on level
0, and the operands of the merge operator may be grouped (`Laws`).

The memtable of a read under way goes on growing until the family switches to another. So the read is
of a family that has taken the same writes but none of the later steps (`Capture.Sound`), and those
writes have numbers above its own.
-/

namespace LevelDb

open Mvcc

variable {K V : Type} [LinearOrder K] [Inhabited V]

/-! ## Reads that start in a state -/

namespace Store

variable {opts : Options K V} {s s' : Store K V}

/-- A family that made a run of its own and cannot be told from the history serves its readers. -/
theorem serves_of_held {f : Family K V} {history : List (Nat × Record K V)} {r : Nat}
    (hreach : (Family.system opts).ReachableBy (Family.OutsideGaps opts) f)
    (hdistinct : f.held.Distinct) (hlt : r < kMaxSequenceNumber)
    (hfew : kFirstTableLayer + (f.current.files 0).length + kNumLevels ≤ kAllLayers)
    (hsame : ∀ k, SameBottom (foldOf opts.mergeOp k) (f.held.versions k r) (opsAt history k r)) :
    (f.columnFamily opts).Serves history r := by
  have halike := Family.contents_alike opts f
  have hcontents := hdistinct.perm halike.symm.entries
  refine ⟨Family.wellFormed hreach hfew, hcontents, hlt, fun k => ?_⟩
  rw [Layer.versions_alike hcontents halike]
  exact hsame k []

theorem Kept.serves (h : Kept opts s)
    (hreach : (Family.system opts).ReachableBy (Family.OutsideGaps opts) s.family)
    (hfew : kFirstTableLayer + (s.family.current.files 0).length + kNumLevels ≤ kAllLayers) {r : Nat}
    (hr : s.Readable r) : (s.family.columnFamily opts).Serves s.history r :=
  have hreads := h.readable hr
  serves_of_held hreach h.distinct hreads.2 hfew fun k => h.same k r hreads.1

/-- What is written later has larger numbers. -/
def Extends (s s' : Store K V) : Prop :=
  s.lastSequence ≤ s'.lastSequence ∧
    ∃ newer, s'.history = s.history ++ newer ∧ ∀ r ∈ newer, s.lastSequence < r.1

omit [Inhabited V] in
theorem Extends.refl (s : Store K V) : Extends s s := ⟨le_rfl, [], by simp, by simp⟩

omit [Inhabited V] in
theorem Extends.trans {s'' : Store K V} (h : Extends s s') (h' : Extends s' s'') : Extends s s'' := by
  obtain ⟨hle, newer, hhistory, hnewer⟩ := h
  obtain ⟨hle', newer', hhistory', hnewer'⟩ := h'
  refine ⟨hle.trans hle', newer ++ newer', by rw [hhistory', hhistory, List.append_assoc], ?_⟩
  intro r hr
  rcases List.mem_append.1 hr with hr | hr
  · exact hnewer r hr
  · exact hle.trans_lt (hnewer' r hr)

omit [Inhabited V] in
/-- A reader does not see what is written later. -/
theorem Extends.opsAt_eq (h : Extends s s') {r : Nat} (hr : r ≤ s.lastSequence) (k : K) :
    opsAt s'.history k r = opsAt s.history k r := by
  obtain ⟨-, newer, hhistory, hnewer⟩ := h
  have hnil : newer.filter (fun a => decide (a.1 ≤ r)) = [] := by
    refine List.filter_eq_nil_iff.2 fun a ha => ?_
    have := hnewer a ha
    simpa using by omega
  rw [opsAt, opsAt, hhistory, List.filter_append, hnil, List.append_nil]

theorem extends_writeRecord {record : Option (Record K V)}
    (hstep : writeRecord opts s record = some s') : Extends s s' := by
  cases record with
  | none =>
    simp only [writeRecord] at hstep
    split at hstep
    · cases hstep
      exact ⟨Nat.le_succ _, [], by simp, by simp⟩
    · cases hstep
  | some record =>
    obtain ⟨family, -, rfl⟩ := Option.map_eq_some_iff.1 hstep
    exact ⟨Nat.le_succ _, _, rfl, by simp⟩

theorem extends_step {a : StoreAction K V} (hstep : step opts s a = some s') : Extends s s' := by
  cases a with
  | write batch =>
    change batch.foldlM (writeRecord opts) s = some s' at hstep
    induction batch generalizing s with
    | nil =>
      obtain rfl := Option.some.inj hstep
      exact .refl _
    | cons record batch ih =>
      obtain ⟨next, hnext, hstep⟩ := Option.bind_eq_some_iff.1 hstep
      exact (extends_writeRecord hnext).trans (ih hstep)
  | getSnapshot =>
    cases hstep
    exact .refl s
  | releaseSnapshot seq =>
    simp only [Store.step] at hstep
    split at hstep
    · cases hstep
      exact .refl s
    · cases hstep
  | work a =>
    cases a with
    | write seq record => cases hstep
    | pick level inputs0 inputs1 snapshots =>
      simp only [Store.step] at hstep
      split at hstep
      · obtain ⟨family, -, rfl⟩ := Option.map_eq_some_iff.1 hstep
        exact .refl s
      · cases hstep
    | switchMemTable | compactMemTable _ | install _ _ _ | trivialMove _ _ | recover _ _ =>
      obtain ⟨family, -, rfl⟩ := Option.map_eq_some_iff.1 hstep
      exact .refl s

section
variable (hlaws : ∀ op, opts.mergeOp = some op → ∀ k, Laws (op.fullMerge k) (op.partialMerge k))
include hlaws

/-- **`Get` answers from the history**, at every live snapshot and at the last number, after a run that
stays out of the gaps. -/
theorem get_eq_answerAt (h : (system opts).ReachableBy (OutsideGaps opts) s)
    (hfew : kFirstTableLayer + (s.family.current.files 0).length + kNumLevels ≤ kAllLayers) {r : Nat}
    (hr : s.Readable r) (k : K) :
    (s.family.columnFamily opts).get k r = answerAt opts.mergeOp s.history k r :=
  ((kept_of_reachable hlaws h.reachable).serves (family_reachableBy h) hfew hr).get_eq k

/-- **Two reads at one snapshot** get the same answer, whatever happens between them while the
snapshot lives, out of the gaps. -/
theorem get_stable (h : (system opts).ReachableBy (OutsideGaps opts) s)
    (hsteps : (system opts).StepsBy (OutsideGaps opts) s s')
    (hfew : kFirstTableLayer + (s.family.current.files 0).length + kNumLevels ≤ kAllLayers)
    (hfew' : kFirstTableLayer + (s'.family.current.files 0).length + kNumLevels ≤ kAllLayers)
    {r : Nat} (hr : s.Readable r) (hr' : s'.Readable r) (k : K) :
    (s'.family.columnFamily opts).get k r = (s.family.columnFamily opts).get k r := by
  have hkept := kept_of_reachable hlaws h.reachable
  have hsteps' := h.steps hsteps
  have hkept' := kept_of_reachable hlaws hsteps'.reachable
  have hextends : Extends s s' := hsteps.invariant (P := Extends s) (.refl s)
    fun _ _ _ hext _ hstep => hext.trans (extends_step hstep)
  have hle : r ≤ s.lastSequence := by
    rcases hr with hr | hr
    · exact hkept.snapshots_le r hr
    · exact hr.le
  rw [(hkept.serves (family_reachableBy h) hfew hr).get_eq k,
    (hkept'.serves (family_reachableBy hsteps') hfew' hr').get_eq k, answerAt, answerAt,
    hextends.opsAt_eq hle]
  rfl

variable [Inhabited K]

/-- **An iterator walks over the history**: made after a run that stays out of the gaps, at a live
snapshot or at the last number, it shows after any calls what a cursor shows over the ordered map that
the records up to its sequence number make, and has met no error, if each key's operands can be merged.
-/
theorem iterator_shown [Infinite V] (h : (system opts).ReachableBy (OutsideGaps opts) s)
    (hfew : kFirstTableLayer + (s.family.current.files 0).length + kNumLevels ≤ kAllLayers) {r : Nat}
    (hr : s.Readable r)
    (hmerges : ∀ k, (read (foldOf opts.mergeOp k) (opsAt s.history k r)).isSome = true)
    (calls : List (IterCall K)) :
    ((DBIter.system ((s.family.columnFamily opts).newIterator r)).run .new calls).map
        (fun it => (it.shown, it.status)) =
      ((walk (mapAt opts.mergeOp s.history r)).run none calls).map
        fun c => (c.map (·.here), .ok) := by
  have hserves := (kept_of_reachable hlaws h.reachable).serves (family_reachableBy h) hfew hr
  exact hserves.run_walk hmerges calls

end

theorem get_eq_answerAt_countRun : ∃ s,
    (system counterOptions).runBy (OutsideGaps counterOptions) empty countRun = some s ∧
      (s.family.columnFamily counterOptions).get 0 3 =
        answerAt counterOptions.mergeOp s.history 0 3 := by
  obtain ⟨s, hs, hfew, hold, -⟩ := countRun_reaches
  have hempty : (system counterOptions).ReachableBy (OutsideGaps counterOptions) empty := .init rfl
  exact ⟨s, hs, get_eq_answerAt counterOptions_laws (hempty.runBy hs) hfew hold 0⟩

/-- A counter takes any operands. -/
theorem counter_reads {k : Fin 3} (ops : List (Op Nat)) :
    (read (foldOf counterOptions.mergeOp k) ops).isSome = true := by
  unfold Mvcc.read
  cases (collect ops).1 <;> rfl

theorem iterator_shown_countRun : ∃ s,
    (system counterOptions).runBy (OutsideGaps counterOptions) empty countRun = some s ∧
      ((DBIter.system ((s.family.columnFamily counterOptions).newIterator 3)).run .new
          [.seekToLast, .prev]).map (fun it => (it.shown, it.status)) =
        ((walk (mapAt counterOptions.mergeOp s.history 3)).run none [.seekToLast, .prev]).map
          fun c => (c.map (·.here), .ok) := by
  obtain ⟨s, hs, hfew, hold, -⟩ := countRun_reaches
  have hempty : (system counterOptions).ReachableBy (OutsideGaps counterOptions) empty := .init rfl
  exact ⟨s, hs, iterator_shown counterOptions_laws (hempty.runBy hs) hfew hold
    (fun _ => counter_reads _) _⟩

/-- The snapshot is read before the compaction and after it. -/
theorem get_stable_countRun : ∃ s s',
    (system counterOptions).runBy (OutsideGaps counterOptions) empty (countRun.take 4) = some s ∧
      (system counterOptions).runBy (OutsideGaps counterOptions) s (countRun.drop 4) = some s' ∧
      (s'.family.columnFamily counterOptions).get 0 3 =
        (s.family.columnFamily counterOptions).get 0 3 := by
  have hempty : (system counterOptions).ReachableBy (OutsideGaps counterOptions) empty := .init rfl
  have hrun : ((system counterOptions).runBy (OutsideGaps counterOptions) empty (countRun.take 4)).any
      (fun s => decide (kFirstTableLayer + (s.family.current.files 0).length + kNumLevels ≤
          kAllLayers ∧ s.Readable 3) &&
        ((system counterOptions).runBy (OutsideGaps counterOptions) s (countRun.drop 4)).any fun s' =>
          decide (kFirstTableLayer + (s'.family.current.files 0).length + kNumLevels ≤ kAllLayers ∧
            s'.Readable 3)) = true := by decide +kernel
  obtain ⟨s, hs, hboth⟩ := (Option.any_eq_true _ _).1 hrun
  rw [Bool.and_eq_true, decide_eq_true_iff, Option.any_eq_true] at hboth
  obtain ⟨⟨hfew, hr⟩, s', hs', hafter⟩ := hboth
  obtain ⟨hfew', hr'⟩ := of_decide_eq_true hafter
  exact ⟨s, s', hs, hs', get_stable counterOptions_laws (hempty.runBy hs)
    (.runBy hs') hfew hfew' hr hr' 0⟩

end Store

/-! ## Reads under way -/

variable {opts : Options K V}

/-- The read is of this family, which has taken the writes to its memtable but no later step, and
cannot be told from the history. -/
structure Capture.Sound (opts : Options K V) (s : Store K V) (r : Capture K V) (f : Family K V) :
    Prop where
  reach : (Family.system opts).ReachableBy (Family.OutsideGaps opts) f
  mem : f.mem = r.mem.getD s.family.mem
  imm : f.imm = r.imm
  current : f.current = r.current
  last_le : f.lastSequence ≤ s.lastSequence
  distinct : f.held.Distinct
  le : r.snapshot ≤ s.lastSequence
  lt : r.snapshot < kMaxSequenceNumber
  same : ∀ k, SameBottom (foldOf opts.mergeOp k) (f.held.versions k r.snapshot)
    (opsAt s.history k r.snapshot)

namespace Capture.Sound

variable {s s' : Store K V} {r : Capture K V} {f : Family K V}

theorem view_eq (h : Sound opts s r f) : f.columnFamily opts = r.view opts s := by
  rw [Family.columnFamily, view, h.mem, h.imm, h.current]

/-- A read that starts. -/
theorem capture (h : Store.Kept opts s)
    (hreach : (Family.system opts).ReachableBy (Family.OutsideGaps opts) s.family) {snapshot : Nat}
    (hr : s.Readable snapshot) :
    Sound opts s ⟨none, s.family.imm, s.family.current, snapshot⟩ s.family := by
  obtain ⟨hreads, hlt⟩ := h.readable hr
  refine ⟨hreach, rfl, rfl, rfl, h.last_le, h.distinct, ?_, hlt, fun k => h.same k snapshot hreads⟩
  rcases hr with hr | hr
  · exact h.snapshots_le snapshot hr
  · exact hr.le

theorem congr (h : Sound opts s r f) (hmem : s'.family.mem = s.family.mem)
    (hlast : s'.lastSequence = s.lastSequence) (hhistory : s'.history = s.history) :
    Sound opts s' r f where
  reach := h.reach
  mem := hmem ▸ h.mem
  imm := h.imm
  current := h.current
  last_le := hlast ▸ h.last_le
  distinct := h.distinct
  le := hlast ▸ h.le
  lt := h.lt
  same := hhistory ▸ h.same

/-- Its memtable is no longer written to. -/
theorem switched (h : Sound opts s r f) (hlast : s'.lastSequence = s.lastSequence)
    (hhistory : s'.history = s.history) : Sound opts s' (r.switched s.family.mem) f where
  reach := h.reach
  mem := h.mem
  imm := h.imm
  current := h.current
  last_le := hlast ▸ h.last_le
  distinct := h.distinct
  le := hlast ▸ h.le
  lt := h.lt
  same := hhistory ▸ h.same

/-- **A record written meanwhile** goes to the memtable of the read if that is still the family's,
where the read does not see it. -/
theorem writeRecord (h : Sound opts s r f) {record : Option (Record K V)}
    (hstep : s.writeRecord opts record = some s') : ∃ f', Sound opts s' r f' := by
  have hle := h.le
  have hlast := h.last_le
  cases record with
  | none =>
    simp only [Store.writeRecord] at hstep
    split at hstep
    · cases hstep
      exact ⟨f, h.reach, h.mem, h.imm, h.current, hlast.trans (Nat.le_succ _), h.distinct,
        hle.trans (Nat.le_succ _), h.lt, h.same⟩
    · cases hstep
  | some record =>
    obtain ⟨family, hfamily, rfl⟩ := Option.map_eq_some_iff.1 hstep
    simp only [Family.step] at hfamily
    split at hfamily
    · rename_i hseq
      cases hfamily
      have hops : ∀ k, opsAt (s.history ++ [(s.lastSequence + 1, record)]) k r.snapshot =
          opsAt s.history k r.snapshot := by
        intro k
        rw [Store.opsAt_concat, if_neg (by omega), List.nil_append]
      cases hmem : r.mem with
      | some mem =>
        refine ⟨f, h.reach, ?_, h.imm, h.current, hlast.trans (Nat.le_succ _), h.distinct,
          hle.trans (Nat.le_succ _), h.lt, fun k => ?_⟩
        · rw [h.mem, hmem]
          rfl
        · rw [hops]
          exact h.same k
      | none =>
        generalize hf' : { f with
          mem := f.mem ++ [(s.lastSequence + 1, record)],
          lastSequence := s.lastSequence + 1 } = f'
        have hwrite : f.step opts (.write (s.lastSequence + 1) record) = some f' := by
          simp only [Family.step, ← hf']
          exact if_pos ⟨by omega, hseq.2⟩
        have halike : f'.held.Alike (f.held.add (s.lastSequence + 1) record) :=
          Family.held_write (by simp [Family.records, ← hf']) (by rw [← hf'])
        have hinv := Family.inv_of_reachable h.reach.reachable
        have hdistinct : (f.held.add (s.lastSequence + 1) record).Distinct :=
          hinv.distinct_add h.distinct (by omega) record
        have hheld := hdistinct.perm halike.entries.symm
        refine ⟨f', h.reach.step (.write (s.lastSequence + 1) record) trivial hwrite, ?_,
          hf' ▸ h.imm, hf' ▸ h.current, hf' ▸ le_rfl, hheld, hle.trans (Nat.le_succ _), h.lt,
          fun k => ?_⟩
        · rw [← hf', h.mem, hmem]
          rfl
        · rw [hops, Layer.versions_alike hheld halike, Layer.add_unseen (by omega)]
          exact h.same k
    · cases hfamily

theorem write (h : Sound opts s r f) {batch : List (Option (Record K V))}
    (hstep : s.step opts (.write batch) = some s') : ∃ f', Sound opts s' r f' := by
  change batch.foldlM (Store.writeRecord opts) s = some s' at hstep
  induction batch generalizing s f with
  | nil =>
    obtain rfl := Option.some.inj hstep
    exact ⟨f, h⟩
  | cons record batch ih =>
    obtain ⟨next, hnext, hstep⟩ := Option.bind_eq_some_iff.1 hstep
    obtain ⟨f', h'⟩ := h.writeRecord hnext
    exact ih h' hstep

end Capture.Sound

namespace Session

variable {s s' : Session K V}

/-- The background work stays out of the gaps between the inputs of a running compaction. -/
def OutsideGaps (opts : Options K V) (s : Session K V) : SessionAction K V → Prop
  | .store a => Store.OutsideGaps opts s.store a
  | _ => True

instance (opts : Options K V) (s : Session K V) : ∀ a, Decidable (OutsideGaps opts s a)
  | .store a => inferInstanceAs (Decidable (Store.OutsideGaps opts s.store a))
  | .capture _ | .finish _ => instDecidableTrue

/-- What every reachable session keeps. -/
structure Inv (opts : Options K V) (s : Session K V) : Prop where
  store : (Store.system opts).ReachableBy (Store.OutsideGaps opts) s.store
  readers : ∀ r ∈ s.readers, ∃ f, r.Sound opts s.store f

/-- Steps of the store that neither write nor touch the memtable. -/
theorem mem_eq {s s' : Store K V} {a : Action K V} (hswitch : a ≠ .switchMemTable)
    (hrecover : ∀ tables next, a ≠ .recover tables next)
    (hstep : s.step opts (.work a) = some s') :
    s'.family.mem = s.family.mem ∧ s'.lastSequence = s.lastSequence ∧ s'.history = s.history := by
  cases a with
  | write seq record => cases hstep
  | switchMemTable => exact absurd rfl hswitch
  | recover tables next => exact absurd rfl (hrecover tables next)
  | pick level inputs0 inputs1 snapshots =>
    simp only [Store.step] at hstep
    split at hstep
    · obtain ⟨family, hfamily, rfl⟩ := Option.map_eq_some_iff.1 hstep
      simp only [Family.step] at hfamily
      split at hfamily
      · cases hfamily
        exact ⟨rfl, rfl, rfl⟩
      · cases hfamily
    · cases hstep
  | compactMemTable fileSize =>
    obtain ⟨family, hfamily, rfl⟩ := Option.map_eq_some_iff.1 hstep
    obtain ⟨imm, -, rfl⟩ := Option.map_eq_some_iff.1 hfamily
    exact ⟨rfl, rfl, rfl⟩
  | install shouldStopBefore fileFull sizes =>
    obtain ⟨family, hfamily, rfl⟩ := Option.map_eq_some_iff.1 hstep
    obtain ⟨q, -, hout⟩ := Option.bind_eq_some_iff.1 hfamily
    obtain ⟨outputs, -, rfl⟩ := Option.map_eq_some_iff.1 hout
    exact ⟨rfl, rfl, rfl⟩
  | trivialMove level number =>
    obtain ⟨family, hfamily, rfl⟩ := Option.map_eq_some_iff.1 hstep
    simp only [Family.step] at hfamily
    split at hfamily
    · split at hfamily
      · cases hfamily
        exact ⟨rfl, rfl, rfl⟩
      · cases hfamily
    · cases hfamily

/-- **One step** of the store, for the reads under way. -/
theorem Inv.stepStore (h : Inv opts s) {a : StoreAction K V} {store : Store K V}
    (ha : Store.OutsideGaps opts s.store a) (hstep : s.store.step opts a = some store)
    (hnext : s.step opts (.store a) = some s') : Inv opts s' := by
  simp only [step, hstep, Option.map_some, Option.some.injEq] at hnext
  subst hnext
  refine ⟨h.store.step a ha hstep, fun r hr => ?_⟩
  cases a with
  | write batch =>
    obtain ⟨f, hf⟩ := h.readers r hr
    exact hf.write hstep
  | getSnapshot =>
    obtain ⟨f, hf⟩ := h.readers r hr
    cases hstep
    exact ⟨f, hf.congr rfl rfl rfl⟩
  | releaseSnapshot seq =>
    obtain ⟨f, hf⟩ := h.readers r hr
    simp only [Store.step] at hstep
    split at hstep
    · cases hstep
      exact ⟨f, hf.congr rfl rfl rfl⟩
    · cases hstep
  | work a =>
    cases a with
    | switchMemTable =>
      obtain ⟨r, hin, rfl⟩ := List.mem_map.1 hr
      obtain ⟨f, hf⟩ := h.readers r hin
      obtain ⟨family, -, rfl⟩ := Option.map_eq_some_iff.1 hstep
      exact ⟨f, hf.switched rfl rfl⟩
    | recover tables next => cases hr
    | write _ _ | pick _ _ _ _ | compactMemTable _ | install _ _ _ | trivialMove _ _ =>
      obtain ⟨f, hf⟩ := h.readers r hr
      obtain ⟨hmem, hlast, hhistory⟩ := mem_eq (by simp) (by simp) hstep
      exact ⟨f, hf.congr hmem hlast hhistory⟩

section
variable (hlaws : ∀ op, opts.mergeOp = some op → ∀ k, Laws (op.fullMerge k) (op.partialMerge k))
include hlaws

theorem Inv.step (h : Inv opts s) {a : SessionAction K V} (ha : OutsideGaps opts s a)
    (hstep : step opts s a = some s') : Inv opts s' := by
  cases a with
  | store a =>
    obtain ⟨store, hstore, -⟩ := Option.map_eq_some_iff.1 hstep
    exact h.stepStore ha hstore hstep
  | capture snapshot =>
    simp only [Session.step] at hstep
    split at hstep
    · rename_i hr
      cases hstep
      refine ⟨h.store, fun r hin => ?_⟩
      rcases List.mem_append.1 hin with hin | hin
      · exact h.readers r hin
      · obtain rfl := List.mem_singleton.1 hin
        exact ⟨_, .capture (Store.kept_of_reachable hlaws h.store.reachable)
          (Store.family_reachableBy h.store) hr⟩
    · cases hstep
  | finish reader =>
    cases hstep
    exact ⟨h.store, fun r hr => h.readers r (List.mem_of_mem_eraseIdx hr)⟩

theorem inv_of_reachable (h : (system opts).ReachableBy (OutsideGaps opts) s) : Inv opts s := by
  refine h.invariant (fun s hs => ?_) fun _ _ _ hs ha hstep => hs.step hlaws ha hstep
  obtain rfl : s = empty := hs
  exact ⟨.init rfl, by simp [empty]⟩

/-- **A read under way is answered as of its start**: in a run that stays out of the gaps, at any time
until it finishes, `Get` and the iterator on what it took references to answer from the history up to
its sequence number. -/
theorem reads_answered [Inhabited K] [Infinite V]
    (h : (system opts).ReachableBy (OutsideGaps opts) s) {r : Capture K V} (hr : r ∈ s.readers)
    (hfew : kFirstTableLayer + (r.current.files 0).length + kNumLevels ≤ kAllLayers) :
    (∀ k, (r.view opts s.store).get k r.snapshot =
      answerAt opts.mergeOp s.store.history k r.snapshot) ∧
    ((∀ k, (read (foldOf opts.mergeOp k) (opsAt s.store.history k r.snapshot)).isSome = true) →
      ∀ calls, ((DBIter.system ((r.view opts s.store).newIterator r.snapshot)).run .new calls).map
          (fun it => (it.shown, it.status)) =
        ((walk (mapAt opts.mergeOp s.store.history r.snapshot)).run none calls).map
          fun c => (c.map (·.here), .ok)) := by
  obtain ⟨f, hf⟩ := (inv_of_reachable hlaws h).readers r hr
  have hserves := Store.serves_of_held hf.reach hf.distinct hf.lt (hf.current ▸ hfew) hf.same
  rw [hf.view_eq] at hserves
  exact ⟨hserves.get_eq, fun hmerges => hserves.run_walk hmerges⟩

end

/-- A read under way while its memtable is written to, switched away from and flushed, and the tables
are compacted. -/
def captureRun : List (SessionAction (Fin 3) Nat) :=
  [.store (.write [some (.put 0 10), some (.put 1 20)]), .capture 2,
    .store (.write [some (.merge 0 5)]), .store (.work .switchMemTable),
    .store (.work (.compactMemTable 10)), .store (.write [some (.deleteRange 0 2)]),
    .store (.work .switchMemTable), .store (.work (.compactMemTable 10)),
    .store (.work (.pick 1 [3] [2] [])),
    .store (.work (.install (fun _ => false) (fun _ => false) fun _ => 10))]

theorem reads_answered_captureRun : ∃ s,
    (system Store.counterOptions).runBy (OutsideGaps Store.counterOptions) empty captureRun = some s ∧
      ∃ r ∈ s.readers, (r.view Store.counterOptions s.store).get 0 r.snapshot =
        answerAt Store.counterOptions.mergeOp s.store.history 0 r.snapshot := by
  have hrun : ((system Store.counterOptions).runBy (OutsideGaps Store.counterOptions) empty
      captureRun).any (fun s => s.readers.any fun r =>
        decide (kFirstTableLayer + (r.current.files 0).length + kNumLevels ≤ kAllLayers)) = true := by
    decide +kernel
  obtain ⟨s, hs, hany⟩ := (Option.any_eq_true _ _).1 hrun
  obtain ⟨r, hr, hfew⟩ := List.any_eq_true.1 hany
  have hempty : (system Store.counterOptions).ReachableBy (OutsideGaps Store.counterOptions) empty :=
    .init rfl
  exact ⟨s, hs, r, hr, (reads_answered Store.counterOptions_laws
    (hempty.runBy hs) hr (of_decide_eq_true hfew)).1 0⟩

end Session
end LevelDb
