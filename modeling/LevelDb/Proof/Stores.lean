import LevelDb.Db.Stores
import LevelDb.Proof.Readers
import Mathlib.Algebra.Order.BigOperators.Group.List

/-!
# Every family of a database answers from its own history

A family of the database goes through a run of its own `Store` (`Sound.runs`): a record of another
family uses a number up, and the snapshots are taken and released for all. A family that is created in
the middle starts where a family would be that nothing was ever written to (`Sound.fresh`). So what is
known of one store holds of every family, however the families come and go (`Stores.families_answered`).
-/

namespace LevelDb

open Mvcc

variable {K V : Type} [LinearOrder K]

/-- The family that goes on, with those before and after it. -/
theorem modifyColumn_eq_some {id : Nat} {f : Column K V → Option (Column K V)}
    {cs cs' : List (Column K V)} (h : modifyColumn id f cs = some cs') :
    ∃ before c after c', cs = before ++ c :: after ∧ cs' = before ++ c' :: after ∧ c.id = id ∧
      f c = some c' ∧ ∀ b ∈ before, b.id ≠ id := by
  induction cs generalizing cs' with
  | nil => cases h
  | cons c cs ih =>
    unfold modifyColumn at h
    split at h
    · rename_i hid
      obtain ⟨c', hc', rfl⟩ := Option.map_eq_some_iff.1 h
      exact ⟨[], c, cs, c', rfl, rfl, hid, hc', by simp⟩
    · rename_i hid
      obtain ⟨rest, hrest, rfl⟩ := Option.map_eq_some_iff.1 h
      obtain ⟨before, d, after, d', rfl, rfl, hd, hd', hbefore⟩ := ih hrest
      refine ⟨c :: before, d, after, d', rfl, rfl, hd, hd', fun b hb => ?_⟩
      obtain rfl | hb := List.mem_cons.1 hb
      · exact hid
      · exact hbefore b hb

theorem modifyColumn_isSome {id : Nat} {f : Column K V → Option (Column K V)}
    {cs : List (Column K V)} (hf : ∀ c ∈ cs, c.id = id → (f c).isSome = true)
    (h : ∃ c ∈ cs, c.id = id) : (modifyColumn id f cs).isSome = true := by
  induction cs with
  | nil => simp at h
  | cons c cs ih =>
    unfold modifyColumn
    split
    · rename_i hid
      rw [Option.isSome_map]
      exact hf c List.mem_cons_self hid
    · rename_i hid
      obtain ⟨d, hd, hdid⟩ := h
      obtain rfl | hd := List.mem_cons.1 hd
      · exact absurd hdid hid
      · rw [Option.isSome_map]
        exact ih (fun c hc => hf c (List.mem_cons_of_mem _ hc)) ⟨d, hd, hdid⟩

/-- Every family goes on, with its id and what was written to it. -/
theorem mapM_columns {f : Column K V → Option (Column K V)}
    (hf : ∀ c c', f c = some c' → c'.id = c.id ∧ c'.history = c.history)
    {cs cs' : List (Column K V)} (h : cs.mapM f = some cs') :
    cs'.map (fun c => (c.id, c.history)) = cs.map (fun c => (c.id, c.history)) ∧
      ∀ c' ∈ cs', ∃ c ∈ cs, f c = some c' := by
  induction cs generalizing cs' with
  | nil =>
    obtain rfl := Option.some.inj h
    exact ⟨rfl, by simp⟩
  | cons c cs ih =>
    rw [List.mapM_cons] at h
    obtain ⟨c', hc', h⟩ := Option.bind_eq_some_iff.1 h
    obtain ⟨rest, hrest, h⟩ := Option.bind_eq_some_iff.1 h
    obtain rfl := Option.some.inj h
    obtain ⟨hsame, hmem⟩ := ih hrest
    obtain ⟨hid, hhistory⟩ := hf c c' hc'
    refine ⟨by rw [List.map_cons, List.map_cons, hsame, hid, hhistory], fun d hd => ?_⟩
    obtain rfl | hd := List.mem_cons.1 hd
    · exact ⟨c, List.mem_cons_self, hc'⟩
    · obtain ⟨e, he, heq⟩ := hmem d hd
      exact ⟨e, List.mem_cons_of_mem _ he, heq⟩

theorem isSome_mapM {f : Column K V → Option (Column K V)} {cs : List (Column K V)}
    (h : ∀ c ∈ cs, (f c).isSome = true) : (cs.mapM f).isSome = true := by
  induction cs with
  | nil => rfl
  | cons c cs ih =>
    obtain ⟨c', hc'⟩ := Option.isSome_iff_exists.1 (h c List.mem_cons_self)
    obtain ⟨rest, hrest⟩ := Option.isSome_iff_exists.1 (ih fun d hd => h d (List.mem_cons_of_mem _ hd))
    simp [List.mapM_cons, hc', hrest]

namespace Store

variable [Inhabited V] {opts : Options K V} {s t : Store K V}

theorem write_some {record : Record K V} (h : s.step opts (.write [some record]) = some t) :
    s.lastSequence + 1 < kMaxSequenceNumber ∧ t.lastSequence = s.lastSequence + 1 ∧
      t.snapshots = s.snapshots ∧ t.history = s.history ++ [(s.lastSequence + 1, record)] := by
  obtain ⟨u, hu, h⟩ := Option.bind_eq_some_iff.1 h
  obtain rfl := Option.some.inj h
  obtain ⟨family, hfamily, rfl⟩ := Option.map_eq_some_iff.1 hu
  simp only [Family.step] at hfamily
  split at hfamily
  · rename_i hseq
    exact ⟨hseq.2, rfl, rfl, rfl⟩
  · cases hfamily

theorem write_none (h : s.lastSequence + 1 < kMaxSequenceNumber) :
    s.step opts (.write [none]) = some { s with lastSequence := s.lastSequence + 1 } := by
  simp [step, writeRecord, h]

/-- Work on a family leaves the numbers and its history alone, and the snapshots if it is no
recovery. -/
theorem work_some {a : Action K V} (h : s.step opts (.work a) = some t) :
    t.lastSequence = s.lastSequence ∧ t.history = s.history ∧
      t.snapshots = match a with
        | .recover _ _ => []
        | _ => s.snapshots := by
  cases a with
  | write seq record => cases h
  | pick level inputs0 inputs1 snapshots =>
    simp only [step] at h
    split at h
    · obtain ⟨family, -, rfl⟩ := Option.map_eq_some_iff.1 h
      exact ⟨rfl, rfl, rfl⟩
    · cases h
  | switchMemTable | compactMemTable _ | install _ _ _ | trivialMove _ _ | recover _ _ =>
    obtain ⟨family, -, rfl⟩ := Option.map_eq_some_iff.1 h
    exact ⟨rfl, rfl, rfl⟩

end Store

namespace Stores

variable [Inhabited V] {opts : Nat → Options K V} {s s' : Stores K V}

theorem stepColumn_some {a : StoreAction K V} {c c' : Column K V}
    (h : s.stepColumn opts a c = some c') : c'.id = c.id ∧
      ∃ t, (s.store c).step (opts c.id) a = some t ∧ c'.family = t.family ∧ c'.history = t.history := by
  obtain ⟨t, ht, rfl⟩ := Option.map_eq_some_iff.1 h
  exact ⟨rfl, t, ht, rfl, rfl⟩

omit [Inhabited V] in
theorem column?_eq_some {id : Nat} {c : Column K V} (h : s.column? id = some c) :
    c ∈ s.columns ∧ c.id = id :=
  ⟨List.mem_of_find?_eq_some h, by simpa using List.find?_some h⟩

omit [Inhabited V] in
theorem column?_of_mem (hids : (s.columns.map (·.id)).Nodup) {c : Column K V} (hc : c ∈ s.columns) :
    s.column? c.id = some c := by
  have hsome : (s.column? c.id).isSome = true := by
    unfold column?
    rw [List.find?_isSome]
    exact ⟨c, hc, by simp⟩
  obtain ⟨d, hd⟩ := Option.isSome_iff_exists.1 hsome
  obtain ⟨hmem, hid⟩ := column?_eq_some hd
  rw [hd, List.inj_on_of_nodup_map hids hmem hc hid]

/-- What a record changes. -/
theorem writeRecord_some {w : Nat × Record K V} (h : s.writeRecord opts w = some s') :
    ∃ before c after c', s.columns = before ++ c :: after ∧ s'.columns = before ++ c' :: after ∧
      c.id = w.1 ∧ c'.id = c.id ∧ c'.history = c.history ++ [(s.lastSequence + 1, w.2)] ∧
      (s.store c).step (opts c.id) (.write [some w.2]) = some (s'.store c') ∧
      s.lastSequence + 1 < kMaxSequenceNumber ∧ s'.lastSequence = s.lastSequence + 1 ∧
      s'.snapshots = s.snapshots := by
  obtain ⟨columns, hcolumns, rfl⟩ := Option.map_eq_some_iff.1 h
  obtain ⟨before, c, after, c', hcs, rfl, hc, hc', -⟩ := modifyColumn_eq_some hcolumns
  obtain ⟨hid, t, ht, hfamily, hhistory⟩ := stepColumn_some hc'
  obtain ⟨hlt, hlast, hsnapshots, hold⟩ := Store.write_some ht
  have heq : t = ⟨c'.family, s.lastSequence + 1, s.snapshots, c'.history⟩ := by
    rw [hfamily, hhistory]
    exact congrArg₂ (fun n ns => (⟨t.family, n, ns, t.history⟩ : Store K V)) hlast hsnapshots
  exact ⟨before, c, after, c', hcs, rfl, hc, hid, hhistory.trans hold,
    ht.trans (congrArg some heq), hlt, rfl, rfl⟩

/-- What work on a family changes. -/
theorem work_some {id : Nat} {a : Action K V} (h : s.step opts (.work id a) = some s') :
    ∃ before c after c', s.columns = before ++ c :: after ∧ s'.columns = before ++ c' :: after ∧
      c.id = id ∧ c'.id = c.id ∧ c'.history = c.history ∧
      (s.store c).step (opts c.id) (.work a) = some (s'.store c') ∧
      s'.lastSequence = s.lastSequence ∧ s'.snapshots = s.snapshots := by
  have hmodify : ((modifyColumn id (s.stepColumn opts (.work a)) s.columns).map fun columns =>
      { s with columns }) = some s' := by
    cases a with
    | recover tables next => cases h
    | write _ _ | switchMemTable | compactMemTable _ | pick _ _ _ _ | install _ _ _
    | trivialMove _ _ => exact h
  obtain ⟨columns, hcolumns, rfl⟩ := Option.map_eq_some_iff.1 hmodify
  obtain ⟨before, c, after, c', hcs, rfl, hc, hc', -⟩ := modifyColumn_eq_some hcolumns
  obtain ⟨hid, t, ht, hfamily, hhistory⟩ := stepColumn_some hc'
  obtain ⟨hlast, hold, hsnapshots⟩ := Store.work_some ht
  have hsnapshots : t.snapshots = s.snapshots := by
    cases a with
    | recover tables next => cases h
    | write _ _ | switchMemTable | compactMemTable _ | pick _ _ _ _ | install _ _ _
    | trivialMove _ _ => exact hsnapshots
  have heq : t = ⟨c'.family, s.lastSequence, s.snapshots, c'.history⟩ := by
    rw [hfamily, hhistory]
    exact congrArg₂ (fun n ns => (⟨t.family, n, ns, t.history⟩ : Store K V)) hlast hsnapshots
  exact ⟨before, c, after, c', hcs, rfl, hc, hid, hhistory.trans hold, ht.trans (congrArg some heq),
    rfl, rfl⟩

/-- **The database can be opened again**: what is in no table may stay in the memtables. -/
theorem exists_reopen (opts : Nat → Options K V) (s : Stores K V) :
    ∃ recovery s', s.step opts (.reopen recovery) = some s' := by
  let numbers := s.columns.flatMap fun c =>
    (List.range kNumLevels).flatMap fun level => (c.family.current.files level).map (·.number)
  have hnumbers : ∀ c ∈ s.columns, ∀ level < kNumLevels, ∀ f ∈ c.family.current.files level,
      f.number < numbers.sum + 1 := by
    intro c hc level hlevel f hf
    have hmem : f.number ∈ numbers := by
      simp only [numbers, List.mem_flatMap, List.mem_range, List.mem_map]
      exact ⟨c, hc, level, hlevel, f, hf, rfl⟩
    exact Nat.lt_succ_of_le (List.single_le_sum (fun _ _ => Nat.zero_le _) _ hmem)
  have hsome : (s.columns.mapM fun c =>
      s.stepColumn opts (.work (.recover [] (numbers.sum + 1))) c).isSome = true := by
    refine isSome_mapM fun c hc => ?_
    have hfamily : (c.family.step (opts c.id) (.recover [] (numbers.sum + 1))).isSome = true := by
      simp only [Family.step]
      rw [if_pos (hnumbers c hc), Option.isSome_some]
    simpa only [stepColumn, Store.step, store, Option.isSome_map] using hfamily
  obtain ⟨columns, hcolumns⟩ := Option.isSome_iff_exists.1 hsome
  exact ⟨fun _ => ([], numbers.sum + 1), _, congrArg (Option.map _) hcolumns⟩

/-- What opening the database again changes. -/
theorem reopen_some {recovery : Nat → List (Nat × Nat) × Nat}
    (h : s.step opts (.reopen recovery) = some s') :
    s'.columns.map (fun c => (c.id, c.history)) = s.columns.map (fun c => (c.id, c.history)) ∧
      (∀ c' ∈ s'.columns, ∃ c ∈ s.columns, c'.id = c.id ∧ c'.history = c.history ∧
        (s.store c).step (opts c.id) (.work (.recover (recovery c.id).1 (recovery c.id).2)) =
          some (s'.store c')) ∧
      s'.lastSequence = s.lastSequence ∧ s'.snapshots = [] := by
  obtain ⟨columns, hcolumns, rfl⟩ := Option.map_eq_some_iff.1 h
  have hrecover : ∀ {c c' : Column K V}, s.stepColumn opts
      (.work (.recover (recovery c.id).1 (recovery c.id).2)) c = some c' →
      c'.id = c.id ∧ c'.history = c.history ∧
        (s.store c).step (opts c.id) (.work (.recover (recovery c.id).1 (recovery c.id).2)) =
          some ⟨c'.family, s.lastSequence, [], c'.history⟩ := by
    intro c c' hc'
    obtain ⟨hid, t, ht, hfamily, hhistory⟩ := stepColumn_some hc'
    obtain ⟨hlast, hold, hsnapshots⟩ := Store.work_some ht
    have heq : t = ⟨c'.family, s.lastSequence, [], c'.history⟩ := by
      rw [hfamily, hhistory]
      exact congrArg₂ (fun n ns => (⟨t.family, n, ns, t.history⟩ : Store K V)) hlast hsnapshots
    exact ⟨hid, hhistory.trans hold, ht.trans (congrArg some heq)⟩
  obtain ⟨hsame, hfrom⟩ := mapM_columns
    (fun c c' hc' => ⟨(hrecover hc').1, (hrecover hc').2.1⟩) hcolumns
  refine ⟨hsame, fun c' hc' => ?_, rfl, rfl⟩
  obtain ⟨c, hc, hstep⟩ := hfrom c' hc'
  exact ⟨c, hc, hrecover hstep⟩

/-- The background work stays out of the gaps between the inputs of a running compaction. -/
def OutsideGaps (opts : Nat → Options K V) (s : Stores K V) : StoresAction K V → Prop
  | .work id a => ∀ c ∈ s.columns, c.id = id → Family.OutsideGaps (opts c.id) c.family a
  | _ => True

instance (opts : Nat → Options K V) (s : Stores K V) : ∀ a, Decidable (OutsideGaps opts s a)
  | .work id a => inferInstanceAs
      (Decidable (∀ c ∈ s.columns, c.id = id → Family.OutsideGaps (opts c.id) c.family a))
  | .write _ | .getSnapshot | .releaseSnapshot _ | .createColumnFamily _ | .dropColumnFamily _
  | .reopen _ => instDecidableTrue

/-- The store is reached by runs that stay out of the gaps. -/
abbrev Runs (opts : Options K V) (t : Store K V) : Prop :=
  (Store.system opts).ReachableBy (Store.OutsideGaps opts) t

/-- What every reachable database keeps. -/
structure Sound (opts : Nat → Options K V) (s : Stores K V) : Prop where
  ids : (s.columns.map (·.id)).Nodup
  runs : ∀ c ∈ s.columns, Runs (opts c.id) (s.store c)
  /-- A family that nothing was ever written to. -/
  fresh : ∀ id, Runs (opts id) ⟨.empty, s.lastSequence, s.snapshots, []⟩
  seqs : ∀ c ∈ s.columns, ∀ r ∈ c.history, r.1 ≤ s.lastSequence

theorem sound_new : Sound opts new where
  ids := by simp [new]
  runs c hc := by
    obtain rfl : c = ⟨0, .empty, []⟩ := by simpa [new] using hc
    exact .init rfl
  fresh id := .init rfl
  seqs c hc := by
    obtain rfl : c = ⟨0, .empty, []⟩ := by simpa [new] using hc
    simp

/-- **One record** is a step of its family, and uses up a number for the others. -/
theorem Sound.writeRecord (h : Sound opts s) {w : Nat × Record K V}
    (hstep : s.writeRecord opts w = some s') : Sound opts s' := by
  obtain ⟨before, c, after, c', hcs, hcs', -, hid, hhistory, ht, hlt, hlast, hsnapshots⟩ :=
    writeRecord_some hstep
  have hother : ∀ {opts : Options K V} {t : Store K V}, t.lastSequence = s.lastSequence →
      t.snapshots = s.snapshots → Runs opts t →
      Runs opts ⟨t.family, s'.lastSequence, s'.snapshots, t.history⟩ := by
    intro opts t ht hts hruns
    rw [hlast, hsnapshots, ← ht, ← hts]
    exact hruns.step (.write [none]) trivial (Store.write_none (ht ▸ hlt))
  have hc : c ∈ s.columns := by simp [hcs]
  have hmem : ∀ {d}, d ∈ s'.columns → d = c' ∨ d ∈ s.columns := by
    intro d hd
    rw [hcs'] at hd
    rw [hcs]
    simp only [List.mem_append, List.mem_cons] at hd ⊢
    tauto
  refine ⟨?_, fun d hd => ?_, fun id => hother rfl rfl (h.fresh id), fun d hd r hr => ?_⟩
  · have hids := h.ids
    rw [hcs] at hids
    rw [hcs']
    simpa [hid] using hids
  · obtain rfl | hd := hmem hd
    · have hruns := (h.runs c hc).step (StoreAction.write [some w.2]) trivial ht
      rw [← hid] at hruns
      exact hruns
    · exact hother rfl rfl (h.runs d hd)
  · rw [hlast]
    obtain rfl | hd := hmem hd
    · rw [hhistory] at hr
      obtain hr | hr := List.mem_append.1 hr
      · exact (h.seqs c hc r hr).trans (Nat.le_succ _)
      · obtain rfl := List.mem_singleton.1 hr
        exact le_rfl
    · exact (h.seqs d hd r hr).trans (Nat.le_succ _)

theorem Sound.write (h : Sound opts s) {batch : List (Nat × Record K V)}
    (hstep : s.step opts (.write batch) = some s') : Sound opts s' := by
  change batch.foldlM (Stores.writeRecord opts) s = some s' at hstep
  induction batch generalizing s with
  | nil =>
    obtain rfl := Option.some.inj hstep
    exact h
  | cons w batch ih =>
    obtain ⟨next, hnext, hstep⟩ := Option.bind_eq_some_iff.1 hstep
    exact ih (h.writeRecord hnext) hstep

/-- A step of the database that is the same step for every family. -/
theorem Sound.all (h : Sound opts s) {a : StoreAction K V} (hids : s'.columns = s.columns)
    (hlast : s'.lastSequence = s.lastSequence)
    (hok : ∀ opts t, t.lastSequence = s.lastSequence → t.snapshots = s.snapshots →
      Store.OutsideGaps opts t a ∧
      Store.step opts t a = some { t with snapshots := s'.snapshots }) : Sound opts s' := by
  have hruns : ∀ {opts : Options K V} {t : Store K V}, t.lastSequence = s.lastSequence →
      t.snapshots = s.snapshots → Runs opts t → Runs opts { t with snapshots := s'.snapshots } :=
    fun hlast hsnapshots ht =>
      ht.step a (hok _ _ hlast hsnapshots).1 (hok _ _ hlast hsnapshots).2
  refine ⟨hids ▸ h.ids, fun c hc => ?_, fun id => ?_, fun c hc r hr => ?_⟩
  · rw [hids] at hc
    have := hruns rfl rfl (h.runs c hc)
    rw [store, hlast]
    exact this
  · rw [hlast]
    exact hruns rfl rfl (h.fresh id)
  · rw [hids] at hc
    rw [hlast]
    exact h.seqs c hc r hr

omit [Inhabited V] in
theorem column?_eq_none {id : Nat} (h : (s.column? id).isNone = true) : ∀ c ∈ s.columns, c.id ≠ id := by
  intro c hc
  have := List.find?_eq_none.1 (Option.isNone_iff_eq_none.1 h) c hc
  simpa using this

/-- **Work on one family** leaves the others alone. -/
theorem Sound.work (h : Sound opts s) {id : Nat} {a : Action K V}
    (ha : OutsideGaps opts s (.work id a)) (hstep : s.step opts (.work id a) = some s') :
    Sound opts s' := by
  obtain ⟨before, c, after, c', hcs, hcs', hcid, hid, hhistory, ht, hlast, hsnapshots⟩ :=
    work_some hstep
  have hc : c ∈ s.columns := by simp [hcs]
  have hmem : ∀ {d}, d ∈ s'.columns → d = c' ∨ d ∈ s.columns := by
    intro d hd
    rw [hcs'] at hd
    rw [hcs]
    simp only [List.mem_append, List.mem_cons] at hd ⊢
    tauto
  refine ⟨?_, fun d hd => ?_, fun id => hlast ▸ hsnapshots ▸ h.fresh id, fun d hd r hr => ?_⟩
  · have hids := h.ids
    rw [hcs] at hids
    rw [hcs']
    simpa [hid] using hids
  · obtain rfl | hd := hmem hd
    · have hruns := (h.runs c hc).step (StoreAction.work a) (ha c hc hcid) ht
      rw [← hid] at hruns
      exact hruns
    · rw [store, hlast, hsnapshots]
      exact h.runs d hd
  · rw [hlast]
    obtain rfl | hd := hmem hd
    · rw [hhistory] at hr
      exact h.seqs c hc r hr
    · exact h.seqs d hd r hr

/-- A new family was never written to. -/
theorem Sound.create (h : Sound opts s) {id : Nat}
    (hstep : s.step opts (.createColumnFamily id) = some s') : Sound opts s' := by
  simp only [step] at hstep
  split at hstep
  · rename_i hnone
    cases hstep
    have hother := column?_eq_none hnone
    refine ⟨?_, fun c hc => ?_, h.fresh, fun c hc r hr => ?_⟩
    · rw [List.map_append, List.nodup_append]
      refine ⟨h.ids, by simp, fun a ha b hb => ?_⟩
      obtain ⟨c, hc, rfl⟩ := List.mem_map.1 ha
      obtain rfl : b = id := by simpa using hb
      exact hother c hc
    · obtain hc | hc := List.mem_append.1 hc
      · exact h.runs c hc
      · obtain rfl := List.mem_singleton.1 hc
        exact h.fresh id
    · obtain hc | hc := List.mem_append.1 hc
      · exact h.seqs c hc r hr
      · obtain rfl := List.mem_singleton.1 hc
        simp at hr
  · cases hstep

theorem Sound.drop (h : Sound opts s) {id : Nat}
    (hstep : s.step opts (.dropColumnFamily id) = some s') : Sound opts s' := by
  simp only [step] at hstep
  split at hstep
  · cases hstep
    exact ⟨h.ids.sublist (List.filter_sublist.map _), fun c hc => h.runs c (List.mem_of_mem_filter hc),
      h.fresh, fun c hc => h.seqs c (List.mem_of_mem_filter hc)⟩
  · cases hstep

/-- **Every family recovers** when the database is opened again. -/
theorem Sound.reopen (h : Sound opts s) {recovery : Nat → List (Nat × Nat) × Nat}
    (hstep : s.step opts (.reopen recovery) = some s') : Sound opts s' := by
  obtain ⟨hsame, hfrom, hlast, hsnapshots⟩ := reopen_some hstep
  refine ⟨?_, fun c' hc' => ?_, fun id => ?_, fun c' hc' r hr => ?_⟩
  · have hids : s'.columns.map (·.id) = s.columns.map (·.id) := by
      have := congrArg (List.map Prod.fst) hsame
      simpa [Function.comp_def] using this
    exact hids ▸ h.ids
  · obtain ⟨c, hc, hid, -, ht⟩ := hfrom c' hc'
    have hruns := (h.runs c hc).step (StoreAction.work (.recover _ _)) trivial ht
    rw [← hid] at hruns
    exact hruns
  · rw [hlast, hsnapshots]
    exact (h.fresh id).step (StoreAction.work (.recover [] 2)) trivial (by
      simp [Store.system, Store.step, Family.step, Family.empty, Family.replay, Family.records])
  · obtain ⟨c, hc, -, hhistory, -⟩ := hfrom c' hc'
    rw [hlast]
    exact h.seqs c hc r (hhistory ▸ hr)

/-- **One step** of the database. -/
theorem Sound.step (h : Sound opts s) {a : StoresAction K V} (ha : OutsideGaps opts s a)
    (hstep : s.step opts a = some s') : Sound opts s' := by
  cases a with
  | write batch => exact h.write hstep
  | getSnapshot =>
    cases hstep
    refine h.all (a := .getSnapshot) rfl rfl fun opts t hlast hsnapshots => ⟨trivial, ?_⟩
    rw [Store.step, hlast, hsnapshots]
  | releaseSnapshot seq =>
    simp only [Stores.step] at hstep
    split at hstep
    · rename_i hseq
      cases hstep
      refine h.all (a := .releaseSnapshot seq) rfl rfl fun opts t _ hsnapshots => ⟨trivial, ?_⟩
      rw [Store.step, hsnapshots, if_pos hseq]
    · cases hstep
  | work id a => exact h.work ha hstep
  | createColumnFamily id => exact h.create hstep
  | dropColumnFamily id => exact h.drop hstep
  | reopen recovery => exact h.reopen hstep

theorem sound_of_reachable (h : (system opts).ReachableBy (OutsideGaps opts) s) : Sound opts s := by
  refine h.invariant (fun s hs => ?_) fun _ _ _ hs ha hstep => hs.step ha hstep
  obtain rfl : s = new := hs
  exact sound_new

/-! ## What was written -/

/-- The histories with the ids of their families. -/
def histories (s : Stores K V) : List (Nat × List (Nat × Record K V)) :=
  s.columns.map fun c => (c.id, c.history)

omit [Inhabited V] in
theorem mem_histories {p : Nat × List (Nat × Record K V)} :
    p ∈ s.histories ↔ ∃ c ∈ s.columns, (c.id, c.history) = p := List.mem_map

/-- A record goes to the end of one history. -/
theorem histories_writeRecord {w : Nat × Record K V} (h : s.writeRecord opts w = some s') :
    ∃ before history after, s.histories = before ++ (w.1, history) :: after ∧
      s'.histories = before ++ (w.1, history ++ [(s.lastSequence + 1, w.2)]) :: after := by
  obtain ⟨before, c, after, c', hcs, hcs', hc, hid, hhistory, -⟩ := writeRecord_some h
  refine ⟨before.map fun c => (c.id, c.history), c.history, after.map fun c => (c.id, c.history), ?_, ?_⟩
  · simp [histories, hcs, hc]
  · simp [histories, hcs', hc, hid, hhistory]

/-- Work writes nothing. -/
theorem histories_work {id : Nat} {a : Action K V} (h : s.step opts (.work id a) = some s') :
    s'.histories = s.histories := by
  obtain ⟨before, c, after, c', hcs, hcs', -, hid, hhistory, -⟩ := work_some h
  simp [histories, hcs, hcs', hid, hhistory]

/-- A reader may hold a live snapshot, or read what is there. -/
def Readable (s : Stores K V) (snapshot : Nat) : Prop :=
  snapshot ∈ s.snapshots ∨ snapshot = s.lastSequence

instance (s : Stores K V) (snapshot : Nat) : Decidable (s.Readable snapshot) := instDecidableOr

/-- No more files on level 0 than layers can be numbered. -/
def Few (c : Column K V) : Prop :=
  kFirstTableLayer + (c.family.current.files 0).length + kNumLevels ≤ kAllLayers

instance (c : Column K V) : Decidable (Few c) := Nat.decLe _ _

section
variable (hlaws : ∀ id op, (opts id).mergeOp = some op →
  ∀ k, Laws (op.fullMerge k) (op.partialMerge k))
include hlaws

/-- The readers of a family see its history. -/
theorem Sound.serves (h : Sound opts s) {c : Column K V} (hc : c ∈ s.columns) (hfew : Few c) {r : Nat}
    (hr : s.Readable r) : (c.family.columnFamily (opts c.id)).Serves c.history r :=
  (Store.kept_of_reachable (hlaws c.id) (h.runs c hc).reachable).serves
    (Store.family_reachableBy (h.runs c hc)) hfew hr

/-- A record can be written to a family there is while there are numbers. -/
theorem Sound.exists_writeRecord (h : Sound opts s) {w : Nat × Record K V}
    (hw : ∃ c ∈ s.columns, c.id = w.1) (hlt : s.lastSequence + 1 < kMaxSequenceNumber) :
    ∃ s', s.writeRecord opts w = some s' := by
  have hsome : (modifyColumn w.1 (s.stepColumn opts (.write [some w.2])) s.columns).isSome = true := by
    refine modifyColumn_isSome (fun c hc _ => ?_) hw
    have hle := (Store.kept_of_reachable (hlaws c.id) (h.runs c hc).reachable).last_le
    have hseq : c.family.lastSequence < s.lastSequence + 1 := Nat.lt_succ_of_le hle
    simp [stepColumn, Store.step, Store.writeRecord, store, Family.step, hseq, hlt]
  obtain ⟨columns, hcolumns⟩ := Option.isSome_iff_exists.1 hsome
  exact ⟨_, congrArg (Option.map _) hcolumns⟩

/-- **Every family answers from its own history**, to a `Get` and to an iterator, at every live
snapshot and at the last number, whatever the batches and the other families did, after background work
that stays out of the gaps; the operands of the merge operators may be grouped. -/
theorem families_answered [Inhabited K] [Infinite V]
    (h : (system opts).ReachableBy (OutsideGaps opts) s) {c : Column K V} (hc : c ∈ s.columns)
    (hfew : Few c) {r : Nat} (hr : s.Readable r) :
    (∀ k, (c.family.columnFamily (opts c.id)).get k r =
      answerAt (opts c.id).mergeOp c.history k r) ∧
    ((∀ k, (read (foldOf (opts c.id).mergeOp k) (opsAt c.history k r)).isSome = true) →
      ∀ calls, ((DBIter.system ((c.family.columnFamily (opts c.id)).newIterator r)).run .new
          calls).map (fun it => (it.shown, it.status)) =
        ((walk (mapAt (opts c.id).mergeOp c.history r)).run none calls).map
          fun c => (c.map (·.here), .ok)) :=
  have hserves := (sound_of_reachable h).serves hlaws hc hfew hr
  ⟨hserves.get_eq, fun hmerges => hserves.run_walk hmerges⟩

end

/-- A batch over two families, one of which is flushed and the other dropped and made again; the
database is opened again in between. -/
def familiesRun : List (StoresAction (Fin 3) Nat) :=
  [.createColumnFamily 1, .write [(0, .put 0 10), (1, .put 0 20), (0, .merge 0 5)], .getSnapshot,
    .work 0 .switchMemTable, .work 0 (.compactMemTable 10), .write [(1, .deleteRange 0 2)],
    .reopen fun id => if id = 0 then ([], 4) else ([(1, 10)], 4), .dropColumnFamily 1,
    .createColumnFamily 1, .write [(1, .merge 0 7), (0, .delete 1)]]

theorem families_answered_familiesRun : ∃ s,
    (system fun _ => Store.counterOptions).runBy (OutsideGaps fun _ => Store.counterOptions) new
        familiesRun = some s ∧
      ∃ c ∈ s.columns, c.id = 1 ∧
        (c.family.columnFamily Store.counterOptions).get 0 s.lastSequence =
          answerAt Store.counterOptions.mergeOp c.history 0 s.lastSequence := by
  have hrun : ((system fun _ => Store.counterOptions).runBy
      (OutsideGaps fun _ => Store.counterOptions) new familiesRun).any
        (fun s => s.columns.any fun c => decide (c.id = 1 ∧ Few c)) = true := by
    decide +kernel
  obtain ⟨s, hs, hany⟩ := (Option.any_eq_true _ _).1 hrun
  obtain ⟨c, hc, hholds⟩ := List.any_eq_true.1 hany
  obtain ⟨hid, hfew⟩ := of_decide_eq_true hholds
  have hnew : (system fun _ => Store.counterOptions).ReachableBy
      (OutsideGaps fun _ => Store.counterOptions) new := .init rfl
  exact ⟨s, hs, c, hc, hid, (families_answered (fun _ => Store.counterOptions_laws) (hnew.runBy hs) hc
    hfew (.inr rfl)).1 0⟩

end Stores
end LevelDb
