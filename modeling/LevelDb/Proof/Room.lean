import LevelDb.Db.Room
import Mathlib.Data.List.Perm.Basic

/-!
# What has room when a group is inserted

`MakeRoomForWrite` returns with room in the memtables of the families it was called for: those of
the leader's own batch. Each memtable a group is inserted into has room then exactly if the families
that other batches bring have (`roomy_iff`).
-/

namespace LevelDb.Room

open Transition

section
variable {fresh n : Nat} {s s' : State} {families : List Nat} {l l' : Leader} {v : State.Verdict}

/-! ## The loop -/

/-- Only where no family is full does the scan find nothing to do. -/
theorem full_of_scan {cfs : List ColumnFamily} (hcf : (s.scan l cfs).cf = none)
    (hhard : (s.scan l cfs).overL0Hard = false) (hwaiting : (s.scan l cfs).waiting = false) :
    ∀ cf ∈ cfs, s.full l.force cf = false := by
  induction cfs with
  | nil => exact nofun
  | cons c cfs ih =>
    rw [State.scan] at hcf hhard hwaiting
    split at hcf
    · rename_i hfull
      rw [if_pos hfull] at hhard hwaiting
      intro cf hin
      rcases List.mem_cons.1 hin with rfl | hin
      · exact hfull
      · exact ih hcf hhard hwaiting cf hin
    · rename_i hfull
      rw [if_neg hfull] at hhard hwaiting
      split at hcf
      · rename_i himm
        rw [if_pos himm] at hwaiting
        cases hwaiting
      · rename_i himm
        rw [if_neg himm] at hhard
        split at hcf
        · rename_i hstop
          rw [if_pos hstop] at hhard
          cases hhard
        · cases hcf

/-- With the verdict `room`, no family that is wanted is full. -/
theorem full_of_room (h : s.verdict families l = .room) {cf : ColumnFamily} (hcf : cf ∈ s.live)
    (hwants : s.wants families l.force cf = true) : s.full l.force cf = false := by
  simp only [State.verdict] at h
  split at h
  · cases h
  · rename_i hnone
    split at h
    · cases h
    · split at h
      · cases h
      · rename_i hflags
        rw [Bool.or_eq_true, not_or, Bool.not_eq_true, Bool.not_eq_true] at hflags
        exact full_of_scan hnone hflags.2 hflags.1 cf (List.mem_filter.2 ⟨hcf, hwants⟩)

/-- The loop ends with a verdict of its last state. -/
theorem makeRoomForWrite_verdict (h : s.makeRoomForWrite fresh families n l = (s', l', v)) :
    s'.verdict families l' = v := by
  induction n generalizing s l with
  | zero =>
    cases h
    rfl
  | succ n ih =>
    rw [State.makeRoomForWrite] at h
    split at h
    · exact ih h
    · cases h
      rfl

/-- What each switch keeps, the loop keeps. -/
theorem makeRoomForWrite_keeps {P : State → Prop}
    (hP : ∀ s family, P s → P (s.switchMemTable fresh family)) (hs : P s) :
    P (s.makeRoomForWrite fresh families n l).1 := by
  induction n generalizing s l with
  | zero => exact hs
  | succ n ih =>
    rw [State.makeRoomForWrite]
    split
    · exact ih (hP _ _ hs)
    · exact hs

/-! ## Families -/

theorem mem_live {cf : ColumnFamily} : cf ∈ s.live ↔ cf ∈ s.cfs ∧ cf.dropped = false := by
  rw [State.live, List.mem_filter, decide_eq_true_eq]

theorem live?_some {family : Nat} {cf : ColumnFamily} (h : s.live? family = some cf) :
    cf ∈ s.live ∧ cf.id = family := by
  have hsome := List.find?_some h
  simp only [Bool.decide_and, Bool.and_eq_true, decide_eq_true_eq] at hsome
  exact ⟨mem_live.2 ⟨List.mem_of_find?_eq_some h, hsome.2⟩, hsome.1⟩

/-- A family of the changed state comes from one of the state before. -/
theorem mem_modify {family : Nat} {f : ColumnFamily → ColumnFamily} {cf : ColumnFamily}
    (h : cf ∈ (s.modify family f).cfs) :
    ∃ c ∈ s.cfs, cf = c ∨ c.id = family ∧ cf = f c := by
  obtain ⟨c, hc, rfl⟩ := List.mem_map.1 h
  refine ⟨c, hc, ?_⟩
  split
  · rename_i hid
    exact .inr ⟨hid, rfl⟩
  · exact .inl rfl

theorem ids_modify {family : Nat} {f : ColumnFamily → ColumnFamily} (hf : ∀ cf, (f cf).id = cf.id) :
    (s.modify family f).cfs.map (·.id) = s.cfs.map (·.id) := by
  rw [State.modify, List.map_map]
  refine List.map_congr_left fun cf _ => ?_
  rw [Function.comp_apply]
  split
  · exact hf cf
  · rfl

/-! ## What is known of every state -/

/-- Ids are distinct, batches are of families there are. -/
structure Known (s : State) : Prop where
  nodup : ((s.cfs ++ s.creating).map (·.id)).Nodup
  lt : ∀ cf ∈ s.cfs ++ s.creating, cf.id < s.nextFamilyId
  writers : ∀ w ∈ s.checked ++ s.queue, ∀ f ∈ w.families, f ∈ s.cfs.map (·.id)
  group : ∀ g ∈ s.group, ∀ f ∈ g.families, f ∈ s.cfs.map (·.id)
  creating : ∀ cf ∈ s.creating, cf.before = 0

/-- A group under way finds room in the memtables of its families, and each memtable had room before
the last group that was inserted into it. -/
structure Roomy (s : State) : Prop where
  inserting : ∀ g ∈ s.group, g.inserted = false → ∀ cf ∈ s.live, cf.id ∈ g.families →
    cf.overflows = false
  before : ∀ cf ∈ s.live, cf.before ≤ cf.writeBufferSize

/-- The families change, but not in their ids. -/
theorem Known.congr (h : Known s) (hids : s'.cfs.map (·.id) = s.cfs.map (·.id))
    (hcreating : s'.creating = s.creating) (hnext : s'.nextFamilyId = s.nextFamilyId)
    (hwriters : ∀ w ∈ s'.checked ++ s'.queue, ∀ f ∈ w.families, f ∈ s.cfs.map (·.id))
    (hgroup : ∀ g ∈ s'.group, ∀ f ∈ g.families, f ∈ s.cfs.map (·.id)) : Known s' := by
  have hall : (s'.cfs ++ s'.creating).map (·.id) = (s.cfs ++ s.creating).map (·.id) := by
    rw [List.map_append, List.map_append, hids, hcreating]
  refine ⟨hall ▸ h.nodup, fun cf hcf => ?_, hids ▸ hwriters, hids ▸ hgroup, hcreating ▸ h.creating⟩
  obtain ⟨c, hc, heq⟩ := List.mem_map.1 (hall ▸ List.mem_map_of_mem hcf)
  rw [hnext, ← show c.id = cf.id from heq]
  exact h.lt c hc

theorem known_switchMemTable {family : Nat} (h : Known s) :
    Known (s.switchMemTable fresh family) :=
  h.congr (ids_modify fun _ => rfl) rfl rfl h.writers h.group

theorem before_switchMemTable {family : Nat} (h : ∀ cf ∈ s.live, cf.before ≤ cf.writeBufferSize) :
    ∀ cf ∈ (s.switchMemTable fresh family).live, cf.before ≤ cf.writeBufferSize := by
  intro cf hcf
  obtain ⟨hcf, hlive⟩ := mem_live.1 hcf
  obtain ⟨c, hc, rfl | ⟨-, rfl⟩⟩ := mem_modify hcf
  · exact h cf (mem_live.2 ⟨hc, hlive⟩)
  · exact Nat.zero_le _

/-- What a switch leaves alone. -/
structure Aside (s s' : State) : Prop where
  known : Known s'
  queue : s'.queue = s.queue
  checked : s'.checked = s.checked
  group : s'.group = s.group

/-- The writer at the front makes room. -/
theorem aside_makeRoom (h : Known s) {w : Writer} (hroom : s.makeRoom fresh w = (s', l', v)) :
    Aside s s' := by
  have haside : Aside s (s.makeRoom fresh w).1 := by
    refine makeRoomForWrite_keeps (fun t family ht => ?_) ⟨h, rfl, rfl, rfl⟩
    exact ⟨known_switchMemTable ht.known, ht.queue, ht.checked, ht.group⟩
  rwa [hroom] at haside

theorem before_makeRoom (h : ∀ cf ∈ s.live, cf.before ≤ cf.writeBufferSize) {w : Writer}
    (hroom : s.makeRoom fresh w = (s', l', v)) : ∀ cf ∈ s'.live, cf.before ≤ cf.writeBufferSize := by
  have hbefore := @makeRoomForWrite_keeps fresh (s.cfs.length + 1) s w.families (s.leading w)
    (fun t => ∀ cf ∈ t.live, cf.before ≤ cf.writeBufferSize)
    (fun t family ht => before_switchMemTable ht) h
  rw [show (s.makeRoomForWrite fresh w.families (s.cfs.length + 1) (s.leading w)) = _ from hroom]
    at hbefore
  exact hbefore

/-- **The families of the leader's batch have room** when `MakeRoomForWrite` returns. -/
theorem leader_fits {w : Writer} (h : s.makeRoom fresh w = (s', l', .room)) :
    ∀ cf ∈ s'.live, cf.id ∈ w.families → cf.overflows = false := by
  intro cf hcf hid
  have hfull := full_of_room (makeRoomForWrite_verdict h) hcf (decide_eq_true (.inl hid))
  have hnot := of_decide_eq_false hfull
  rw [not_or, not_or, not_or] at hnot
  exact Bool.not_eq_true _ ▸ hnot.2.2.1

/-- What a capture does: the front writer has made room, and a null batch returns. -/
theorem capture_cases (h : s.step fresh (.capture n) = some s') :
    ∃ w ws s1 l1, s.group = none ∧ s.queue = w :: ws ∧ s.makeRoom fresh w = (s1, l1, .room) ∧
      (w.batch.isNone = true ∧ s' = { s1 with leader := none, queue := ws } ∨
        w.batch.isSome = true ∧ s' = { s1 with
          leader := none, queue := ws.drop n
          group := some ⟨w :: ws.take n, s1.live.map (·.id), false⟩ }) := by
  simp only [State.step] at h
  split at h
  · rename_i w ws hgroup hqueue
    split at h
    · rename_i s1 l1 hroom
      refine ⟨w, ws, s1, l1, hgroup, hqueue, hroom, ?_⟩
      split at h
      · rename_i hnull
        cases h
        exact .inl ⟨hnull, rfl⟩
      · rename_i hsome
        split at h
        · cases h
          rw [Option.isNone_iff_eq_none] at hsome
          exact .inr ⟨Option.isSome_iff_ne_none.2 hsome, rfl⟩
        · cases h
    · cases h
  · cases h

theorem mem_families {g : Group} {f : Nat} : f ∈ g.families ↔ ∃ w ∈ g.writers, f ∈ w.families :=
  List.mem_flatMap

theorem known_capture (hk : Known s) (hstep : s.step fresh (.capture n) = some s') : Known s' := by
  obtain ⟨w, ws, s1, l1, hgroup, hqueue, hroom, hcase⟩ := capture_cases hstep
  have haside := aside_makeRoom hk hroom
  have hk1 := haside.known
  have hmem : ∀ w' ∈ w :: ws, ∀ f ∈ w'.families, f ∈ s1.cfs.map (·.id) := fun w' hw' =>
    hk1.writers w' (List.mem_append_right _ ((haside.queue.trans hqueue) ▸ hw'))
  rcases hcase with ⟨-, rfl⟩ | ⟨-, rfl⟩
  · refine hk1.congr rfl rfl rfl (fun w' hw' => ?_) hk1.group
    rcases List.mem_append.1 hw' with hw' | hw'
    · exact hk1.writers w' (List.mem_append_left _ hw')
    · exact hmem w' (List.mem_cons_of_mem w hw')
  · refine hk1.congr rfl rfl rfl (fun w' hw' => ?_) fun g hg f hf => ?_
    · rcases List.mem_append.1 hw' with hw' | hw'
      · exact hk1.writers w' (List.mem_append_left _ hw')
      · exact hmem w' (List.mem_cons_of_mem w (List.mem_of_mem_drop hw'))
    · cases hg
      obtain ⟨w', hw', hf⟩ := mem_families.1 hf
      exact hmem w' (List.mem_cons.2 ((List.mem_cons.1 hw').imp_right List.mem_of_mem_take)) f hf

/-- **A group is built**: the families of its followers decide. -/
theorem roomy_capture_iff (hr : Roomy s) (hk : Known s)
    (hstep : s.step fresh (.capture n) = some s') :
    Roomy s' ↔ s.FollowersFit fresh (.capture n) := by
  obtain ⟨w, ws, s1, l1, hgroup, hqueue, hroom, hcase⟩ := capture_cases hstep
  have hbefore := before_makeRoom hr.before hroom
  rcases hcase with ⟨hnull, rfl⟩ | ⟨hsome, rfl⟩
  · refine iff_of_true ⟨fun g hg => ?_, hbefore⟩ fun m _ w0 hw0 hsome => ?_
    · replace hg : g ∈ s1.group := hg
      rw [(aside_makeRoom hk hroom).group, hgroup] at hg
      cases hg
    · rw [hqueue, List.head?_cons, Option.mem_some_iff] at hw0
      rw [← hw0, Option.isSome_eq_false_iff.2 hnull] at hsome
      cases hsome
  · constructor
    · intro hroomy m hm w0 hw0 _ w' hw' f hf _ cf hcf hid
      rw [hqueue, List.head?_cons, Option.mem_some_iff] at hw0
      subst hw0
      cases hm
      rw [hqueue, List.tail_cons] at hw'
      rw [hroom] at hcf
      refine hroomy.inserting _ rfl rfl cf hcf (mem_families.2 ⟨w', ?_, hid ▸ hf⟩)
      exact List.mem_cons_of_mem w hw'
    · intro hfit
      refine ⟨fun g hg _ cf hcf hin => ?_, hbefore⟩
      cases hg
      obtain ⟨w', hw', hf⟩ := mem_families.1 hin
      by_cases hleader : cf.id ∈ w.families
      · exact leader_fits hroom cf hcf hleader
      · rcases List.mem_cons.1 hw' with rfl | hw'
        · exact absurd hf hleader
        · refine hfit n rfl w (by rw [hqueue]; rfl) hsome w' (by rw [hqueue]; exact hw') cf.id hf
            hleader cf ?_ rfl
          rw [hroom]
          exact hcf

/-- A family changes in neither its usage nor its limit. -/
theorem Roomy.modify (h : Roomy s) {family : Nat} {f : ColumnFamily → ColumnFamily}
    (hcfs : s'.cfs = (s.modify family f).cfs) (hgroup : s'.group = s.group)
    (hf : ∀ cf, (f cf).id = cf.id ∧ (f cf).before = cf.before ∧
      (f cf).writeBufferSize = cf.writeBufferSize ∧
      ((f cf).dropped = false → (f cf).mem = cf.mem ∧ cf.dropped = false)) : Roomy s' := by
  have hold : ∀ cf ∈ s'.live, ∃ c ∈ s.live, cf.id = c.id ∧ cf.before = c.before ∧
      cf.writeBufferSize = c.writeBufferSize ∧ cf.mem = c.mem := by
    intro cf hcf
    obtain ⟨hcf, hlive⟩ := mem_live.1 hcf
    obtain ⟨c, hc, rfl | ⟨-, rfl⟩⟩ := mem_modify (hcfs ▸ hcf)
    · exact ⟨cf, mem_live.2 ⟨hc, hlive⟩, rfl, rfl, rfl, rfl⟩
    · obtain ⟨h1, h2, h3, h4⟩ := hf c
      obtain ⟨h5, h6⟩ := h4 hlive
      exact ⟨c, mem_live.2 ⟨hc, h6⟩, h1, h2, h3, h5⟩
  refine ⟨fun g hg hins cf hcf hin => ?_, fun cf hcf => ?_⟩
  · obtain ⟨c, hc, h1, -, h3, h4⟩ := hold cf hcf
    rw [ColumnFamily.overflows, h3, h4]
    exact h.inserting g (hgroup ▸ hg) hins c hc (h1 ▸ hin)
  · obtain ⟨c, hc, -, h2, h3, -⟩ := hold cf hcf
    rw [h2, h3]
    exact h.before c hc

theorem insert_cases {growth : Nat → Nat} (h : s.step fresh (.insert growth) = some s') :
    ∃ g, s.group = some g ∧ g.inserted = false ∧ s' = { s with
      group := some { g with inserted := true }
      cfs := s.cfs.map fun cf =>
        if cf.id ∈ g.families ∧ cf.id ∈ g.mems then
          { cf with
            before := cf.mem.getD 0
            mem := cf.mem.map fun usage => usage + growth cf.id }
        else cf } := by
  simp only [State.step] at h
  split at h
  · rename_i g hg
    split at h
    · cases h
    · rename_i hins
      cases h
      exact ⟨g, hg, Bool.not_eq_true _ ▸ hins, rfl⟩
  · cases h

theorem roomy_insert (h : Roomy s) {growth : Nat → Nat}
    (hstep : s.step fresh (.insert growth) = some s') : Roomy s' := by
  obtain ⟨g, hg, hins, rfl⟩ := insert_cases hstep
  refine ⟨fun g' hg' hins' => ?_, fun cf hcf => ?_⟩
  · cases hg'
    cases hins'
  · obtain ⟨hcf, hlive⟩ := mem_live.1 hcf
    obtain ⟨c, hc, rfl⟩ := List.mem_map.1 hcf
    split at hlive
    · rename_i hin
      rw [if_pos hin]
      -- the memtable was not over its limit
      have hfits := h.inserting g hg hins c (mem_live.2 ⟨hc, hlive⟩) hin.1
      cases hmem : c.mem with
      | none => exact Nat.zero_le _
      | some usage =>
        rw [ColumnFamily.overflows, hmem] at hfits
        exact not_lt.1 (of_decide_eq_false hfits)
    · rename_i hnot
      rw [if_neg hnot]
      exact h.before c (mem_live.2 ⟨hc, hlive⟩)

/-- What a wait does: the front writer has switched some memtables perhaps. -/
theorem wait_cases (h : s.step fresh .waitForRoom = some s') :
    ∃ w ws s1 l1 v l2, s.group = none ∧ s.queue = w :: ws ∧ s.makeRoom fresh w = (s1, l1, v) ∧
      (v = .sleep ∨ v = .wait) ∧ l2.force = l1.force ∧ s' = { s1 with leader := some l2 } := by
  simp only [State.step] at h
  split at h
  · rename_i w ws hgroup hqueue
    split at h
    · rename_i s1 l1 hroom
      cases h
      exact ⟨w, ws, s1, l1, _, { l1 with allowDelay := false }, hgroup, hqueue, hroom, .inl rfl, rfl,
        rfl⟩
    · rename_i s1 l1 hroom
      cases h
      exact ⟨w, ws, s1, l1, _, l1, hgroup, hqueue, hroom, .inr rfl, rfl, rfl⟩
    · cases h
  · cases h

theorem known_commitColumnFamily (hk : Known s) {i : Nat} {new : ColumnFamily}
    (hnew : s.creating[i]? = some new) :
    Known { s with
      cfs := s.cfs.orderedInsert (fun a b => a.id ≤ b.id) new
      creating := s.creating.eraseIdx i } := by
  obtain ⟨hi, rfl⟩ := List.getElem?_eq_some_iff.1 hnew
  have hperm : (s.cfs.orderedInsert (fun a b => a.id ≤ b.id) s.creating[i] ++
      s.creating.eraseIdx i).Perm (s.cfs ++ s.creating) :=
    ((List.perm_orderedInsert _ _ _).append_right _).trans
      (List.perm_middle.symm.trans ((List.getElem_cons_eraseIdx_perm hi).append_left _))
  have hids : ∀ f ∈ s.cfs.map (·.id),
      f ∈ (s.cfs.orderedInsert (fun a b => a.id ≤ b.id) s.creating[i]).map (·.id) := fun f hf => by
    obtain ⟨c, hc, rfl⟩ := List.mem_map.1 hf
    exact List.mem_map_of_mem ((List.mem_orderedInsert _).2 (.inr hc))
  exact ⟨(hperm.map _).nodup_iff.2 hk.nodup, fun cf hcf => hk.lt cf (hperm.mem_iff.1 hcf),
    fun w hw f hf => hids f (hk.writers w hw f hf), fun g hg f hf => hids f (hk.group g hg f hf),
    fun cf hcf => hk.creating cf (List.mem_of_mem_eraseIdx hcf)⟩

/-- Every step keeps what is known. -/
theorem known_step (hk : Known s) {a : Action} (hstep : s.step fresh a = some s') : Known s' := by
  cases a with
  | write batch =>
    simp only [State.step] at hstep
    split at hstep
    · rename_i hcheck
      cases hstep
      refine hk.congr rfl rfl rfl (fun w hw f hf => ?_) hk.group
      rw [List.append_assoc, List.mem_append, List.singleton_append, List.mem_cons] at hw
      rcases hw with hw | rfl | hw
      · exact hk.writers w (List.mem_append_left _ hw) f hf
      · obtain ⟨cf, hfind⟩ := Option.isSome_iff_exists.1 (List.all_eq_true.1 hcheck f hf)
        obtain ⟨hcf, rfl⟩ := live?_some hfind
        exact List.mem_map_of_mem (mem_live.1 hcf).1
      · exact hk.writers w (List.mem_append_right _ hw) f hf
    · cases hstep
  | enqueue i =>
    obtain ⟨w, hw, rfl⟩ := Option.map_eq_some_iff.1 hstep
    refine hk.congr rfl rfl rfl (fun w' hw' => hk.writers w' ?_) hk.group
    rcases List.mem_append.1 hw' with hw' | hw'
    · exact List.mem_append_left _ (List.mem_of_mem_eraseIdx hw')
    · rcases List.mem_append.1 hw' with hw' | hw'
      · exact List.mem_append_right _ hw'
      · rw [List.mem_singleton.1 hw']
        exact List.mem_append_left _ (List.mem_of_getElem? hw)
  | waitForRoom =>
    obtain ⟨w, ws, s1, l1, v, l2, -, -, hroom, -, -, rfl⟩ := wait_cases hstep
    have hk1 := (aside_makeRoom hk hroom).known
    exact hk1.congr rfl rfl rfl hk1.writers hk1.group
  | capture n => exact known_capture hk hstep
  | insert growth =>
    obtain ⟨g, hg, -, rfl⟩ := insert_cases hstep
    refine hk.congr ?_ rfl rfl hk.writers fun g' hg' => ?_
    · rw [List.map_map]
      refine List.map_congr_left fun cf _ => ?_
      rw [Function.comp_apply]
      split
      · rfl
      · rfl
    · cases hg'
      exact hk.group g hg
  | close =>
    simp only [State.step] at hstep
    split at hstep
    swap
    · cases hstep
    split at hstep
    · cases hstep
      exact hk.congr rfl rfl rfl hk.writers nofun
    · cases hstep
  | compactMemTable family toLevel0 =>
    obtain ⟨cf, -, hstep⟩ := Option.bind_eq_some_iff.1 hstep
    split at hstep
    · cases hstep
      exact hk.congr (ids_modify fun _ => rfl) rfl rfl hk.writers hk.group
    · cases hstep
  | compact family files numbers =>
    obtain ⟨cf, -, hstep⟩ := Option.bind_eq_some_iff.1 hstep
    split at hstep
    · cases hstep
      exact hk.congr (ids_modify fun _ => rfl) rfl rfl hk.writers hk.group
    · cases hstep
  | createColumnFamily writeBufferSize =>
    simp only [State.step] at hstep
    split at hstep
    swap
    · cases hstep
    cases hstep
    refine ⟨?_, fun cf hcf => ?_, hk.writers, hk.group, fun cf hcf => ?_⟩
    · rw [← List.append_assoc, List.map_append, List.map_singleton, ← List.concat_eq_append]
      refine hk.nodup.concat fun hin => ?_
      obtain ⟨c, hc, heq⟩ := List.mem_map.1 hin
      exact (hk.lt c hc).ne heq
    · rw [← List.append_assoc, List.mem_append, List.mem_singleton] at hcf
      rcases hcf with hcf | rfl
      · exact (hk.lt cf hcf).trans (Nat.lt_succ_self _)
      · exact Nat.lt_succ_self _
    · rcases List.mem_append.1 hcf with hcf | hcf
      · exact hk.creating cf hcf
      · rw [List.mem_singleton.1 hcf]
  | commitColumnFamily i =>
    obtain ⟨new, hnew, rfl⟩ := Option.map_eq_some_iff.1 hstep
    exact known_commitColumnFamily hk hnew
  | dropColumnFamily family =>
    obtain ⟨cf, -, hstep⟩ := Option.bind_eq_some_iff.1 hstep
    split at hstep
    · cases hstep
      exact hk.congr (ids_modify fun _ => rfl) rfl rfl hk.writers hk.group
    · cases hstep

/-- A step with no group to be inserted after it. -/
theorem roomy_of_group (hgroup : s'.group = none)
    (hbefore : ∀ cf ∈ s'.live, cf.before ≤ cf.writeBufferSize) : Roomy s' := by
  refine ⟨fun g hg => ?_, hbefore⟩
  rw [hgroup] at hg
  cases hg

theorem roomy_commitColumnFamily (hk : Known s) (hr : Roomy s) {i : Nat} {new : ColumnFamily}
    (hnew : s.creating[i]? = some new) :
    Roomy { s with
      cfs := s.cfs.orderedInsert (fun a b => a.id ≤ b.id) new
      creating := s.creating.eraseIdx i } := by
  have hin : new ∈ s.creating := List.mem_of_getElem? hnew
  refine ⟨fun g hg hins cf hcf hf => ?_, fun cf hcf => ?_⟩
  · obtain ⟨hcf, hlive⟩ := mem_live.1 hcf
    rcases (List.mem_orderedInsert _).1 hcf with rfl | hcf
    · -- no batch is of a family that was under creation
      have hnodup := hk.nodup
      rw [List.map_append] at hnodup
      exact absurd (List.mem_map_of_mem hin)
        (List.disjoint_of_nodup_append hnodup (hk.group g hg _ hf))
    · exact hr.inserting g hg hins cf (mem_live.2 ⟨hcf, hlive⟩) hf
  · obtain ⟨hcf, hlive⟩ := mem_live.1 hcf
    rcases (List.mem_orderedInsert _).1 hcf with rfl | hcf
    · rw [hk.creating cf hin]
      exact Nat.zero_le _
    · exact hr.before cf (mem_live.2 ⟨hcf, hlive⟩)

/-- Every step keeps the memtables roomy, if the group's followers fit. -/
theorem roomy_step (hk : Known s) (hr : Roomy s) {a : Action} (hok : s.FollowersFit fresh a)
    (hstep : s.step fresh a = some s') : Roomy s' := by
  cases a with
  | write batch =>
    simp only [State.step] at hstep
    split at hstep
    · cases hstep
      exact ⟨hr.inserting, hr.before⟩
    · cases hstep
  | enqueue i =>
    obtain ⟨w, hw, rfl⟩ := Option.map_eq_some_iff.1 hstep
    exact ⟨hr.inserting, hr.before⟩
  | waitForRoom =>
    obtain ⟨w, ws, s1, l1, v, l2, hgroup, -, hroom, -, -, rfl⟩ := wait_cases hstep
    have hbefore := before_makeRoom hr.before hroom
    exact roomy_of_group ((aside_makeRoom hk hroom).group.trans hgroup) hbefore
  | capture n => exact (roomy_capture_iff hr hk hstep).2 hok
  | insert growth => exact roomy_insert hr hstep
  | close =>
    simp only [State.step] at hstep
    split at hstep
    swap
    · cases hstep
    split at hstep
    · cases hstep
      exact roomy_of_group rfl hr.before
    · cases hstep
  | compactMemTable family toLevel0 =>
    obtain ⟨cf, -, hstep⟩ := Option.bind_eq_some_iff.1 hstep
    split at hstep
    · cases hstep
      exact hr.modify rfl rfl fun c => ⟨rfl, rfl, rfl, fun hlive => ⟨rfl, hlive⟩⟩
    · cases hstep
  | compact family files numbers =>
    obtain ⟨cf, -, hstep⟩ := Option.bind_eq_some_iff.1 hstep
    split at hstep
    · cases hstep
      exact hr.modify rfl rfl fun c => ⟨rfl, rfl, rfl, fun hlive => ⟨rfl, hlive⟩⟩
    · cases hstep
  | createColumnFamily writeBufferSize =>
    simp only [State.step] at hstep
    split at hstep
    · cases hstep
      exact ⟨hr.inserting, hr.before⟩
    · cases hstep
  | commitColumnFamily i =>
    obtain ⟨new, hnew, rfl⟩ := Option.map_eq_some_iff.1 hstep
    exact roomy_commitColumnFamily hk hr hnew
  | dropColumnFamily family =>
    obtain ⟨cf, -, hstep⟩ := Option.bind_eq_some_iff.1 hstep
    split at hstep
    · cases hstep
      exact hr.modify rfl rfl fun c => ⟨rfl, rfl, rfl, nofun⟩
    · cases hstep

theorem known_init (hs : (system fresh).init s) : Known s := by
  obtain ⟨hopened, hnodup, -, hcreating, -, hchecked, hqueue, -, hgroup⟩ := hs
  refine ⟨?_, fun cf hcf => ?_, ?_, ?_, ?_⟩
  · rw [hcreating, List.append_nil]
    exact hnodup
  · rw [hcreating, List.append_nil] at hcf
    exact (hopened cf hcf).id
  · rw [hchecked, hqueue]
    exact nofun
  · rw [hgroup]
    exact nofun
  · rw [hcreating]
    exact nofun

theorem known_reachable (h : (system fresh).Reachable s) : Known s :=
  h.invariant (fun _ => known_init) fun _ _ _ hk hstep => known_step hk hstep

/-- **Each family a group touches has room**, in a run in which the families that the followers of a
leader bring have; and there each group is built so that they have exactly if it meets this. -/
theorem roomy_iff (h : (system fresh).ReachableBy (State.FollowersFit fresh) s) :
    Roomy s ∧ ∀ n s', (system fresh).step s (.capture n) = some s' →
      (Roomy s' ↔ s.FollowersFit fresh (.capture n)) := by
  have hroomy : Roomy s := by
    refine h.invariant_of (fun _ => known_reachable) (fun s hs => ?_)
      fun s a s' hk hr hok hstep => roomy_step hk hr hok hstep
    refine roomy_of_group hs.2.2.2.2.2.2.2.2 fun cf hcf => ?_
    rw [(hs.1 cf (mem_live.1 hcf).1).before]
    exact Nat.zero_le _
  exact ⟨hroomy, fun n s' hstep => roomy_capture_iff hroomy (known_reachable h.reachable) hstep⟩

end

/-! ## Two runs -/

/-- A new memtable of 4104 bytes, as `DB::Open` leaves a database with the default family. -/
def openedDefault : State where
  cfs := [⟨0, false, some 4104, 0, 3, false, 0, 3, 0, minWriteBufferSize⟩]
  creating := []
  nextFamilyId := 1
  logfileNumber := 3
  nextFileNumber := 4
  checked := []
  queue := []
  leader := none
  group := none
  switches := 0

theorem init_openedDefault : (system 4104).init openedDefault := by
  refine ⟨fun cf hcf => ?_, by decide, by decide, rfl, by decide, rfl, rfl, rfl, rfl⟩
  rw [List.mem_singleton.1 hcf]
  exact ⟨rfl, ⟨_, rfl, le_rfl⟩, rfl, rfl, rfl, rfl, by decide, le_rfl⟩

/-- A batch of family 1 follows one of the default family, and fills the memtable. -/
def followerRun : List Action :=
  [.createColumnFamily minWriteBufferSize, .commitColumnFamily 0, .write (some [0]),
    .write (some [1]), .enqueue 0, .enqueue 0, .capture 1, .insert fun _ => 2 ^ 16, .close]

theorem roomy_iff_followerRun : ∃ s s',
    (system 4104).runBy (State.FollowersFit 4104) openedDefault
      (followerRun ++ [.write (some [1]), .enqueue 0]) = some s ∧
    (system 4104).step s (.capture 0) = some s' ∧ s'.switches = 1 ∧ Roomy s ∧ Roomy s' := by
  have hrun : ((system 4104).runBy (State.FollowersFit 4104) openedDefault
      (followerRun ++ [.write (some [1]), .enqueue 0])).any (fun s =>
        ((system 4104).step s (.capture 0)).any fun s' =>
          s'.switches = 1 && decide (s.FollowersFit 4104 (.capture 0))) = true := by decide +kernel
  obtain ⟨s, hs, hany⟩ := (Option.any_eq_true _ _).1 hrun
  obtain ⟨s', hs', hall⟩ := (Option.any_eq_true _ _).1 hany
  simp only [Bool.and_eq_true, decide_eq_true_eq] at hall
  have hinit : (system 4104).ReachableBy (State.FollowersFit 4104) openedDefault :=
    .init init_openedDefault
  obtain ⟨hroomy, hiff⟩ := roomy_iff (hinit.runBy hs)
  exact ⟨s, s', hs, hs', hall.1, hroomy, (hiff 0 s' hs').2 hall.2⟩

/-- **A follower's family is over its limit already**: no room is made for it. -/
theorem not_roomy : ¬ ∀ s, (system 4104).Reachable s → Roomy s := by
  intro hall
  have hrun : ((system 4104).run openedDefault (followerRun ++ [.write (some [0]),
      .write (some [1]), .enqueue 0, .enqueue 0, .capture 1])).any (fun s =>
        s.group.any fun g => !g.inserted && s.live.any fun cf =>
          decide (cf.id ∈ g.families) && cf.overflows) = true := by decide +kernel
  obtain ⟨s, hs, hany⟩ := (Option.any_eq_true _ _).1 hrun
  obtain ⟨g, hg, hany⟩ := (Option.any_eq_true _ _).1 hany
  rw [Bool.and_eq_true, List.any_eq_true, Bool.not_eq_true'] at hany
  obtain ⟨hins, cf, hcf, hover⟩ := hany
  rw [Bool.and_eq_true, decide_eq_true_eq] at hover
  have hinit : (system 4104).Reachable openedDefault := .init init_openedDefault
  have hfits := (hall s (hinit.run hs)).inserting g hg hins cf hcf hover.1
  rw [hover.2] at hfits
  cases hfits

end LevelDb.Room
