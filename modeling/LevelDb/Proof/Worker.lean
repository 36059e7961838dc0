import LevelDb.Db.Worker
import LevelDb.Proof.PickCompaction
import LevelDb.Proof.Switch

/-!
# Which family `CompactRange` compacts

The caller and the worker, step by step (`Stepped`). `TEST_CompactMemTable` and `TEST_CompactRange`
work on the default family, whatever family the call is for: every manual compaction of the call is
served there, and at least one is (`serving_reachable`). So the call does what it should for the
default family only (`owns_iff`).
-/

namespace LevelDb.Worker

open Transition

variable {K V : Type} [LinearOrder K] {fresh family : Nat} {s s' : State K V} {cf : ColumnFamily K V}

/-! ## Families by id -/

theorem live?_some {f : Nat} (h : s.live? f = some cf) : cf ∈ s.cfs ∧ cf.id = f ∧ cf.dropped = false := by
  have hsome := List.find?_some h
  simp only [Bool.decide_and, Bool.and_eq_true, decide_eq_true_eq] at hsome
  exact ⟨List.mem_of_find?_eq_some h, hsome⟩

theorem mem_live : cf ∈ s.live ↔ cf ∈ s.cfs ∧ cf.dropped = false := by
  simp [State.live]

theorem mem_set {f : Nat} {cf' c : ColumnFamily K V} (h : c ∈ (s.set f cf').cfs) :
    c = cf' ∨ c ∈ s.cfs ∧ c.id ≠ f := by
  obtain ⟨c0, hc0, rfl⟩ := List.mem_map.1 h
  by_cases hid : c0.id = f
  · simp [hid]
  · simp [hid, hc0]

theorem ids_set {cf' : ColumnFamily K V} (hid : cf'.id = cf.id) :
    (s.set cf.id cf').cfs.map (·.id) = s.cfs.map (·.id) := by
  simp only [State.set, List.map_map]
  refine List.map_congr_left fun c _ => ?_
  by_cases h : c.id = cf.id
  · simp [h, hid]
  · simp [h]

/-! ## Steps -/

section
variable [Inhabited V]

/-- What the caller and the worker can do. -/
inductive Stepped (fresh : Nat) (s : State K V) : Action K V → State K V → Prop
  | switchMemTable {l : Room.Leader} {family : Nat} {s1 : State K V} :
      s.caller = .makeRoom l → s.room.verdict [] l = .switchMemTable family →
      s.switchMemTable fresh family = some s1 →
      Stepped fresh s .turn { s1 with caller := .makeRoom { l with force := false } }
  | room {l : Room.Leader} : s.caller = .makeRoom l → s.room.verdict [] l = .room →
      Stepped fresh s .turn { s with caller := .waitForFlush }
  | flushed {cf : ColumnFamily K V} : s.caller = .waitForFlush → s.live? 0 = some cf →
      cf.store.imm = none → 0 < s.maxLevelWithFiles →
      Stepped fresh s .turn (s.testCompactRange 0)
  | next : s.caller = .compactRange → s.manual.done = true →
      s.manual.level + 1 < s.maxLevelWithFiles →
      Stepped fresh s .turn (s.testCompactRange (s.manual.level + 1))
  | returned : (s.caller = .waitForFlush ∧ s.maxLevelWithFiles = 0 ∨
        s.caller = .compactRange ∧ s.manual.done = true ∧
          s.maxLevelWithFiles ≤ s.manual.level + 1) →
      Stepped fresh s .turn { s with caller := .returned }
  | ask {cf : ColumnFamily K V} : s.caller = .compactRange → s.manual.done = false →
      s.live? 0 = some cf → cf.manual = false →
      Stepped fresh s .turn (s.set 0 { cf with manual := true })
  | compactMemTable {family fileSize : Nat} {cf : ColumnFamily K V} {store : Family K V} :
      s.live? family = some cf →
      Family.step cf.options cf.store (.compactMemTable fileSize) = some store →
      Stepped fresh s (.compactMemTable family fileSize)
        (s.set family { cf with store, logNumber := cf.memLogNumber })
  | nothing {cf : ColumnFamily K V} : s.working = none → (∀ c ∈ s.live, c.store.imm = none) →
      cf ∈ s.live → cf.manual = true →
      cf.store.current.compactRange cf.options s.manual.level s.manual.begin_ s.manual.end_ = none →
      Stepped fresh s .compactManually
        { s.set cf.id { cf with manual := false } with
          manual := { s.manual with done := true }, served := s.served ++ [cf.id] }
  | startManually {cf : ColumnFamily K V} {c : PickedCompaction K V} {s1 : State K V} :
      s.working = none → (∀ c ∈ s.live, c.store.imm = none) → cf ∈ s.live → cf.manual = true →
      cf.store.current.compactRange cf.options s.manual.level s.manual.begin_ s.manual.end_ =
        some c →
      s.start cf c (c.inputs0.getLast?.map (·.largest)) = some s1 →
      Stepped fresh s .compactManually { s1 with served := s.served ++ [cf.id] }
  | move {family : Nat} {cf : ColumnFamily K V} {c : PickedCompaction K V} {f : FileMetaData K V}
      {store : Family K V} : s.working = none → s.live? family = some cf →
      cf.needsCompaction = true →
      cf.store.current.pickCompaction cf.options cf.compactPointer
        (cf.triggers cf.store.current) = some c →
      c.inputs0.head? = some f →
      Family.step cf.options cf.store (.trivialMove c.level f.number) = some store →
      Stepped fresh s (.compact family) (s.set family { cf with
        store, compactPointer := Function.update cf.compactPointer c.level c.compactPointer })
  | start {family : Nat} {cf : ColumnFamily K V} {c : PickedCompaction K V} {s1 : State K V} :
      s.working = none → s.live? family = some cf → cf.needsCompaction = true →
      cf.store.current.pickCompaction cf.options cf.compactPointer
        (cf.triggers cf.store.current) = some c →
      s.start cf c none = some s1 → Stepped fresh s (.compact family) s1
  | install {shouldStopBefore : List (InternalKey K) → Bool} {fileFull : List (Entry K V) → Bool}
      {sizes : Nat → Nat} {w : Working K} {cf : ColumnFamily K V} {store : Family K V} :
      s.working = some w → s.live? w.family = some cf →
      Family.step cf.options cf.store (.install shouldStopBefore fileFull sizes) = some store →
      w.manualEnd = none →
      Stepped fresh s (.install shouldStopBefore fileFull sizes)
        { s.set cf.id { cf with store } with working := none }
  | installManual {shouldStopBefore : List (InternalKey K) → Bool}
      {fileFull : List (Entry K V) → Bool} {sizes : Nat → Nat} {w : Working K}
      {cf : ColumnFamily K V} {store : Family K V} {k : InternalKey K} :
      s.working = some w → s.live? w.family = some cf →
      Family.step cf.options cf.store (.install shouldStopBefore fileFull sizes) = some store →
      w.manualEnd = some k →
      Stepped fresh s (.install shouldStopBefore fileFull sizes)
        { s.set cf.id { cf with store, manual := false } with
          working := none, manual := { s.manual with begin_ := some k } }

theorem stepped_of_turn (h : s.turn fresh = some s') : Stepped fresh s .turn s' := by
  unfold State.turn at h
  split at h
  · rename_i l hcaller
    split at h
    · rename_i f hverdict
      obtain ⟨s1, hswitch, rfl⟩ := Option.map_eq_some_iff.1 h
      exact .switchMemTable hcaller hverdict hswitch
    · rename_i hverdict
      cases h
      exact .room hcaller hverdict
    · cases h
  · rename_i hcaller
    obtain ⟨cf, hcf, h⟩ := Option.bind_eq_some_iff.1 h
    split at h
    · rename_i himm
      split at h
      · rename_i hlevels
        cases h
        exact .flushed hcaller hcf (Option.isNone_iff_eq_none.1 himm) hlevels
      · cases h
        exact .returned (.inl ⟨hcaller, by omega⟩)
    · cases h
  · rename_i hcaller
    split at h
    · rename_i hdone
      split at h
      · rename_i hlevels
        cases h
        exact .next hcaller hdone hlevels
      · cases h
        exact .returned (.inr ⟨hcaller, hdone, by omega⟩)
    · rename_i hdone
      obtain ⟨cf, hcf, h⟩ := Option.bind_eq_some_iff.1 h
      split at h
      · cases h
      · rename_i hslot
        cases h
        exact .ask hcaller (Bool.not_eq_true _ ▸ hdone) hcf (Bool.not_eq_true _ ▸ hslot)
  · cases h

theorem stepped_of_compactManually (h : s.compactManually = some s') :
    Stepped fresh s .compactManually s' := by
  unfold State.compactManually at h
  split at h
  · rename_i hcond
    obtain ⟨hworking, himm⟩ := hcond
    simp only [Option.isNone_iff_eq_none] at hworking himm
    obtain ⟨cf, hcf, h⟩ := Option.bind_eq_some_iff.1 h
    have hmanual : cf.manual = true := by simpa using List.find?_some hcf
    have hmem := List.mem_of_find?_eq_some hcf
    dsimp only at h
    split at h
    · rename_i hnone
      cases h
      exact .nothing hworking himm hmem hmanual hnone
    · rename_i c hc
      obtain ⟨store, hstore, rfl⟩ := Option.map_eq_some_iff.1 h
      have hstart : s.start cf c (c.inputs0.getLast?.map (·.largest)) = some _ :=
        Option.map_eq_some_iff.2 ⟨store, hstore, rfl⟩
      exact .startManually hworking himm hmem hmanual hc hstart
  · cases h

theorem stepped_of_compact (h : s.compact family = some s') :
    Stepped fresh s (.compact family) s' := by
  unfold State.compact at h
  split at h
  · rename_i hcond
    have hworking := Option.isNone_iff_eq_none.1 hcond.1
    obtain ⟨cf, hcf, h⟩ := Option.bind_eq_some_iff.1 h
    split at h
    · rename_i hneeds
      obtain ⟨c, hc, h⟩ := Option.bind_eq_some_iff.1 h
      split at h
      · obtain ⟨f, hf, h⟩ := Option.bind_eq_some_iff.1 h
        obtain ⟨store, hstore, rfl⟩ := Option.map_eq_some_iff.1 h
        exact .move hworking hcf hneeds hc hf hstore
      · exact .start hworking hcf hneeds hc h
    · cases h
  · cases h

theorem stepped_of_install {shouldStopBefore : List (InternalKey K) → Bool}
    {fileFull : List (Entry K V) → Bool} {sizes : Nat → Nat}
    (h : s.install shouldStopBefore fileFull sizes = some s') :
    Stepped fresh s (.install shouldStopBefore fileFull sizes) s' := by
  obtain ⟨w, hw, h⟩ := Option.bind_eq_some_iff.1 h
  obtain ⟨cf, hcf, h⟩ := Option.bind_eq_some_iff.1 h
  obtain ⟨store, hstore, rfl⟩ := Option.map_eq_some_iff.1 h
  split
  · rename_i hend
    exact .install hw hcf hstore hend
  · rename_i k hend
    exact .installManual hw hcf hstore hend

theorem stepped_of_step {a : Action K V} (h : s.step fresh a = some s') : Stepped fresh s a s' := by
  cases a with
  | turn => exact stepped_of_turn h
  | compactMemTable family fileSize =>
    obtain ⟨cf, hcf, h⟩ := Option.bind_eq_some_iff.1 h
    obtain ⟨store, hstore, rfl⟩ := Option.map_eq_some_iff.1 h
    exact .compactMemTable hcf hstore
  | compactManually => exact stepped_of_compactManually h
  | compact family => exact stepped_of_compact h
  | install shouldStopBefore fileFull sizes => exact stepped_of_install h

theorem switchMemTable_some {f : Nat} (h : s.switchMemTable fresh f = some s') :
    ∃ dflt s1 cf store, s.live? 0 = some dflt ∧
      s1 = { s.set 0 { dflt with store := { dflt.store with
        nextFileNumber := dflt.store.nextFileNumber + 1 } } with
        logfileNumber := dflt.store.nextFileNumber } ∧
      s1.live? f = some cf ∧ Family.step cf.options cf.store .switchMemTable = some store ∧
      s' = s1.set f { cf with
        store, usage := fresh, immLogNumber := cf.memLogNumber
        memLogNumber := s1.logfileNumber } := by
  obtain ⟨s1, hlog, h⟩ := Option.bind_eq_some_iff.1 h
  obtain ⟨dflt, hdflt, rfl⟩ := Option.map_eq_some_iff.1 hlog
  obtain ⟨cf, hcf, h⟩ := Option.bind_eq_some_iff.1 h
  obtain ⟨store, hstore, rfl⟩ := Option.map_eq_some_iff.1 h
  exact ⟨dflt, _, cf, store, hdflt, rfl, hcf, hstore, rfl⟩

theorem start_some {c : PickedCompaction K V} {manualEnd : Option (InternalKey K)}
    (h : s.start cf c manualEnd = some s') :
    ∃ store pointer, Family.step cf.options cf.store (.pick c.level (c.inputs0.map (·.number))
        (c.inputs1.map (·.number)) s.snapshots) = some store ∧
      s' = { s.set cf.id { cf with store, compactPointer := pointer } with
        working := some ⟨cf.id, manualEnd⟩ } := by
  obtain ⟨store, hstore, rfl⟩ := Option.map_eq_some_iff.1 h
  exact ⟨store, _, hstore, rfl⟩

/-! ## The families -/

/-- The families stay, and only the default one has the slot set. -/
structure Serving (s : State K V) : Prop where
  nodup : (s.cfs.map (·.id)).Nodup
  default : ∃ cf ∈ s.live, cf.id = 0
  slot : ∀ cf ∈ s.cfs, cf.manual = true → cf.id = 0
  levels : 0 < s.maxLevelWithFiles

omit [Inhabited V] in
theorem Serving.of_cfs (h : Serving s) (hcfs : s'.cfs = s.cfs)
    (hlevels : s'.maxLevelWithFiles = s.maxLevelWithFiles) : Serving s' := by
  obtain ⟨h1, h2, h3, h4⟩ := h
  refine ⟨by rwa [hcfs], ?_, by rwa [hcfs], by rwa [hlevels]⟩
  rwa [State.live, hcfs]

omit [Inhabited V] in
theorem Serving.eq_of_id (h : Serving s) {c : ColumnFamily K V} (hcf : cf ∈ s.cfs) (hc : c ∈ s.cfs)
    (hid : cf.id = c.id) : cf = c :=
  List.inj_on_of_nodup_map h.nodup hcf hc hid

omit [Inhabited V] in
/-- A family changes, but not its id. -/
theorem Serving.of_set (h : Serving s) {f : Nat} {cf' : ColumnFamily K V} (hcf : cf ∈ s.cfs)
    (hf : cf.id = f) (hcfs : s'.cfs = (s.set f cf').cfs) (hid : cf'.id = cf.id)
    (hdropped : cf'.dropped = cf.dropped) (hslot : cf'.manual = true → cf.manual = true ∨ cf.id = 0)
    (hlevels : s'.maxLevelWithFiles = s.maxLevelWithFiles) : Serving s' := by
  subst hf
  refine ⟨?_, ?_, ?_, hlevels ▸ h.levels⟩
  · rw [hcfs, ids_set hid]
    exact h.nodup
  · obtain ⟨dflt, hdflt, hzero⟩ := h.default
    obtain ⟨hmem, hlive⟩ := mem_live.1 hdflt
    by_cases heq : dflt.id = cf.id
    · refine ⟨cf', mem_live.2 ⟨?_, ?_⟩, by omega⟩
      · rw [hcfs]
        exact List.mem_map.2 ⟨cf, hcf, by simp⟩
      · rw [hdropped, h.eq_of_id hcf hmem heq.symm, hlive]
    · refine ⟨dflt, mem_live.2 ⟨?_, hlive⟩, hzero⟩
      rw [hcfs]
      exact List.mem_map.2 ⟨dflt, hmem, by simp [heq]⟩
  · intro c hc hmanual
    rw [hcfs] at hc
    rcases mem_set hc with rfl | ⟨hc, -⟩
    · rcases hslot hmanual with hset | hzero
      · rw [hid]
        exact h.slot cf hcf hset
      · rw [hid, hzero]
    · exact h.slot c hc hmanual

theorem Serving.switchMemTable (h : Serving s) {f : Nat}
    (hswitch : s.switchMemTable fresh f = some s') : Serving s' := by
  obtain ⟨dflt, s1, cf, store, hdflt, hs1, hcf, -, rfl⟩ := switchMemTable_some hswitch
  obtain ⟨hmem, hzero, -⟩ := live?_some hdflt
  have h1 : Serving s1 := by
    subst hs1
    exact h.of_set hmem hzero rfl rfl rfl (fun hset => .inl hset) rfl
  obtain ⟨hmem1, hf, -⟩ := live?_some hcf
  exact h1.of_set hmem1 hf rfl rfl rfl (fun hset => .inl hset) rfl

/-- **One step** keeps the families. -/
theorem Serving.step (h : Serving s) {a : Action K V} (hstep : Stepped fresh s a s') : Serving s' := by
  cases hstep with
  | switchMemTable _ _ hswitch => exact (h.switchMemTable hswitch).of_cfs rfl rfl
  | room => exact h.of_cfs rfl rfl
  | flushed => exact h.of_cfs rfl rfl
  | next => exact h.of_cfs rfl rfl
  | returned => exact h.of_cfs rfl rfl
  | ask _ _ hcf =>
    obtain ⟨hmem, hzero, -⟩ := live?_some hcf
    exact h.of_set hmem hzero rfl rfl rfl (fun _ => .inr hzero) rfl
  | compactMemTable hcf =>
    obtain ⟨hmem, hf, -⟩ := live?_some hcf
    exact h.of_set hmem hf rfl rfl rfl (fun hset => .inl hset) rfl
  | nothing _ _ hcf => exact h.of_set (mem_live.1 hcf).1 rfl rfl rfl rfl nofun rfl
  | startManually _ _ hcf _ _ hstart =>
    obtain ⟨store, pointer, -, rfl⟩ := start_some hstart
    exact h.of_set (mem_live.1 hcf).1 rfl rfl rfl rfl (fun hset => .inl hset) rfl
  | move _ hcf =>
    obtain ⟨hmem, hf, -⟩ := live?_some hcf
    exact h.of_set hmem hf rfl rfl rfl (fun hset => .inl hset) rfl
  | start _ hcf _ _ hstart =>
    obtain ⟨store, pointer, -, rfl⟩ := start_some hstart
    exact h.of_set (live?_some hcf).1 rfl rfl rfl rfl (fun hset => .inl hset) rfl
  | install _ hcf => exact h.of_set (live?_some hcf).1 rfl rfl rfl rfl (fun hset => .inl hset) rfl
  | installManual _ hcf => exact h.of_set (live?_some hcf).1 rfl rfl rfl rfl nofun rfl

/-! ## What is asked for -/

/-- Every manual compaction was served in the default family; past the first level, one was. -/
structure Served (s : State K V) : Prop where
  default : ∀ id ∈ s.served, id = 0
  returned : s.caller = .returned → s.served ≠ []
  past : s.caller = .compactRange → s.manual.done = true ∨ 0 < s.manual.level → s.served ≠ []

omit [Inhabited V] in
theorem Served.congr (h : Served s) (hserved : s'.served = s.served) (hcaller : s'.caller = s.caller)
    (hlevel : s'.manual.level = s.manual.level) (hdone : s'.manual.done = s.manual.done) :
    Served s' := by
  obtain ⟨h1, h2, h3⟩ := h
  exact ⟨by rwa [hserved], by rwa [hserved, hcaller], by rwa [hserved, hcaller, hlevel, hdone]⟩

omit [Inhabited V] in
theorem Served.concat (h : Served s) (hzero : cf.id = 0) (hserved : s'.served = s.served ++ [cf.id]) :
    Served s' := by
  have hne : s'.served ≠ [] := by simp [hserved]
  refine ⟨fun id hid => ?_, fun _ => hne, fun _ _ => hne⟩
  rw [hserved] at hid
  rcases List.mem_append.1 hid with hid | hid
  · exact h.default id hid
  · rw [List.mem_singleton.1 hid, hzero]

theorem switchMemTable_served {f : Nat} (h : s.switchMemTable fresh f = some s') :
    s'.served = s.served := by
  obtain ⟨dflt, s1, cf, store, -, rfl, -, -, rfl⟩ := switchMemTable_some h
  rfl

theorem Served.step (hs : Serving s) (h : Served s) {a : Action K V} (hstep : Stepped fresh s a s') :
    Served s' := by
  cases hstep with
  | switchMemTable _ _ hswitch =>
    have hserved := switchMemTable_served hswitch
    exact ⟨fun id hid => h.default id (hserved ▸ hid), nofun, nofun⟩
  | room => exact ⟨h.default, nofun, nofun⟩
  | flushed => exact ⟨h.default, nofun, fun _ hpast => by simp [State.testCompactRange] at hpast⟩
  | next hcaller hdone => exact ⟨h.default, nofun, fun _ _ => h.past hcaller (.inl hdone)⟩
  | returned hend =>
    refine ⟨h.default, fun _ => ?_, nofun⟩
    rcases hend with ⟨-, hlevels⟩ | ⟨hcaller, hdone, -⟩
    · exact absurd hs.levels (by omega)
    · exact h.past hcaller (.inl hdone)
  | nothing _ _ hcf hmanual => exact h.concat (hs.slot _ (mem_live.1 hcf).1 hmanual) rfl
  | startManually _ _ hcf hmanual _ hstart =>
    obtain ⟨store, pointer, -, rfl⟩ := start_some hstart
    exact h.concat (hs.slot _ (mem_live.1 hcf).1 hmanual) rfl
  | start _ _ _ _ hstart =>
    obtain ⟨store, pointer, -, rfl⟩ := start_some hstart
    exact h.congr rfl rfl rfl rfl
  | ask | compactMemTable | move | install | installManual => exact h.congr rfl rfl rfl rfl

/-! ## The memtables -/

theorem step_switchMemTable {opts : Options K V} {f f' : Family K V}
    (h : Family.step opts f .switchMemTable = some f') : f'.mem = [] := by
  simp only [Family.step] at h
  split at h
  · cases h
    rfl
  · cases h

theorem step_compactMemTable {opts : Options K V} {f f' : Family K V} {fileSize : Nat}
    (h : Family.step opts f (.compactMemTable fileSize) = some f') :
    f.imm.isSome = true ∧ f'.mem = f.mem ∧ f'.imm = none := by
  obtain ⟨imm, himm, rfl⟩ := Option.map_eq_some_iff.1 h
  simp [himm]

theorem step_pick {opts : Options K V} {f f' : Family K V} {level : Nat} {inputs0 inputs1 snapshots}
    (h : Family.step opts f (.pick level inputs0 inputs1 snapshots) = some f') :
    f'.mem = f.mem ∧ f'.imm = f.imm := by
  simp only [Family.step] at h
  split at h
  · cases h
    exact ⟨rfl, rfl⟩
  · cases h

theorem step_install {opts : Options K V} {f f' : Family K V} {shouldStopBefore fileFull sizes}
    (h : Family.step opts f (.install shouldStopBefore fileFull sizes) = some f') :
    f'.mem = f.mem ∧ f'.imm = f.imm := by
  obtain ⟨r, -, h⟩ := Option.bind_eq_some_iff.1 h
  obtain ⟨outputs, -, rfl⟩ := Option.map_eq_some_iff.1 h
  exact ⟨rfl, rfl⟩

theorem step_trivialMove {opts : Options K V} {f f' : Family K V} {level number : Nat}
    (h : Family.step opts f (.trivialMove level number) = some f') :
    f'.mem = f.mem ∧ f'.imm = f.imm := by
  simp only [Family.step] at h
  split at h
  · split at h
    · cases h
      exact ⟨rfl, rfl⟩
    · cases h
  · cases h

/-- The memtables of `c` are those of `c0`, but for a flush. -/
structure Kept (c0 c : ColumnFamily K V) : Prop where
  id : c.id = c0.id
  dropped : c.dropped = c0.dropped
  mem : c.store.mem = c0.store.mem
  imm : c.store.imm = c0.store.imm ∨ c.store.imm = none

omit [Inhabited V] in
theorem Kept.refl (c : ColumnFamily K V) : Kept c c := ⟨rfl, rfl, rfl, .inl rfl⟩

omit [Inhabited V] in
theorem kept_set {cf' c : ColumnFamily K V} {f : Nat} (hcf : cf ∈ s.cfs)
    (hc : c ∈ (s.set f cf').cfs) (hkept : Kept cf cf') : ∃ c0 ∈ s.cfs, Kept c0 c := by
  rcases mem_set hc with rfl | ⟨hc, -⟩
  · exact ⟨cf, hcf, hkept⟩
  · exact ⟨c, hc, Kept.refl c⟩

theorem switchMemTable_kept {f : Nat} (h : s.switchMemTable fresh f = some s')
    {c : ColumnFamily K V} (hc : c ∈ s'.cfs) :
    (∃ c0 ∈ s.cfs, Kept c0 c) ∨ c.id = f ∧ c.store.mem = [] := by
  obtain ⟨dflt, s1, cf, store, hdflt, rfl, hcf, hstore, rfl⟩ := switchMemTable_some h
  rcases mem_set hc with rfl | ⟨hc, -⟩
  · exact .inr ⟨(live?_some hcf).2.1, step_switchMemTable hstore⟩
  · exact .inl (kept_set (live?_some hdflt).1 hc ⟨rfl, rfl, rfl, .inl rfl⟩)

/-- **Only `MakeRoomForWrite` gives a family a new memtable.** -/
theorem Stepped.kept {a : Action K V} (hstep : Stepped fresh s a s') {c : ColumnFamily K V}
    (hc : c ∈ s'.cfs) : (∃ c0 ∈ s.cfs, Kept c0 c) ∨
      ∃ l, a = .turn ∧ s.caller = .makeRoom l ∧ s.room.verdict [] l = .switchMemTable c.id ∧
        c.store.mem = [] := by
  cases hstep with
  | @switchMemTable l _ _ hcaller hverdict hswitch =>
    rcases switchMemTable_kept hswitch hc with h | ⟨hid, hmem⟩
    · exact .inl h
    · exact .inr ⟨l, rfl, hcaller, hid ▸ hverdict, hmem⟩
  | room | flushed | next | returned => exact .inl ⟨c, hc, Kept.refl c⟩
  | ask _ _ hcf => exact .inl (kept_set (live?_some hcf).1 hc ⟨rfl, rfl, rfl, .inl rfl⟩)
  | compactMemTable hcf hstore =>
    obtain ⟨-, hmem, himm⟩ := step_compactMemTable hstore
    exact .inl (kept_set (live?_some hcf).1 hc ⟨rfl, rfl, hmem, .inr himm⟩)
  | nothing _ _ hcf => exact .inl (kept_set (mem_live.1 hcf).1 hc ⟨rfl, rfl, rfl, .inl rfl⟩)
  | startManually _ _ hcf _ _ hstart =>
    obtain ⟨store, pointer, hstore, rfl⟩ := start_some hstart
    obtain ⟨hmem, himm⟩ := step_pick hstore
    exact .inl (kept_set (mem_live.1 hcf).1 hc ⟨rfl, rfl, hmem, .inl himm⟩)
  | move _ hcf _ _ _ hstore =>
    obtain ⟨hmem, himm⟩ := step_trivialMove hstore
    exact .inl (kept_set (live?_some hcf).1 hc ⟨rfl, rfl, hmem, .inl himm⟩)
  | start _ hcf _ _ hstart =>
    obtain ⟨store, pointer, hstore, rfl⟩ := start_some hstart
    obtain ⟨hmem, himm⟩ := step_pick hstore
    exact .inl (kept_set (live?_some hcf).1 hc ⟨rfl, rfl, hmem, .inl himm⟩)
  | install _ hcf hstore =>
    obtain ⟨hmem, himm⟩ := step_install hstore
    exact .inl (kept_set (live?_some hcf).1 hc ⟨rfl, rfl, hmem, .inl himm⟩)
  | installManual _ hcf hstore =>
    obtain ⟨hmem, himm⟩ := step_install hstore
    exact .inl (kept_set (live?_some hcf).1 hc ⟨rfl, rfl, hmem, .inl himm⟩)

/-- Only the caller's turns move the caller on. -/
theorem Stepped.caller {a : Action K V} (hstep : Stepped fresh s a s') (ha : a ≠ .turn) :
    s'.caller = s.caller := by
  cases hstep with
  | switchMemTable | room | flushed | next | returned | ask => exact absurd rfl ha
  | startManually _ _ _ _ _ hstart =>
    obtain ⟨store, pointer, -, rfl⟩ := start_some hstart
    rfl
  | start _ _ _ _ hstart =>
    obtain ⟨store, pointer, -, rfl⟩ := start_some hstart
    rfl
  | compactMemTable | nothing | move | install | installManual => rfl

omit [Inhabited V] in
/-- Where no other family lags behind, only the default one is switched. -/
theorem switches_default {l : Room.Leader} {f : Nat} (hnone : s.NoneLags .turn)
    (hcaller : s.caller = .makeRoom l) (hverdict : s.room.verdict [] l = .switchMemTable f) :
    f = 0 := by
  obtain ⟨c, hc, hid, hwants, -, himm, -⟩ := Room.switch_of_verdict hverdict
  obtain ⟨hc, hlive⟩ := List.mem_filter.1 hc
  obtain ⟨cf, hcf, rfl⟩ := List.mem_map.1 hc
  simp only [State.NoneLags, hcaller] at hnone
  simp only [Room.State.wants, List.not_mem_nil, false_or, decide_eq_true_eq] at hwants
  by_contra hne
  have hne' : cf.id ≠ 0 := fun hzero => hne (hid.symm.trans hzero)
  have himm' : cf.store.imm.isNone = true := by
    have : cf.store.imm.isSome = false := himm
    simpa using this
  rcases hwants with ⟨-, hzero⟩ | ⟨-, hlags⟩
  · exact hne' hzero
  · have := hnone cf (mem_live.2 ⟨hcf, of_decide_eq_true hlive⟩) hne' himm'
    simp [this] at hlags

omit [Inhabited V] in
/-- A flush that is forced does not find room. -/
theorem not_room_of_force (hs : Serving s) {l : Room.Leader} (hforce : l.force = true) :
    s.room.verdict [] l ≠ .room := by
  intro hroom
  obtain ⟨dflt, hdflt, hzero⟩ := hs.default
  obtain ⟨hmem, hlive⟩ := mem_live.1 hdflt
  have hlive' : dflt.room ∈ s.room.live :=
    List.mem_filter.2 ⟨List.mem_map_of_mem hmem, decide_eq_true hlive⟩
  have hfull := Room.full_of_room hroom hlive' (by
    simp [Room.State.wants, hforce, show dflt.room.id = 0 from hzero])
  simp [Room.State.full, hforce, show dflt.room.id = 0 from hzero] at hfull

/-- How far the call is with the memtables of the default family. -/
structure Flushed (s : State K V) : Prop where
  mem : (∃ l, s.caller = .makeRoom l ∧ l.force = true) ∨
    ∀ cf ∈ s.cfs, cf.id = 0 → cf.store.mem = []
  imm : s.caller = .compactRange ∨ s.caller = .returned →
    ∀ cf ∈ s.cfs, cf.id = 0 → cf.store.imm = none

/-- What was flushed stays so, as the caller is in `MakeRoomForWrite` no more. -/
theorem Flushed.of_kept (h : Flushed s) {a : Action K V} (hstep : Stepped fresh s a s')
    (hcaller : s'.caller = s.caller ∨
      (∀ l, s.caller ≠ .makeRoom l) ∧ (s.caller = .compactRange ∨ s.caller = .returned ∨
        ∀ cf ∈ s.cfs, cf.id = 0 → cf.store.imm = none)) : Flushed s' := by
  have hmem : (∀ cf ∈ s.cfs, cf.id = 0 → cf.store.mem = []) →
      ∀ c ∈ s'.cfs, c.id = 0 → c.store.mem = [] := by
    intro hall c hc hzero
    rcases hstep.kept hc with ⟨c0, hc0, hkept⟩ | ⟨_, _, _, _, hmem⟩
    · rw [hkept.mem]
      exact hall c0 hc0 (hkept.id.symm.trans hzero)
    · exact hmem
  have himm : (∀ l, s.caller ≠ .makeRoom l) → (∀ cf ∈ s.cfs, cf.id = 0 → cf.store.imm = none) →
      ∀ c ∈ s'.cfs, c.id = 0 → c.store.imm = none := by
    intro hout hall c hc hzero
    rcases hstep.kept hc with ⟨c0, hc0, hkept⟩ | ⟨l, _, hl, _⟩
    · rcases hkept.imm with heq | hnone
      · rw [heq]
        exact hall c0 hc0 (hkept.id.symm.trans hzero)
      · exact hnone
    · exact absurd hl (hout l)
  rcases hcaller with hsame | ⟨hout, hpast⟩
  · refine ⟨?_, fun hpast => ?_⟩
    · rw [hsame]
      exact h.mem.imp_right hmem
    · rw [hsame] at hpast
      refine himm (fun l hl => ?_) (h.imm hpast)
      rw [hl] at hpast
      rcases hpast with hpast | hpast <;> cases hpast
  · refine ⟨.inr (hmem (h.mem.resolve_left fun ⟨l, hl, _⟩ => hout l hl)), fun _ => himm hout ?_⟩
    rcases hpast with hpast | hpast | hall
    · exact h.imm (.inl hpast)
    · exact h.imm (.inr hpast)
    · exact hall

/-- **One step** where no other family lags behind. -/
theorem Flushed.step (hs : Serving s) (h : Flushed s) {a : Action K V} (hnone : s.NoneLags a)
    (hstep : Stepped fresh s a s') : Flushed s' := by
  by_cases ha : a = .turn
  swap
  · exact h.of_kept hstep (.inl (hstep.caller ha))
  subst ha
  have hstep0 := hstep
  cases hstep with
  | switchMemTable hcaller hverdict hswitch =>
    have hzero := switches_default hnone hcaller hverdict
    subst hzero
    refine ⟨.inr fun c hc hid => ?_, fun hpast => ?_⟩
    · obtain ⟨dflt, s1, cf, store, -, -, hcf, hstore, rfl⟩ := switchMemTable_some hswitch
      rcases mem_set hc with rfl | ⟨-, hne⟩
      · exact step_switchMemTable hstore
      · exact absurd hid hne
    · rcases hpast with hpast | hpast <;> cases hpast
  | room hcaller hverdict =>
    refine ⟨.inr ?_, fun hpast => ?_⟩
    · refine h.mem.resolve_left ?_
      rintro ⟨l, hl, hforce⟩
      obtain rfl : l = _ := Caller.makeRoom.inj (hl.symm.trans hcaller)
      exact not_room_of_force hs hforce hverdict
    · rcases hpast with hpast | hpast <;> cases hpast
  | flushed hcaller hcf himm =>
    refine h.of_kept hstep0 (.inr ⟨(fun l hl => nomatch hl.symm.trans hcaller), .inr (.inr ?_)⟩)
    intro c hc hzero
    obtain ⟨hmem, hid, -⟩ := live?_some hcf
    rw [hs.eq_of_id hc hmem (hzero.trans hid.symm)]
    exact himm
  | next hcaller =>
    exact h.of_kept hstep0 (.inr ⟨(fun l hl => nomatch hl.symm.trans hcaller), .inl hcaller⟩)
  | returned hend =>
    rcases hend with ⟨-, hlevels⟩ | ⟨hcaller, -⟩
    · exact absurd hs.levels (by omega)
    · exact h.of_kept hstep0 (.inr ⟨(fun l hl => nomatch hl.symm.trans hcaller), .inl hcaller⟩)
  | ask hcaller =>
    exact h.of_kept hstep0 (.inr ⟨(fun l hl => nomatch hl.symm.trans hcaller), .inl hcaller⟩)

/-! ## The other families -/

/-- What is served, is served when no flush is left to do. -/
def Drained (s : State K V) : Prop :=
  s.served ≠ [] → ∀ cf ∈ s.cfs, cf.dropped = false → cf.id ≠ 0 → cf.store.imm = none

theorem Drained.step (h : Drained s) {a : Action K V} (hnone : s.NoneLags a)
    (hstep : Stepped fresh s a s') : Drained s' := by
  intro hserved c hc hlive hne
  have hold : (∀ cf ∈ s.cfs, cf.dropped = false → cf.id ≠ 0 → cf.store.imm = none) →
      c.store.imm = none := by
    intro hall
    rcases hstep.kept hc with ⟨c0, hc0, hkept⟩ | ⟨l, rfl, hcaller, hverdict, -⟩
    · rcases hkept.imm with heq | hnil
      · rw [heq]
        exact hall c0 hc0 (hkept.dropped.symm.trans hlive) fun hzero =>
          hne (hkept.id.trans hzero)
      · exact hnil
    · exact absurd (switches_default hnone hcaller hverdict) hne
  have hsame : s'.served = s.served → c.store.imm = none := fun heq => hold (h (heq ▸ hserved))
  cases hstep with
  | switchMemTable _ _ hswitch =>
    have heq := switchMemTable_served hswitch
    exact hsame heq
  | nothing _ himm => exact hold fun cf hcf hcflive _ => himm cf (mem_live.2 ⟨hcf, hcflive⟩)
  | startManually _ himm => exact hold fun cf hcf hcflive _ => himm cf (mem_live.2 ⟨hcf, hcflive⟩)
  | start _ _ _ _ hstart =>
    obtain ⟨store, pointer, -, rfl⟩ := start_some hstart
    exact hsame rfl
  | room | flushed | next | returned | ask | compactMemTable | move | install | installManual =>
    exact hsame rfl

/-- The other families are as they were before the call, and nothing is due in them. -/
structure Aside (before s : State K V) : Prop where
  kept : ∀ cf ∈ before.live, cf.id ≠ 0 → cf ∈ s.cfs
  due : ∀ cf ∈ s.live, cf.id ≠ 0 → cf.needsCompaction = false ∧ cf.store.imm = none
  working : ∀ w ∈ s.working, w.family = 0

omit [Inhabited V] in
theorem Aside.of_set {before : State K V} (h : Aside before s) {f : Nat} {cf' : ColumnFamily K V}
    (hcfs : s'.cfs = (s.set f cf').cfs) (hf : f = 0) (hid : cf'.id = f)
    (hworking : ∀ w ∈ s'.working, w.family = 0) : Aside before s' := by
  subst hf
  refine ⟨fun cf hcf hne => ?_, fun cf hcf hne => ?_, hworking⟩
  · rw [hcfs]
    exact List.mem_map.2 ⟨cf, h.kept cf hcf hne, by simp [hne]⟩
  · obtain ⟨hcf, hlive⟩ := mem_live.1 hcf
    rw [hcfs] at hcf
    rcases mem_set hcf with rfl | ⟨hcf, -⟩
    · exact absurd hid hne
    · exact h.due cf (mem_live.2 ⟨hcf, hlive⟩) hne

omit [Inhabited V] in
theorem Aside.of_cfs {before : State K V} (h : Aside before s) (hcfs : s'.cfs = s.cfs)
    (hworking : ∀ w ∈ s'.working, w.family = 0) : Aside before s' := by
  refine ⟨by rw [hcfs]; exact h.kept, fun cf hcf => h.due cf ?_, hworking⟩
  rw [mem_live, hcfs] at hcf
  exact mem_live.2 hcf

/-- **One step**: the call and the worker keep to the default family. -/
theorem Aside.step {before : State K V} (hs : Serving s) (h : Aside before s) {a : Action K V}
    (hnone : s.NoneLags a) (hstep : Stepped fresh s a s') : Aside before s' := by
  cases hstep with
  | switchMemTable hcaller hverdict hswitch =>
    have hzero := switches_default hnone hcaller hverdict
    subst hzero
    obtain ⟨dflt, s1, cf, store, hdflt, rfl, hcf, -, rfl⟩ := switchMemTable_some hswitch
    have hlog : Aside before { s.set 0 { dflt with store := { dflt.store with
        nextFileNumber := dflt.store.nextFileNumber + 1 } } with
        logfileNumber := dflt.store.nextFileNumber } :=
      h.of_set rfl rfl (live?_some hdflt).2.1 h.working
    exact hlog.of_set rfl rfl (live?_some hcf).2.1 h.working
  | room | flushed | next | returned => exact h.of_cfs rfl h.working
  | ask _ _ hcf => exact h.of_set rfl rfl (live?_some hcf).2.1 h.working
  | compactMemTable hcf hstore =>
    obtain ⟨hmem, hid, hlive⟩ := live?_some hcf
    refine h.of_set rfl ?_ hid h.working
    by_contra hne
    obtain ⟨hsome, -⟩ := step_compactMemTable hstore
    rw [(h.due _ (mem_live.2 ⟨hmem, hlive⟩) (by omega)).2] at hsome
    cases hsome
  | nothing _ _ hcf hmanual =>
    exact h.of_set rfl (hs.slot _ (mem_live.1 hcf).1 hmanual) rfl h.working
  | startManually _ _ hcf hmanual _ hstart =>
    obtain ⟨store, pointer, -, rfl⟩ := start_some hstart
    have hzero := hs.slot _ (mem_live.1 hcf).1 hmanual
    refine h.of_set rfl hzero rfl ?_
    rintro w ⟨⟩
    exact hzero
  | move _ hcf hneeds =>
    obtain ⟨hmem, hid, hlive⟩ := live?_some hcf
    refine h.of_set rfl ?_ hid h.working
    by_contra hne
    rw [(h.due _ (mem_live.2 ⟨hmem, hlive⟩) (by omega)).1] at hneeds
    cases hneeds
  | @start _ cf _ _ _ hcf hneeds _ hstart =>
    obtain ⟨store, pointer, -, rfl⟩ := start_some hstart
    obtain ⟨hmem, hid, hlive⟩ := live?_some hcf
    have hzero : cf.id = 0 := by
      by_contra hne
      rw [(h.due _ (mem_live.2 ⟨hmem, hlive⟩) hne).1] at hneeds
      cases hneeds
    refine h.of_set rfl hzero rfl ?_
    rintro w ⟨⟩
    exact hzero
  | install hw hcf =>
    refine h.of_set rfl ?_ rfl nofun
    rw [(live?_some hcf).2.1, h.working _ hw]
  | installManual hw hcf =>
    refine h.of_set rfl ?_ rfl nofun
    rw [(live?_some hcf).2.1, h.working _ hw]

/-! ## The call -/

section
variable {before : State K V} {begin_ end_ : Option K}

omit [Inhabited V] in
theorem one_le_maxLevelWithFiles (v : Version K V) (lo hi : Option K) :
    1 ≤ v.maxLevelWithFiles lo hi := by
  unfold Version.maxLevelWithFiles
  refine List.foldlRecOn _ _ (motive := fun level => 1 ≤ level) (Nat.le_refl 1) ?_
  intro level hlevel l hl
  have hl : 1 ≤ l := (List.mem_range'_1.1 hl).1
  split
  · exact hl
  · exact hlevel

/-- How the call starts. -/
theorem init_some (h : (system fresh before family begin_ end_).init s) :
    before.Idle ∧ s.cfs = before.cfs ∧ s.working = before.working ∧
      s.caller = .makeRoom ⟨true, false⟩ ∧ s.served = [] ∧ 0 < s.maxLevelWithFiles := by
  obtain ⟨hidle, hcall⟩ := h
  obtain ⟨cf, -, rfl⟩ := Option.map_eq_some_iff.1 hcall
  exact ⟨hidle, rfl, rfl, rfl, rfl, one_le_maxLevelWithFiles ..⟩

/-- **Whatever family the call is for**, every manual compaction of it is served in the default one. -/
theorem serving_reachable (h : (system fresh before family begin_ end_).Reachable s) :
    Serving s ∧ Served s := by
  refine h.invariant (P := fun s => Serving s ∧ Served s) (fun s hs => ?_) ?_
  · obtain ⟨hidle, hcfs, -, hcaller, hserved, hlevels⟩ := init_some hs
    refine ⟨⟨?_, ?_, ?_, hlevels⟩, ?_, ?_, ?_⟩
    · rw [hcfs]
      exact hidle.nodup
    · simpa only [State.live, hcfs] using hidle.default
    · intro cf hcf hmanual
      rw [hcfs] at hcf
      rw [hidle.manual cf hcf] at hmanual
      cases hmanual
    · simp [hserved]
    · simp [hcaller]
    · simp [hcaller]
  · intro s a s' ⟨hs, hserved⟩ hstep
    have hstep := stepped_of_step hstep
    exact ⟨hs.step hstep, hserved.step hs hstep⟩

/-- The default family is flushed. -/
theorem flushed_reachable (h : (system fresh before family begin_ end_).ReachableBy State.NoneLags s) :
    Flushed s ∧ Drained s := by
  refine h.invariant_of (P := fun s => Flushed s ∧ Drained s) (J := Serving)
    (fun s hs => (serving_reachable hs).1) (fun s hs => ?_) ?_
  · obtain ⟨-, -, -, hcaller, hserved, -⟩ := init_some hs
    refine ⟨⟨.inl ⟨_, hcaller, rfl⟩, fun hpast => ?_⟩, fun hne => absurd hserved hne⟩
    simp [hcaller] at hpast
  · intro s a s' hs ⟨hflushed, hdrained⟩ hnone hstep
    have hstep := stepped_of_step hstep
    exact ⟨hflushed.step hs hnone hstep, hdrained.step hnone hstep⟩

/-- With nothing due and no flush pending in the other families, they stay aside. -/
theorem aside_reachable (h : (system fresh before family begin_ end_).ReachableBy State.NoneLags s)
    (hquiet : before.Quiet) (himm : ∀ cf ∈ before.live, cf.id ≠ 0 → cf.store.imm = none) :
    Aside before s := by
  refine h.invariant_of (P := Aside before) (J := Serving) (fun s hs => (serving_reachable hs).1)
    (fun s hs => ?_) ?_
  · obtain ⟨-, hcfs, hworking, -⟩ := init_some hs
    refine ⟨fun cf hcf _ => ?_, fun cf hcf hne => ?_, fun w hw => ?_⟩
    · rw [hcfs]
      exact (mem_live.1 hcf).1
    · rw [mem_live, hcfs] at hcf
      have hcf := mem_live.2 hcf
      exact ⟨hquiet.due cf hcf, himm cf hcf hne⟩
    · rw [hworking, hquiet.working] at hw
      cases hw
  · intro s a s' hs haside hnone hstep
    exact haside.step hs hnone (stepped_of_step hstep)

/-- **`CompactRange` does what it should for the default family only**, and where it is to leave the
others alone, only with no flush pending in them. -/
theorem owns_iff (h : (system fresh before family begin_ end_).ReachableBy State.NoneLags s)
    (hret : s.caller = .returned) :
    before.Owns family s ↔
      family = 0 ∧ (before.Quiet → ∀ cf ∈ before.live, cf.id ≠ 0 → cf.store.imm = none) := by
  obtain ⟨hs, hserved⟩ := serving_reachable h.reachable
  obtain ⟨hflushed, hdrained⟩ := flushed_reachable h
  have hne : s.served ≠ [] := hserved.returned hret
  constructor
  · intro howns
    obtain ⟨id, hid⟩ := List.exists_mem_of_ne_nil _ hne
    have hzero : family = 0 := (howns.served id hid).symm.trans (hserved.default id hid)
    subst hzero
    refine ⟨rfl, fun hquiet cf hcf hid => ?_⟩
    exact hdrained hne cf (howns.others hquiet cf hcf hid) (mem_live.1 hcf).2 hid
  · rintro ⟨rfl, himm⟩
    refine ⟨fun cf hcf hzero => ?_, hserved.default, fun hquiet cf hcf hid => ?_⟩
    · have hmem := hflushed.mem.resolve_left fun ⟨l, hl, _⟩ => nomatch hl.symm.trans hret
      simp [Family.records, hmem cf hcf hzero, hflushed.imm (.inr hret) cf hcf hzero]
    · exact (aside_reachable h hquiet (himm hquiet)).kept cf hcf hid

end

end

def sampleFamily (id : Nat) : ColumnFamily (Fin 3) Nat where
  id := id
  dropped := false
  store := { Family.empty with mem := [(1, .put 0 7)], lastSequence := 1 }
  usage := 100
  memLogNumber := 1
  immLogNumber := 0
  logNumber := 0
  writeBufferSize := Room.minWriteBufferSize
  options := ⟨none, 100⟩
  triggers := fun _ => {}
  compactPointer := fun _ => none
  manual := false

/-- A database of the default family and another, with a record in each memtable. -/
def sampleState : State (Fin 3) Nat where
  cfs := [sampleFamily 0, sampleFamily 1]
  logfileNumber := 1
  snapshots := []
  caller := .returned
  maxLevelWithFiles := 0
  begin_ := none
  end_ := none
  manual := ⟨0, none, none, true⟩
  working := none
  served := []

theorem sampleState_idle : sampleState.Idle :=
  ⟨by decide, ⟨sampleFamily 0, by simp [State.live, sampleState, sampleFamily], rfl⟩,
    by simp [sampleState, sampleFamily], nofun⟩

/-- The memtable is flushed to level 2, and level 0 is found empty. -/
def compactRangeRun : List (Action (Fin 3) Nat) :=
  [.turn, .turn, .compactMemTable 0 10, .turn, .turn, .compactManually, .turn]

theorem owns_iff_compactRangeRun : ∃ start s,
    sampleState.compactRange 0 none none = some start ∧
      (system 100 sampleState 0 none none).runBy State.NoneLags start compactRangeRun = some s ∧
      (sampleState.Owns 0 s ↔
        0 = 0 ∧ (sampleState.Quiet → ∀ cf ∈ sampleState.live, cf.id ≠ 0 → cf.store.imm = none)) := by
  obtain ⟨start, hstart⟩ : ∃ start, sampleState.compactRange 0 none none = some start := ⟨_, rfl⟩
  have hrun : ((sampleState.compactRange 0 none none).bind fun start =>
      (system 100 sampleState 0 none none).runBy State.NoneLags start compactRangeRun).any (fun s =>
        match s.caller with
        | .returned => true
        | _ => false) = true := by decide +kernel
  rw [hstart, Option.bind_some] at hrun
  obtain ⟨s, hs, hret⟩ := (Option.any_eq_true ..).1 hrun
  have hinit : (system 100 sampleState 0 none none).ReachableBy State.NoneLags start :=
    .init ⟨sampleState_idle, hstart⟩
  refine ⟨start, s, hstart, hs, owns_iff (hinit.runBy hs) ?_⟩
  split at hret
  · assumption
  · cases hret

/-- **A call for another family** flushes the default one, and leaves the other's memtable full. -/
theorem not_owns : ¬ ∀ (before s : State (Fin 3) Nat) (family : Nat),
    (system 100 before family none none).Reachable s → s.caller = .returned →
      before.Owns family s := by
  intro hall
  obtain ⟨start, hstart⟩ : ∃ start, sampleState.compactRange 1 none none = some start := ⟨_, rfl⟩
  have hrun : ((sampleState.compactRange 1 none none).bind fun start =>
      (system 100 sampleState 1 none none).run start compactRangeRun).any (fun s =>
        (match s.caller with
        | .returned => true
        | _ => false) && s.cfs.any fun cf => cf.id = 1 && cf.store.records.length == 1) = true := by
    decide +kernel
  rw [hstart, Option.bind_some] at hrun
  obtain ⟨s, hs, hend⟩ := (Option.any_eq_true ..).1 hrun
  have hinit : (system 100 sampleState 1 none none).Reachable start :=
    .init ⟨sampleState_idle, hstart⟩
  rw [Bool.and_eq_true] at hend
  have hret : s.caller = .returned := by
    have h := hend.1
    split at h
    · assumption
    · cases h
  obtain ⟨cf, hcf, hrecords⟩ := List.any_eq_true.1 hend.2
  simp only [Bool.and_eq_true, decide_eq_true_eq, beq_iff_eq] at hrecords
  have hflushed := (hall _ s 1 (hinit.run hs) hret).flushed cf hcf hrecords.1
  simp [hflushed] at hrecords

end LevelDb.Worker
