import LevelDb.Db.Replay

/-!
# The depth of level 0 is exact

`l0Depth_isGreatest`: the sweep gives the largest number of level-0 tables whose ranges have a key in
common. `maxL0Depth_isGreatest`: over a run of edits the replay keeps the largest of these.
-/

namespace LevelDb.Manifest

open Replay

/-- The key is in the file's range, so that a point lookup may have to read the file. -/
def File.has (f : File) (p : UserKey) : Bool :=
  match userRange f with
  | .ok iv => decide (iv.1 ≤ p ∧ p ≤ iv.2)
  | .error _ => false

/-- The bounds are internal keys, the smallest user key not after the largest. -/
def File.Ordered (f : File) : Prop := ∃ iv, userRange f = .ok iv ∧ iv.1 ≤ iv.2

/-! ## One layout -/

theorem File.has_eq {f : File} {iv : UserKey × UserKey} (h : userRange f = .ok iv) (p : UserKey) :
    f.has p = decide (iv.1 ≤ p ∧ p ≤ iv.2) := by
  rw [File.has, h]

/-- The ranges are read off the files one by one. -/
theorem exists_mapM_userRange {files : List File} (h : ∀ f ∈ files, f.Ordered) :
    ∃ ivs, files.mapM userRange = .ok ivs ∧ (∀ iv ∈ ivs, iv.1 ≤ iv.2) ∧
      ∀ p, Sweep.meeting ivs p = files.countP (·.has p) := by
  induction files with
  | nil => exact ⟨[], rfl, nofun, fun _ => rfl⟩
  | cons f files ih =>
    obtain ⟨iv, hiv, hle⟩ := h f List.mem_cons_self
    obtain ⟨ivs, hivs, hall, hmeeting⟩ := ih fun g hg => h g (List.mem_cons_of_mem f hg)
    refine ⟨iv :: ivs, ?_, ?_, fun p => ?_⟩
    · rw [List.mapM_cons, hiv]
      show (do let ivs ← files.mapM userRange; Except.ok (iv :: ivs)) = _
      rw [hivs]
      rfl
    · rintro iv' (- | ⟨_, hmem⟩)
      · exact hle
      · exact hall iv' hmem
    · have hp := hmeeting p
      unfold Sweep.meeting at hp ⊢
      rw [List.countP_cons, List.countP_cons, hp, File.has_eq hiv]

/-- The numbers of level-0 files that have a key in common. -/
def Replay.depths (r : Replay) : Set Int :=
  Set.range fun p : UserKey => (r.level0.countP (·.has p) : Int)

theorem exists_l0Depth {r : Replay} (h : ∀ f ∈ r.level0, f.Ordered) :
    ∃ d, r.l0Depth = .ok d ∧ IsGreatest r.depths d := by
  unfold l0Depth depths
  split
  · rename_i hshort
    refine ⟨_, rfl, ?_, ?_⟩
    · -- a single file has its own smallest key
      cases hfiles : r.level0 with
      | nil => exact ⟨default, rfl⟩
      | cons f files =>
        rw [hfiles] at h hshort
        obtain rfl : files = [] := by
          apply List.eq_nil_of_length_eq_zero
          rw [List.length_cons] at hshort
          omega
        obtain ⟨iv, hiv, hle⟩ := h f List.mem_cons_self
        refine ⟨iv.1, ?_⟩
        have hhas : f.has iv.1 = true := by
          rw [File.has_eq hiv]
          simpa using hle
        simp [hhas]
    · rintro _ ⟨p, rfl⟩
      exact Int.ofNat_le.2 List.countP_le_length
  · obtain ⟨ivs, hivs, hall, hmeeting⟩ := exists_mapM_userRange h
    have hsorted := List.pairwise_insertionSort (· ≤ ·) (Sweep.events ivs)
    have hperm := List.perm_insertionSort (· ≤ ·) (Sweep.events ivs)
    have hgreatest := Sweep.sweep_isGreatest hall hperm hsorted
    rw [hivs]
    refine ⟨_, rfl, ?_⟩
    simpa only [hmeeting] using hgreatest

/-- **The depth of level 0** is the largest number of its files that have a key in common. -/
theorem l0Depth_isGreatest {r : Replay} (h : ∀ f ∈ r.level0, f.Ordered) :
    ∃ d, r.l0Depth = .ok d ∧
      IsGreatest (Set.range fun p : UserKey => (r.level0.countP (·.has p) : Int)) d :=
  exists_l0Depth h

/-- A file over the keys from `s` to `l`. -/
def sampleFile (s l : UInt8) : File :=
  ⟨1, s :: List.replicate 8 0, l :: List.replicate 8 0⟩

/-- Two files that touch, one inside the first, one that repeats it. -/
def sampleReplay : Replay :=
  { levels := [[(1, sampleFile 97 99), (2, sampleFile 99 100), (3, sampleFile 98 98),
      (4, sampleFile 97 99)]] }

theorem l0Depth_isGreatest_sampleReplay :
    sampleReplay.l0Depth = .ok 3 ∧
      IsGreatest (Set.range fun p : UserKey => (sampleReplay.level0.countP (·.has p) : Int)) 3 := by
  have hordered (s l : UInt8) (h : bytewise.le [s] [l]) : (sampleFile s l).Ordered :=
    ⟨_, rfl, h⟩
  have hall : ∀ f ∈ sampleReplay.level0, f.Ordered := by
    intro f hf
    obtain rfl | rfl | rfl | rfl : f = sampleFile 97 99 ∨ f = sampleFile 99 100 ∨
        f = sampleFile 98 98 ∨ f = sampleFile 97 99 := by
      simpa [level0, sampleReplay] using hf
    · exact hordered 97 99 (by decide)
    · exact hordered 99 100 (by decide)
    · exact hordered 98 98 (by decide)
    · exact hordered 97 99 (by decide)
  have hthree : sampleReplay.l0Depth = .ok 3 := by decide
  obtain ⟨d, hd, hgreatest⟩ := l0Depth_isGreatest hall
  rw [hthree] at hd
  cases hd
  exact ⟨hthree, hgreatest⟩

/-! ## A run -/

/-- All files of all levels have their bounds in order. -/
def Replay.Ordered (r : Replay) : Prop := ∀ level ∈ r.levels, ∀ f ∈ level, f.2.Ordered

theorem Replay.Ordered.level0 {r : Replay} (h : r.Ordered) : ∀ f ∈ r.level0, f.Ordered := by
  intro f hf
  obtain ⟨file, hfile, rfl⟩ := List.mem_map.1 hf
  cases hlevels : r.levels with
  | nil =>
    rw [hlevels] at hfile
    cases hfile
  | cons level levels =>
    rw [hlevels] at hfile
    exact h level (hlevels ▸ List.mem_cons_self) file hfile

/-- A level that is changed was one of the levels. -/
theorem mem_modify {levels : List Level} {change : Level → Level} {n : Nat} {level : Level}
    (h : level ∈ levels.modify n change) : level ∈ levels ∨ ∃ l ∈ levels, level = change l := by
  obtain ⟨i, hi⟩ := List.mem_iff_getElem?.1 h
  rw [List.getElem?_modify] at hi
  obtain ⟨l, hl, rfl⟩ := Option.map_eq_some_iff.1 hi
  have hmem := List.mem_of_getElem? hl
  split
  · exact .inr ⟨l, hmem, rfl⟩
  · exact .inl hmem

/-- What the two loops of an edit keep: the depth so far, and the order of the bounds. -/
structure Kept (r r' : Replay) : Prop where
  maxL0Depth : r'.maxL0Depth = r.maxL0Depth
  ordered : r.Ordered → r'.Ordered

theorem deleteFile_kept {r r' : Replay} {file : Nat × Nat} (h : r.deleteFile file = .ok r') :
    Kept r r' := by
  simp only [deleteFile] at h
  split at h
  · cases h
  · split at h
    · cases h
    · cases h
      refine ⟨rfl, fun hr level hlevel f hf => ?_⟩
      rcases mem_modify hlevel with hin | ⟨l, hl, rfl⟩
      · exact hr level hin f hf
      · exact hr l hl f (List.mem_of_mem_filter hf)

theorem addFile_kept {r r' : Replay} {file : Nat × Nat × File} (hfile : file.2.2.Ordered)
    (h : r.addFile file = .ok r') : Kept r r' := by
  simp only [addFile] at h
  split at h
  · cases h
  · split at h
    · cases h
    · cases h
      refine ⟨rfl, fun hr level hlevel f hf => ?_⟩
      rcases mem_modify hlevel with hin | ⟨l, hl, rfl⟩
      · exact hr level hin f hf
      · rcases List.mem_append.1 hf with hf | hf
        · exact hr l hl f hf
        · rw [List.mem_singleton.1 hf]
          exact hfile

theorem foldlM_cons_eq_ok {α : Type} {f : Replay → α → Except ManifestError Replay} {a : α}
    {as : List α} {r r' : Replay} (h : (a :: as).foldlM f r = .ok r') :
    ∃ mid, f r a = .ok mid ∧ as.foldlM f mid = .ok r' :=
  Coding.bind_eq_ok.1 h

/-- A loop keeps what its rounds keep. -/
theorem foldlM_kept {α : Type} {f : Replay → α → Except ManifestError Replay} {as : List α}
    (hf : ∀ a ∈ as, ∀ {r r'}, f r a = .ok r' → Kept r r') {r r' : Replay}
    (h : as.foldlM f r = .ok r') : Kept r r' := by
  induction as generalizing r with
  | nil =>
    cases h
    exact ⟨rfl, id⟩
  | cons a as ih =>
    obtain ⟨mid, hstep, hrest⟩ := foldlM_cons_eq_ok h
    have hfirst := hf a List.mem_cons_self hstep
    have hlast := ih (fun b hb => hf b (List.mem_cons_of_mem a hb)) hrest
    exact ⟨hlast.maxL0Depth.trans hfirst.maxL0Depth, hlast.ordered ∘ hfirst.ordered⟩

/-- An edit takes the depth of the layout it makes into account. -/
theorem apply_spec {r r' : Replay} {edit : Edit} (hnew : ∀ f ∈ edit.newFiles, f.2.2.Ordered)
    (hr : r.Ordered) (h : r.apply edit = .ok r') :
    r'.Ordered ∧ ∃ d, IsGreatest r'.depths d ∧ r'.maxL0Depth = max r.maxL0Depth d := by
  obtain ⟨r1, hdel, h⟩ := Coding.bind_eq_ok.1 h
  obtain ⟨r2, hadd, h⟩ := Coding.bind_eq_ok.1 h
  have h1 : Kept (r.setNumbers edit) r1 := foldlM_kept (fun _ _ => deleteFile_kept) hdel
  have h2 : Kept r1 r2 := foldlM_kept (fun f hf => addFile_kept (hnew f hf)) hadd
  have hordered : r2.Ordered := h2.ordered (h1.ordered hr)
  obtain ⟨d, hd, hgreatest⟩ := exists_l0Depth hordered.level0
  rw [record, hd] at h
  cases h
  refine ⟨hordered, d, hgreatest, ?_⟩
  show max r2.maxL0Depth d = _
  rw [h2.maxL0Depth, h1.maxL0Depth]
  rfl

/-- The layouts that the replay of the edits goes through. -/
def Passes (edits : List Edit) (r : Replay) : Prop :=
  ∃ front, front <+: edits ∧ front.foldlM apply {} = .ok r

theorem passes_nil {r : Replay} : Passes [] r ↔ r = {} := by
  constructor
  · rintro ⟨front, hfront, h⟩
    rw [List.prefix_nil.1 hfront] at h
    cases h
    rfl
  · rintro rfl
    exact ⟨[], List.nil_prefix, rfl⟩

theorem passes_concat {edits : List Edit} {edit : Edit} {r r' : Replay}
    (h : (edits ++ [edit]).foldlM apply {} = .ok r') :
    Passes (edits ++ [edit]) r ↔ Passes edits r ∨ r = r' := by
  constructor
  · rintro ⟨front, hfront, hr⟩
    rcases List.prefix_concat_iff.1 hfront with rfl | hfront
    · rw [h] at hr
      cases hr
      exact .inr rfl
    · exact .inl ⟨front, hfront, hr⟩
  · rintro (⟨front, hfront, hr⟩ | rfl)
    · exact ⟨front, hfront.trans (List.prefix_append edits _), hr⟩
    · exact ⟨_, List.prefix_rfl, h⟩

/-- **Over a manifest** the depth kept is the largest number of level-0 tables that a lookup would
have had to read in any of the layouts. -/
theorem maxL0Depth_isGreatest {edits : List Edit} {r : Replay}
    (hnew : ∀ e ∈ edits, ∀ f ∈ e.newFiles, f.2.2.Ordered)
    (h : edits.foldlM apply {} = .ok r) :
    IsGreatest {d : Int | ∃ mid, Passes edits mid ∧
      ∃ p : UserKey, (mid.level0.countP (·.has p) : Int) = d} r.maxL0Depth := by
  suffices hboth : r.Ordered ∧ IsGreatest {d : Int | ∃ mid, Passes edits mid ∧ d ∈ mid.depths}
      r.maxL0Depth from hboth.2
  induction edits using List.reverseRecOn generalizing r with
  | nil =>
    cases h
    refine ⟨fun level hlevel f hf => ?_, ⟨{}, passes_nil.2 rfl, default, rfl⟩, ?_⟩
    · rw [List.eq_of_mem_replicate hlevel] at hf
      cases hf
    · rintro _ ⟨mid, hmid, p, rfl⟩
      rw [passes_nil.1 hmid]
      exact le_rfl
  | append_singleton edits e ih =>
    have hprefix := h
    rw [List.foldlM_append] at h
    obtain ⟨mid, hmid, hlast⟩ := Coding.bind_eq_ok.1 h
    obtain ⟨next, hstep, hend⟩ := foldlM_cons_eq_ok hlast
    cases hend
    obtain ⟨hordered, hbefore⟩ := ih (fun e he => hnew e (List.mem_append_left _ he)) hmid
    obtain ⟨hr, d, hd, hmax⟩ := apply_spec
      (hnew e (List.mem_append_right _ (List.mem_singleton_self e))) hordered hstep
    refine ⟨hr, ?_⟩
    -- the layouts are those before, and the one that the last edit makes
    have hset : {d : Int | ∃ mid, Passes (edits ++ [e]) mid ∧ d ∈ mid.depths} =
        {d : Int | ∃ mid, Passes edits mid ∧ d ∈ mid.depths} ∪ r.depths := by
      ext d
      simp only [Set.mem_ofPred_eq, Set.mem_union, passes_concat hprefix, or_and_right, exists_or,
        exists_eq_left]
    rw [hset, hmax]
    exact hbefore.union hd

/-- Two tables that share a key, then a compaction of both into level 1. -/
def sampleEdits : List Edit :=
  [{ newFiles := [(0, 1, sampleFile 97 99)] },
    { newFiles := [(0, 2, sampleFile 98 100)] },
    { deletedFiles := [(0, 1), (0, 2)], newFiles := [(1, 3, sampleFile 97 100)] }]

theorem maxL0Depth_isGreatest_sampleEdits :
    IsGreatest {d : Int | ∃ mid, Passes sampleEdits mid ∧
      ∃ p : UserKey, (mid.level0.countP (·.has p) : Int) = d} 2 := by
  have hordered (s l : UInt8) (h : bytewise.le [s] [l]) : (sampleFile s l).Ordered :=
    ⟨_, rfl, h⟩
  have hnew : ∀ e ∈ sampleEdits, ∀ f ∈ e.newFiles, f.2.2.Ordered := by
    intro e he f hf
    obtain rfl | rfl | rfl : e = sampleEdits[0] ∨ e = sampleEdits[1] ∨ e = sampleEdits[2] := by
      simpa [sampleEdits] using he
    · rw [List.mem_singleton.1 hf]
      exact hordered 97 99 (by decide)
    · rw [List.mem_singleton.1 hf]
      exact hordered 98 100 (by decide)
    · rw [List.mem_singleton.1 hf]
      exact hordered 97 100 (by decide)
  obtain ⟨r, hr, hdepth⟩ : ∃ r, sampleEdits.foldlM apply {} = .ok r ∧ r.maxL0Depth = 2 :=
    ⟨_, rfl, by decide⟩
  rw [← hdepth]
  exact maxL0Depth_isGreatest hnew hr

end LevelDb.Manifest
