import LevelDb.Proof.DbIter
import Mathlib.Data.Fintype.EquivFin

/-!
# Iterators over what can be merged

`DBIter.run_shown` asks of a merge operator that it takes any operands. An operator may refuse
malformed ones, and then all that a reader needs is that the operands written can be merged, key by
key (`Merges`). The iterator with the operator completed, by an answer `d` where it refuses, goes the
same way as the one with the operator itself until it shows `d` (`step_complete`); where `d` is a value
no key has, that is never (`run_shown_of_merges`).
-/

namespace LevelDb

open Mvcc

variable {K V : Type} [LinearOrder K]

/-- The source with the operator completed. -/
def DBIterSource.complete (src : DBIterSource K V) (d : V) : DBIterSource K V :=
  { src with
    mergeOp := some
      { fullMerge := fun k b xs => some ((foldOf src.mergeOp k b xs).getD d)
        partialMerge := fun _ _ _ => none } }

namespace DBIter

variable {src : DBIterSource K V} {d : V} {it : DBIter K V}

/-- The iterator with the operator completed does the same, or shows `d`; in either case it has met
no error. -/
def Completes (d : V) (start full it : DBIter K V) : Prop :=
  (full = it ∨ ∃ k, full.shown = some (k, d)) ∧ full.status = start.status

omit [LinearOrder K] in
theorem Completes.trans {start mid full it : DBIter K V} (hstatus : mid.status = start.status)
    (h : Completes d mid full it) : Completes d start full it :=
  ⟨h.1, h.2.trans hstatus⟩

theorem fullMerge_complete (src : DBIterSource K V) (d : V) (it : DBIter K V) (base : Option V)
    (operands : List V) :
    (fullMerge (src.complete d) it base operands = fullMerge src it base operands ∨
        fullMerge (src.complete d) it base operands = { it with valid := true, savedValue := d }) ∧
      (fullMerge (src.complete d) it base operands).status = it.status := by
  refine ⟨?_, by simp [fullMerge, DBIterSource.complete]⟩
  cases hop : src.mergeOp with
  | none => exact .inr (by simp [fullMerge, DBIterSource.complete, foldOf, hop])
  | some op =>
    cases hmerge : op.fullMerge (if it.direction = .forward then it.mergedKey else it.savedKey) base
        operands with
    | none => exact .inr (by simp [fullMerge, DBIterSource.complete, foldOf, hop, hmerge])
    | some v => exact .inl (by simp [fullMerge, DBIterSource.complete, foldOf, hop, hmerge])

theorem mergeLoop_complete (userKey : K) (operands : List V) (base : Option V) (settled : Bool)
    (before after : List (Entry K V)) :
    mergeLoop (src.complete d) userKey operands base settled before after =
      mergeLoop src userKey operands base settled before after := by
  induction after generalizing operands base settled before with
  | nil => rfl
  | cons e after ih =>
    have heff : effectiveType (src.complete d) e = effectiveType src e := rfl
    simp only [mergeLoop, ih, heff]

theorem mergeForward_complete (it : DBIter K V) (hdir : it.direction = .forward)
    (before after : List (Entry K V)) (e : Entry K V) :
    Completes d it (mergeForward (src.complete d) it before e after)
      (mergeForward src it before e after) := by
  simp only [mergeForward, mergeLoop_complete]
  generalize mergeLoop src e.key.userKey [e.value] none false (e :: before) after = r
  obtain ⟨hmerge, hstatus⟩ := fullMerge_complete src d
    { it with mergedKey := e.key.userKey, iter := r.2.2, merged := true } r.2.1 r.1.reverse
  refine ⟨hmerge.imp id fun h => ⟨e.key.userKey, ?_⟩, hstatus⟩
  rw [h]
  simp [shown, key, value, hdir]

theorem findPrevLoop_complete (s : Found K V) (after before : List (Entry K V))
    [Inhabited K] [Inhabited V] :
    findPrevLoop (src.complete d) s after before = findPrevLoop src s after before := by
  induction before generalizing s after with
  | nil => rfl
  | cons e before ih =>
    have hsee : s.see (src.complete d) e = s.see src e := rfl
    have hseq : (src.complete d).sequence = src.sequence := rfl
    simp only [findPrevLoop, ih, hsee, hseq]

section
variable [Inhabited K]

theorem findNextUserEntry_complete (it : DBIter K V) (hdir : it.direction = .forward)
    (skipping : Bool) (before after : List (Entry K V)) :
    Completes d it (findNextUserEntry (src.complete d) it skipping before after)
      (findNextUserEntry src it skipping before after) := by
  induction after generalizing it skipping before with
  | nil => exact ⟨.inl rfl, rfl⟩
  | cons e after ih =>
    have heff : effectiveType (src.complete d) e = effectiveType src e := rfl
    have hseq : (src.complete d).sequence = src.sequence := rfl
    simp only [findNextUserEntry, heff, hseq]
    split
    · split
      · exact ih { it with savedKey := e.key.userKey } hdir true _
      · exact ih it hdir skipping _
      · split
        · exact ih it hdir skipping _
        · split
          · exact mergeForward_complete { it with savedKey := default } hdir before after e
          · exact ⟨.inl rfl, rfl⟩
    · exact ih it hdir skipping _

theorem findNextFrom_complete (it : DBIter K V) (hdir : it.direction = .forward) (skipping : Bool)
    (c : Option (Cursor (Entry K V))) :
    Completes d it (findNextFrom (src.complete d) it skipping c) (findNextFrom src it skipping c) := by
  cases c with
  | none => exact ⟨.inl rfl, rfl⟩
  | some c => exact findNextUserEntry_complete it hdir skipping _ _

variable [Inhabited V]

theorem findPrevUserEntry_complete (it : DBIter K V) (hdir : it.direction = .reverse) :
    Completes d it (findPrevUserEntry (src.complete d) it) (findPrevUserEntry src it) := by
  have hmerge : ∀ (it' : DBIter K V) base operands, it'.direction = .reverse →
      it'.status = it.status → Completes d it (fullMerge (src.complete d) it' base operands)
        (fullMerge src it' base operands) := by
    intro it' base operands hit hstatus
    obtain ⟨hsame, hmerged⟩ := fullMerge_complete src d it' base operands
    refine ⟨hsame.imp id fun h => ⟨it'.savedKey, ?_⟩, hmerged.trans hstatus⟩
    rw [h]
    simp [shown, key, value, hit]
  simp only [findPrevUserEntry, findPrevLoop_complete]
  generalize it.iter.elim _ _ = r
  split
  · exact ⟨.inl rfl, rfl⟩
  · split
    · exact ⟨.inl rfl, rfl⟩
    · split
      · exact hmerge _ _ _ hdir rfl
      · exact hmerge _ _ _ hdir rfl

theorem next_complete (it : DBIter K V) : Completes d it (it.next (src.complete d)) (it.next src) := by
  have hentries : (src.complete d).internal = src.internal := rfl
  simp only [next, hentries]
  cases hdir : it.direction with
  | reverse => exact findNextFrom_complete { it with direction := .forward } rfl _ _
  | forward =>
    simp only
    split
    · exact findNextFrom_complete { it with
        direction := .forward, merged := false, savedKey := it.mergedKey, savedValue := default }
        rfl _ _
    · split
      · exact ⟨.inl rfl, rfl⟩
      · rename_i c _
        exact findNextFrom_complete
          { it with direction := .forward, savedKey := c.here.key.userKey } rfl _ _

theorem prev_complete (it : DBIter K V) : Completes d it (it.prev (src.complete d)) (it.prev src) := by
  have hentries : (src.complete d).internal = src.internal := rfl
  simp only [prev, hentries]
  cases hdir : it.direction with
  | reverse => exact findPrevUserEntry_complete it hdir
  | forward =>
    simp only
    generalize hplace : (if it.merged = true then _ else _ : DBIter K V × Option _) = r
    have hstatus : r.1.status = it.status := by
      rw [← hplace]
      split
      · rfl
      · cases it.iter <;> rfl
    split
    · exact ⟨.inl rfl, hstatus⟩
    · rename_i c _
      refine .trans hstatus ?_
      exact findPrevUserEntry_complete { r.1 with iter := some c, direction := .reverse } rfl

/-- **A call** with the operator completed. -/
theorem step_complete (it : DBIter K V) (call : IterCall K) :
    Option.Rel (Completes d it) ((system (src.complete d)).step it call) ((system src).step it call) := by
  cases call with
  | seek target =>
    exact .some (findNextFrom_complete { it with
      direction := .forward, merged := false, savedKey := target, savedValue := default } rfl _ _)
  | seekToFirst =>
    exact .some (findNextFrom_complete
      { it with direction := .forward, merged := false, savedValue := default } rfl _ _)
  | seekToLast =>
    exact .some (findPrevUserEntry_complete { it with
      direction := .reverse, merged := false, savedValue := default
      iter := Cursor.last src.internal.entries } rfl)
  | next =>
    simp only [system]
    split
    · exact .some (next_complete it)
    · exact .none
  | prev =>
    simp only [system]
    split
    · exact .some (prev_complete it)
    · exact .none

/-! ## Iterators that meet no error -/

end

/-- Where the versions can be merged, the operator completed reads them the same way. -/
theorem read_complete (d : V) {k : K} {ops : List (Op V)}
    (h : (read (foldOf src.mergeOp k) ops).isSome = true) :
    read (foldOf (src.complete d).mergeOp k) ops = read (foldOf src.mergeOp k) ops := by
  have hfold : ∀ b xs, foldOf (src.complete d).mergeOp k b xs =
      some ((foldOf src.mergeOp k b xs).getD d) := fun _ _ => rfl
  unfold Mvcc.read at h ⊢
  generalize collect ops = c at h ⊢
  obtain ⟨xs, b⟩ := c
  cases xs with
  | nil => rfl
  | cons x xs =>
    simp only [settle, Option.isSome_map] at h ⊢
    obtain ⟨v, hv⟩ := Option.isSome_iff_exists.1 h
    rw [hfold, hv]
    rfl

/-- What the iterator of a reader may rely on when operands can be malformed: those there are can be
merged. -/
structure Merges (src : DBIterSource K V) (ts : List (RangeTombstone K)) : Prop where
  view : src.rangeDels = none ∧ ts = [] ∨ ∃ v, src.rangeDels = some v ∧ v.Sees ts
  layers : ∀ t ∈ ts, t.layer < kAllLayers
  merges : ∀ k, (read (foldOf src.mergeOp k)
    ((Layer.mk src.internal.entries ts).versions k src.sequence)).isSome = true

variable {ts : List (RangeTombstone K)}

theorem Merges.reads (h : Merges src ts) (d : V) : (src.complete d).Reads ts :=
  ⟨h.view, h.layers, fun _ _ _ _ => rfl⟩

theorem Merges.contents_eq_complete (h : Merges src ts) (d : V) :
    (src.complete d).contents ts = src.contents ts := by
  unfold DBIterSource.contents Layer.present
  refine List.filterMap_congr fun k _ => ?_
  have hsame := read_complete d (h.merges k)
  exact congrArg (fun r => (Option.join r).map fun v => (k, v)) hsame

theorem Merges.mem_contents (h : Merges src ts) {k : K} {v : V} : (k, v) ∈ src.contents ts ↔
    read (foldOf src.mergeOp k)
      ((Layer.mk src.internal.entries ts).versions k src.sequence) = some (some v) := by
  rw [← h.contents_eq_complete v, DBIter.mem_contents (h.reads v), ← read_complete v (h.merges k)]
  exact versions_eq (h.reads v) k ▸ Iff.rfl

/-- The iterator is at the place of the cursor, and has met no error. -/
def Tracks (src : DBIterSource K V) (ts : List (RangeTombstone K)) (it : DBIter K V)
    (c : Option (Cursor (K × V))) : Prop :=
  it.status = .ok ∧
    ∃ d, (∀ p ∈ src.contents ts, p.2 ≠ d) ∧ Follows (src.complete d) ts it c

theorem Follows.shown_eq {it : DBIter K V} {c : Option (Cursor (K × V))} (h : Follows src ts it c) :
    it.shown = c.map (·.here) := by
  obtain ⟨hvalid, rfl⟩ | ⟨e, rfl, -, hshows⟩ := h
  · simp [shown, hvalid]
  · simp [hshows.shown]

theorem Tracks.shown_eq {c : Option (Cursor (K × V))} (h : Tracks src ts it c) :
    it.shown = c.map (·.here) := by
  obtain ⟨-, d, -, hfollows⟩ := h
  exact hfollows.shown_eq

section
variable [Inhabited K] [Inhabited V]

theorem tracks_new [Infinite V] (src : DBIterSource K V) (ts : List (RangeTombstone K)) :
    Tracks src ts .new none := by
  classical
  obtain ⟨d, hd⟩ := Infinite.exists_notMem_finset ((src.contents ts).map (·.2)).toFinset
  refine ⟨rfl, d, fun p hp heq => hd ?_, .inl ⟨rfl, rfl⟩⟩
  rw [List.mem_toFinset, List.mem_map]
  exact ⟨p, hp, heq⟩

/-- **One call** keeps it there. -/
theorem Tracks.step (h : Merges src ts) {c : Option (Cursor (K × V))} (hit : Tracks src ts it c)
    (call : IterCall K) :
    Option.Rel (Tracks src ts) ((system src).step it call) ((walk (src.contents ts)).step c call) := by
  obtain ⟨hok, d, hd, hfollows⟩ := hit
  have hcomplete : Option.Rel (Completes d it) ((system (src.complete d)).step it call)
      ((system src).step it call) := step_complete it call
  have hstep := step_follows (h.reads d) hfollows call
  rw [h.contents_eq_complete d] at hstep
  generalize (system (src.complete d)).step it call = full, (system src).step it call = r,
    (walk (src.contents ts)).step c call = c' at hcomplete hstep
  cases hcomplete with
  | none =>
    cases hstep
    exact .none
  | some hsame =>
    cases hstep with
    | some hrel =>
      obtain ⟨rfl | ⟨k, hshown⟩, hstatus⟩ := hsame
      · exact .some ⟨hstatus.trans hok, d, hd, hrel⟩
      · -- the value it would show then is none of the map
        rw [hrel.shown_eq] at hshown
        obtain ⟨hvalid, rfl⟩ | ⟨e, rfl, hlist, -⟩ := hrel
        · cases hshown
        · have hmem : e.here ∈ src.contents ts := by
            rw [← h.contents_eq_complete d, ← hlist]
            simp [Cursor.toList]
          rw [Option.map_some, Option.some.injEq] at hshown
          exact absurd (congrArg Prod.snd hshown) (hd _ hmem)

/-- **The iterator is a cursor**, as far as the operands that are there can be merged. -/
theorem run_shown_of_merges [Infinite V] (h : Merges src ts) (calls : List (IterCall K)) :
    ((system src).run new calls).map (fun it => (it.shown, it.status)) =
      ((walk (src.contents ts)).run none calls).map fun c => (c.map (·.here), .ok) := by
  have hrun := Transition.System.run_rel (system src) (walk (src.contents ts))
    (fun it c call hit => Tracks.step h hit call) (tracks_new src ts) calls
  generalize (system src).run new calls = it, (walk (src.contents ts)).run none calls = c at hrun
  cases hrun with
  | none => rfl
  | some hrel => simp [hrel.shown_eq, hrel.1]

end
end DBIter
end LevelDb
