import LevelDb.Proof.Shapes

/-!
# The workload stays in its universe

Every state of every run is in the bounds where the load has its room (`Inv.reachable`). Where it has
none, because the universe is a sum that does not fit in 64 bits, the load itself leaves the universe
(`exists_outside`). Scales up to 8 give it its room.
-/

namespace LevelDb.Bench.Phases

open Hoare

/-! ## A load without room -/

section
variable {c : Config} {w w1 w' : Workload}

/-- The batch under way has put the ids of the load from those of `w` on. -/
structure Loading (c : Config) (w w' : Workload) : Prop where
  pos : w'.pos = w.pos
  le : w.sub ≤ w'.sub
  loaded : w'.sub ≤ c.shape.nLoad
  puts : ∀ id, w.sub ≤ id → id < w'.sub → ⟨false, id⟩ ∈ w'.st.ops

/-- The batch that comes next in the load: it has an id at least. -/
def Loads (c : Config) (w w' : Workload) : Prop := Loading c w w' ∧ w.sub < w'.sub

theorem Loading.put (h : Loading c w w') (hsub : w'.sub < c.shape.nLoad) :
    wp False (do
      addPut (← get).sub
      nextSub) (fun _ => Loads c w) w' := by
  have hle := h.le
  have hlt : w.sub < w'.sub + 1 := by grind
  refine ⟨⟨h.pos, UInt64.le_of_lt hlt, ?_, ?_⟩, hlt⟩
  · show w'.sub + 1 ≤ c.shape.nLoad
    grind
  · intro id hid hnext
    change id < w'.sub + 1 at hnext
    show _ ∈ w'.st.ops ++ [_]
    rw [List.mem_append, List.mem_singleton]
    by_cases heq : id = w'.sub
    · exact .inr (by rw [heq])
    · exact .inl (h.puts id hid (by grind))

section
variable (hpos : w1.pos = w.pos) (hstart : w1.sub = w.sub) (hsub : w.sub < c.shape.nLoad)
include hpos hstart hsub

theorem loadLoop_loads (n : Nat) :
    wp False (forWhile (subBelow c.shape.nLoad) (fun _ => do
      addPut (← get).sub
      nextSub) (n + 1) 0) (fun _ => Loads c w) w1 := by
  have hload : Loading c w w1 := by
    refine ⟨hpos, ?_, ?_, fun id h h' => ?_⟩
    · grind
    · grind
    · grind
  have hsub1 : w1.sub < c.shape.nLoad := hstart ▸ hsub
  have hfirst : wp False (subBelow c.shape.nLoad) (fun b w' => b = true ∧ w' = w1) w1 :=
    ⟨decide_eq_true hsub1, rfl⟩
  rw [forWhile]
  apply hfirst.bind
  intro b w0 hw0
  rw [hw0.1, hw0.2, if_pos rfl]
  apply (hload.put hsub1).bind
  intro _ w2 hw2
  apply (wp_forWhile (I := fun _ => Loads c w) ?_ hw2).imp
  · intro _ _ hend
    obtain ⟨_, _, hend⟩ := hend
    exact hend
  · intro j w3 _ hw3
    exact ⟨fun hb => hw3.1.put (of_decide_eq_true hb), fun _ => hw3⟩

theorem loadStep_loads : wp False (loadStep c) (fun _ => Loads c w) w1 := by
  unfold loadStep batch
  rw [wp_bind, wp_modify]
  apply loadLoop_loads _ _ hsub 7
  · exact hpos
  · exact hstart

theorem otherLoadStep_loads : wp False (otherLoadStep c) (fun _ => Loads c w) w1 := by
  have hper : ∃ n, (if 1024 < (recipeOf c.kind).vmax then 2 else 8) = n + 1 := by
    split
    · exact ⟨1, rfl⟩
    · exact ⟨7, rfl⟩
  obtain ⟨n, hn⟩ := hper
  unfold otherLoadStep batch
  rw [wp_bind, wp_modify, hn]
  apply loadLoop_loads _ _ hsub n
  · exact hpos
  · exact hstart

end

/-- **A call of `Next` in the load phase** puts the next ids. -/
theorem next_loads (hpos : w.pos = 1) (hsub : w.sub < c.shape.nLoad) :
    wp False (next c 1) (fun _ => Loads c w) w := by
  have hnot : ¬ c.shape.nLoad ≤ w.sub := UInt64.not_le.2 hsub
  unfold next
  rw [wp_bind, wp_modify, wp_ite]
  constructor
  · intro _
    apply wp_untilSome_first
    unfold otherTurn
    rw [wp_bind, wp_get]
    simp only [hpos]
    rw [if_neg hnot]
    rw [wp_bind]
    refine (otherLoadStep_loads (w := w) ?_ ?_ hsub).imp fun _ _ h => ⟨true, rfl, h⟩
    · exact hpos.symm
    · rfl
  · intro _
    apply wp_untilSome_first
    unfold mixedTurn
    rw [wp_bind, wp_get]
    simp only [hpos]
    rw [if_neg hnot]
    rw [wp_bind]
    refine (loadStep_loads (w := w) ?_ ?_ hsub).imp fun _ _ h => ⟨true, rfl, h⟩
    · exact hpos.symm
    · rfl

/-- The first call begins the load phase, if there is something to load. -/
theorem next_begins (hpos : w.pos = 0) (hload : c.shape.nLoad ≠ 0) :
    wp False (next c 1) (fun _ w' => w'.pos = 1 ∧ w'.sub = 0) w := by
  unfold next
  rw [wp_bind, wp_modify, wp_ite]
  constructor
  · intro _
    apply wp_untilSome_first
    unfold otherTurn
    rw [wp_bind, wp_get]
    simp only [hpos]
    rw [wp_bind, if_neg hload]
    exact ⟨true, rfl, rfl, rfl⟩
  · intro _
    apply wp_untilSome_first
    unfold mixedTurn
    rw [wp_bind, wp_get]
    simp only [hpos]
    exact ⟨true, rfl, rfl, rfl⟩

end

/-! ## Runs -/

section
variable {c : Config} {w : Workload}

theorem Inv.start (hsub : c.shape.nHot.toNat ≤ (c.shape.nLoad + c.shape.nInsert).toNat ∧
    c.delRangeLen.toNat ≤ (c.shape.nLoad + c.shape.nInsert).toNat) : Inv c (.new c) where
  ok := {
    ops := nofun
    inRange := decide_eq_true hsub
    delNext := by
      show c.delLo.toNat ≤ _
      omega
    written := UInt64.zero_le
    head := UInt64.zero_le
    purged := UInt64.le_refl _
    fresh := fun _ => rfl }
  few := by
    intro _ h
    change 4 ≤ 0 ∨ 0 = 3 ∧ _ at h
    omega

/-- The bounds hold in every state. -/
theorem Inv.reachable (hc : c.Ok) (hstart : Inv c (.new c)) (h : (system c).Reachable w) :
    Inv c w := by
  refine h.invariant (fun s hs => ?_) fun s a s' hs hstep => ?_
  · cases hs
    exact hstart
  · cases a with
    | next fuel =>
      obtain ⟨⟨b, s1⟩, hnext, rfl⟩ := Option.map_eq_some_iff.1 hstep
      have hwp : wp True (next c fuel) (fun _ w' => Inv c w') s :=
        next_inv hc (fun _ _ _ => trivial) (fun _ => trivial) hs
      unfold wp at hwp
      rw [hnext] at hwp
      exact hwp
    | allowExtension =>
      cases hstep
      exact { hs with ok := { hs.ok with } }

/-- **A load without room** leaves the universe. -/
theorem exists_outside (hlt : c.shape.universeSize < c.shape.nLoad) :
    ∃ w, (system c).Reachable w ∧ ⟨false, c.shape.universeSize⟩ ∈ w.st.ops := by
  have hload : c.shape.nLoad ≠ 0 := by grind
  have hnext : ∀ {w w' : Workload} {b : Bool}, (system c).Reachable w →
      next c 1 w = some (b, w') → (system c).Reachable w' := by
    intro w w' b hw heq
    exact hw.step (.next 1) (congrArg (Option.map Prod.snd) heq)
  -- each batch brings the load nearer to the end of the universe, or over it
  have hrun : ∀ n (w : Workload), (system c).Reachable w → w.pos = 1 → w.sub ≤ c.shape.universeSize →
      c.shape.universeSize.toNat - w.sub.toNat = n →
      ∃ w, (system c).Reachable w ∧ ⟨false, c.shape.universeSize⟩ ∈ w.st.ops := by
    intro n
    induction n using Nat.strong_induction_on with
    | _ n ih =>
      intro w hw hpos hle hn
      have hsub : w.sub < c.shape.nLoad := by grind
      obtain ⟨b, w', heq, hloads, hmore⟩ := (next_loads hpos hsub).exists
      have hw' := hnext hw heq
      by_cases hout : c.shape.universeSize < w'.sub
      · exact ⟨w', hw', hloads.puts _ hle hout⟩
      · rw [UInt64.not_lt] at hout
        have h1 := UInt64.le_iff_toNat_le.1 hout
        have h2 := UInt64.lt_iff_toNat_lt.1 hmore
        exact ih _ (by omega) w' hw' (hloads.pos.trans hpos) hout rfl
  obtain ⟨b, w1, heq, hpos, hsub⟩ := (next_begins (c := c) (w := .new c) rfl hload).exists
  exact hrun _ w1 (hnext (.init rfl) heq) hpos (by rw [hsub]; exact UInt64.zero_le) rfl

theorem length_put {m m' : Model} {id : UInt64} (h : m.put id = some m') :
    m'.ver.length = m.ver.length := by
  unfold Model.put at h
  split at h
  · cases h
    exact List.length_set
  · cases h

theorem length_del {m m' : Model} {id : UInt64} (h : m.del id = some m') :
    m'.ver.length = m.ver.length := by
  unfold Model.del at h
  split at h
  · cases h
    exact List.length_set
  · cases h

theorem isSome_replayBatch {m : Model} {ops : List Op}
    (h : ∀ op ∈ ops, op.id.toNat < m.ver.length) : (m.replayBatch ops).isSome := by
  induction ops generalizing m with
  | nil => rfl
  | cons op ops ih =>
    have hid := h op List.mem_cons_self
    have hone : ∃ m', (if op.del then m.del op.id else m.put op.id) = some m' ∧
        m'.ver.length = m.ver.length := by
      split
      · have hdel : m.del op.id = some _ := if_pos hid
        exact ⟨_, hdel, length_del hdel⟩
      · have hput : m.put op.id = some _ := if_pos hid
        exact ⟨_, hput, length_put hput⟩
    obtain ⟨m', hm', hlen⟩ := hone
    unfold Model.replayBatch
    rw [List.foldlM_cons, hm']
    apply ih
    intro op' hop'
    rw [hlen]
    exact h op' (List.mem_cons_of_mem _ hop')

theorem Inv.inUniverse (h : Inv c w) : InUniverse c.shape w where
  ops := h.ok.ops
  inRange := h.ok.inRange
  model := by
    intro m hm
    apply isSome_replayBatch
    intro op hop
    rw [hm]
    exact UInt64.lt_iff_toNat_lt.1 (h.ok.ops op hop)

/-- **`Next` returns** where `Permute` ends. -/
theorem exists_next (hc : c.Ok) (hfew : c.shape.nInsert.toNat ≤ 2 ^ 62) :
    ∃ fuel, ∀ more, fuel ≤ more → ∀ w, Inv c w → (next c more w).isSome := by
  obtain ⟨f, -, fuel, hpermute⟩ := exists_permute c.permKey hfew
  refine ⟨max fuel 3, fun more hmore w hw => ?_⟩
  have hstuck : ∀ i < c.shape.nInsert, permute more c.permKey i c.shape.nInsert = none → False := by
    intro i hi hnone
    rw [hpermute more (by omega) i hi] at hnone
    cases hnone
  obtain ⟨b, w', heq, -⟩ := (next_inv hc hstuck (by omega) hw).exists
  rw [heq]
  rfl

end

/-- **The workload stays in its universe** exactly where its load does. -/
theorem inUniverse_iff {scale : ℚ} {kind : WorkloadKind} {shape : WorkloadShape} (seed : UInt64)
    (h : WorkloadShape.make scale kind = some shape) :
    ((∀ w, (system (.make seed kind shape)).Reachable w → InUniverse shape w) ↔
        shape.nLoad ≤ shape.universeSize) ∧
      (shape.nLoad ≤ shape.universeSize → shape.nInsert.toNat ≤ 2 ^ 62 →
        ∃ fuel, ∀ more, fuel ≤ more → ∀ w, (system (.make seed kind shape)).Reachable w →
          (next (.make seed kind shape) more w).isSome) ∧
      (0 ≤ scale → scale ≤ 8 → shape.nLoad ≤ shape.universeSize ∧ shape.nInsert.toNat ≤ 2 ^ 62) := by
  have hinv : shape.nLoad ≤ shape.universeSize →
      ∀ w, (system (.make seed kind shape)).Reachable w → Inv (.make seed kind shape) w := by
    intro hload w hw
    exact Inv.reachable (ok_of_make seed h hload) (Inv.start (subtractions h hload)) hw
  refine ⟨⟨fun hall => ?_, fun hload w hw => (hinv hload w hw).inUniverse⟩, fun hload hfew => ?_,
    fun hpos hle => room_of_le hpos hle h⟩
  · by_contra hlt
    obtain ⟨w, hw, hop⟩ := exists_outside (c := .make seed kind shape) (UInt64.not_le.1 hlt)
    exact UInt64.lt_irrefl _ ((hall w hw).ops _ hop)
  · obtain ⟨fuel, hnext⟩ := exists_next (ok_of_make seed h hload) hfew
    exact ⟨fuel, fun more hmore w hw => hnext more hmore w (hinv hload w hw)⟩

def sampleShape : WorkloadShape where
  nLoad := 1875
  nInsert := 1875
  nHot := 234
  nUpdates := 2500
  nDeletes := 938
  nMixed := 1875
  nMixedNew := 938
  universeSize := 4688
  readUniverse := 5045
  window := 0
  lag := 0

theorem inUniverse_iff_sampleShape :
    WorkloadShape.make (1 / 128) .mixed = some sampleShape ∧
      ∀ w, (system (.make 7 .mixed sampleShape)).Reachable w → InUniverse sampleShape w := by
  have h : WorkloadShape.make (1 / 128) .mixed = some sampleShape := by decide +kernel
  exact ⟨h, (inUniverse_iff 7 h).1.2 (by decide)⟩

/-- A shape whose sizes do not fit in 64 bits: about 7 * 10^18 ids to load, in a universe of 1024. -/
def hugeShape : WorkloadShape where
  nLoad := 7378697629483821056
  nInsert := 7378697629483821056
  nHot := 922337203685477632
  nUpdates := 9838263505978427392
  nDeletes := 3689348814741910528
  nMixed := 7378697629483821056
  nMixedNew := 3689348814741910528
  universeSize := 1024
  readUniverse := 1152
  window := 0
  lag := 0

theorem not_inUniverse : ¬ ∀ (seed : UInt64) (kind : WorkloadKind) (scale : ℚ) (shape : WorkloadShape),
    WorkloadShape.make scale kind = some shape →
      ∀ w, (system (.make seed kind shape)).Reachable w → InUniverse shape w := by
  intro hall
  have hmake : WorkloadShape.make (3935305402391371 / 128) .mixed = some hugeShape := by
    decide +kernel
  obtain ⟨w, hw, hop⟩ := exists_outside (c := .make 7 .mixed hugeShape) (by decide)
  exact absurd ((hall 7 .mixed _ hugeShape hmake w hw).ops _ hop) (by decide)

end LevelDb.Bench.Phases
