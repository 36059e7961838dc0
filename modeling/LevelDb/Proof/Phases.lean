import LevelDb.Db.Phases
import LevelDb.Proof.Workload

/-!
# The phases of the workload `mixed`

`Cursors.Ok` are the bounds of every state: the ids of the batch under way are in the universe, and so
is every cursor that ids are taken from. Each part of a step keeps them (`Stays`), most of them because
they change no cursor (`Idle`) or answer an id that is in the universe (`Draws`). Only phase D goes
past a range that it began in (`deleteLoop_stays`), and only phase B depends on `Permute` to end. That
phase is the one that has been looked at alone (`insertStep_inserting`).
-/

namespace LevelDb.Bench.Phases

open Hoare

/-! ## Cursors -/

/-- What the bounds depend on: the batch under way and where the generator is. -/
structure Cursors where
  ops : List Op
  inRange : Bool
  pos : Nat
  sub : UInt64
  delNext : UInt64
  maxWritten : UInt64
  head : UInt64
  purgeNext : UInt64

def Workload.cursors (w : Workload) : Cursors :=
  ⟨w.st.ops, w.inRange, w.pos, w.sub, w.delNext, w.maxWritten, w.head, w.purgeNext⟩

/-- The bounds of every state. The purged range of phase D may be overrun by less than a batch. -/
structure Cursors.Ok (c : Config) (u : Cursors) : Prop where
  ops : ∀ op ∈ u.ops, op.id < c.shape.universeSize
  inRange : u.inRange = true
  delNext : u.delNext.toNat ≤ c.delLo.toNat + c.delRangeLen.toNat + 3
  written : u.maxWritten ≤ c.shape.universeSize
  head : u.head ≤ c.shape.universeSize
  purged : u.purgeNext ≤ u.head
  fresh : u.pos ≤ 2 → u.purgeNext = 0

/-- The ranges of `mixed`: the ids of the load and of the inserts, with room for 100 more. -/
structure Config.Spans (c : Config) : Prop where
  room : c.shape.nLoad.toNat + c.shape.nInsert.toNat + 100 ≤ c.shape.universeSize.toNat
  hot : c.hotLo.toNat + c.shape.nHot.toNat ≤ c.shape.nLoad.toNat + c.shape.nInsert.toNat
  purged : c.delLo.toNat + c.delRangeLen.toNat ≤ c.shape.nLoad.toNat + c.shape.nInsert.toNat
  nHot : 0 < c.shape.nHot
  nLoad : 0 < c.shape.nLoad

/-- What the constructor makes of a shape whose load has room in the universe. From more than `2 ^ 62`
inserts on, `Permute` does not end, and nothing need be known of the later phases. -/
structure Config.Ok (c : Config) : Prop where
  loaded : c.shape.nLoad ≤ c.shape.universeSize
  nonempty : 0 < c.shape.universeSize
  mixed : c.kind = .mixed → c.shape.nInsert.toNat ≤ 2 ^ 62 → c.Spans
  other : c.kind ≠ .mixed → (recipeOf c.kind).dist ≠ .append → 0 < c.shape.nLoad
  bimodal : (recipeOf c.kind).dist = .bimodal →
    c.hotLo.toNat + c.shape.nHot.toNat ≤ c.shape.nLoad.toNat ∧ 0 < c.shape.nHot

namespace Cursors.Ok

variable {c : Config} {u : Cursors} (h : u.Ok c)
include h

theorem put {id : UInt64} (hid : id < c.shape.universeSize) :
    Cursors.Ok c { u with
      ops := u.ops ++ [⟨false, id⟩]
      maxWritten := if u.maxWritten < id + 1 then id + 1 else u.maxWritten } where
  ops := by
    intro op hop
    rcases List.mem_append.1 hop with hop | hop
    · exact h.ops op hop
    · cases List.mem_singleton.1 hop
      exact hid
  inRange := h.inRange
  delNext := h.delNext
  written := by
    have hw := h.written
    show (if u.maxWritten < id + 1 then id + 1 else u.maxWritten) ≤ c.shape.universeSize
    grind
  head := h.head
  purged := h.purged
  fresh := h.fresh

theorem del {id : UInt64} (hid : id < c.shape.universeSize) :
    Cursors.Ok c { u with ops := u.ops ++ [⟨true, id⟩] } :=
  { h with
    ops := by
      intro op hop
      rcases List.mem_append.1 hop with hop | hop
      · exact h.ops op hop
      · cases List.mem_singleton.1 hop
        exact hid }

end Cursors.Ok

/-! ## Programs that keep the bounds -/

section
variable {c : Config} {stuck : Prop} {w : Workload}

section
variable {α β : Type}

/-- A program that changes none of the cursors. -/
def Idle (stuck : Prop) (x : Gen α) (w : Workload) : Prop :=
  wp stuck x (fun _ w' => w'.cursors = w.cursors) w

/-- A program that keeps the bounds, and the generator in its phase. -/
def Stays (c : Config) (stuck : Prop) (x : Gen α) (w : Workload) : Prop :=
  w.cursors.Ok c → wp stuck x (fun _ w' => w'.cursors.Ok c ∧ w'.pos = w.pos) w

theorem Idle.stays {x : Gen α} (hx : Idle stuck x w) : Stays c stuck x w := by
  intro h
  apply hx.imp
  intro _ _ hw
  exact ⟨hw ▸ h, congrArg Cursors.pos hw⟩

theorem Idle.bind {x : Gen α} {f : α → Gen β} (hx : Idle stuck x w)
    (hf : ∀ a w', w'.cursors = w.cursors → Idle stuck (f a) w') : Idle stuck (x >>= f) w :=
  wp.bind hx fun a w' hw => (hf a w' hw).imp fun _ _ h => h.trans hw

theorem Idle.bind_stays {x : Gen α} {f : α → Gen β} (hx : Idle stuck x w)
    (hf : ∀ a w', w'.cursors = w.cursors → Stays c stuck (f a) w') : Stays c stuck (x >>= f) w := by
  intro h
  apply wp.bind hx
  intro a w' hw
  apply (hf a w' hw (hw ▸ h)).imp
  intro _ _ h'
  exact ⟨h'.1, h'.2.trans (congrArg Cursors.pos hw)⟩

theorem Stays.bind {x : Gen α} {f : α → Gen β} (hx : Stays c stuck x w)
    (hf : ∀ a w', w'.pos = w.pos → Stays c stuck (f a) w') : Stays c stuck (x >>= f) w := by
  intro h
  apply (hx h).bind
  intro a w' hw
  exact (hf a w' hw.2 hw.1).imp fun _ _ h' => ⟨h'.1, h'.2.trans hw.2⟩

theorem modify_idle {f : Workload → Workload} (hf : (f w).cursors = w.cursors) :
    Idle stuck (modify f) w := hf

theorem pure_idle {a : α} : Idle stuck (pure a) w := rfl

theorem Stays.get {f : Workload → Gen β} (hf : Stays c stuck (f w) w) :
    Stays c stuck (get >>= f) w := hf

theorem Stays.ite {p : Prop} [Decidable p] {x y : Gen α} (hx : p → Stays c stuck x w)
    (hy : ¬p → Stays c stuck y w) : Stays c stuck (if p then x else y) w := by
  split
  · exact hx ‹_›
  · exact hy ‹_›

theorem Idle.loop {body : Nat → Gen Unit} {n : Nat}
    (hbody : ∀ j w', w'.cursors = w.cursors → Idle stuck (body j) w') :
    Idle stuck (forWhile (pure true) body n 0) w := by
  have hround : ∀ j w', j < 0 + n → w'.cursors = w.cursors →
      wp stuck (pure true) (fun b w'' =>
        (b = true → wp stuck (body j) (fun _ w3 => w3.cursors = w.cursors) w'') ∧
        (b = false → w''.cursors = w.cursors)) w' := by
    intro j w' _ hw
    exact ⟨fun _ => (hbody j w' hw).imp fun _ _ h => h.trans hw, fun _ => hw⟩
  apply (wp_forWhile hround rfl).imp
  intro _ _ h
  obtain ⟨_, _, h⟩ := h
  exact h

/-- **The loop of a batch**: `C` is what its condition finds. -/
theorem Stays.loop {cond : Gen Bool} {body : Nat → Gen Unit} {C : Workload → Prop} {n : Nat}
    (hcond : ∀ w', w'.cursors.Ok c →
      wp stuck cond (fun b w'' => w''.cursors = w'.cursors ∧ (b = true → C w'')) w')
    (hbody : ∀ j w', w'.pos = w.pos → C w' → Stays c stuck (body j) w') :
    Stays c stuck (forWhile cond body n 0) w := by
  intro h
  have hround : ∀ j w', j < 0 + n → w'.cursors.Ok c ∧ w'.pos = w.pos →
      wp stuck cond (fun b w'' =>
        (b = true → wp stuck (body j) (fun _ w3 => w3.cursors.Ok c ∧ w3.pos = w.pos) w'') ∧
        (b = false → w''.cursors.Ok c ∧ w''.pos = w.pos)) w' := by
    intro j w' _ hw
    apply (hcond w' hw.1).imp
    intro b w'' hC
    obtain ⟨heq, hC⟩ := hC
    have hok : w''.cursors.Ok c := heq ▸ hw.1
    have hpos : w''.pos = w.pos := (congrArg Cursors.pos heq).trans hw.2
    refine ⟨fun hb => ?_, fun _ => ⟨hok, hpos⟩⟩
    exact (hbody j w'' hpos (hC hb) hok).imp fun _ _ h' => ⟨h'.1, h'.2.trans hpos⟩
  apply (wp_forWhile hround ⟨h, rfl⟩).imp
  intro _ _ h
  obtain ⟨_, _, h⟩ := h
  exact h

end

/-! ## Draws -/

theorem wp_chance {percent : UInt64} {post : Bool → Workload → Prop} :
    wp stuck (chance percent) post w ↔
      post (w.rng.chance percent).1 { w with rng := (w.rng.chance percent).2 } := by
  unfold wp chance
  exact Iff.rfl

theorem wp_below {n : UInt64} {post : UInt64 → Workload → Prop} :
    wp stuck (below n) post w ↔ post (w.rng.below n).1 { w with rng := (w.rng.below n).2 } := by
  unfold wp below
  exact Iff.rfl

theorem below_lt (r : Rng) {n : UInt64} (hn : 0 < n) : (r.below n).1 < n := by
  have hne : n ≠ 0 := by
    rintro rfl
    exact absurd hn (by decide)
  rw [Rng.below, if_neg hne]
  exact UInt64.mod_lt _ hn

/-- A program that changes none of the cursors, and answers what `P` says. -/
def Draws (stuck : Prop) (x : Gen UInt64) (P : UInt64 → Prop) (w : Workload) : Prop :=
  wp stuck x (fun id w' => P id ∧ w'.cursors = w.cursors) w

theorem below_draws {n : UInt64} (hn : 0 < n) : Draws stuck (below n) (· < n) w :=
  ⟨below_lt w.rng hn, rfl⟩

theorem below_draws_any (n : UInt64) : Draws stuck (below n) (fun _ => True) w := ⟨trivial, rfl⟩

theorem existingId_draws (hc : c.Ok) (h : w.cursors.Ok c) :
    Draws stuck existingId (· < c.shape.universeSize) w := by
  have hw : w.maxWritten ≤ c.shape.universeSize := h.written
  have hpos := hc.nonempty
  refine ⟨?_, rfl⟩
  show (w.rng.below _).1 < _
  split
  · have hlt := @below_lt w.rng 1 (by decide)
    grind
  · rename_i hne
    have hlt := @below_lt w.rng w.maxWritten (by grind)
    grind

theorem Draws.any {x : Gen UInt64} {P : UInt64 → Prop} (h : Draws stuck x P w) :
    Draws stuck x (fun _ => True) w := h.imp fun _ _ h => ⟨trivial, h.2⟩

theorem chance_idle (percent : UInt64) : Idle stuck (chance percent) w := by
  unfold Idle Workload.cursors
  rw [wp_chance]

/-- A draw that depends on another. -/
theorem Draws.choose {percent : UInt64} {x y : Gen UInt64} {P : UInt64 → Prop}
    (hx : ∀ w', w'.cursors = w.cursors → Draws stuck x P w')
    (hy : ∀ w', w'.cursors = w.cursors → Draws stuck y P w') :
    Draws stuck (choose percent x y) P w := by
  apply wp.bind (chance_idle percent)
  intro b w' hw
  split
  · exact (hx w' hw).imp fun _ _ h => ⟨h.1, h.2.trans hw⟩
  · exact (hy w' hw).imp fun _ _ h => ⟨h.1, h.2.trans hw⟩

theorem Draws.either {b : Bool} {x y : Gen UInt64} {P : UInt64 → Prop} (hx : Draws stuck x P w)
    (hy : Draws stuck y P w) : Draws stuck (if b then x else y) P w := by
  split
  · exact hx
  · exact hy

theorem existingId_draws_any : Draws stuck existingId (fun _ => True) w := ⟨trivial, rfl⟩

theorem readId_draws (c : Config) : Draws stuck (readId c) (fun _ => True) w :=
  Draws.choose (fun _ _ => existingId_draws_any) fun _ _ => below_draws_any _

section
variable (hs : c.Spans)
include hs

theorem Config.Spans.toNat_add :
    (c.shape.nLoad + c.shape.nInsert).toNat = c.shape.nLoad.toNat + c.shape.nInsert.toNat := by
  have hroom := hs.room
  have hmax := c.shape.universeSize.toNat_lt
  rw [UInt64.toNat_add]
  omega

theorem hotId_draws : Draws stuck (hotId c) (· < c.shape.universeSize) w := by
  have hlt := below_lt w.rng hs.nHot
  have hroom := hs.room
  have hhot := hs.hot
  have hmax := c.shape.universeSize.toNat_lt
  refine ⟨?_, rfl⟩
  show c.hotLo + _ < _
  rw [UInt64.lt_iff_toNat_lt] at hlt ⊢
  rw [UInt64.toNat_add]
  omega

theorem windowId_draws : Draws stuck (windowId c) (· < c.shape.universeSize) w := by
  have hroom := hs.room
  have hadd := hs.toNat_add
  have hload := UInt64.lt_iff_toNat_lt.1 hs.nLoad
  refine ⟨?_, rfl⟩
  show (_ + _) % (c.shape.nLoad + c.shape.nInsert) < _
  have hspan : 0 < c.shape.nLoad + c.shape.nInsert := by
    rw [UInt64.lt_iff_toNat_lt, hadd]
    exact Nat.lt_of_lt_of_le hload (Nat.le_add_right _ _)
  have hlt := UInt64.mod_lt ((c.hotLo + w.sub * (c.shape.nLoad + c.shape.nInsert) / c.shape.nMixed) %
    (c.shape.nLoad + c.shape.nInsert) + (w.rng.below (c.shape.nHot / 2 + 1)).1) hspan
  rw [UInt64.lt_iff_toNat_lt, hadd] at hlt
  rw [UInt64.lt_iff_toNat_lt]
  exact hlt.trans (by omega)

end

theorem Draws.idle {x : Gen UInt64} {P : UInt64 → Prop} (h : Draws stuck x P w) : Idle stuck x w :=
  h.imp fun _ _ h => h.2

/-- A program that goes on with what is drawn. -/
theorem Draws.bind_stays {x : Gen UInt64} {f : UInt64 → Gen Unit} {P : UInt64 → Prop}
    (hx : w.cursors.Ok c → Draws stuck x P w)
    (hf : ∀ id w', P id → w'.cursors = w.cursors → Stays c stuck (f id) w') :
    Stays c stuck (x >>= f) w := by
  intro h
  apply wp.bind (hx h)
  intro id w' hw
  apply (hf id w' hw.1 hw.2 (hw.2 ▸ h)).imp
  intro _ _ h'
  exact ⟨h'.1, h'.2.trans (congrArg Cursors.pos hw.2)⟩

/-! ## Reads and snapshots -/

theorem readStep_idle {phase : Char} {x : Gen UInt64} (hx : Idle stuck x w) :
    Idle stuck (do readStep phase (← x)) w :=
  hx.bind fun _ _ _ => rfl

theorem getStep_idle {phase : Char} : Idle stuck (getStep c phase) w :=
  readStep_idle (readId_draws c).idle

theorem scanStep_idle {phase : Char} {lo hi : UInt32} : Idle stuck (scanStep c phase lo hi) w := by
  unfold scanStep
  rfl

/-- Sampling changes no cursor where its draws change none. -/
theorem snapTake_idle {phase : Char} {draw : Nat → Gen UInt64}
    (hdraw : ∀ i w', w'.cursors = w.cursors → Idle stuck (draw i) w') :
    Idle stuck (snapTake phase draw) w := by
  unfold snapTake
  apply (modify_idle rfl).bind
  intro _ w' hw
  apply Idle.loop
  intro j w'' hw'
  apply (hdraw j w'' (hw'.trans hw)).bind
  intro _ _ _
  exact modify_idle rfl

theorem snapStep_idle {batches : UInt64} {phase : Char} {draw : Nat → Gen UInt64}
    (hdraw : ∀ i w', w'.cursors = w.cursors → Idle stuck (draw i) w') :
    Idle stuck (snapStep batches phase draw) w := by
  unfold Idle snapStep
  rw [wp_bind, wp_get, wp_ite]
  refine ⟨fun _ => rfl, fun _ => ?_⟩
  rw [wp_ite]
  refine ⟨fun _ => ?_, fun _ => rfl⟩
  rw [wp_bind, wp_modify, wp_bind]
  exact snapTake_idle hdraw

theorem snapId_idle (c : Config) (i : Nat) : Idle stuck (snapId c i) w := by
  unfold snapId
  split
  · rfl
  · exact existingId_draws_any.idle

/-! ## Permute -/

/-- The loop over `bits` ends for `2 ^ 62` at most: the shift takes `bits` modulo 64. -/
theorem le_of_bitsLoop {n bits bits' : UInt64} {fuel : Nat} (heven : bits.toNat % 2 = 0)
    (h : bitsLoop n fuel bits = some bits') : n.toNat ≤ 2 ^ 62 := by
  induction fuel generalizing bits with
  | zero => cases h
  | succ fuel ih =>
    rw [bitsLoop] at h
    split at h
    · apply ih _ h
      rw [UInt64.toNat_add]
      show (bits.toNat + 2) % 2 ^ 64 % 2 = 0
      omega
    · rename_i hge
      have hpow : ((1 : UInt64) <<< bits).toNat = 2 ^ (bits.toNat % 64) := by
        have hlt : 2 ^ (bits.toNat % 64) < 2 ^ 64 :=
          Nat.pow_lt_pow_right (by decide) (Nat.mod_lt _ (by decide))
        rw [UInt64.toNat_shiftLeft, Nat.shiftLeft_eq]
        show 1 * 2 ^ (bits.toNat % 64) % 2 ^ 64 = _
        rw [Nat.one_mul, Nat.mod_eq_of_lt hlt]
      rw [UInt64.lt_iff_toNat_lt, hpow, Nat.not_lt] at hge
      exact hge.trans (Nat.pow_le_pow_right (by decide) (by omega))

/-- Where `Permute` ends, there are not too many numbers, and it answers one of them. -/
theorem permute_eq_some {fuel : Nat} {permKey i n id : UInt64}
    (h : permute fuel permKey i n = some id) : n.toNat ≤ 2 ^ 62 ∧ id < n := by
  obtain ⟨bits, hbits, hwalk⟩ := Option.bind_eq_some_iff.1 h
  obtain ⟨_, _, _, hid, _⟩ := Feistel.walk_eq_some.1 hwalk
  exact ⟨le_of_bitsLoop (by decide) hbits, hid⟩

/-! ## Operations -/

theorem addPut_stays {id : UInt64} (hid : id < c.shape.universeSize) :
    Stays c stuck (addPut id) w := fun h => ⟨h.put hid, rfl⟩

theorem addDel_stays {id : UInt64} (hid : id < c.shape.universeSize) :
    Stays c stuck (addDel id) w := fun h => ⟨h.del hid, rfl⟩

theorem nextSub_stays : Stays c stuck nextSub w := fun h => ⟨{ h with }, rfl⟩

theorem batch_idle (phase : Char) : Idle stuck (batch phase) w := rfl

theorem always_spec (w : Workload) :
    wp stuck (pure true : Gen Bool) (fun b w' => w'.cursors = w.cursors ∧ (b = true → True)) w :=
  ⟨rfl, fun _ => trivial⟩

theorem subBelow_spec (n : UInt64) (w : Workload) :
    wp stuck (subBelow n) (fun b w' => w'.cursors = w.cursors ∧ (b = true → w'.sub < n)) w :=
  ⟨rfl, of_decide_eq_true⟩

/-! ## The phases of `mixed` -/

theorem loadLoop_stays (hc : c.Ok) (per : Nat) : Stays c stuck (forWhile (subBelow c.shape.nLoad)
    (fun _ => do
      addPut (← get).sub
      nextSub) per 0) w := by
  apply Stays.loop fun w' _ => subBelow_spec _ w'
  intro _ w' _ hsub
  have hload := hc.loaded
  have hid : w'.sub < c.shape.universeSize := by grind
  exact Stays.get ((addPut_stays hid).bind fun _ _ _ => nextSub_stays)

theorem loadStep_stays (hc : c.Ok) : Stays c stuck (loadStep c) w :=
  (batch_idle _).bind_stays fun _ _ _ => loadLoop_stays hc 8

/-- **A batch of phase B**: where an id is put, `Permute` has ended. -/
theorem insertStep_stays (hc : c.Ok) (hkind : c.kind = .mixed) {fuel : Nat}
    (hstuck : ∀ i < c.shape.nInsert, permute fuel c.permKey i c.shape.nInsert = none → stuck)
    (h : w.cursors.Ok c) (hsub : w.sub ≠ 0 → c.shape.nInsert.toNat ≤ 2 ^ 62) :
    wp stuck (insertStep c fuel) (fun _ w' => (w'.cursors.Ok c ∧ w'.pos = w.pos) ∧
      (w'.cursors.sub ≠ 0 → c.shape.nInsert.toNat ≤ 2 ^ 62)) w := by
  unfold insertStep
  rw [wp_bind, wp_get, wp_ite]
  constructor
  · intro _
    rw [wp_bind, wp_modify]
    apply wp.imp getStep_idle
    intro _ w1 hw
    rw [hw]
    exact ⟨⟨{ h with }, congrArg Cursors.pos hw⟩, hsub⟩
  · intro _
    rw [wp_bind, wp_modify]
    apply wp.bind (batch_idle 'B')
    intro _ w1 hw1
    apply wp.bind (below_draws_any 4).idle
    intro n w2 hw2
    have heq : w2.cursors = w.cursors := hw2.trans hw1
    apply (wp_forWhile (I := fun _ w' => (w'.cursors.Ok c ∧ w'.pos = w.pos) ∧
      (w'.cursors.sub ≠ 0 → c.shape.nInsert.toNat ≤ 2 ^ 62)) ?_ ?_).imp
    · intro _ _ hend
      obtain ⟨_, _, hend⟩ := hend
      exact hend
    · intro j w3 _ hw3
      apply (subBelow_spec _ w3).imp
      intro b w4 hw4
      obtain ⟨heq4, hlt⟩ := hw4
      have hpos4 : w4.pos = w3.pos := congrArg Cursors.pos heq4
      rw [← heq4, ← hpos4] at hw3
      refine ⟨fun hb => ?_, fun _ => hw3⟩
      rw [wp_bind, wp_get, wp_bind]
      apply wp_lift (hstuck _ (hlt hb))
      intro id hid
      obtain ⟨hfew, hid⟩ := permute_eq_some hid
      have hroom := (hc.mixed hkind hfew).room
      have hmax := c.shape.universeSize.toNat_lt
      have hput : c.shape.nLoad + id < c.shape.universeSize := by
        rw [UInt64.lt_iff_toNat_lt] at hid ⊢
        rw [UInt64.toNat_add]
        omega
      exact ⟨⟨{ hw3.1.1.put hput with }, hw3.1.2⟩, fun _ => hfew⟩
    · refine ⟨⟨?_, congrArg Cursors.pos heq⟩, ?_⟩
      · rw [heq]
        exact h
      · rw [heq]
        exact hsub

section
variable (hc : c.Ok)
include hc

theorem updateStep_stays (hs : c.Spans) : Stays c stuck (updateStep c) w := by
  unfold updateStep
  apply Stays.get
  apply (snapStep_idle fun i _ _ => snapId_idle c i).bind_stays
  intro b w1 _
  apply Stays.ite (fun _ => pure_idle.stays)
  intro _
  apply Stays.get
  apply Stays.ite
  · intro _
    exact (modify_idle rfl).bind_stays fun _ _ _ => scanStep_idle.stays
  intro _
  apply Stays.ite
  · intro _
    exact (modify_idle rfl).bind_stays fun _ _ _ => getStep_idle.stays
  intro _
  apply (modify_idle rfl).bind_stays
  intro _ w2 _
  apply (batch_idle 'C').bind_stays
  intro _ w3 _
  apply (below_draws_any 8).idle.bind_stays
  intro n w4 _
  apply Stays.loop fun w' _ => subBelow_spec _ w'
  intro _ w5 _ _
  apply Draws.bind_stays fun h => Draws.choose (fun _ _ => hotId_draws hs) fun _ hw =>
    existingId_draws hc (hw ▸ h)
  intro id w6 hid _
  exact (addPut_stays hid).bind fun _ _ _ => nextSub_stays

/-- The ids of a window or those that were written. -/
theorem putWindow_stays (hs : c.Spans) (percent : UInt64) :
    Stays c stuck (do addPut (← choose percent (windowId c) existingId)) w := by
  apply Draws.bind_stays fun h => Draws.choose (fun _ _ => windowId_draws hs) fun _ hw =>
    existingId_draws hc (hw ▸ h)
  intro id w1 hid _
  exact addPut_stays hid

theorem delExisting_stays : Stays c stuck (do addDel (← existingId)) w := by
  apply Draws.bind_stays fun h => existingId_draws hc h
  intro id w1 hid _
  exact addDel_stays hid

omit hc in
theorem nextNew_draws (h : w.mixedNewNext < c.shape.universeSize) :
    Draws stuck nextNew (· < c.shape.universeSize) w := ⟨h, rfl⟩

theorem mixedOp_stays (hs : c.Spans) : Stays c stuck (mixedOp c) w := by
  unfold mixedOp
  apply (below_draws_any 100).idle.bind_stays
  intro r w1 _
  apply Stays.get
  apply Stays.ite (fun _ => putWindow_stays hc hs 67)
  intro _
  apply Stays.ite
  · intro hnew
    apply Draws.bind_stays fun _ => nextNew_draws hnew.2
    intro id w2 hid _
    exact addPut_stays hid
  · intro _
    exact delExisting_stays hc

theorem mixedStep_stays (hs : c.Spans) : Stays c stuck (mixedStep c) w := by
  unfold mixedStep
  apply Stays.get
  apply (snapStep_idle fun i _ _ => snapId_idle c i).bind_stays
  intro b w1 _
  apply Stays.ite (fun _ => pure_idle.stays)
  intro _
  apply (below_draws_any 100).idle.bind_stays
  intro roll w2 _
  apply Stays.ite (fun _ => getStep_idle.stays)
  intro _
  apply Stays.ite (fun _ => scanStep_idle.stays)
  intro _
  apply (modify_idle rfl).bind_stays
  intro _ w3 _
  apply (batch_idle 'E').bind_stays
  intro _ w4 _
  apply (below_draws_any 6).idle.bind_stays
  intro n w5 _
  apply Stays.loop fun w' _ => subBelow_spec _ w'
  intro _ w6 _ _
  exact (mixedOp_stays hc hs).bind fun _ _ _ => nextSub_stays

theorem extensionOp_stays (hs : c.Spans) : Stays c stuck (extensionOp c) w := by
  unfold extensionOp
  apply (chance_idle 80).bind_stays
  intro b w1 _
  exact Stays.ite (fun _ => putWindow_stays hc hs 50) fun _ => delExisting_stays hc

theorem extensionStep_stays (hs : c.Spans) : Stays c stuck (extensionStep c) w := by
  unfold extensionStep
  apply (below_draws_any 100).idle.bind_stays
  intro roll w1 _
  apply Stays.ite (fun _ => getStep_idle.stays)
  intro _
  apply Stays.ite (fun _ => scanStep_idle.stays)
  intro _
  apply (batch_idle 'X').bind_stays
  intro _ w2 _
  apply (below_draws_any 6).idle.bind_stays
  intro n w3 _
  apply Stays.loop fun w' _ => always_spec w'
  intro _ w4 _ _
  exact (extensionOp_stays hc hs).bind fun _ _ _ => nextSub_stays

end

theorem remember_idle (id : UInt64) : Idle stuck (remember id) w := by
  unfold Idle remember
  rw [wp_bind, wp_get, wp_ite]
  exact ⟨fun _ => rfl, fun _ => rfl⟩

theorem rereadId_idle : Idle stuck (rereadId c) w := by
  unfold rereadId
  apply (chance_idle 50).bind
  intro again w1 _
  unfold Idle
  rw [wp_bind, wp_get, wp_ite]
  exact ⟨fun _ => rfl, fun _ => (readId_draws c).idle⟩

/-- The state before round `j` of a batch of phase D: a batch that began in the purged range has
left it by less than `j` ids. -/
structure Purging (c : Config) (w : Workload) (rangeBatch : Bool) (j : Nat) (u : Cursors) : Prop where
  ok : u.Ok c
  pos : u.pos = w.pos
  next : rangeBatch = true → u.delNext.toNat < c.delLo.toNat + c.delRangeLen.toNat + j

section
variable (hc : c.Ok) (hs : c.Spans) {rangeBatch : Bool} {j : Nat} (hj : j < 4)
include hc hs hj

theorem delId_purging {w1 : Workload} (hw : Purging c w rangeBatch j w1.cursors) :
    wp stuck (delId rangeBatch) (fun id w2 => id < c.shape.universeSize ∧
      Purging c w rangeBatch (j + 1) w2.cursors) w1 := by
  have hroom := hs.room
  have hpurged := hs.purged
  have hmax := c.shape.universeSize.toNat_lt
  unfold delId
  cases rangeBatch with
  | false =>
    apply (existingId_draws hc hw.ok).imp
    intro id w2 hw2
    refine ⟨hw2.1, ?_⟩
    rw [hw2.2]
    exact { hw with next := nofun }
  | true =>
    have hlt : w1.delNext.toNat < _ := hw.next rfl
    have hadd : (w1.delNext + 1).toNat = w1.delNext.toNat + 1 := by
      rw [UInt64.toNat_add]
      show (w1.delNext.toNat + 1) % 2 ^ 64 = _
      omega
    have hid : w1.delNext < c.shape.universeSize := by
      rw [UInt64.lt_iff_toNat_lt]
      omega
    refine ⟨hid, { hw.ok with delNext := ?_ }, hw.pos, fun _ => ?_⟩
    · show (w1.delNext + 1).toNat ≤ _
      omega
    · show (w1.delNext + 1).toNat < _
      omega

theorem deleteRound_purging {w1 : Workload} (hw : Purging c w rangeBatch j w1.cursors) :
    wp stuck (do
      let id ← delId rangeBatch
      addDel id
      remember id
      nextSub) (fun _ w2 => Purging c w rangeBatch (j + 1) w2.cursors) w1 := by
  apply (delId_purging hc hs hj hw).bind
  intro id w2 hw2
  obtain ⟨hid, hw2⟩ := hw2
  rw [wp_bind]
  apply wp.bind (remember_idle id)
  intro _ w3 hw3
  have hw4 : Purging c w rangeBatch (j + 1) w3.cursors := by
    rw [hw3]
    exact { hw2 with ok := hw2.ok.del hid }
  exact { hw4 with ok := { hw4.ok with } }

end

/-- **A batch of phase D**: one that began in the purged range leaves it by three ids at most. -/
theorem deleteLoop_stays (hc : c.Ok) (hs : c.Spans) {n : Nat} {rangeBatch : Bool} (hn : n ≤ 4)
    (hrange : rangeBatch = true → w.delNext.toNat < c.delLo.toNat + c.delRangeLen.toNat) :
    Stays c stuck (forWhile (subBelow c.shape.nDeletes) (fun _ => do
      let id ← delId rangeBatch
      addDel id
      remember id
      nextSub) n 0) w := by
  intro h
  apply (wp_forWhile (I := fun j w' => Purging c w rangeBatch j w'.cursors) ?_ ⟨h, rfl, hrange⟩).imp
  · intro _ _ hend
    obtain ⟨_, _, hend⟩ := hend
    exact ⟨hend.ok, hend.pos⟩
  · intro j w1 hj hw
    apply (subBelow_spec _ w1).imp
    intro b w2 hw2
    rw [← hw2.1] at hw
    exact ⟨fun _ => deleteRound_purging hc hs (by omega) hw, fun _ => hw⟩

theorem deleteStep_stays (hc : c.Ok) (hs : c.Spans) : Stays c stuck (deleteStep c) w := by
  unfold deleteStep
  apply Stays.get
  apply Stays.ite
  · intro _
    apply (modify_idle rfl).bind_stays
    intro _ w1 _
    exact (readStep_idle rereadId_idle).stays
  intro _
  apply (modify_idle rfl).bind_stays
  intro _ w1 _
  apply (batch_idle 'D').bind_stays
  intro _ w2 _
  have hn := @below_lt w2.rng 4 (by decide)
  apply Draws.bind_stays fun _ => below_draws (n := 4) (by decide)
  intro n w3 hn _
  apply (chance_idle 60).bind_stays
  intro ranged w4 _
  apply Stays.get
  have hlt : n.toNat < 4 := hn
  apply deleteLoop_stays hc hs (by omega)
  intro hr
  have hnext := of_decide_eq_true (Bool.and_eq_true_iff.1 hr).2
  rw [UInt64.lt_iff_toNat_lt, UInt64.toNat_add] at hnext
  exact Nat.lt_of_lt_of_le hnext (Nat.mod_le _ _)

/-! ## Phase B alone -/

/-- What phase B uses of the generator. -/
def Workload.inserting (c : Config) (w : Workload) : Bench.Workload :=
  ⟨c.shape.nLoad, c.shape.nInsert, c.shape.readUniverse, c.permKey, w.rng, w.batches, w.maxWritten,
    w.sub, w.insertBatches, w.didRead⟩

/-- A step of phase B. -/
def Step.inserting (st : Step) : Bench.Step := if st.kind = .get then .get st.id else .batch st.ops

section
variable {fuel : Nat}

theorem readId_inserting : wp stuck (readId c) (fun id w' => w'.st = w.st ∧
    (w.inserting c).readId = (id, w'.inserting c)) w := by
  have hread : (w.inserting c).readId = if (w.rng.chance 85).1 then
      { w.inserting c with rng := (w.rng.chance 85).2 }.existingId
    else (((w.rng.chance 85).2.below c.shape.readUniverse).1,
      { w.inserting c with rng := ((w.rng.chance 85).2.below c.shape.readUniverse).2 }) := by
    unfold Bench.Workload.readId Workload.inserting
    rfl
  rw [hread]
  unfold readId choose
  rw [wp_bind, wp_chance, wp_ite]
  constructor
  · intro hold
    rw [if_pos hold]
    exact ⟨rfl, rfl⟩
  · intro hold
    rw [if_neg hold]
    exact ⟨rfl, rfl⟩

/-- The loop of a batch. -/
theorem addPuts_inserting (n i : Nat)
    (hstuck : (w.inserting c).addPuts fuel n w.st.ops = none → stuck) :
    wp stuck (forWhile (subBelow c.shape.nInsert) (fun _ => do
        let id ← StateT.lift (permute fuel c.permKey (← get).sub c.shape.nInsert)
        addPut (c.shape.nLoad + id)
        nextSub) n i)
      (fun _ w' => (w.inserting c).addPuts fuel n w.st.ops = some (w'.st.ops, w'.inserting c) ∧
        w'.st.kind = w.st.kind) w := by
  induction n generalizing i w with
  | zero => exact ⟨rfl, rfl⟩
  | succ n ih =>
    rw [Bench.Workload.addPuts] at hstuck ⊢
    unfold forWhile
    apply wp_bind.2
    show wp _ (if decide (w.sub < c.shape.nInsert) = true then _ else _) _ w
    rw [wp_ite]
    constructor
    · intro hsub
      have hsub' : (w.inserting c).sub < (w.inserting c).nInsert := of_decide_eq_true hsub
      rw [if_pos hsub'] at hstuck ⊢
      rw [wp_bind, wp_bind, wp_get, wp_bind]
      change Option.bind (permute fuel c.permKey w.sub c.shape.nInsert) _ = none → stuck at hstuck
      apply wp_lift
      · intro hnone
        rw [hnone] at hstuck
        exact hstuck rfl
      · intro id hid
        show wp stuck _ (fun _ w' =>
          Option.bind (permute fuel c.permKey w.sub c.shape.nInsert) _ = _ ∧ _) _
        rw [hid] at hstuck ⊢
        exact ih (i + 1) hstuck
    · intro hsub
      have hsub' : ¬(w.inserting c).sub < (w.inserting c).nInsert :=
        of_decide_eq_false (Bool.eq_false_iff.2 hsub)
      rw [if_neg hsub']
      exact ⟨rfl, rfl⟩

/-- **Phase B alone** is phase B of the whole generator. -/
theorem insertStep_inserting (hops : w.st.ops = [])
    (hstuck : (w.inserting c).insertStep fuel = none → stuck) :
    wp stuck (insertStep c fuel) (fun _ w' =>
      (w.inserting c).insertStep fuel = some (w'.st.inserting, w'.inserting c)) w := by
  unfold insertStep
  unfold Bench.Workload.insertStep at hstuck ⊢
  rw [wp_bind, wp_get, wp_ite]
  constructor
  · intro hread
    have hdid : w.didRead = false := by simpa using hread.2.2
    have hread' : 0 < (w.inserting c).sub ∧ (w.inserting c).insertBatches % 16 = 0 ∧
        (w.inserting c).didRead = false := ⟨hread.1, hread.2.1, hdid⟩
    rw [if_pos hread', wp_bind, wp_modify]
    apply readId_inserting.bind
    intro id w' hid
    show some (Bench.Step.get (Workload.inserting c { w with didRead := true }).readId.1,
      (Workload.inserting c { w with didRead := true }).readId.2) = some (.get id, w'.inserting c)
    rw [hid.2]
  · intro hread
    have hread' : ¬(0 < (w.inserting c).sub ∧ (w.inserting c).insertBatches % 16 = 0 ∧
        (w.inserting c).didRead = false) :=
      fun h => hread ⟨h.1, h.2.1, by rw [show w.didRead = false from h.2.2]; rfl⟩
    rw [if_neg hread'] at hstuck ⊢
    rw [wp_bind, wp_modify, wp_bind]
    unfold batch
    rw [wp_modify, wp_bind, wp_below]
    apply wp.imp (addPuts_inserting _ 0 ?_)
    · intro _ w' hw
      obtain ⟨hputs, hkind⟩ := hw
      change Bench.Workload.addPuts _ _ _ w.st.ops = _ at hputs
      rw [hops] at hputs
      have hbatch : w'.st.inserting = .batch w'.st.ops := by
        unfold Step.inserting
        rw [hkind]
        rfl
      rw [hbatch]
      exact congrArg (Option.map fun r => (Bench.Step.batch r.1, r.2)) hputs
    · intro hnone
      change Bench.Workload.addPuts _ _ _ w.st.ops = none at hnone
      rw [hops] at hnone
      exact hstuck (congrArg (Option.map fun r => (Bench.Step.batch r.1, r.2)) hnone)

end

end

end LevelDb.Bench.Phases
