import LevelDb.Proof.Affine
import LevelDb.Proof.Scenario

/-!
# What the generator draws can be made

`next_drawn`: every operation is about a family there is, or creates one there is not; every write has
an operand that can be read back and keys of eight digits.
-/

namespace LevelDb.Conf

open Numerals

/-! ## Draws -/

theorem Gives.bind_of {α β : Type} {Q : α → Prop} {P : β → Prop} {m : Gen α} {f : α → Gen β}
    (hm : Gives m Q) (hf : ∀ a, Q a → Gives (f a) P) : Gives (m >>= f) P :=
  fun d => hf _ (hm d) (m.run d).2

theorem Gives.ite_of {α : Type} {P : α → Prop} {c : Prop} [Decidable c] {m n : Gen α}
    (hm : c → Gives m P) (hn : ¬c → Gives n P) : Gives (if c then m else n) P := by
  split
  · rename_i hc
    exact hm hc
  · rename_i hc
    exact hn hc

theorem Gives.imp {α : Type} {P Q : α → Prop} {m : Gen α} (h : Gives m P) (hPQ : ∀ a, P a → Q a) :
    Gives m Q := fun d => hPQ _ (h d)

theorem Gives.map {α β : Type} {P : β → Prop} {m : Gen α} {f : α → β} (h : ∀ a, P (f a)) :
    Gives (f <$> m) P := fun d => h (m.run d).1

theorem Gives.mapM {α β : Type} {P : β → Prop} {f : α → Gen β} {l : List α}
    (h : ∀ a ∈ l, Gives (f a) P) : Gives (l.mapM f) fun bs => ∀ b ∈ bs, P b := by
  induction l with
  | nil => exact .pure (by simp)
  | cons a l ih =>
    rw [List.mapM_cons]
    refine .bind_of (h a List.mem_cons_self) fun b hb => ?_
    refine .bind_of (ih fun c hc => h c (List.mem_cons_of_mem _ hc)) fun bs hbs => ?_
    exact .pure (List.forall_mem_cons.2 ⟨hb, hbs⟩)

theorem below_le (n : Nat) : Gives (below n) (· ≤ n - 1) := by
  by_cases hn : n = 0
  · subst hn
    exact fun _ => le_rfl
  · exact (below_lt (Nat.pos_of_ne_zero hn)).imp fun _ _ => by omega

/-! ## Writes -/

/-- The write can be made in a scenario, with the extensions or without. -/
structure ConfWrite.Fits (ext : Bool) (w : ConfWrite) : Prop where
  id_lt : w.id < 10 ^ 8
  stop_lt : w.stop < 10 ^ 8
  operand : w.kind = .merge → ext = true ∧ (affineParseOperand w.value).isSome = true

/-- An operand of numbers that were drawn is read back. -/
theorem operand_fits {a b : Nat} (ha : a ≤ kAffineP.toNat - 1 - 1) (hb : b ≤ kAffineP.toNat - 1) :
    (affineParseOperand (affineOperand (.ofNat (1 + a)) (.ofNat b))).isSome = true := by
  rw [toNat_kAffineP] at ha hb
  rw [affineParseOperand_affineOperand]
  · rfl
  · rw [lt_kAffineP, UInt64.toNat_ofNat']
    omega
  · rw [lt_kAffineP, UInt64.toNat_ofNat']
    omega

/-- What the generator promises of an operation where these families exist. -/
structure ConfOp.Fits (ext : Bool) (live : Nat → Bool) (op : ConfOp) : Prop where
  family : op.kind ≠ .create → live op.family = true
  create : op.kind = .create → live op.family = false ∧ op.family < kMaxFamilies
  drop : op.kind = .drop → op.family ≠ 0
  walk : op.kind = .walk → op.id < 10 ^ 8
  single : op.single = true → op.writes.length = 1
  writes : ∀ w ∈ op.writes, live w.family = true ∧ w.toConfWrite.Fits ext

namespace ScenarioGen

variable {g : ScenarioGen} {models : ConfModels} {family : Nat}

theorem randomWrite_fits (g : ScenarioGen) {id : Nat} (hid : id < 10 ^ 8) {allowMerge : Bool}
    (hallow : allowMerge = true → g.ext = true) :
    Gives (randomWrite id allowMerge) fun w => w.Fits g.ext := by
  refine .bind fun roll => .ite_of (fun hmerge => ?_) fun _ => .ite ?_ ?_
  · refine .bind_of (below_le _) fun a ha => .bind_of (below_le _) fun b hb => .pure ?_
    exact ⟨hid, by simp, fun _ => ⟨hallow hmerge.1, operand_fits ha hb⟩⟩
  · exact .bind fun version => .bind fun pad => .pure ⟨hid, by simp, by simp⟩
  · exact .pure ⟨hid, by simp, by simp⟩

/-- The generator draws from a range of ids, and the default family exists. -/
structure Ready (g : ScenarioGen) : Prop where
  pos : 0 < g.shape.keys
  le : g.shape.keys ≤ 3000
  default : g.live 0 = true

theorem ready_new (seed : UInt64) (ops : Nat) (ext : Bool) : (new seed ops ext).Ready := by
  refine ⟨?_, ?_, rfl⟩
  · simp only [new, shapeFor]
    omega
  · simp only [new, shapeFor]
    omega

variable (hg : g.Ready)
include hg

theorem pickFamily_live : Gives g.pickFamily fun family => g.live family = true := by
  refine .ite (.pure hg.default) (.ite (.pure hg.default) ?_)
  refine .bind fun often => .ite (.pure hg.default) (.bind fun i => .pure ?_)
  rw [List.getD_eq_getElem?_getD]
  cases hi : ((List.range kMaxFamilies).filter g.live)[i]? with
  | none => exact hg.default
  | some family => exact (List.mem_filter.1 (List.mem_of_getElem? hi)).2

variable (hfamily : g.live family = true)
include hfamily

omit hg in
/-- An operation on the family that is no walk. -/
theorem fits_op {op : ConfOp} (hop : op.family = family) (hkind : op.kind ≠ .create)
    (hdrop : op.kind ≠ .drop) (hwalk : op.kind = .walk → op.id < 10 ^ 8)
    (hsingle : op.single = true → op.writes.length = 1)
    (hwrites : ∀ w ∈ op.writes, g.live w.family = true ∧ w.toConfWrite.Fits g.ext) :
    op.Fits g.ext g.live :=
  ⟨fun _ => hop ▸ hfamily, fun h => absurd h hkind, fun h => absurd h hdrop, hwalk, hsingle, hwrites⟩

theorem singleWrite_fits : Gives (g.singleWrite family) fun op => op.Fits g.ext g.live := by
  have hkeys := hg.le
  refine .bind_of (below_lt hg.pos) fun id hid => ?_
  have hlt : id < 10 ^ 8 := by omega
  refine .bind_of (randomWrite_fits g hlt (by simp)) fun w hw => .pure ?_
  exact fits_op hfamily rfl (by simp) (by simp) (by simp) (by simp) (by simp [hfamily, hw])

omit hg in
/-- Writes with ids drawn from `lo` on. -/
theorem writesFrom_fits {n lo span : Nat} (hlo : lo + span ≤ 10 ^ 8) (hspan : 0 < span)
    (hext : g.ext = true) : Gives (writesFrom n lo span family) fun ws =>
      ∀ w ∈ ws, g.live w.family = true ∧ w.toConfWrite.Fits g.ext := by
  refine .mapM fun _ _ => .bind_of (below_lt hspan) fun id hid => ?_
  have hlt : lo + id < 10 ^ 8 := by omega
  refine .bind_of (randomWrite_fits g hlt fun _ => hext) fun w hw => .pure ⟨hfamily, hw⟩

theorem batch_fits : Gives (g.batch family) fun op => op.Fits g.ext g.live := by
  have hkeys := hg.le
  have hwrites (n : Nat) (span : Bool) : Gives ((List.range (1 + n)).mapM fun _ => do
      let id ← below g.shape.keys
      let w ← randomWrite id g.ext
      return ({ toConfWrite := w, family := ← if span then g.pickFamily else pure family } :
        FamilyWrite)) fun ws => ∀ w ∈ ws, g.live w.family = true ∧ w.toConfWrite.Fits g.ext := by
    refine .mapM fun _ _ => .bind_of (below_lt hg.pos) fun id hid => ?_
    have hlt : id < 10 ^ 8 := by omega
    refine .bind_of (randomWrite_fits g hlt fun h => h) fun w hw => ?_
    exact .ite (.bind_of (pickFamily_live hg) fun f hf => .pure ⟨hf, hw⟩) (.pure ⟨hfamily, hw⟩)
  have hop (ws : List FamilyWrite)
      (hws : ∀ w ∈ ws, g.live w.family = true ∧ w.toConfWrite.Fits g.ext) :
      ({ kind := .write, writes := ws, family } : ConfOp).Fits g.ext g.live :=
    fits_op hfamily rfl (by simp) (by simp) (by simp) (by simp) hws
  refine .bind fun many => .bind fun n => .ite ?_ ?_
  · exact .bind fun span => .bind_of (hwrites n span) fun ws hws => .pure (hop ws hws)
  · exact .bind fun span => .bind_of (hwrites n span) fun ws hws => .pure (hop ws hws)

theorem singleMerge_fits (hext : g.ext = true) :
    Gives (g.singleMerge family) fun op => op.Fits g.ext g.live := by
  have hkeys := hg.le
  have hop (id : Nat) (hid : id < g.shape.keys + 1) : Gives (do
      let a ← below (kAffineP.toNat - 1)
      let b ← below kAffineP.toNat
      return ({ kind := .write, single := true, family,
                writes := [{ kind := .merge, id, family,
                             value := affineOperand (.ofNat (1 + a)) (.ofNat b) }] } : ConfOp))
      fun op => op.Fits g.ext g.live := by
    refine .bind_of (below_le _) fun a ha => .bind_of (below_le _) fun b hb => .pure ?_
    have hw : ConfWrite.Fits g.ext
        { kind := .merge, id, value := affineOperand (.ofNat (1 + a)) (.ofNat b) } :=
      ⟨by simp only; omega, by simp, fun _ => ⟨hext, operand_fits ha hb⟩⟩
    exact fits_op hfamily rfl (by simp) (by simp) (by simp) (by simp) (by simpa [hfamily] using hw)
  refine .bind fun near => .ite ?_ ?_
  · exact .bind_of (below_lt hg.pos) fun id hid => hop id (by omega)
  · exact .bind_of (below_lt (Nat.succ_pos _)) fun id hid => hop id (by omega)

theorem singleRange_fits : Gives (g.singleRange family) fun op => op.Fits g.ext g.live := by
  have hkeys := hg.le
  have hop (id stop : Nat) (hid : id < 4000) (hstop : stop < 10000) :
      ({ kind := .write, single := true, family,
         writes := [{ kind := .deleteRange, id, stop, family }] } : ConfOp).Fits g.ext g.live := by
    have hw : ConfWrite.Fits g.ext { kind := .deleteRange, id, stop } :=
      ⟨by simp only; omega, by simp only; omega, by simp⟩
    exact fits_op hfamily rfl (by simp) (by simp) (by simp) (by simp) (by simpa [hfamily] using hw)
  have hstop (id span : Nat) (hid : id < g.shape.keys + 10) (hspan : span ≤ g.shape.keys + 2) :
      Gives (do
        let stop ← if ← chance 5 then (fun back => id - back) <$> below (id + 1)
          else pure (id + (1 + span))
        return ({ kind := .write, single := true, family,
                  writes := [{ kind := .deleteRange, id, stop, family }] } : ConfOp))
        fun op => op.Fits g.ext g.live := by
    refine .bind fun back => .ite (.bind_of (Q := (· < 10000)) ?_ fun stop hstop => .pure ?_)
      (.pure (hop id _ (by omega) (by omega)))
    · exact .map fun back => by omega
    · exact hop id stop (by omega) hstop
  refine .bind_of (below_lt (by omega)) fun id hid => .bind fun wide => .ite ?_ ?_
  · exact .bind_of (below_le _) fun span hspan => hstop id span hid (by omega)
  · exact .bind_of (below_le _) fun span hspan => hstop id span hid (by omega)

theorem clearRange_fits : Gives (g.clearRange models family) fun op => op.Fits g.ext g.live := by
  have hkeys := hg.le
  have hop (ws : List FamilyWrite)
      (hws : ∀ w ∈ ws, g.live w.family = true ∧ w.toConfWrite.Fits g.ext) :
      ({ kind := .write, writes := ws, family } : ConfOp).Fits g.ext g.live :=
    fits_op hfamily rfl (by simp) (by simp) (by simp) (by simp) hws
  have hplain {w : ConfWrite} (hid : w.id < 10000) (hstop : w.stop < 10000) (hkind : w.kind ≠ .merge) :
      w.Fits g.ext := ⟨by omega, by omega, fun h => absurd h hkind⟩
  refine .bind_of (below_lt hg.pos) fun lo hlo => .bind_of (below_le _) fun width hwidth => ?_
  refine .bind_of (Q := fun ranged => ranged = true → g.ext = true)
    (.ite_of (fun hext => fun _ _ => hext) fun _ => .pure (by simp)) fun ranged hranged => ?_
  refine .ite_of (fun htrue => ?_) fun _ => ?_
  · have hext := hranged htrue
    have hfrom (n : Nat) : Gives (writesFrom n lo (lo + 1 + width - lo + 2) family) fun ws =>
        ∀ w ∈ ws, g.live w.family = true ∧ w.toConfWrite.Fits g.ext :=
      writesFrom_fits hfamily (by omega) (by omega) hext
    have hclear : ConfWrite.Fits g.ext { kind := .deleteRange, id := lo, stop := lo + 1 + width } :=
      hplain (by simp only; omega) (by simp only; omega) (by simp)
    have hall (before after more : List FamilyWrite)
        (hbefore : ∀ w ∈ before, g.live w.family = true ∧ w.toConfWrite.Fits g.ext)
        (hafter : ∀ w ∈ after, g.live w.family = true ∧ w.toConfWrite.Fits g.ext)
        (hmore : ∀ w ∈ more, g.live w.family = true ∧ w.toConfWrite.Fits g.ext) :
        ({ kind := .write, family, writes := before ++
            { kind := .deleteRange, id := lo, stop := lo + 1 + width, family } :: after ++ more } :
          ConfOp).Fits g.ext g.live := by
      refine hop _ fun w hw => ?_
      simp only [List.append_assoc, List.cons_append, List.mem_append, List.mem_cons] at hw
      obtain hw | rfl | hw | hw := hw
      · exact hbefore w hw
      · exact ⟨hfamily, hclear⟩
      · exact hafter w hw
      · exact hmore w hw
    refine .bind fun n => .bind_of (hfrom n) fun before hbefore => .bind fun n' => ?_
    refine .bind_of (hfrom n') fun after hafter => .bind fun again => .ite ?_ ?_
    · refine .bind_of (below_lt (by omega)) fun i hi => .bind_of (below_le _) fun span hspan => ?_
      refine .pure (hall before after _ hbefore hafter fun w hw => ?_)
      obtain rfl := List.mem_singleton.1 hw
      exact ⟨hfamily, hplain (by simp only; omega) (by simp only; omega) (by simp)⟩
    · exact .pure (hall before after [] hbefore hafter (by simp))
  · refine .bind fun back => .bind_of (Q := fun puts : List FamilyWrite =>
      ∀ w ∈ puts, g.live w.family = true ∧ w.toConfWrite.Fits g.ext) ?_ fun puts hputs => .pure ?_
    · refine .mapM fun _ _ => .bind_of (below_lt (by omega)) fun i hi => .bind fun version => ?_
      exact .bind fun pad => .pure ⟨hfamily, hplain (by simp only; omega) (by simp) (by simp)⟩
    · refine hop _ fun w hw => ?_
      split at hw
      · obtain rfl := List.mem_singleton.1 hw
        exact ⟨hfamily, hplain (by simp only; omega) (by simp) (by simp)⟩
      · obtain hw | hw := List.mem_append.1 hw
        · obtain ⟨id, hid, rfl⟩ := List.mem_map.1 hw
          have hrange := List.mem_range'_1.1 (List.mem_of_mem_filter hid)
          exact ⟨hfamily, hplain (by simp only; omega) (by simp) (by simp)⟩
        · exact hputs w hw

theorem burst_fits : Gives (g.burst family) fun op => op.Fits g.ext g.live := by
  have hkeys := hg.le
  refine .bind fun n => .bind fun base => .bind_of (Q := fun ws : List FamilyWrite =>
    ∀ w ∈ ws, g.live w.family = true ∧ w.toConfWrite.Fits g.ext) ?_ fun ws hws => .pure ?_
  · refine .mapM fun i _ => ?_
    have hid : (base + i * 7) % g.shape.keys < g.shape.keys := Nat.mod_lt _ hg.pos
    exact .bind_of (randomWrite_fits g (by omega) fun h => h) fun w hw => .pure ⟨hfamily, hw⟩
  · exact fits_op hfamily rfl (by simp) (by simp) (by simp) (by simp) hws

theorem plainOp_fits (models : ConfModels) (roll : Nat) :
    Gives (g.plainOp models roll family) fun op => op.Fits g.ext g.live := by
  have hkeys := hg.le
  have hread {op : ConfOp} (hop : op.family = family) (hkind : op.kind ≠ .create)
      (hdrop : op.kind ≠ .drop) (hwalk : op.kind = .walk → op.id < 10 ^ 8)
      (hsingle : op.single = false) (hwrites : op.writes = []) : op.Fits g.ext g.live :=
    fits_op hfamily hop hkind hdrop hwalk (by simp [hsingle]) (by simp [hwrites])
  refine .ite (singleWrite_fits hg hfamily) <| .ite_of (fun _ => batch_fits hg hfamily) fun hstock =>
    .ite_of (fun hlt => singleMerge_fits hg hfamily ?_) fun _ =>
    .ite (singleRange_fits hg hfamily) <| .ite (clearRange_fits hg hfamily) <|
    .ite (.bind fun _ => .pure (hread rfl (by simp) (by simp) (by simp) rfl rfl)) <| .ite ?_ <|
    .ite (.pure (hread rfl (by simp) (by simp) (by simp) rfl rfl)) <|
    .ite ?_ (burst_fits hg hfamily)
  · by_contra hno
    exact hstock ⟨by omega, fun h => hno h.1⟩
  · refine .bind_of (below_lt (by omega)) fun id hid => .bind fun count => .pure ?_
    exact hread rfl (by simp) (by simp) (fun _ => by simp only; omega) rfl rfl
  · refine .bind fun all => .ite (.pure (hread rfl (by simp) (by simp) (by simp) rfl rfl)) ?_
    exact .bind fun _ => .bind fun _ => .pure (hread rfl (by simp) (by simp) (by simp) rfl rfl)

end ScenarioGen

/-! ## Operations -/

/-- The families there are after an operation. -/
def ConfOp.liveAfter (op : ConfOp) (live : Nat → Bool) : Nat → Bool :=
  match op.kind with
  | .create => Function.update live op.family true
  | .drop => Function.update live op.family false
  | _ => live

theorem ConfOp.liveAfter_eq {op : ConfOp} (hcreate : op.kind ≠ .create) (hdrop : op.kind ≠ .drop)
    (live : Nat → Bool) : op.liveAfter live = live := by
  unfold ConfOp.liveAfter
  split
  · exact absurd ‹_› hcreate
  · exact absurd ‹_› hdrop
  · rfl

theorem ConfOpKind.Plain.ne {kind : ConfOpKind} (h : kind.Plain) : kind ≠ .create ∧ kind ≠ .drop := by
  cases kind with
  | create | drop => exact h.elim
  | write | gets | walk | scan | snapTake | snapCheck | reopen | compact => simp

namespace ScenarioGen

/-- An operation that can be made, and the generator after it. -/
structure Drawn (g : ScenarioGen) (op : ConfOp) (g' : ScenarioGen) : Prop where
  fits : op.Fits g.ext g.live
  shape : g'.shape = g.shape
  ext : g'.ext = g.ext
  live : g'.live = op.liveAfter g.live

variable {g g' : ScenarioGen} {models : ConfModels} {op : ConfOp}

/-- On a family there is, with the families as they were. -/
theorem Drawn.of_kind (hfits : op.Fits g.ext g.live) (hcreate : op.kind ≠ .create)
    (hdrop : op.kind ≠ .drop) (hshape : g'.shape = g.shape) (hext : g'.ext = g.ext)
    (hlive : g'.live = g.live) : Drawn g op g' := by
  exact ⟨hfits, hshape, hext, hlive.trans (ConfOp.liveAfter_eq hcreate hdrop g.live).symm⟩

theorem snapOp_drawn {family : Nat} (hfamily : g.live family = true) :
    Drawn g (g.snapOp family).1 (g.snapOp family).2 := by
  unfold snapOp
  generalize StateT.run (if 0 < g.snapsOpen then
    if 3 ≤ g.snapsOpen then pure true else chance 45 else pure false) g.draws = check
  dsimp only
  split
  · exact .of_kind (fits_op hfamily rfl (by simp) (by simp) (by simp) (by simp) (by simp)) (by simp)
      (by simp) rfl rfl rfl
  · exact .of_kind (fits_op hfamily rfl (by simp) (by simp) (by simp) (by simp) (by simp)) (by simp)
      (by simp) rfl rfl rfl

theorem familyOp_drawn (models : ConfModels) (hg : g.Ready) (roll : Nat) :
    Drawn g (g.familyOp models roll).1 (g.familyOp models roll).2 := by
  have hfamily := pickFamily_live hg g.draws
  unfold familyOp
  generalize g.pickFamily.run g.draws = family at hfamily
  dsimp only
  split
  · obtain ⟨hfits, hshape, hext, hlive⟩ := snapOp_drawn (g := { g with draws := family.2 }) hfamily
    exact ⟨hfits, hshape, hext, hlive⟩
  · split
    · exact .of_kind (fits_op hfamily rfl (by simp) (by simp) (by simp) (by simp) (by simp)) (by simp)
        (by simp) rfl rfl rfl
    · have hready : Ready { g with draws := family.2 } := ⟨hg.pos, hg.le, hg.default⟩
      have hfits := plainOp_fits hready hfamily models roll family.2
      have hplain := plainOp_plain { g with draws := family.2 } models roll family.1 family.2
      exact .of_kind hfits (ConfOpKind.Plain.ne hplain).1 (ConfOpKind.Plain.ne hplain).2 rfl rfl rfl

theorem ddlOp_drawn (models : ConfModels) (hg : g.Ready) :
    Drawn g (g.ddlOp models).1 (g.ddlOp models).2 := by
  unfold ddlOp
  generalize (chance 60).run g.draws = create
  dsimp only
  split
  · rename_i hsome
    generalize hlist : ([1, 2, 3].filter fun i => g.live i ≠ create.1) = candidates at hsome ⊢
    have hlt := below_lt (List.length_pos_of_ne_nil hsome) create.2
    generalize (below candidates.length).run create.2 = i at hlt ⊢
    have hmem : candidates.getD i.1 0 ∈ candidates := by
      rw [List.getD_eq_getElem?_getD, List.getElem?_eq_getElem hlt]
      exact List.getElem_mem hlt
    generalize candidates.getD i.1 0 = family at hmem ⊢
    rw [← hlist, List.mem_filter] at hmem
    obtain ⟨hrange, hdiffers⟩ := hmem
    have hbound : 0 < family ∧ family < kMaxFamilies := by
      simp only [List.mem_cons, List.not_mem_nil, or_false] at hrange
      unfold kMaxFamilies
      omega
    cases hcreate : create.1 with
    | true =>
      have hdead : g.live family = false := by simpa [hcreate] using hdiffers
      refine ⟨⟨by simp, fun _ => ⟨hdead, hbound.2⟩, by simp, by simp, by simp, by simp⟩, rfl, rfl, rfl⟩
    | false =>
      have hlive : g.live family = true := by simpa [hcreate] using hdiffers
      refine ⟨⟨fun _ => hlive, by simp, fun _ => by simp only; omega, by simp, by simp, by simp⟩,
        rfl, rfl, rfl⟩
  · have hready : Ready { g with draws := create.2 } := ⟨hg.pos, hg.le, hg.default⟩
    obtain ⟨hfits, hshape, hext, hlive⟩ := familyOp_drawn models hready 50
    exact ⟨hfits, hshape, hext, hlive⟩

/-- **Every operation** of the generator. -/
theorem next_drawn (hg : g.Ready) (h : g.next models = some (op, g')) : Drawn g op g' := by
  unfold next at h
  generalize (below 100).run g.draws = roll at h
  have hready : Ready { g with done := g.done + 1, draws := roll.2 } := ⟨hg.pos, hg.le, hg.default⟩
  split at h
  · cases h
  · rw [Option.some_inj] at h
    dsimp only at h
    split at h
    · have hall := ddlOp_drawn models hready
      rw [h] at hall
      exact ⟨hall.fits, hall.shape, hall.ext, hall.live⟩
    · have hall := familyOp_drawn models hready roll.1
      rw [h] at hall
      exact ⟨hall.fits, hall.shape, hall.ext, hall.live⟩

theorem Drawn.ready (h : Drawn g op g') (hg : g.Ready) : g'.Ready := by
  refine ⟨h.shape ▸ hg.pos, h.shape ▸ hg.le, ?_⟩
  rw [h.live]
  unfold ConfOp.liveAfter
  cases hkind : op.kind with
  | create =>
    by_cases hfamily : op.family = 0
    · simp [hfamily]
    · simp [Ne.symm hfamily, hg.default]
  | drop => simp [Ne.symm (h.fits.drop hkind), hg.default]
  | write | gets | walk | scan | snapTake | snapCheck | reopen | compact => exact hg.default

/-! ## How many operations are left -/

theorem snapOp_done (g : ScenarioGen) (family : Nat) :
    (g.snapOp family).2.ops = g.ops ∧ (g.snapOp family).2.done = g.done := by
  unfold snapOp
  generalize StateT.run (if 0 < g.snapsOpen then
    if 3 ≤ g.snapsOpen then pure true else chance 45 else pure false) g.draws = check
  dsimp only
  split <;> exact ⟨rfl, rfl⟩

theorem familyOp_done (g : ScenarioGen) (models : ConfModels) (roll : Nat) :
    (g.familyOp models roll).2.ops = g.ops ∧ (g.familyOp models roll).2.done = g.done := by
  unfold familyOp
  generalize g.pickFamily.run g.draws = family
  dsimp only
  split
  · exact snapOp_done { g with draws := family.2 } family.1
  · split <;> exact ⟨rfl, rfl⟩

theorem ddlOp_done (g : ScenarioGen) (models : ConfModels) :
    (g.ddlOp models).2.ops = g.ops ∧ (g.ddlOp models).2.done = g.done := by
  unfold ddlOp
  generalize (chance 60).run g.draws = create
  dsimp only
  split
  · exact ⟨rfl, rfl⟩
  · exact familyOp_done { g with draws := create.2 } models 50

/-- **One operation less** is left. -/
theorem next_done (h : g.next models = some (op, g')) :
    g.done < g.ops ∧ g'.ops = g.ops ∧ g'.done = g.done + 1 := by
  unfold next at h
  generalize (below 100).run g.draws = roll at h
  split at h
  · cases h
  · rename_i hlt
    refine ⟨Nat.lt_of_not_le hlt, ?_⟩
    rw [Option.some_inj] at h
    dsimp only at h
    split at h
    · have hall := ddlOp_done { g with done := g.done + 1, draws := roll.2 } models
      rwa [h] at hall
    · have hall := familyOp_done { g with done := g.done + 1, draws := roll.2 } models roll.1
      rwa [h] at hall

end ScenarioGen
end LevelDb.Conf
