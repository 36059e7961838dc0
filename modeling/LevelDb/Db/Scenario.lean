import LevelDb.Db.ConfModel
import LevelDb.Lib.Transition

/-!
# Random scenarios (`bench/conf_model.cc`)

`ScenarioGen::Next` draws the next operation of a conformance test, `RunScenario` makes it and
compares the database with the oracle. The generator does not see the snapshots that the runner
holds; it counts them. What the database answers is a parameter of a step: whether the operation and
its checks went well.
-/

namespace LevelDb.Conf

open Numerals

/-! ## Draws -/

structure ConfRng where
  s : UInt64

def ConfRng.new (seed : UInt64) : ConfRng := ⟨confMix seed⟩

def ConfRng.next (r : ConfRng) : UInt64 × ConfRng :=
  let s := r.s + 0x9E3779B97F4A7C15
  let z := (s ^^^ (s >>> 30)) * 0xBF58476D1CE4E5B9
  let z := (z ^^^ (z >>> 27)) * 0x94D049BB133111EB
  (z ^^^ (z >>> 31), ⟨s⟩)

/-- What a draw changes of the generator. -/
structure Draws where
  rng : ConfRng
  version : Nat := 1

abbrev Gen := StateM Draws

def below (n : Nat) : Gen Nat := fun d =>
  if n = 0 then (0, d) else (d.rng.next.1.toNat % n, { d with rng := d.rng.next.2 })

def chance (percent : Nat) : Gen Bool := do return (← below 100) < percent

/-- `version_++`. -/
def nextVersion : Gen Nat := fun d => (d.version, { d with version := d.version + 1 })

/-- `ConfValue`. -/
def confValue (id version pad : Nat) : Text :=
  padded 1 id ++ ':' :: padded 1 version ++ ':' ::
    List.replicate pad (Char.ofNat ('a'.toNat + version % 26))

/-! ## Operations -/

structure FamilyWrite extends ConfWrite where
  family : Nat := 0

inductive ConfOpKind
  | write
  | gets
  | walk
  | scan
  | snapTake
  | snapCheck
  | reopen
  | compact
  | create
  | drop
  deriving DecidableEq, Repr

structure ConfOp where
  kind : ConfOpKind := .gets
  writes : List FamilyWrite := []
  single : Bool := false
  id : Nat := 0
  count : Nat := 0
  family : Nat := 0

def kMaxFamilies : Nat := 4

/-- The map of every family, and which of them exist. -/
structure ConfModels where
  m : Nat → ConfModel
  live : Nat → Bool

def ConfModels.empty : ConfModels := ⟨fun _ _ => none, (· = 0)⟩

/-- `ScenarioGen::Apply`. -/
def ConfModels.apply (models : ConfModels) (op : ConfOp) : ConfModels :=
  match op.kind with
  | .create =>
    ⟨Function.update models.m op.family fun _ => none, Function.update models.live op.family true⟩
  | .drop =>
    ⟨Function.update models.m op.family fun _ => none, Function.update models.live op.family false⟩
  | .write =>
    { models with
      m := op.writes.foldl (fun m w => Function.update m w.family ((m w.family).apply w.toConfWrite))
        models.m }
  | _ => models

/-! ## The generator -/

/-- `ShapeFor`, as far as the generator reads it. -/
structure ConfShape where
  keys : Nat

def shapeFor (seed : UInt64) : ConfShape :=
  ⟨300 + (ConfRng.new (seed ^^^ 0x5AA5)).next.1.toNat % 2700⟩

structure ScenarioGen where
  draws : Draws
  shape : ConfShape
  ops : Nat
  ext : Bool
  done : Nat := 0
  snapsOpen : Nat := 0
  live : Nat → Bool := (· = 0)

namespace ScenarioGen

def new (seed : UInt64) (ops : Nat) (ext : Bool) : ScenarioGen :=
  { draws := ⟨.new (seed ^^^ 0xC0DE), 1⟩, shape := shapeFor seed, ops, ext }

/-- `RandomWrite`; the numbers of an operand are drawn from left to right. -/
def randomWrite (id : Nat) (allowMerge : Bool) : Gen ConfWrite := do
  let roll ← below 100
  if allowMerge ∧ roll < 30 then
    let a ← below (kAffineP.toNat - 1)
    let b ← below kAffineP.toNat
    return { kind := .merge, id, value := affineOperand (.ofNat (1 + a)) (.ofNat b) }
  else if roll < 75 then
    let version ← nextVersion
    let pad ← below 160
    return { kind := .put, id, value := confValue id version pad }
  else return { kind := .delete, id }

/-- One of the families that exist, the default one most often. -/
def pickFamily (g : ScenarioGen) : Gen Nat := do
  if g.ext = false then return 0
  let live := (List.range kMaxFamilies).filter g.live
  if live.length = 1 then return 0
  if ← chance 40 then return 0
  return live.getD (← below live.length) 0

/-- So many random writes, with their ids drawn from `lo` on. -/
def writesFrom (n lo span family : Nat) : Gen (List FamilyWrite) :=
  (List.range n).mapM fun _ => do
    let id ← below span
    return { toConfWrite := ← randomWrite (lo + id) true, family }

def singleWrite (g : ScenarioGen) (family : Nat) : Gen ConfOp := do
  let id ← below g.shape.keys
  return { kind := .write, single := true, family,
           writes := [{ toConfWrite := ← randomWrite id false, family }] }

def batch (g : ScenarioGen) (family : Nat) : Gen ConfOp := do
  let n ← below (if ← chance 10 then 200 else 12)
  let span ← if g.ext then chance 30 else pure false
  let writes ← (List.range (1 + n)).mapM fun _ => do
    let id ← below g.shape.keys
    let w ← randomWrite id g.ext
    return { toConfWrite := w, family := ← if span then g.pickFamily else pure family }
  return { kind := .write, writes, family }

def singleMerge (g : ScenarioGen) (family : Nat) : Gen ConfOp := do
  let id ← if ← chance 50 then below g.shape.keys else below (g.shape.keys / 10 + 1)
  let a ← below (kAffineP.toNat - 1)
  let b ← below kAffineP.toNat
  return { kind := .write, single := true, family,
           writes := [{ kind := .merge, id, family,
                        value := affineOperand (.ofNat (1 + a)) (.ofNat b) }] }

def singleRange (g : ScenarioGen) (family : Nat) : Gen ConfOp := do
  let keys := g.shape.keys
  let id ← below (keys + 10)
  let span ← if ← chance 20 then below keys else below (keys / 12 + 2)
  let stop ← if ← chance 5 then (fun back => id - back) <$> below (id + 1)
    else pure (id + (1 + span))
  return { kind := .write, single := true, family,
           writes := [{ kind := .deleteRange, id, stop, family }] }

/-- A range is cleared, by a range delete amid writes or by deletes of what the oracle holds. -/
def clearRange (g : ScenarioGen) (models : ConfModels) (family : Nat) : Gen ConfOp := do
  let keys := g.shape.keys
  let lo ← below keys
  let hi := lo + 1 + (← below (keys / 4 + 1))
  if ← (if g.ext then chance 60 else pure false) then
    let before ← writesFrom (← below 4) lo (hi - lo + 2) family
    let d : FamilyWrite := { kind := .deleteRange, id := lo, stop := hi, family }
    let after ← writesFrom (← below 4) lo (hi - lo + 2) family
    let more ← if ← chance 20 then do
        let id := lo + (← below (hi - lo))
        let span ← below (keys / 8 + 1)
        pure [({ kind := .deleteRange, id, stop := id + span, family } : FamilyWrite)]
      else pure []
    return { kind := .write, writes := before ++ d :: after ++ more, family }
  else
    let held := (List.range' lo (hi - lo)).filter fun id => (models.m family id).isSome
    let back ← below 4
    let puts ← (List.range back).mapM fun _ => do
      let id := lo + (← below (hi - lo))
      let version ← nextVersion
      let pad ← below 160
      return ({ kind := .put, id, value := confValue id version pad, family } : FamilyWrite)
    let writes := held.map (fun id => ({ kind := .delete, id, family } : FamilyWrite)) ++ puts
    return { kind := .write, family,
             writes := if writes.isEmpty then [{ kind := .delete, id := lo, family }] else writes }

def burst (g : ScenarioGen) (family : Nat) : Gen ConfOp := do
  let keys := g.shape.keys
  let n ← below 250
  let base ← below keys
  let writes ← (List.range (50 + n)).mapM fun i => do
    return { toConfWrite := ← randomWrite ((base + i * 7) % keys) g.ext, family }
  return { kind := .write, writes, family }

/-- The operations that have nothing to do with snapshots. -/
def plainOp (g : ScenarioGen) (models : ConfModels) (roll family : Nat) : Gen ConfOp := do
  let keys := g.shape.keys
  if roll < 12 then g.singleWrite family
  else if roll < 30 ∧ ¬ (g.ext ∧ 20 ≤ roll) then g.batch family
  else if roll < 25 then g.singleMerge family
  else if roll < 30 then g.singleRange family
  else if roll < 38 then g.clearRange models family
  else if roll < 50 then return { kind := .gets, count := 8 + (← below 24), family }
  else if roll < 64 then
    let id ← below (keys + 20)
    return { kind := .walk, id, count := 1 + (← below 80), family }
  else if roll < 70 then return { kind := .scan, family }
  else if roll < 94 then
    if ← chance 35 then return { kind := .compact, family }
    let id ← below keys
    return { kind := .compact, id, count := 1 + (← below (keys / 3 + 1)), family }
  else g.burst family

/-- A snapshot is checked or taken. -/
def snapOp (g : ScenarioGen) (family : Nat) : ConfOp × ScenarioGen :=
  let check := (if 0 < g.snapsOpen then
    if 3 ≤ g.snapsOpen then pure true else chance 45 else pure false).run g.draws
  if check.1 then
    let id := (below g.snapsOpen).run check.2
    ({ kind := .snapCheck, id := id.1, family },
      { g with draws := id.2, snapsOpen := g.snapsOpen - 1 })
  else
    ({ kind := .snapTake, family }, { g with draws := check.2, snapsOpen := g.snapsOpen + 1 })

/-- An operation on a family that exists. -/
def familyOp (g : ScenarioGen) (models : ConfModels) (roll : Nat) : ConfOp × ScenarioGen :=
  let family := g.pickFamily.run g.draws
  let g := { g with draws := family.2 }
  if 70 ≤ roll ∧ roll < 84 then g.snapOp family.1
  else if 84 ≤ roll ∧ roll < 88 then
    ({ kind := .reopen, family := family.1 }, { g with snapsOpen := 0 })
  else
    let op := (g.plainOp models roll family.1).run g.draws
    (op.1, { g with draws := op.2 })

/-- A family is created or dropped, when there is one to create or to drop. -/
def ddlOp (g : ScenarioGen) (models : ConfModels) : ConfOp × ScenarioGen :=
  let create := (chance 60).run g.draws
  let candidates := [1, 2, 3].filter fun i => g.live i ≠ create.1
  if candidates ≠ [] then
    let i := (below candidates.length).run create.2
    let family := candidates.getD i.1 0
    ({ kind := if create.1 then .create else .drop, family },
      { g with
        draws := i.2
        live := Function.update g.live family create.1
        snapsOpen := if create.1 then g.snapsOpen else 0 })
  else familyOp { g with draws := create.2 } models 50

/-- `Next`. -/
def next (g : ScenarioGen) (models : ConfModels) : Option (ConfOp × ScenarioGen) :=
  if g.ops ≤ g.done then none
  else
    let roll := (below 100).run g.draws
    let g := { g with done := g.done + 1, draws := roll.2 }
    some (if g.ext ∧ roll.1 < 4 then g.ddlOp models else g.familyOp models roll.1)

end ScenarioGen

/-! ## The runner -/

/-- A snapshot that is held, with what the oracle held when it was taken. -/
structure Snap where
  models : ConfModels

/-- Its view of a family that is dropped goes away. -/
def Snap.drop (family : Nat) (sn : Snap) : Snap :=
  ⟨{ sn.models with live := Function.update sn.models.live family false }⟩

/-- `RunScenario` before an operation. -/
structure Scenario where
  gen : ScenarioGen
  models : ConfModels := .empty
  snaps : List Snap := []
  writes : Nat := 0
  opno : Nat := 0
  ok : Bool := true

namespace Scenario

/-- An operation that writes: acknowledged, and applied to the oracle, if it went well. -/
def applied (s : Scenario) (op : ConfOp) (well : Bool) : Scenario :=
  if well then { s with models := s.models.apply op, writes := s.writes + 1 }
  else { s with ok := false }

/-- What an operation does to the state of the runner. -/
def perform (s : Scenario) (op : ConfOp) (well : Bool) : Scenario :=
  match op.kind with
  | .create => s.applied op well
  | .drop =>
    -- the snapshots are still held
    let s := { s with snaps := s.snaps.map (Snap.drop op.family) }
    s.applied op well
  | .write => s.applied op well
  | .gets => { s with ok := well }
  | .walk => { s with ok := well }
  | .scan => { s with ok := well }
  | .snapTake => { s with snaps := s.snaps ++ [⟨s.models⟩] }
  | .snapCheck =>
    if op.id < s.snaps.length then { s with ok := well, snaps := s.snaps.eraseIdx op.id } else s
  | .reopen => { s with snaps := [], ok := well }
  | .compact => { s with ok := well }

/-- A round of the loop; it ends at the first failure and with the generator. -/
def step (s : Scenario) (well : Bool) : Option Scenario :=
  if s.ok then
    (s.gen.next s.models).map fun next =>
      perform { s with gen := next.2, opno := s.opno + 1 } next.1 well
  else none

end Scenario

/-- The scenario of a seed. -/
def scenario (seed : UInt64) (ops : Nat) (ext : Bool) : Transition.System Scenario Bool where
  init s := s = { gen := .new seed ops ext }
  step := Scenario.step

end LevelDb.Conf
