import LevelDb.Db.History
import LevelDb.Db.Scenario
import Mathlib

/-!
# The maps of the oracle (`bench/conf_model.cc`)

`ConfModel` is a `std::map`: the runner goes through it in the order of the ids, so here it is an
ordered map. `ConfModels` (`Db/Scenario`) is what the generator needs to see of it. A write of the
oracle is a record of the engine.
-/

namespace LevelDb.Conf

open Numerals

/-- `ConfModel`. -/
abbrev ConfMap := Std.TreeMap Nat Text

namespace ConfMap

@[simp] theorem getElem?_insert (model : ConfMap) (id id' : Nat) (v : Text) :
    (model.insert id v)[id']? = if id' = id then some v else model[id']? := by
  rw [Std.TreeMap.getElem?_insert]
  simp only [compare_eq_iff_eq, eq_comm (a := id)]

@[simp] theorem getElem?_erase (model : ConfMap) (id id' : Nat) :
    (model.erase id)[id']? = if id' = id then none else model[id']? := by
  rw [Std.TreeMap.getElem?_erase]
  simp only [compare_eq_iff_eq, eq_comm (a := id)]

/-- One write of `ScenarioGen::Apply`. -/
def apply (model : ConfMap) (w : ConfWrite) : ConfMap :=
  match w.kind with
  | .put => model.insert w.id w.value
  | .delete => model.erase w.id
  | .merge => model.insert w.id (affineFullMerge (confKey w.id) model[w.id]? [w.value])
  | .deleteRange =>
    -- from `lower_bound` of the one to `lower_bound` of the other
    if w.id < w.stop then model.filter fun id _ => ¬(w.id ≤ id ∧ id < w.stop) else model

def view (model : ConfMap) : ConfModel := fun id => model[id]?

theorem view_apply (model : ConfMap) (w : ConfWrite) : (model.apply w).view = model.view.apply w := by
  funext id
  unfold view apply ConfModel.apply
  cases w.kind with
  | put => exact getElem?_insert model w.id id w.value
  | delete => exact getElem?_erase model w.id id
  | merge => exact getElem?_insert model w.id id _
  | deleteRange =>
    dsimp only
    split
    · rename_i hlt
      rw [Std.TreeMap.getElem?_filter']
      by_cases hin : w.id ≤ id ∧ id < w.stop
      · rw [if_pos ⟨hlt, hin⟩]
        cases model[id]? <;> simp [hin]
      · rw [if_neg fun h => hin h.2]
        cases model[id]? <;> simp [hin]
    · rename_i hle
      rw [if_neg fun hin => hle hin.1]

end ConfMap

/-- The map of every family, and which of them exist. -/
structure ConfMaps where
  m : Nat → ConfMap
  live : Nat → Bool

namespace ConfMaps

def empty : ConfMaps := ⟨fun _ => ∅, (· = 0)⟩

/-- `ScenarioGen::Apply`. -/
def apply (models : ConfMaps) (op : ConfOp) : ConfMaps :=
  match op.kind with
  | .create =>
    ⟨Function.update models.m op.family ∅, Function.update models.live op.family true⟩
  | .drop => ⟨Function.update models.m op.family ∅, Function.update models.live op.family false⟩
  | .write =>
    { models with
      m := op.writes.foldl (fun m w => Function.update m w.family ((m w.family).apply w.toConfWrite))
        models.m }
  | _ => models

/-- What the generator sees. -/
def view (models : ConfMaps) : ConfModels := ⟨fun family => (models.m family).view, models.live⟩

theorem view_apply (models : ConfMaps) (op : ConfOp) :
    (models.apply op).view = models.view.apply op := by
  unfold view apply ConfModels.apply
  cases op.kind with
  | create | drop =>
    simp only [ConfModels.mk.injEq, and_true]
    funext family
    by_cases h : family = op.family
    · subst h
      funext id
      simp [ConfMap.view]
    · simp [h]
  | write =>
    simp only [ConfModels.mk.injEq, and_true]
    generalize models.m = m
    induction op.writes generalizing m with
    | nil => rfl
    | cons w ws ih =>
      rw [List.foldl_cons, List.foldl_cons, ih]
      congr 1
      funext family
      by_cases h : family = w.family
      · subst h
        simp [ConfMap.view_apply]
      · simp [h]
  | gets | walk | scan | snapTake | snapCheck | reopen | compact => rfl

end ConfMaps

/-! ## In the engine -/

/-- The record of a write. -/
def ConfWrite.record (w : ConfWrite) : Record Text Text :=
  match w.kind with
  | .put => .put (confKey w.id) w.value
  | .delete => .delete (confKey w.id)
  | .merge => .merge (confKey w.id) w.value
  | .deleteRange => .deleteRange (confKey w.id) (confKey w.stop)

/-- `DoWrite`: the batch of an operation; that of a single call has one record. -/
def ConfOp.batch (op : ConfOp) : List (Nat × Record Text Text) :=
  (if op.single then op.writes.take 1 else op.writes).map fun w => (w.family, w.toConfWrite.record)

end LevelDb.Conf
