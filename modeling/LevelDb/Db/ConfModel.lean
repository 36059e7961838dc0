import LevelDb.Db.LookupState
import LevelDb.Lib.Numerals

/-!
# The oracle of the tests (`bench/conf_model.h`, `bench/conf_model.cc`)

The tests compare every read with a map from key ids to strings that takes one write after the
other. Their merge operator is `x ↦ a * x + b` modulo the prime `kAffineP`; a merged value keeps its
`x` in 19 digits, padded to the length of the value it was merged into.
-/

namespace LevelDb.Conf

open Numerals

/-! ## The merge operator -/

def confMix (x : UInt64) : UInt64 :=
  let x := x + 0x9E3779B97F4A7C15
  let x := (x ^^^ (x >>> 30)) * 0xBF58476D1CE4E5B9
  let x := (x ^^^ (x >>> 27)) * 0x94D049BB133111EB
  x ^^^ (x >>> 31)

def kAffineP : UInt64 := ((1 : UInt64) <<< 61) - 1

/-- The product has 128 bits. -/
def affineMul (a b : UInt64) : UInt64 :=
  let r := a.toNat * b.toNat
  let lo := UInt64.ofNat (r &&& kAffineP.toNat)
  let hi := UInt64.ofNat (r >>> 61)
  let s := lo + hi
  if kAffineP ≤ s then s - kAffineP else s

def affineAdd (a b : UInt64) : UInt64 :=
  let s := a + b
  if kAffineP ≤ s then s - kAffineP else s

def affineHash (p : Text) : UInt64 :=
  confMix (p.foldl (fun h c => (h ^^^ c.toUInt8.toUInt64) * 1099511628211) 1469598103934665603) %
    kAffineP

def affineOperand (a b : UInt64) : Text := padded 1 a.toNat ++ ',' :: padded 1 b.toNat

def affineParseOperand (s : Text) : Option (UInt64 × UInt64) :=
  match s.findIdx? (· = ',') with
  | none => none
  | some comma =>
    if comma = 0 ∨ s.length ≤ comma + 1 then none
    else
      let a := strtoull s
      let b := strtoull (s.drop (comma + 1))
      if a.2.length ≠ s.length - comma then none
      else if b.2 ≠ [] then none
      else if a.1 < kAffineP ∧ b.1 < kAffineP then some (a.1, b.1)
      else none

def affineValueX (key : Text) : Option Text → UInt64
  | none => affineHash key
  | some existing =>
    if 1 < existing.length ∧ existing.head? = some 'M' then
      (strtoull existing.tail).1 % kAffineP
    else affineHash existing

def affineMerged (x : UInt64) (length : Nat) : Text :=
  let v := 'M' :: padded 19 x.toNat ++ [':']
  if v.length < length then v ++ List.replicate (length - v.length) 'm' else v

/-- The loop over the operands; `none` at the first that is malformed. -/
def affineFold (x : UInt64) (operands : List Text) : Option UInt64 :=
  operands.foldlM (fun x op =>
    (affineParseOperand op).map fun ab => affineAdd (affineMul ab.1 x) ab.2) x

def affineFullMerge (key : Text) (existing : Option Text) (operands : List Text) : Text :=
  match affineFold (affineValueX key existing) operands with
  | none => "BAD-OPERAND".toList
  | some x => affineMerged x (existing.elim 0 List.length)

/-- `AffineOperator`. -/
def affineOperator : MergeOperator Text Text where
  fullMerge key existing operands :=
    if ∀ op ∈ operands, (affineParseOperand op).isSome then
      some (affineFullMerge key existing operands)
    else none
  partialMerge _ left right :=
    match affineParseOperand left, affineParseOperand right with
    | some (a1, b1), some (a2, b2) =>
      some (affineOperand (affineMul a2 a1) (affineAdd (affineMul a2 b1) b2))
    | _, _ => none

/-! ## The map -/

/-- The key of an id. -/
def confKey (id : Nat) : Text := "key".toList ++ padded 8 id

inductive ConfWriteKind
  | put
  | delete
  | merge
  | deleteRange
  deriving DecidableEq, Repr

structure ConfWrite where
  kind : ConfWriteKind
  /-- The begin of a range. -/
  id : Nat
  /-- The excluded end of a range (`end`). -/
  stop : Nat := 0
  /-- The value of a put, the operand of a merge. -/
  value : Text := []

/-- What one family should hold. -/
abbrev ConfModel := Nat → Option Text

/-- One write of `ScenarioGen::Apply`. -/
def ConfModel.apply (model : ConfModel) (w : ConfWrite) : ConfModel := fun id =>
  match w.kind with
  | .put => if id = w.id then some w.value else model id
  | .delete => if id = w.id then none else model id
  | .merge =>
    if id = w.id then some (affineFullMerge (confKey w.id) (model w.id) [w.value]) else model id
  | .deleteRange => if w.id < w.stop ∧ w.id ≤ id ∧ id < w.stop then none else model id

/-- The map after the writes, from an empty one. -/
def modelAfter (ws : List ConfWrite) : ConfModel := ws.foldl ConfModel.apply fun _ => none

/-- What a read of a family that holds this should answer. -/
def reply : Option Text → Status × Option Text
  | none => (.notFound, none)
  | some v => (.ok, some v)

/-- The write means the same to the map and to the engine at this id: its operand is well formed, and
its range is between ids whose keys have eight digits. -/
def ConfWrite.Valid (w : ConfWrite) (id : Nat) : Prop :=
  match w.kind with
  | .merge => w.id = id → (affineParseOperand w.value).isSome
  | .deleteRange => w.id < 10 ^ 8 ∧ w.stop < 10 ^ 8
  | _ => True

instance (w : ConfWrite) (id : Nat) : Decidable (w.Valid id) := by
  unfold ConfWrite.Valid
  split <;> infer_instance

/-! ## The writes in the engine -/

/-- The write as the memtable takes it, with its sequence number. -/
def addWrite (m : MemTable Text Text) (w : ConfWrite) (seq : Nat) : MemTable Text Text :=
  match w.kind with
  | .put => m.add ⟨⟨confKey w.id, seq, .value⟩, w.value⟩ nofun
  | .delete => m.add ⟨⟨confKey w.id, seq, .deletion⟩, []⟩ nofun
  | .merge => m.add ⟨⟨confKey w.id, seq, .merge⟩, w.value⟩ nofun
  | .deleteRange => m.addRange (confKey w.id) (confKey w.stop) seq

/-- The memtable after the writes, which are numbered from 1 on. -/
def memTable (ws : List ConfWrite) : MemTable Text Text :=
  (ws.zipIdx 1).foldl (fun m w => addWrite m w.1 w.2) .empty

/-- A lookup of the id among the writes: its entries up to the snapshot, newest first, under the
tombstones. -/
def lookup (ws : List ConfWrite) (snapshot id : Nat) : Status × Option Text :=
  let st : LookupState Text Text :=
    { userKey := confKey id, snapshot, mergeOp := some affineOperator,
      rd := some ⟨some (memTable ws), none, none⟩ }
  let st := ((memTable ws).get (confKey id) snapshot st).2.finish
  (st.status, st.value)

end LevelDb.Conf
