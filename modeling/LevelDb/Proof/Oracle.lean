import LevelDb.Db.Oracle
import LevelDb.Proof.Affine
import LevelDb.Proof.Stores

/-!
# The maps of the oracle describe histories

`affineOperator_laws`: the compaction may fold and merge the operands of the tests. A map describes a
history up to a sequence number (`Describes`) if every key reads as the map says. A write made in both
keeps it so (`Describes.write`), and what is written later does not matter (`Describes.concat`). Then a
reader that serves the history agrees with the map, point by point and as a whole (`Describes.get_eq`,
`Describes.mapAt_eq`).
-/

namespace LevelDb.Conf

open Mvcc Numerals

/-! ## The operator -/

/-- **The laws of a merge operator** hold of that of the tests. -/
theorem affineOperator_laws (k : Text) :
    Laws (affineOperator.fullMerge k) (affineOperator.partialMerge k) where
  fold_append b xs ys _ _ := affineOperator_append k b xs ys
  fold_part b xs ys l r z hz := by
    unfold affineOperator at hz
    dsimp only at hz
    split at hz
    · rename_i a1 b1 a2 b2 hl hr
      obtain rfl := Option.some.inj hz
      obtain ⟨ha1, hb1⟩ := affineParseOperand_lt hl
      obtain ⟨ha2, hb2⟩ := affineParseOperand_lt hr
      have hparse := affineParseOperand_affineOperand (affineMul_lt ha2 ha1)
        (affineAdd_lt (affineMul_lt ha2 hb1) hb2)
      rw [affineOperator_eq, affineOperator_eq, affineFold_append, affineFold_append]
      congr 1
      cases hx : affineFold (affineValueX k b) xs with
      | none => rfl
      | some x =>
        have hlt := affineFold_lt (affineValueX_lt k b) hx
        have hcomp := affine_comp ha1 hb1 ha2 hb2 hlt
        simp only [Option.bind_some, affineFold, List.foldlM_cons, hl, hr, hparse, Option.map_some,
          Option.bind_eq_bind, hcomp]
    · cases hz

variable {mergeOp : Option (MergeOperator Text Text)}

/-- There is no other merge operator in the tests. -/
def AffineOnly (mergeOp : Option (MergeOperator Text Text)) : Prop :=
  ∀ op, mergeOp = some op → op = affineOperator

theorem AffineOnly.laws (h : AffineOnly mergeOp) :
    ∀ op, mergeOp = some op → ∀ k, Laws (op.fullMerge k) (op.partialMerge k) := by
  intro op hop k
  rw [h op hop]
  exact affineOperator_laws k

theorem AffineOnly.fold_append (h : AffineOnly mergeOp) (k : Text) (b : Option Text)
    (xs ys : List Text) :
    foldOf mergeOp k b (xs ++ ys) =
      (foldOf mergeOp k b xs).bind fun v => foldOf mergeOp k (some v) ys := by
  cases hop : mergeOp with
  | none => rfl
  | some op =>
    obtain rfl := h op hop
    exact affineOperator_append k b xs ys

/-! ## Histories -/

/-- The write means the same to the map and to the engine. -/
structure ConfWrite.Writable (mergeOp : Option (MergeOperator Text Text)) (w : ConfWrite) : Prop where
  id_lt : w.id < 10 ^ 8
  stop_lt : w.stop < 10 ^ 8
  operand : w.kind = .merge → mergeOp = some affineOperator ∧ (affineParseOperand w.value).isSome = true

/-- The records up to a sequence number make this map. -/
structure Describes (mergeOp : Option (MergeOperator Text Text))
    (history : List (Nat × Record Text Text)) (r : Nat) (model : ConfMap) : Prop where
  lt : ∀ id v, model[id]? = some v → id < 10 ^ 8
  read : ∀ id, id < 10 ^ 8 →
    read (foldOf mergeOp (confKey id)) (opsAt history (confKey id) r) = some model[id]?
  other : ∀ k, (∀ id < 10 ^ 8, k ≠ confKey id) →
    Mvcc.read (foldOf mergeOp k) (opsAt history k r) = some none

variable {history : List (Nat × Record Text Text)} {r n : Nat} {model : ConfMap} {w : ConfWrite}

theorem describes_nil : Describes mergeOp [] r ∅ where
  lt id v h := by simp at h
  read id _ := by simp [opsAt, Mvcc.read]
  other k _ := by simp [opsAt, Mvcc.read]

/-- What is written later is not seen. -/
theorem Describes.concat (h : Describes mergeOp history r model) (hlt : r < n)
    (record : Record Text Text) : Describes mergeOp (history ++ [(n, record)]) r model := by
  have hops : ∀ k, opsAt (history ++ [(n, record)]) k r = opsAt history k r := by
    intro k
    rw [Store.opsAt_concat, if_neg (by omega), List.nil_append]
  exact ⟨h.lt, fun id hid => hops _ ▸ h.read id hid, fun k hk => hops k ▸ h.other k hk⟩

/-- Numbers that no record has. -/
theorem Describes.mono (h : Describes mergeOp history n model) (hseqs : ∀ a ∈ history, a.1 ≤ n)
    (hle : n ≤ r) : Describes mergeOp history r model := by
  have hops : ∀ k, opsAt history k r = opsAt history k n := by
    intro k
    unfold opsAt
    congr 2
    refine List.filter_congr fun a ha => ?_
    have := hseqs a ha
    simp only [decide_eq_decide]
    omega
  exact ⟨h.lt, fun id hid => hops _ ▸ h.read id hid, fun k hk => hops k ▸ h.other k hk⟩

/-- What the record of a write does to the key of an id. -/
theorem opAt_record (hw : w.Writable mergeOp) {id : Nat} (hid : id < 10 ^ 8) :
    w.record.opAt (confKey id) = match w.kind with
      | .put => if id = w.id then some (.put w.value) else none
      | .delete => if id = w.id then some .delete else none
      | .merge => if id = w.id then some (.merge w.value) else none
      | .deleteRange => if w.id ≤ id ∧ id < w.stop then some .delete else none := by
  have hkey : confKey w.id = confKey id ↔ id = w.id :=
    ⟨fun h => (confKey_injective h).symm, fun h => h ▸ rfl⟩
  unfold ConfWrite.record
  cases w.kind with
  | put | delete | merge => simp only [Record.opAt, hkey]
  | deleteRange =>
    simp only [Record.opAt, confKey_le hw.id_lt hid, confKey_lt hid hw.stop_lt]

/-- **A write made in both** keeps the map that of the history. -/
theorem Describes.write (haffine : AffineOnly mergeOp) (h : Describes mergeOp history n model)
    (hseqs : ∀ a ∈ history, a.1 ≤ n) (hw : w.Writable mergeOp) :
    Describes mergeOp (history ++ [(n + 1, w.record)]) (n + 1) (model.apply w) := by
  have hnext := h.mono hseqs (Nat.le_succ n)
  have hops : ∀ k, opsAt (history ++ [(n + 1, w.record)]) k (n + 1) =
      (w.record.opAt k).toList ++ opsAt history k (n + 1) := by
    intro k
    rw [Store.opsAt_concat, if_pos le_rfl]
  have hview : ∀ id, (model.apply w)[id]? = model.view.apply w id :=
    fun id => congrFun (model.view_apply w) id
  constructor
  · intro id v hv
    rw [hview] at hv
    by_contra hlarge
    have hid : id ≠ w.id := fun heq => hlarge (heq ▸ hw.id_lt)
    have hold : model.view id = none := by
      cases hmodel : model[id]? with
      | none => exact hmodel
      | some v => exact absurd (h.lt id v hmodel) hlarge
    unfold ConfModel.apply at hv
    cases hkind : w.kind with
    | put | delete | merge => simp [hkind, hid, hold] at hv
    | deleteRange => simp [hkind, hold] at hv
  · intro id hid
    have hold := hnext.read id hid
    have hcons := read_cons (fun b xs ys _ _ => haffine.fold_append (confKey id) b xs ys) hold
    rw [hops, opAt_record hw hid, hview]
    unfold ConfModel.apply
    cases hkind : w.kind with
    | put =>
      dsimp only
      split
      · exact hcons _
      · exact hold
    | delete =>
      dsimp only
      split
      · exact hcons _
      · exact hold
    | merge =>
      dsimp only
      obtain ⟨hop, hoperand⟩ := hw.operand hkind
      split
      · rename_i heq
        subst heq
        rw [hop] at hcons ⊢
        exact (hcons _).trans (step_merge hoperand _)
      · exact hold
    | deleteRange =>
      dsimp only
      split
      · rename_i hin
        rw [if_pos ⟨by omega, hin⟩]
        exact hcons _
      · rename_i hout
        rw [if_neg fun hin => hout hin.2]
        exact hold
  · intro k hk
    have hold := hnext.other k hk
    have hcons := read_cons (fun b xs ys _ _ => haffine.fold_append k b xs ys) hold
    have hne : confKey w.id ≠ k := (hk w.id hw.id_lt).symm
    rw [hops]
    unfold ConfWrite.record
    cases w.kind with
    | put | delete | merge =>
      simp only [Record.opAt, if_neg hne]
      exact hold
    | deleteRange =>
      simp only [Record.opAt]
      split
      · exact hcons .delete
      · exact hold

/-! ## Readers -/

/-- The key and the value of an entry of the oracle. -/
def keyed (e : Nat × Text) : Text × Text := (confKey e.1, e.2)

/-- **The map of the history** is the map of the oracle. -/
theorem Describes.mapAt_eq (h : Describes mergeOp history r model) :
    mapAt mergeOp history r = model.toList.map keyed := by
  have hmem : ∀ p, p ∈ mapAt mergeOp history r ↔ p ∈ model.toList.map keyed := by
    intro p
    obtain ⟨k, v⟩ := p
    simp only [mem_mapAt, keyed, List.mem_map, Prod.mk.injEq, Prod.exists,
      Std.TreeMap.mem_toList_iff_getElem?_eq_some]
    constructor
    · intro hread
      by_cases hk : ∀ id < 10 ^ 8, k ≠ confKey id
      · rw [h.other k hk] at hread
        cases hread
      · push Not at hk
        obtain ⟨id, hid, rfl⟩ := hk
        rw [h.read id hid] at hread
        exact ⟨id, v, Option.some.inj hread, rfl, rfl⟩
    · intro hin
      obtain ⟨id, v, hv, rfl, rfl⟩ := hin
      rw [h.read id (h.lt id v hv), hv]
  have hleft := mapAt_sorted mergeOp history r
  have hright : (model.toList.map keyed).Pairwise fun p q => p.1 < q.1 := by
    have hlt : ∀ {e : Nat × Text}, e ∈ model.toList → e.1 < 10 ^ 8 := fun he =>
      h.lt _ _ (Std.TreeMap.mem_toList_iff_getElem?_eq_some.1 he)
    refine List.pairwise_map.2 (Std.TreeMap.ordered_keys_toList.imp_of_mem fun ha hb hab => ?_)
    exact (confKey_lt (hlt ha) (hlt hb)).2 (Nat.compare_eq_lt.1 hab)
  have hperm := (List.perm_ext_iff_of_nodup (hleft.imp fun hlt heq => absurd (heq ▸ hlt) (lt_irrefl _))
    (hright.imp fun hlt heq => absurd (heq ▸ hlt) (lt_irrefl _))).2 hmem
  exact hperm.eq_of_pairwise (fun a b _ _ hab hba => absurd hab (lt_asymm hba)) hleft hright

/-- Every operand there is can be merged. -/
theorem Describes.merges (h : Describes mergeOp history r model) (k : Text) :
    (Mvcc.read (foldOf mergeOp k) (opsAt history k r)).isSome = true := by
  by_cases hk : ∀ id < 10 ^ 8, k ≠ confKey id
  · rw [h.other k hk]
    rfl
  · push Not at hk
    obtain ⟨id, hid, rfl⟩ := hk
    rw [h.read id hid]
    rfl

/-- The answer to a read of the key of an id. -/
theorem Describes.answerAt_eq (h : Describes mergeOp history r model) {id : Nat}
    (hid : id < 10 ^ 8) : answerAt mergeOp history (confKey id) r = reply model[id]? := by
  rw [answerAt, h.read id hid]
  cases model[id]? <;> rfl

end LevelDb.Conf
