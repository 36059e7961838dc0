import LevelDb.Db.ConfModel
import LevelDb.Proof.MemTable
import Mathlib.Data.List.Induction

/-!
# The oracle and the engine describe the same database

* `affineOperator_append`: the merge operator of the tests may be folded in two steps; a merged value
  is read back as the number it was made of.
* `versions_addWrite`: what one more write does to the versions of a key; `read_memTable`, by
  induction on the writes: they read as the map of `ScenarioGen::Apply` says.
* `lookup_eq`: a lookup at any snapshot answers what the map holds after the writes up to it.
-/

namespace LevelDb.Conf

open Numerals Mvcc

/-! ## Numbers modulo the prime -/

theorem toNat_kAffineP : kAffineP.toNat = 2 ^ 61 - 1 := by decide

theorem lt_kAffineP {a : UInt64} : a < kAffineP ↔ a.toNat < 2 ^ 61 - 1 := by
  rw [UInt64.lt_iff_toNat_lt, toNat_kAffineP]

/-- One subtraction brings a number below twice the prime back under it. -/
theorem toNat_reduce {s : UInt64} (h : s.toNat < 2 * (2 ^ 61 - 1)) :
    (if kAffineP ≤ s then s - kAffineP else s).toNat = s.toNat % (2 ^ 61 - 1) := by
  split
  · rename_i hle
    rw [UInt64.toNat_sub_of_le _ _ hle, toNat_kAffineP]
    rw [UInt64.le_iff_toNat_le, toNat_kAffineP] at hle
    omega
  · rename_i hlt
    rw [UInt64.le_iff_toNat_le, toNat_kAffineP] at hlt
    omega

/-- **`AffineMul`** is the product modulo the prime. -/
theorem toNat_affineMul {a b : UInt64} (ha : a < kAffineP) (hb : b < kAffineP) :
    (affineMul a b).toNat = a.toNat * b.toNat % (2 ^ 61 - 1) := by
  rw [lt_kAffineP] at ha hb
  have hr : a.toNat * b.toNat ≤ (2 ^ 61 - 2) * (2 ^ 61 - 2) :=
    Nat.mul_le_mul (by omega) (by omega)
  generalize hprod : a.toNat * b.toNat = r at hr
  have hlo : r &&& kAffineP.toNat = r % 2 ^ 61 := by
    rw [toNat_kAffineP]
    exact Nat.and_two_pow_sub_one_eq_mod r 61
  have hhi : r >>> 61 = r / 2 ^ 61 := Nat.shiftRight_eq_div_pow r 61
  have hs : (UInt64.ofNat (r % 2 ^ 61) + UInt64.ofNat (r / 2 ^ 61)).toNat =
      r % 2 ^ 61 + r / 2 ^ 61 := by
    rw [UInt64.toNat_add, UInt64.toNat_ofNat', UInt64.toNat_ofNat']
    omega
  simp only [affineMul, hprod, hlo, hhi]
  rw [toNat_reduce (by omega), hs]
  omega

theorem toNat_affineAdd {a b : UInt64} (ha : a < kAffineP) (hb : b < kAffineP) :
    (affineAdd a b).toNat = (a.toNat + b.toNat) % (2 ^ 61 - 1) := by
  rw [lt_kAffineP] at ha hb
  have hs : (a + b).toNat = a.toNat + b.toNat := by
    rw [UInt64.toNat_add]
    omega
  rw [affineAdd, toNat_reduce (by omega), hs]

theorem affineMul_lt {a b : UInt64} (ha : a < kAffineP) (hb : b < kAffineP) :
    affineMul a b < kAffineP := by
  rw [lt_kAffineP, toNat_affineMul ha hb]
  exact Nat.mod_lt _ (by decide)

theorem affineAdd_lt {a b : UInt64} (ha : a < kAffineP) (hb : b < kAffineP) :
    affineAdd a b < kAffineP := by
  rw [lt_kAffineP, toNat_affineAdd ha hb]
  exact Nat.mod_lt _ (by decide)

theorem mod_kAffineP_lt (a : UInt64) : a % kAffineP < kAffineP := by
  rw [lt_kAffineP, UInt64.toNat_mod, toNat_kAffineP]
  exact Nat.mod_lt _ (by decide)

theorem affineValueX_lt (key : Text) (existing : Option Text) :
    affineValueX key existing < kAffineP := by
  cases existing with
  | none => exact mod_kAffineP_lt _
  | some v =>
    rw [affineValueX]
    split
    · exact mod_kAffineP_lt _
    · exact mod_kAffineP_lt _

theorem affineParseOperand_lt {s : Text} {ab : UInt64 × UInt64}
    (h : affineParseOperand s = some ab) : ab.1 < kAffineP ∧ ab.2 < kAffineP := by
  unfold affineParseOperand at h
  split at h
  · cases h
  · split at h
    · cases h
    · simp only at h
      split at h
      · cases h
      · split at h
        · cases h
        · split at h
          · rename_i hlt
            obtain rfl := Option.some.inj h
            exact hlt
          · cases h

/-! ## Merged values -/

theorem length_affineMerged {x : UInt64} (hx : x < kAffineP) (length : Nat) :
    (affineMerged x length).length = max 21 length := by
  rw [lt_kAffineP] at hx
  have hpad : (padded 19 x.toNat).length = 19 := length_padded (by decide) (by omega)
  have hv : ('M' :: padded 19 x.toNat ++ [':']).length = 21 := by
    rw [List.length_append, List.length_cons, hpad]
    rfl
  simp only [affineMerged, hv]
  split
  · rw [List.length_append, List.length_replicate, hv]
    omega
  · rw [hv]
    omega

/-- A merged value starts the next merge with its number. -/
theorem affineValueX_affineMerged {x : UInt64} (hx : x < kAffineP) (key : Text) (length : Nat) :
    affineValueX key (some (affineMerged x length)) = x := by
  obtain ⟨pad, hpad⟩ : ∃ pad, affineMerged x length = 'M' :: (padded 19 x.toNat ++ ':' :: pad) := by
    simp only [affineMerged]
    split
    · exact ⟨_, by rw [List.cons_append, List.cons_append, List.append_assoc]; rfl⟩
    · exact ⟨[], rfl⟩
  have hlen : 1 < (affineMerged x length).length := by
    rw [length_affineMerged hx]
    omega
  have hread := @strtoull_padded 19 x.toNat x.toNat_lt (':' :: pad) (by simp)
  rw [affineValueX, if_pos ⟨hlen, by rw [hpad]; rfl⟩, hpad, List.tail_cons, hread,
    UInt64.ofNat_toNat]
  rw [lt_kAffineP] at hx
  apply UInt64.toNat_inj.1
  rw [UInt64.toNat_mod, toNat_kAffineP]
  exact Nat.mod_eq_of_lt hx

/-- The length merged into only counts above the length of a bare number. -/
theorem affineMerged_max {x : UInt64} (hx : x < kAffineP) (length : Nat) :
    affineMerged x (max 21 length) = affineMerged x length := by
  rw [lt_kAffineP] at hx
  have hpad : (padded 19 x.toNat).length = 19 := length_padded (by decide) (by omega)
  have hv : ('M' :: padded 19 x.toNat ++ [':']).length = 21 := by
    rw [List.length_append, List.length_cons, hpad]
    rfl
  simp only [affineMerged, hv]
  by_cases h : 21 < length
  · rw [if_pos h, Nat.max_eq_right h.le, if_pos h]
  · rw [if_neg h, Nat.max_eq_left (by omega), if_neg (by omega)]

/-! ## Folding operands -/

theorem affineFold_append (x : UInt64) (xs ys : List Text) :
    affineFold x (xs ++ ys) = (affineFold x xs).bind fun x => affineFold x ys :=
  List.foldlM_append

theorem affineFold_lt {x y : UInt64} (hx : x < kAffineP) {operands : List Text}
    (h : affineFold x operands = some y) : y < kAffineP := by
  induction operands generalizing x with
  | nil =>
    obtain rfl := Option.some.inj h
    exact hx
  | cons op ops ih =>
    rw [affineFold, List.foldlM_cons] at h
    obtain ⟨z, hz, h⟩ := Option.bind_eq_some_iff.1 h
    obtain ⟨ab, hab, rfl⟩ := Option.map_eq_some_iff.1 hz
    obtain ⟨ha, hb⟩ := affineParseOperand_lt hab
    exact ih (affineAdd_lt (affineMul_lt ha hx) hb) h

/-- The fold goes through when every operand is well formed. -/
theorem affineFold_isSome (x : UInt64) (operands : List Text) :
    (affineFold x operands).isSome ↔ ∀ op ∈ operands, (affineParseOperand op).isSome := by
  induction operands generalizing x with
  | nil => exact iff_of_true rfl nofun
  | cons op ops ih =>
    rw [affineFold, List.foldlM_cons, List.forall_mem_cons]
    cases h : affineParseOperand op with
    | none => exact iff_of_false nofun fun hall => nomatch hall.1
    | some ab =>
      show (affineFold _ ops).isSome ↔ _
      rw [ih]
      exact ⟨fun hall => ⟨rfl, hall⟩, fun hall => hall.2⟩

/-- What the operator of the options makes of the operands. -/
theorem affineOperator_eq (key : Text) (existing : Option Text) (operands : List Text) :
    affineOperator.fullMerge key existing operands =
      (affineFold (affineValueX key existing) operands).map fun x =>
        affineMerged x (existing.elim 0 List.length) := by
  have hsome := affineFold_isSome (affineValueX key existing) operands
  show (if ∀ op ∈ operands, (affineParseOperand op).isSome then
    some (affineFullMerge key existing operands) else none) = _
  rw [affineFullMerge]
  cases h : affineFold (affineValueX key existing) operands with
  | none =>
    rw [h] at hsome
    rw [if_neg fun hall => nomatch hsome.2 hall]
    rfl
  | some x =>
    rw [h] at hsome
    rw [if_pos (hsome.1 rfl)]
    rfl

/-- **Folding in two steps** is folding at once, padding and all. -/
theorem affineOperator_append (key : Text) (b : Option Text) (xs ys : List Text) :
    affineOperator.fullMerge key b (xs ++ ys) =
      (affineOperator.fullMerge key b xs).bind fun v => affineOperator.fullMerge key (some v) ys := by
  rw [affineOperator_eq, affineOperator_eq, affineFold_append]
  cases hx : affineFold (affineValueX key b) xs with
  | none => rfl
  | some x =>
    have hlt : x < kAffineP := affineFold_lt (affineValueX_lt key b) hx
    simp only [Option.bind_some, Option.map_some]
    rw [affineOperator_eq, affineValueX_affineMerged hlt]
    cases hy : affineFold x ys with
    | none => rfl
    | some y =>
      have hy : y < kAffineP := affineFold_lt hlt hy
      simp only [Option.map_some, Option.elim_some]
      rw [length_affineMerged hlt, affineMerged_max hy]

/-! ## Keys -/

theorem confKey_injective : Function.Injective confKey := by
  intro a b h
  exact padded_injective 8 (List.append_cancel_left h)

theorem confKey_lt {a b : Nat} (ha : a < 10 ^ 8) (hb : b < 10 ^ 8) : confKey a < confKey b ↔ a < b := by
  rw [← padded_lt_padded (by decide) ha hb]
  show 'k' :: 'e' :: 'y' :: padded 8 a < 'k' :: 'e' :: 'y' :: padded 8 b ↔ _
  rw [List.cons_lt_cons_self, List.cons_lt_cons_self, List.cons_lt_cons_self]

theorem confKey_le {a b : Nat} (ha : a < 10 ^ 8) (hb : b < 10 ^ 8) : confKey a ≤ confKey b ↔ a ≤ b := by
  rw [← not_lt, confKey_lt hb ha, not_lt]

/-! ## One more write -/

/-- The operand that a write adds to a value folds onto it. -/
theorem step_merge {id : Nat} {operand : Text} (h : (affineParseOperand operand).isSome)
    (b : Option Text) :
    step (foldOf (some affineOperator) (confKey id)) b (.merge operand) =
      some (some (affineFullMerge (confKey id) b [operand])) := by
  have hall : ∀ op ∈ [operand], (affineParseOperand op).isSome := by
    intro op hop
    rw [List.mem_singleton.1 hop]
    exact h
  show Option.map some (if _ then _ else _) = _
  rw [if_pos hall]
  rfl

/-- **A write** does to what the key of an id reads as what `ScenarioGen::Apply` does to the map. -/
theorem read_addWrite {m : MemTable Text Text} {n id : Nat} (hm : m.UpTo n) (hid : id < 10 ^ 8)
    {model : ConfModel}
    (h : Mvcc.read (foldOf (some affineOperator) (confKey id)) (m.versions (confKey id) n) =
      some (model id)) {w : ConfWrite} (hw : w.Valid id) :
    Mvcc.read (foldOf (some affineOperator) (confKey id))
      ((addWrite m w (n + 1)).versions (confKey id) (n + 1)) = some (model.apply w id) := by
  have hcons := read_cons (fun b xs ys _ _ => affineOperator_append (confKey id) b xs ys) h
  -- an entry of the key comes on top, an entry of another key is not seen
  have hadd : ∀ (e : Entry Text Text) (he : e.key.type ≠ .rangeDeletion),
      e.key.userKey = confKey w.id → e.key.sequence = n + 1 →
      (m.add e he).versions (confKey id) (n + 1) =
        if id = w.id then e.op :: m.versions (confKey id) n else m.versions (confKey id) n := by
    intro e he hkey hseq
    split
    · rename_i heq
      rw [heq, ← hkey]
      exact MemTable.versions_add hm he hseq
    · rename_i hne
      rw [MemTable.versions_add_of_not_visible, hm.versions_eq (Nat.le_succ n)]
      intro hvis
      exact hne (confKey_injective (hvis.1.symm.trans hkey))
  unfold addWrite ConfModel.apply
  unfold ConfWrite.Valid at hw
  cases hkind : w.kind with
  | put =>
    simp only
    rw [hadd _ _ rfl rfl]
    split
    · exact hcons _
    · exact h
  | delete =>
    simp only
    rw [hadd _ _ rfl rfl]
    split
    · exact hcons _
    · exact h
  | merge =>
    simp only [hkind] at hw ⊢
    rw [hadd _ _ rfl rfl]
    split
    · rename_i heq
      subst heq
      exact (hcons _).trans (step_merge (hw rfl) _)
    · exact h
  | deleteRange =>
    simp only [hkind] at hw ⊢
    split
    · rename_i hin
      apply read_deletes
      exact MemTable.versions_addRange hm ((confKey_le hw.1 hid).2 hin.2.1)
        ((confKey_lt hid hw.2).2 hin.2.2)
    · rename_i hout
      rw [MemTable.versions_addRange_of_not_covers hm, h]
      rw [confKey_le hw.1 hid, confKey_lt hid hw.2]
      omega

theorem upTo_addWrite {m : MemTable Text Text} {n : Nat} (hm : m.UpTo n) (w : ConfWrite) :
    (addWrite m w (n + 1)).UpTo (n + 1) := by
  unfold addWrite
  split
  · exact hm.add _ rfl
  · exact hm.add _ rfl
  · exact hm.add _ rfl
  · exact hm.addRange _ _

/-- A write above the snapshot is not seen. -/
theorem versions_addWrite_of_lt (m : MemTable Text Text) (w : ConfWrite) (k : Text)
    {snapshot seq : Nat} (h : snapshot < seq) :
    (addWrite m w seq).versions k snapshot = m.versions k snapshot := by
  have hadd : ∀ (e : Entry Text Text) (he : e.key.type ≠ .rangeDeletion), e.key.sequence = seq →
      (m.add e he).versions k snapshot = m.versions k snapshot := by
    intro e he hseq
    apply MemTable.versions_add_of_not_visible
    intro hvis
    have := hvis.2
    omega
  unfold addWrite
  split
  · exact hadd _ _ rfl
  · exact hadd _ _ rfl
  · exact hadd _ _ rfl
  · exact MemTable.versions_addRange_of_lt m _ _ k h

/-! ## All the writes -/

theorem memTable_append (ws : List ConfWrite) (w : ConfWrite) :
    memTable (ws ++ [w]) = addWrite (memTable ws) w (ws.length + 1) := by
  rw [memTable, List.zipIdx_append, List.foldl_append, Nat.add_comm]
  rfl

theorem memTable_upTo (ws : List ConfWrite) : (memTable ws).UpTo ws.length := by
  induction ws using List.reverseRecOn with
  | nil => exact ⟨nofun, nofun⟩
  | append_singleton ws w ih =>
    rw [memTable_append, List.length_append]
    exact upTo_addWrite ih w

/-- A reader at a snapshot sees the writes up to it. -/
theorem versions_memTable (ws : List ConfWrite) (k : Text) (snapshot : Nat) :
    (memTable ws).versions k snapshot = (memTable (ws.take snapshot)).versions k snapshot := by
  induction ws using List.reverseRecOn with
  | nil => rw [List.take_nil]
  | append_singleton ws w ih =>
    by_cases hle : snapshot ≤ ws.length
    · rw [memTable_append, versions_addWrite_of_lt _ w k (Nat.lt_succ_of_le hle), ih,
        List.take_append_of_le_length hle]
    · rw [List.take_of_length_le]
      rw [List.length_append, List.length_singleton]
      omega

/-- **The writes** of a memtable read as the map. -/
theorem read_memTable {ws : List ConfWrite} {id : Nat} (hid : id < 10 ^ 8)
    (hws : ∀ w ∈ ws, w.Valid id) :
    Mvcc.read (foldOf (some affineOperator) (confKey id))
      ((memTable ws).versions (confKey id) ws.length) = some (modelAfter ws id) := by
  induction ws using List.reverseRecOn with
  | nil => rfl
  | append_singleton ws w ih =>
    have hprev := ih fun w' hw' => hws w' (List.mem_append_left _ hw')
    rw [memTable_append, List.length_append, modelAfter, List.foldl_append]
    exact read_addWrite (memTable_upTo ws) hid hprev
      (hws w (List.mem_append_right _ (List.mem_singleton.2 rfl)))

/-- **Every lookup answers what the oracle holds**: at any snapshot, after any writes. -/
theorem lookup_eq {ws : List ConfWrite} {snapshot id : Nat} (hid : id < 10 ^ 8)
    (hws : ∀ w ∈ ws.take snapshot, w.Valid id) :
    lookup ws snapshot id = reply (modelAfter (ws.take snapshot) id) := by
  have hfor : LookupState.For (confKey id) snapshot (some affineOperator)
      (some ⟨some (memTable ws), none, none⟩)
      ({ userKey := confKey id, snapshot, mergeOp := some affineOperator,
         rd := some ⟨some (memTable ws), none, none⟩ } : LookupState Text Text) :=
    ⟨rfl, rfl, rfl, rfl, fun _ => rfl⟩
  have hlen : (ws.take snapshot).length ≤ snapshot := List.length_take_le snapshot ws
  have hanswer := (memTable ws).get_answer (confKey id) snapshot (some affineOperator) hfor rfl rfl
  rw [versions_memTable, (memTable_upTo (ws.take snapshot)).versions_eq hlen,
    read_memTable hid hws] at hanswer
  rw [lookup, hanswer]
  cases modelAfter (ws.take snapshot) id with
  | none => rfl
  | some v => rfl

/-- A value, an operand on it, a range delete over it, a reversed one, and an operand on nothing. -/
def sampleWrites : List ConfWrite :=
  [⟨.put, 7, 0, "7:1:bbb".toList⟩, ⟨.merge, 7, 0, "2,5".toList⟩, ⟨.deleteRange, 5, 9, []⟩,
    ⟨.deleteRange, 9, 5, []⟩, ⟨.merge, 7, 0, "3,1".toList⟩]

theorem lookup_sampleWrites :
    lookup sampleWrites 5 7 = reply (modelAfter (sampleWrites.take 5) 7) :=
  lookup_eq (by decide) (by decide)

/-- An operand that does not parse: the engine fails the read, the map takes a marker. -/
def malformed : List ConfWrite := [⟨.merge, 0, 0, "x".toList⟩]

/-- A range that ends at the first id with nine digits, whose key is before the key of the id. -/
def nineDigits : List ConfWrite :=
  [⟨.put, 99999999, 0, "v".toList⟩, ⟨.deleteRange, 0, 100000000, []⟩]

/-- **The two differ** at an operand that does not parse, and at a range up to an id of nine
digits. -/
theorem lookup_ne :
    (lookup malformed 1 0 = (.corruption "merge operator failed", none) ∧
        reply (modelAfter (malformed.take 1) 0) = (.ok, some "BAD-OPERAND".toList)) ∧
      lookup nineDigits 2 99999999 = (.ok, some "v".toList) ∧
        reply (modelAfter (nineDigits.take 2) 99999999) = (.notFound, none) := by
  refine ⟨⟨?_, ?_⟩, ?_, ?_⟩
  · decide
  · decide
  · decide
  · decide

end LevelDb.Conf
