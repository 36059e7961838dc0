import LevelDb.Proof.Opening
import Mathlib.Data.List.Count

/-!
# Who refers to a family

In every reachable state the references of a family are its handles, one if it is not dropped, and
those that were lost (`Counted`): `DropColumnFamily` does not give back the database's reference, and
`DB::Open` loses one for each family it creates. So nothing is ever deleted. The references balance
exactly while none is lost (`Counted.balanced_iff`), which is so in the runs where no family is
dropped and `DB::Open` creates none (`balanced_reachable`).
-/

namespace LevelDb.Handles

open Catalog Transition

/-- The handles of a family that are out; one of the default family is the database's. -/
def DBImpl.outstanding (db : DBImpl) (ptr : Nat) : Nat :=
  (db.handles ++ db.defaultHandle.toList).count ptr

/-- The database holds a family until it is dropped. -/
def ColumnFamily.held (cf : ColumnFamily) : Nat := if cf.dropped then 0 else 1

/-- What the references should be, and what should become of dropped families. -/
structure Balanced (db : DBImpl) : Prop where
  refs : ∀ (ptr : Nat) (cf : ColumnFamily), db.heap[ptr]? = some cf → cf.freed = false →
    cf.refs = (db.outstanding ptr + cf.held : Nat)
  gone : ∀ ptr cf, db.heap[ptr]? = some cf → cf.dropped = true → db.outstanding ptr = 0 →
    cf.freed = true ∧ ∀ id, (id, ptr) ∉ db.cfs
  live : ∀ ptr cf, db.heap[ptr]? = some cf → 0 < db.outstanding ptr → cf.freed = false

/-- The references that are there, `lost` those that nothing will give back. -/
structure Counted (lost : List Nat) (db : DBImpl) : Prop where
  refs : ∀ (ptr : Nat) (cf : ColumnFamily), db.heap[ptr]? = some cf →
    cf.refs = (db.outstanding ptr + cf.held + lost.count ptr : Nat)
  freed : ∀ cf ∈ db.heap, cf.freed = false
  dropped : ∀ ptr cf, db.heap[ptr]? = some cf → cf.dropped = true → ptr ∈ lost
  valid : ∀ ptr ∈ db.handles ++ db.defaultHandle.toList ++ lost, ptr < db.heap.length
  defaultCf : db.defaultCf < db.heap.length

variable {db : DBImpl} {lost : List Nat} {file : Option Bytes} {ptr : Nat}

namespace Counted

/-- **The references balance exactly while none is lost.** -/
theorem balanced_iff (h : Counted lost db) : Balanced db ↔ lost = [] := by
  constructor
  · intro hbal
    refine List.eq_nil_iff_forall_not_mem.2 fun ptr hin => ?_
    have hlt := h.valid ptr (List.mem_append_right _ hin)
    have hget := List.getElem?_eq_getElem hlt
    have h1 := h.refs _ _ hget
    have h2 := hbal.refs _ _ hget (h.freed _ (List.getElem_mem hlt))
    have hpos := List.count_pos_iff.2 hin
    omega
  · rintro rfl
    refine ⟨?_, ?_, ?_⟩
    · intro ptr cf hcf _
      have := h.refs ptr cf hcf
      rwa [List.count_nil, add_zero] at this
    · intro ptr cf hcf hdropped _
      exact absurd (h.dropped ptr cf hcf hdropped) List.not_mem_nil
    · intro ptr cf hcf _
      exact h.freed cf (List.mem_of_getElem? hcf)

/-! ## The operations -/

/-- What a change of one object keeps of the others. -/
theorem getElem?_modify {f : ColumnFamily → ColumnFamily} {i : Nat} {cf : ColumnFamily}
    (h : (db.modify ptr f).heap[i]? = some cf) :
    ∃ cf0, db.heap[i]? = some cf0 ∧ cf = if ptr = i then f cf0 else cf0 := by
  have h : (db.heap.modify ptr f)[i]? = some cf := h
  rw [List.getElem?_modify] at h
  obtain ⟨cf0, hcf0, heq⟩ := Option.map_eq_some_iff.1 h
  refine ⟨cf0, hcf0, ?_⟩
  rw [← heq]

/-- A reference that no handle stands for counts as lost, -/
theorem ref (h : Counted lost db) (hlt : ptr < db.heap.length) :
    Counted (ptr :: lost) (db.ref ptr) where
  refs := by
    intro i cf hcf
    obtain ⟨cf0, hcf0, rfl⟩ := getElem?_modify hcf
    have h0 := h.refs i cf0 hcf0
    have hout : (db.ref ptr).outstanding i = db.outstanding i := rfl
    rw [hout]
    by_cases hi : ptr = i
    · subst hi
      rw [if_pos rfl, List.count_cons_self]
      show cf0.refs + 1 = (db.outstanding ptr + cf0.held + (lost.count ptr + 1) : Nat)
      omega
    · rw [if_neg hi, List.count_cons_of_ne (fun heq => hi heq)]
      exact h0
  freed := by
    intro cf hcf
    obtain ⟨i, hi⟩ := List.mem_iff_getElem?.1 hcf
    obtain ⟨cf0, hcf0, rfl⟩ := getElem?_modify hi
    have h0 := h.freed cf0 (List.mem_of_getElem? hcf0)
    split <;> exact h0
  dropped := by
    intro i cf hcf hdropped
    obtain ⟨cf0, hcf0, rfl⟩ := getElem?_modify hcf
    refine List.mem_cons_of_mem ptr (h.dropped i cf0 hcf0 ?_)
    split at hdropped <;> exact hdropped
  valid := by
    intro i hi
    have hlen : (db.ref ptr).heap.length = db.heap.length := List.length_modify _ _ _
    rw [hlen]
    have hi : i ∈ db.handles ++ db.defaultHandle.toList ++ ptr :: lost := hi
    rw [List.mem_append, List.mem_cons] at hi
    rcases hi with hi | rfl | hi
    · exact h.valid i (List.mem_append_left _ hi)
    · exact hlt
    · exact h.valid i (List.mem_append_right _ hi)
  defaultCf := by
    have hlen : (db.ref ptr).heap.length = db.heap.length := List.length_modify _ _ _
    rw [hlen]
    exact h.defaultCf

/-- and as a handle's when one is made. -/
theorem handOut (h : Counted (ptr :: lost) db)
    (hdropped : ∀ cf, db.heap[ptr]? = some cf → cf.dropped = true → ptr ∈ lost)
    {handles : List Nat} {defaultHandle : Option Nat}
    (hperm : (handles ++ defaultHandle.toList).Perm (ptr :: (db.handles ++ db.defaultHandle.toList))) :
    Counted lost { db with handles, defaultHandle } where
  refs := by
    intro i cf hcf
    have h0 := h.refs i cf hcf
    show _ = (((handles ++ defaultHandle.toList).count i + cf.held + lost.count i : Nat) : Int)
    rw [hperm.count_eq, h0]
    unfold DBImpl.outstanding
    rw [List.count_cons, List.count_cons]
    omega
  freed := h.freed
  dropped := by
    intro i cf hcf hcfdropped
    rcases List.mem_cons.1 (h.dropped i cf hcf hcfdropped) with rfl | hin
    · exact hdropped cf hcf hcfdropped
    · exact hin
  valid := by
    intro i hi
    have hi : i ∈ handles ++ defaultHandle.toList ++ lost := hi
    refine h.valid i ?_
    rw [List.mem_append, hperm.mem_iff, List.mem_cons] at hi
    rw [List.mem_append, List.mem_cons]
    tauto
  defaultCf := h.defaultCf

/-- A handle is made with its reference. -/
theorem refHandle (h : Counted lost db) (hlt : ptr < db.heap.length) {handles : List Nat}
    {defaultHandle : Option Nat}
    (hperm : (handles ++ defaultHandle.toList).Perm (ptr :: (db.handles ++ db.defaultHandle.toList))) :
    Counted lost { db.ref ptr with handles, defaultHandle } := by
  refine (h.ref hlt).handOut ?_ hperm
  intro cf hcf hdropped
  obtain ⟨cf0, hcf0, rfl⟩ := getElem?_modify hcf
  refine h.dropped ptr cf0 hcf0 ?_
  rwa [if_pos rfl] at hdropped

/-- A new object has the reference of the database, and no handle. -/
theorem addFamily (h : Counted lost db) (id : Nat) (name : Bytes) (raw : Options) :
    Counted lost (db.addFamily id name raw) := by
  have hget (i : Nat) (cf : ColumnFamily) (hcf : (db.addFamily id name raw).heap[i]? = some cf) :
      db.heap[i]? = some cf ∨
        i = db.heap.length ∧ cf = ⟨id, name, db.familyOptions raw, false, 1, false⟩ := by
    have hcf : (db.heap ++ [_])[i]? = some cf := hcf
    rcases Nat.lt_or_ge i db.heap.length with hlt | hge
    · rw [List.getElem?_append_left hlt] at hcf
      exact .inl hcf
    · rw [List.getElem?_append_right hge, List.getElem?_singleton] at hcf
      split at hcf
      · cases hcf
        exact .inr ⟨by omega, rfl⟩
      · cases hcf
  have hnone {l : List Nat} (hl : ∀ ptr ∈ l, ptr < db.heap.length) : l.count db.heap.length = 0 :=
    List.count_eq_zero.2 fun hin => Nat.lt_irrefl _ (hl _ hin)
  have hlen : (db.addFamily id name raw).heap.length = db.heap.length + 1 := by
    show (db.heap ++ [_]).length = _
    rw [List.length_append, List.length_singleton]
  constructor
  case refs =>
    intro i cf hcf
    show _ = (((db.outstanding i + cf.held + lost.count i : Nat)) : Int)
    rcases hget i cf hcf with hcf | ⟨rfl, rfl⟩
    · exact h.refs i cf hcf
    · unfold DBImpl.outstanding
      rw [hnone fun ptr hptr => h.valid ptr (List.mem_append_left _ hptr),
        hnone fun ptr hptr => h.valid ptr (List.mem_append_right _ hptr)]
      rfl
  case freed =>
    intro cf hcf
    obtain ⟨i, hi⟩ := List.mem_iff_getElem?.1 hcf
    rcases hget i cf hi with hi | ⟨-, rfl⟩
    · exact h.freed cf (List.mem_of_getElem? hi)
    · rfl
  case dropped =>
    intro i cf hcf hdropped
    rcases hget i cf hcf with hcf | ⟨-, rfl⟩
    · exact h.dropped i cf hcf hdropped
    · exact absurd hdropped Bool.false_ne_true
  case valid =>
    intro i hi
    rw [hlen]
    exact Nat.lt_succ_of_lt (h.valid i hi)
  case defaultCf =>
    rw [hlen]
    exact Nat.lt_succ_of_lt h.defaultCf

/-- A drop loses the reference of the database. -/
theorem drop (h : Counted lost db) {cf : ColumnFamily} (hcf : db.heap[ptr]? = some cf)
    (hlive : cf.dropped = false) :
    Counted (ptr :: lost) (db.modify ptr fun cf => { cf with dropped := true }) := by
  have hlen : (db.modify ptr fun cf => { cf with dropped := true }).heap.length = db.heap.length :=
    List.length_modify _ _ _
  constructor
  case refs =>
    intro i cf' hcf'
    obtain ⟨cf0, hcf0, rfl⟩ := getElem?_modify hcf'
    have h0 := h.refs i cf0 hcf0
    by_cases hi : ptr = i
    · subst hi
      rw [hcf] at hcf0
      cases hcf0
      unfold ColumnFamily.held at h0
      rw [hlive] at h0
      rw [if_pos rfl, List.count_cons_self]
      show cf.refs = ((db.outstanding ptr + 0 + (lost.count ptr + 1) : Nat) : Int)
      rw [h0]
      simp only [Bool.false_eq_true, if_false]
      omega
    · rw [if_neg hi, List.count_cons_of_ne (fun heq => hi heq)]
      exact h0
  case freed =>
    intro cf' hcf'
    obtain ⟨i, hi⟩ := List.mem_iff_getElem?.1 hcf'
    obtain ⟨cf0, hcf0, rfl⟩ := getElem?_modify hi
    have h0 := h.freed cf0 (List.mem_of_getElem? hcf0)
    split <;> exact h0
  case dropped =>
    intro i cf' hcf' hdropped
    obtain ⟨cf0, hcf0, rfl⟩ := getElem?_modify hcf'
    by_cases hi : ptr = i
    · exact List.mem_cons.2 (.inl hi.symm)
    · rw [if_neg hi] at hdropped
      exact List.mem_cons_of_mem ptr (h.dropped i cf0 hcf0 hdropped)
  case valid =>
    intro i hi
    have hi : i ∈ db.handles ++ db.defaultHandle.toList ++ ptr :: lost := hi
    rw [hlen]
    rw [List.mem_append, List.mem_cons] at hi
    rcases hi with hi | rfl | hi
    · exact h.valid i (List.mem_append_left _ hi)
    · exact (List.getElem?_eq_some_iff.1 hcf).1
    · exact h.valid i (List.mem_append_right _ hi)
  case defaultCf =>
    rw [hlen]
    exact h.defaultCf

/-- A handle is given back with its reference, and the object stays: either it is not dropped, or the
reference of the database was lost. -/
theorem destroyColumnFamilyHandle (h : Counted lost db) {i : Nat} (hi : db.handles[i]? = some ptr) :
    Counted lost (db.destroyColumnFamilyHandle i ptr) := by
  obtain ⟨hlt, hget⟩ := List.getElem?_eq_some_iff.1 hi
  have hperm : (ptr :: db.handles.eraseIdx i).Perm db.handles := by
    rw [← hget]
    exact List.getElem_cons_eraseIdx_perm hlt
  have hout (j : Nat) : db.outstanding j =
      (db.handles.eraseIdx i ++ db.defaultHandle.toList).count j + if ptr = j then 1 else 0 := by
    unfold DBImpl.outstanding
    rw [List.count_append, List.count_append, ← hperm.count_eq, List.count_cons]
    simp only [beq_iff_eq]
    omega
  have hkept : Counted lost { db.modify ptr fun cf => { cf with refs := cf.refs - 1 } with
      handles := db.handles.eraseIdx i } := by
    have hlen : (db.modify ptr fun cf => { cf with refs := cf.refs - 1 }).heap.length =
        db.heap.length := List.length_modify _ _ _
    constructor
    case refs =>
      intro j cf hcf
      obtain ⟨cf0, hcf0, rfl⟩ := getElem?_modify hcf
      have h0 := h.refs j cf0 hcf0
      rw [hout] at h0
      show _ = (((db.handles.eraseIdx i ++ db.defaultHandle.toList).count j + _ + _ : Nat) : Int)
      by_cases hj : ptr = j
      · rw [if_pos hj] at h0 ⊢
        show cf0.refs - 1 = ((_ + cf0.held + _ : Nat) : Int)
        omega
      · rw [if_neg hj] at h0 ⊢
        exact h0
    case freed =>
      intro cf hcf
      obtain ⟨j, hj⟩ := List.mem_iff_getElem?.1 hcf
      obtain ⟨cf0, hcf0, rfl⟩ := getElem?_modify hj
      have h0 := h.freed cf0 (List.mem_of_getElem? hcf0)
      split <;> exact h0
    case dropped =>
      intro j cf hcf hdropped
      obtain ⟨cf0, hcf0, rfl⟩ := getElem?_modify hcf
      refine h.dropped j cf0 hcf0 ?_
      split at hdropped <;> exact hdropped
    case valid =>
      intro j hj
      have hj : j ∈ db.handles.eraseIdx i ++ db.defaultHandle.toList ++ lost := hj
      rw [hlen]
      refine h.valid j ?_
      rw [List.mem_append, List.mem_append] at hj ⊢
      exact hj.imp_left fun hj => hj.imp_left fun hj => List.mem_of_mem_eraseIdx hj
    case defaultCf =>
      rw [hlen]
      exact h.defaultCf
  unfold DBImpl.destroyColumnFamilyHandle
  dsimp only at hkept ⊢
  split
  · rename_i cf hcf
    rw [if_neg]
    · exact hkept
    · rintro ⟨hle, hdropped⟩
      have h1 := hkept.refs ptr cf hcf
      have hpos := List.count_pos_iff.2 (hkept.dropped ptr cf hcf hdropped)
      omega
  · exact hkept

/-! ## `DB::Open` -/

theorem openFamilies (h : Counted lost db) (optionsFor : Bytes → Options) (fs : List (Nat × Bytes)) :
    Counted lost (db.openFamilies optionsFor fs) := by
  induction fs generalizing db with
  | nil => exact h
  | cons f fs ih =>
    have h1 := h.addFamily f.1 f.2 (optionsFor f.2)
    apply ih
    split
    · refine ⟨h1.refs, h1.freed, h1.dropped, h1.valid, ?_⟩
      show db.heap.length < (db.heap ++ [_]).length
      rw [List.length_append, List.length_singleton]
      exact Nat.lt_succ_self _
    · exact h1

theorem openFamilies_defaultHandle (db : DBImpl) (optionsFor : Bytes → Options)
    (fs : List (Nat × Bytes)) : (db.openFamilies optionsFor fs).defaultHandle = db.defaultHandle := by
  induction fs generalizing db with
  | nil => rfl
  | cons f fs ih =>
    unfold DBImpl.openFamilies
    rw [ih]
    split <;> rfl

/-- A creation that succeeds has a reference for the handle. -/
theorem createColumnFamilyLocked (h : Counted lost db) {written : Bool} {options : Options}
    {name : Bytes} {s : Status} {db' : DBImpl} {file' : Option Bytes}
    (heq : db.createColumnFamilyLocked file written options name = (s, db', file')) :
    (s = .ok ∧ Counted (db.heap.length :: lost) db' ∧ db'.handles = db.handles ∧
      db'.defaultHandle = db.defaultHandle ∧
      ∀ cf, db'.heap[db.heap.length]? = some cf → cf.dropped = false) ∨
    s ≠ .ok ∧ Counted lost db' := by
  unfold DBImpl.createColumnFamilyLocked at heq
  split at heq
  · cases heq
    exact .inr ⟨by simp, h⟩
  · split at heq
    · cases heq
      exact .inr ⟨by simp, h⟩
    · have h1 := h.addFamily db.nextFamilyId name options
      have h2 : Counted lost { db.addFamily db.nextFamilyId name options with
          nextFamilyId := uint32 (db.nextFamilyId + 1) } :=
        ⟨h1.refs, h1.freed, h1.dropped, h1.valid, h1.defaultCf⟩
      split at heq
      · cases heq
        refine .inl ⟨rfl, h2.ref ?_, rfl, rfl, ?_⟩
        · show db.heap.length < (db.heap ++ [_]).length
          rw [List.length_append, List.length_singleton]
          exact Nat.lt_succ_self _
        · intro cf hcf
          obtain ⟨cf0, hcf0, rfl⟩ := getElem?_modify hcf
          have hcf0 : (db.heap ++ [_])[db.heap.length]? = some cf0 := hcf0
          rw [List.getElem?_concat_length] at hcf0
          cases hcf0
          rw [if_pos rfl]
      · cases heq
        exact .inr ⟨by simp, h2⟩

/-- For each family that is created a reference is lost. -/
theorem createMissing {all : List (Nat × Bytes)} {allowed : Bool} {ds : List Descriptor}
    {db' : DBImpl} {file' : Option Bytes} (h : Counted lost db)
    (heq : DBImpl.createMissing all allowed db file ds = (.ok, db', file')) :
    ∃ new, Counted (new ++ lost) db' ∧ db'.defaultHandle = db.defaultHandle ∧
      new.length = (missing all ds).length := by
  induction ds generalizing db file lost with
  | nil =>
    cases heq
    exact ⟨[], h, rfl, rfl⟩
  | cons d ds ih =>
    unfold DBImpl.createMissing at heq
    unfold missing
    by_cases hd : (all.any fun f => f.2 == d.name) = true
    · rw [if_pos hd] at heq
      rw [List.filter_cons_of_neg (by rw [hd]; decide)]
      exact ih h heq
    · rw [if_neg hd] at heq
      rw [List.filter_cons_of_pos (by rw [eq_false_of_ne_true hd]; rfl)]
      split at heq
      · cases heq
      · split at heq
        · rename_i db1 file1 hcreate
          rcases h.createColumnFamilyLocked hcreate with ⟨-, h1, -, hhandle, -⟩ | ⟨hnot, -⟩
          · obtain ⟨new, h2, hhandle2, hlen⟩ := ih h1 heq
            refine ⟨new ++ [db.heap.length], ?_, hhandle2.trans hhandle, ?_⟩
            · rwa [List.append_assoc]
            · rw [List.length_append, List.length_cons, hlen]
              rfl
          · exact absurd rfl hnot
        · rename_i hnot
          exact absurd heq (hnot db' file')

/-- The families on disk are opened without a handle. -/
theorem start (a : OpenArgs) (optionsFor : Bytes → Options) (onDisk : List (Nat × Bytes))
    (next : Nat) :
    Counted [] ({ a.start with nextFamilyId := next }.openFamilies optionsFor
      (allFamilies onDisk)) := by
  have hfirst (i : Nat) (cf : ColumnFamily) (hcf : [(⟨0, kDefaultColumnFamilyName,
      a.start.familyOptions (optionsFor kDefaultColumnFamilyName), false, 1, false⟩ :
        ColumnFamily)][i]? = some cf) : cf.held = 1 ∧ cf.refs = 1 ∧ cf.freed = false := by
    rw [List.getElem?_singleton] at hcf
    split at hcf
    · cases hcf
      exact ⟨rfl, rfl, rfl⟩
    · cases hcf
  refine openFamilies ⟨?_, ?_, ?_, ?_, Nat.zero_lt_one⟩ optionsFor onDisk
  · intro i cf hcf
    obtain ⟨hheld, hrefs, -⟩ := hfirst i cf hcf
    rw [hheld, hrefs]
    rfl
  · intro cf hcf
    obtain ⟨i, hi⟩ := List.mem_iff_getElem?.1 hcf
    exact (hfirst i cf hi).2.2
  · intro i cf hcf hdropped
    have hheld := (hfirst i cf hcf).1
    unfold ColumnFamily.held at hheld
    rw [hdropped] at hheld
    cases hheld
  · intro i hi
    cases hi

theorem openHandles {ds : List Descriptor} {s : Status} {db' : DBImpl} {handles : List Nat}
    (h : Counted lost db) (heq : db.openHandles ds = (s, db', handles)) : Counted lost db' := by
  induction ds generalizing db s handles with
  | nil =>
    cases heq
    exact h
  | cons d ds ih =>
    unfold DBImpl.openHandles at heq
    split at heq
    · cases heq
      exact h
    · rename_i id ptr hfind
      have h1 : Counted lost
          (if id = 0 then db else { db.ref ptr with handles := db.handles ++ [ptr] }) := by
        split
        · exact h
        · have hmatch := List.find?_some hfind
          obtain ⟨cf, hcf, -⟩ := (Option.any_eq_true _ _).1 hmatch
          refine h.refHandle (List.getElem?_eq_some_iff.1 hcf).1 ?_
          rw [List.append_assoc]
          exact List.perm_middle
      dsimp only at heq
      generalize hrest : DBImpl.openHandles _ ds = r at heq
      obtain ⟨s1, db1, handles1⟩ := r
      cases heq
      exact ih h1 hrest

end Counted

/-! ## Runs -/

/-- `DB::Open` gets to create families. -/
def OpenArgs.Creates (a : OpenArgs) (file : Option Bytes) : Prop :=
  ∃ onDisk next, readFamilies file = .ok (onDisk, next) ∧ a.Admits ∧
    ¬ Refused onDisk a.families a.options.createMissingColumnFamilies ∧
    missing (allFamilies onDisk) a.families ≠ []

instance (a : OpenArgs) (file : Option Bytes) : Decidable (a.Creates file) :=
  match h : readFamilies file with
  | .error c => isFalse fun ⟨_, _, hread, _⟩ => nomatch h.symm.trans hread
  | .ok (onDisk, next) =>
    decidable_of_iff (a.Admits ∧ ¬ Refused onDisk a.families a.options.createMissingColumnFamilies ∧
        (missing (allFamilies onDisk) a.families).isEmpty = false)
      ⟨fun hc => ⟨onDisk, next, h, hc.1, hc.2.1, fun hnil => by rw [hnil] at hc; cases hc.2.2⟩,
        fun ⟨_, _, hread, ha, href, hne⟩ => by
          rw [h] at hread
          cases hread
          exact ⟨ha, href, by simpa using hne⟩⟩

/-- What `DB::Open` has checked when it goes through. -/
theorem recover_ok {a : OpenArgs} {allowed : Bool} {db : DBImpl} {file' : Option Bytes}
    (h : a.start.recover file a.existed a.families allowed = (.ok, db, file')) :
    ∃ onDisk next, readFamilies file = .ok (onDisk, next) ∧ a.Admits ∧
      ¬ Refused onDisk a.families allowed ∧
      DBImpl.createMissing (allFamilies onDisk) allowed
        ({ a.start with nextFamilyId := next }.openFamilies a.optionsFor (allFamilies onDisk)) file
        a.families = (.ok, db, file') := by
  have hadmits : a.Admits := by
    unfold OpenArgs.Admits
    unfold DBImpl.recover at h
    split at h
    · cases h
    · rename_i hcreate
      split at h
      · cases h
      · rename_i hexists
        have hcreate : ¬ (!a.existed && !a.options.createIfMissing) = true := hcreate
        have hexists : ¬ (a.existed && a.options.errorIfExists) = true := hexists
        split
        · rename_i hex
          simpa [hex] using hexists
        · rename_i hex
          simpa [hex] using hcreate
  cases hread : readFamilies file with
  | error c =>
    unfold DBImpl.recover at h
    simp only [hadmits.existed, hread, Bool.false_eq_true, if_false] at h
    cases h
  | ok r =>
    obtain ⟨onDisk, next⟩ := r
    have hnot : ¬ Refused onDisk a.families allowed := by
      intro href
      obtain ⟨m, m2, db1, heq⟩ := recover_refused hread hadmits href
      rw [heq] at h
      cases h
    exact ⟨onDisk, next, rfl, hadmits, hnot, (recover_eq hread hadmits hnot).2.2.symm.trans h⟩

/-- A database that is opened lost the references of the families it created. -/
theorem openDB_counted {a : OpenArgs} {s : Status} {file' : Option Bytes} {db : DBImpl}
    {handles : List Nat} (h : openDB file a = (s, file', some (db, handles))) :
    ∃ lost, Counted lost db ∧ (lost = [] ↔ ¬ a.Creates file) := by
  unfold openDB at h
  split at h
  · rename_i db1 file1 hrecover
    obtain ⟨onDisk, next, hread, hadmits, hnot, hcreate⟩ := recover_ok hrecover
    obtain ⟨lost, h1, hnone, hlen⟩ :=
      (Counted.start a a.optionsFor onDisk next).createMissing hcreate
    rw [List.append_nil] at h1
    have h2 : Counted lost { db1.ref db1.defaultCf with defaultHandle := some db1.defaultCf } := by
      refine h1.refHandle h1.defaultCf ?_
      rw [hnone, Counted.openFamilies_defaultHandle]
      show (db1.handles ++ [_]).Perm (_ :: (db1.handles ++ []))
      rw [List.append_nil]
      exact List.perm_append_singleton _ _
    dsimp only at h
    split at h
    · rename_i db2 handles2 hopen
      cases h
      refine ⟨lost, h2.openHandles hopen, ?_⟩
      rw [← List.length_eq_zero_iff, hlen, List.length_eq_zero_iff]
      constructor
      · rintro hmissing ⟨onDisk', next', hread', -, -, hne⟩
        rw [hread] at hread'
        cases hread'
        exact hne hmissing
      · intro hcreates
        by_contra hmissing
        exact hcreates ⟨onDisk, next, hread, hadmits, hnot, hmissing⟩
    · cases h
  · cases h

theorem Counted.createColumnFamily (h : Counted lost db) (written : Bool) (options : Options)
    (name : Bytes) : Counted lost (db.createColumnFamily file written options name).1 := by
  unfold DBImpl.createColumnFamily
  split
  · rename_i db1 file1 heq
    rcases h.createColumnFamilyLocked heq with ⟨-, h1, hhandles, hdefault, hlive⟩ | ⟨hnot, -⟩
    · refine h1.handOut ?_ ?_
      · intro cf hcf hdropped
        exact absurd ((hlive cf hcf).symm.trans hdropped) Bool.false_ne_true
      · rw [hhandles, hdefault, List.append_assoc]
        exact List.perm_middle
    · exact absurd rfl hnot
  · rename_i s db1 file1 hnot heq
    rcases h.createColumnFamilyLocked heq with ⟨rfl, -⟩ | ⟨-, h1⟩
    · exact absurd rfl hnot
    · exact h1

/-- A drop goes through, on a family that is not dropped and not the default. -/
def DBImpl.Drops (db : DBImpl) (ptr : Nat) : Prop :=
  ∃ cf, db.heap[ptr]? = some cf ∧ cf.dropped = false ∧ cf.id ≠ 0

instance (db : DBImpl) (ptr : Nat) : Decidable (db.Drops ptr) :=
  match h : db.heap[ptr]? with
  | none => isFalse fun ⟨_, hcf, _⟩ => nomatch h.symm.trans hcf
  | some cf =>
    decidable_of_iff (cf.dropped = false ∧ cf.id ≠ 0)
      ⟨fun hc => ⟨cf, h, hc⟩, fun ⟨_, hcf, hc⟩ => Option.some.inj (h.symm.trans hcf) ▸ hc⟩

theorem Counted.dropColumnFamily (h : Counted lost db) (written : Bool) (hdrops : db.Drops ptr) :
    Counted (ptr :: lost) (db.dropColumnFamily file written ptr).1 := by
  obtain ⟨cf, hcf, hlive, hid⟩ := hdrops
  unfold DBImpl.dropColumnFamily
  simp only [hcf, hlive, hid, Bool.false_eq_true, if_false]
  exact h.drop hcf hlive

theorem dropColumnFamily_eq (written : Bool) (hnot : ¬ db.Drops ptr) :
    db.dropColumnFamily file written ptr = (db, file) := by
  unfold DBImpl.dropColumnFamily
  split
  · rfl
  · rename_i cf hcf
    split
    · rfl
    · rename_i hlive
      split
      · rfl
      · rename_i hid
        exact absurd ⟨cf, hcf, eq_false_of_ne_true hlive, hid⟩ hnot

namespace State

/-- No step loses a reference: no drop goes through, and `DB::Open` creates no family. -/
def GivesBack (s : State) : Action → Prop
  | .openDB a => ¬ a.Creates s.file
  | .dropColumnFamily i _ => ∀ db ∈ s.db, ∀ ptr ∈ db.handles[i]?, ¬ db.Drops ptr
  | .createColumnFamily .. | .destroyColumnFamilyHandle _ | .close => True

instance (s : State) : ∀ a, Decidable (s.GivesBack a)
  | .openDB a => inferInstanceAs (Decidable (¬ a.Creates s.file))
  | .dropColumnFamily i _ =>
    inferInstanceAs (Decidable (∀ db ∈ s.db, ∀ ptr ∈ db.handles[i]?, ¬ db.Drops ptr))
  | .createColumnFamily .. | .destroyColumnFamilyHandle _ | .close =>
    inferInstanceAs (Decidable True)

/-- What a step has lost. -/
theorem counted_step {s s' : State} {a : Action} (hstep : s.step a = some s')
    (h : ∀ db ∈ s.db, Counted lost db) :
    ∀ db' ∈ s'.db, ∃ lost', Counted lost' db' ∧ (s.GivesBack a → lost = [] → lost' = []) ∧
      (¬ s.GivesBack a → lost' ≠ []) := by
  obtain ⟨file, db⟩ := s
  cases db with
  | none =>
    cases a with
    | openDB a =>
      cases hstep
      intro db' hdb'
      obtain ⟨⟨db1, handles⟩, heq, rfl⟩ := Option.map_eq_some_iff.1 hdb'
      have hopen : openDB file a = ((openDB file a).1, (openDB file a).2.1, some (db1, handles)) :=
        Prod.ext rfl (Prod.ext rfl heq)
      obtain ⟨lost', h1, hlost⟩ := openDB_counted hopen
      exact ⟨lost', h1, fun hgives _ => hlost.2 hgives, fun hnot hnil => hnot (hlost.1 hnil)⟩
    | createColumnFamily | dropColumnFamily | destroyColumnFamilyHandle | close => cases hstep
  | some db =>
    have h := h db rfl
    cases a with
    | openDB => cases hstep
    | createColumnFamily options name written =>
      cases hstep
      rintro db' ⟨⟩
      exact ⟨lost, h.createColumnFamily written options name, fun _ hnil => hnil,
        fun hnot => absurd trivial hnot⟩
    | dropColumnFamily i written =>
      obtain ⟨ptr, hptr, heq⟩ := Option.map_eq_some_iff.1 hstep
      subst heq
      intro db' hdb'
      obtain rfl : (db.dropColumnFamily file written ptr).1 = db' := Option.some.inj hdb'
      by_cases hdrops : db.Drops ptr
      · refine ⟨ptr :: lost, h.dropColumnFamily written hdrops, ?_, fun _ => List.cons_ne_nil _ _⟩
        intro hgives
        exact absurd hdrops (hgives db rfl ptr hptr)
      · refine ⟨lost, ?_, fun _ hnil => hnil, ?_⟩
        · rw [dropColumnFamily_eq written hdrops]
          exact h
        · intro hnot
          refine absurd ?_ hnot
          rintro db' ⟨⟩ ptr' hptr'
          rw [hptr] at hptr'
          cases hptr'
          exact hdrops
    | destroyColumnFamilyHandle i =>
      obtain ⟨ptr, hptr, heq⟩ := Option.map_eq_some_iff.1 hstep
      subst heq
      rintro db' ⟨⟩
      exact ⟨lost, h.destroyColumnFamilyHandle hptr, fun _ hnil => hnil,
        fun hnot => absurd trivial hnot⟩
    | close =>
      cases hstep
      rintro db' ⟨⟩

end State

theorem counted_reachable {s : State} (h : system.Reachable s) :
    ∃ lost, ∀ db ∈ s.db, Counted lost db := by
  refine h.invariant (P := fun s => ∃ lost, ∀ db ∈ s.db, Counted lost db) ?_ ?_
  · rintro s rfl
    exact ⟨[], fun db hdb => nomatch hdb⟩
  · rintro s a s' ⟨lost, hs⟩ hstep
    cases hdb : s'.db with
    | none => exact ⟨[], fun db hdb => nomatch hdb⟩
    | some db =>
      obtain ⟨lost', h', -⟩ := State.counted_step hstep hs db hdb
      refine ⟨lost', ?_⟩
      rintro db' ⟨⟩
      exact h'

/-- **Nothing is deleted**: a family that has been in `cfs_` stays, also when it is dropped and its
last handle is destroyed. -/
theorem not_freed {s : State} (h : system.Reachable s) : ∀ db ∈ s.db, ∀ cf ∈ db.heap,
    cf.freed = false := by
  obtain ⟨lost, hlost⟩ := counted_reachable h
  exact fun db hdb => (hlost db hdb).freed

/-- **A lost reference is seen at once**: a step that gives one up leaves a database that is not
balanced. -/
theorem not_balanced_step {s s' : State} {a : Action} (h : system.Reachable s)
    (hstep : s.step a = some s') (hnot : ¬ s.GivesBack a) : ∀ db ∈ s'.db, ¬ Balanced db := by
  obtain ⟨lost, hlost⟩ := counted_reachable h
  intro db hdb hbal
  obtain ⟨lost', h', -, hne⟩ := State.counted_step hstep hlost db hdb
  exact hne hnot (h'.balanced_iff.1 hbal)

/-- **The balance of references**: in the runs where no drop goes through and `DB::Open` creates no
family, each family has as many references as it has handles, and one of the database; and each step
that is not so ends the balance. -/
theorem balanced_reachable {s : State} (h : system.ReachableBy State.GivesBack s) :
    (∀ db ∈ s.db, Balanced db) ∧
    ∀ s' a, system.step s a = some s' → ¬ s.GivesBack a → ∀ db ∈ s'.db, ¬ Balanced db := by
  have hnone : ∀ db ∈ s.db, Counted [] db := by
    refine h.invariant (P := fun s => ∀ db ∈ s.db, Counted [] db) ?_ ?_
    · rintro s rfl db ⟨⟩
    · intro s a s' hs hgives hstep db hdb
      obtain ⟨lost', h', hnil, -⟩ := State.counted_step hstep hs db hdb
      rwa [hnil hgives rfl] at h'
  refine ⟨?_, fun s' a hstep hnot => not_balanced_step h.reachable hstep hnot⟩
  exact fun db hdb => (hnone db hdb).balanced_iff.2 rfl

/-- A new database is opened with the default family alone. -/
def newArgs : OpenArgs :=
  { sampleArgs with
    families := [⟨kDefaultColumnFamilyName, sampleOptions⟩]
    existed := false }

/-- A handle comes and goes. -/
def handleRun : List Action :=
  [.openDB newArgs, .createColumnFamily sampleOptions "a".toList true, .destroyColumnFamilyHandle 0]

theorem balanced_reachable_handleRun : ∃ s db,
    system.runBy State.GivesBack ⟨none, none⟩ handleRun = some s ∧ s.db = some db ∧
    db.heap.map (·.refs) = [2, 1] ∧ db.handles = [] ∧ Balanced db := by
  have hrun : (system.runBy State.GivesBack ⟨none, none⟩ handleRun).any (fun s =>
      s.db.any fun db => db.heap.map (·.refs) = [2, 1] ∧ db.handles = []) = true := by
    decide +kernel
  obtain ⟨s, hs, hany⟩ := (Option.any_eq_true _ _).1 hrun
  obtain ⟨db, hdb, hrefs⟩ := (Option.any_eq_true _ _).1 hany
  have hinit : system.ReachableBy State.GivesBack ⟨none, none⟩ := .init rfl
  rw [decide_eq_true_eq] at hrefs
  exact ⟨s, db, hs, hdb, hrefs.1, hrefs.2, (balanced_reachable (hinit.runBy hs)).1 db hdb⟩

/-- The family is dropped before its handle goes. -/
def dropRun : List Action :=
  [.openDB newArgs, .createColumnFamily sampleOptions "a".toList true, .dropColumnFamily 0 true,
    .destroyColumnFamilyHandle 0]

/-- **Dropped families stay**: without a handle the family still is in `cfs_`, with a reference. -/
theorem not_balanced_reachable : ∃ s db, system.Reachable s ∧ s.db = some db ∧ db.handles = [] ∧
    (db.heap[1]?).map (fun cf => (cf.dropped, cf.refs, cf.freed)) = some (true, 1, false) ∧
    (1, 1) ∈ db.cfs ∧ ¬ Balanced db := by
  have hrun : (system.run ⟨none, none⟩ dropRun).any (fun s => s.db.any fun db =>
      db.handles = [] ∧ db.outstanding 1 = 0 ∧
      (db.heap[1]?).map (fun cf => (cf.dropped, cf.refs, cf.freed)) = some (true, 1, false) ∧
      (1, 1) ∈ db.cfs) = true := by
    decide +kernel
  obtain ⟨s, hs, hany⟩ := (Option.any_eq_true _ _).1 hrun
  obtain ⟨db, hdb, hfacts⟩ := (Option.any_eq_true _ _).1 hany
  rw [decide_eq_true_eq] at hfacts
  obtain ⟨hhandles, hout, hcf, hin⟩ := hfacts
  have hinit : system.Reachable ⟨none, none⟩ := .init rfl
  refine ⟨s, db, hinit.run hs, hdb, hhandles, hcf, hin, ?_⟩
  intro hbal
  obtain ⟨cf, hget, heq⟩ := Option.map_eq_some_iff.1 hcf
  simp only [Prod.mk.injEq] at heq
  exact (hbal.gone 1 cf hget heq.1 hout).2 1 hin

end LevelDb.Handles
