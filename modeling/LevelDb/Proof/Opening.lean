import LevelDb.Db.Database
import LevelDb.Db.Handles
import LevelDb.Proof.Catalog

/-!
# What `DB::Open` accepts

For a FAMILIES that lists a set of families, a list of descriptors is refused if it is one of those
that `Refused` describes, and then FAMILIES stays as it is; each other list is accepted, and what it
gets is described by `Opened` (`openDB_accepts`). The families in the process are, as objects and in
`cfs_`, those of a list (`Holds`), which grows at its end.
-/

namespace LevelDb.Handles

open Catalog

/-! ## The families of a process -/

/-- A family as it is opened or created. -/
structure Family where
  id : Nat
  name : Bytes
  options : Options

/-- What of an object stays. -/
def ColumnFamily.shape (cf : ColumnFamily) : Nat × Bytes × Options × Bool :=
  (cf.id, cf.name, cf.options, cf.dropped)

/-- The objects are of these families, in this order, and `cfs_` leads to all of them. -/
structure Holds (base : Options → Options) (db : DBImpl) (fams : List Family) : Prop where
  familyOptions : db.familyOptions = base
  heap : db.heap.map ColumnFamily.shape =
    fams.map fun f => (f.id, f.name, base f.options, false)
  cfs : ∀ id ptr, (id, ptr) ∈ db.cfs ↔ (fams[ptr]?).map Family.id = some id
  ids : (fams.map Family.id).Nodup

variable {base : Options → Options} {db db' : DBImpl} {fams : List Family} {file : Option Bytes}

namespace Holds

theorem length (h : Holds base db fams) : db.heap.length = fams.length := by
  have := congrArg List.length h.heap
  rwa [List.length_map, List.length_map] at this

theorem object (h : Holds base db fams) {ptr : Nat} {f : Family} (hf : fams[ptr]? = some f) :
    ∃ cf, db.heap[ptr]? = some cf ∧ cf.id = f.id ∧ cf.name = f.name ∧
      cf.options = base f.options ∧ cf.dropped = false := by
  have hget := congrArg (·[ptr]?) h.heap
  simp only [List.getElem?_map, hf, Option.map_some] at hget
  obtain ⟨cf, hcf, heq⟩ := Option.map_eq_some_iff.1 hget
  simp only [ColumnFamily.shape, Prod.mk.injEq] at heq
  exact ⟨cf, hcf, heq⟩

theorem family (h : Holds base db fams) {ptr : Nat} {cf : ColumnFamily}
    (hcf : db.heap[ptr]? = some cf) :
    ∃ f, fams[ptr]? = some f ∧ cf.id = f.id ∧ cf.name = f.name ∧
      cf.options = base f.options ∧ cf.dropped = false := by
  obtain ⟨hlt, -⟩ := List.getElem?_eq_some_iff.1 hcf
  rw [h.length] at hlt
  obtain ⟨cf', hcf', hsame⟩ := h.object (List.getElem?_eq_getElem hlt)
  rw [hcf] at hcf'
  cases hcf'
  exact ⟨fams[ptr], List.getElem?_eq_getElem hlt, hsame⟩

/-- What keeps the objects' shapes and `cfs_` keeps the families. -/
theorem congr (h : Holds base db fams) (hoptions : db'.familyOptions = db.familyOptions)
    (hheap : db'.heap.map ColumnFamily.shape = db.heap.map ColumnFamily.shape)
    (hcfs : db'.cfs = db.cfs) : Holds base db' fams :=
  ⟨hoptions.trans h.familyOptions, hheap.trans h.heap, by rw [hcfs]; exact h.cfs, h.ids⟩

theorem addFamily (h : Holds base db fams) {id : Nat} (hid : id ∉ fams.map Family.id) (name : Bytes)
    (raw : Options) : Holds base (db.addFamily id name raw) (fams ++ [⟨id, name, raw⟩]) where
  familyOptions := h.familyOptions
  heap := by
    show (db.heap ++ [_]).map ColumnFamily.shape = _
    rw [List.map_append, List.map_append, h.heap, ← h.familyOptions]
    rfl
  cfs := by
    intro id' ptr
    show (id', ptr) ∈ ((db.cfs.filter _).orderedInsert _ _) ↔ _
    rw [List.mem_orderedInsert, List.mem_filter, h.cfs, Prod.mk.injEq, h.length]
    constructor
    · rintro (⟨rfl, rfl⟩ | ⟨hin, -⟩)
      · rw [List.getElem?_concat_length]
        rfl
      · obtain ⟨f, hf, hfid⟩ := Option.map_eq_some_iff.1 hin
        obtain ⟨hlt, -⟩ := List.getElem?_eq_some_iff.1 hf
        rw [List.getElem?_append_left hlt]
        exact hin
    · intro hin
      obtain ⟨f, hf, rfl⟩ := Option.map_eq_some_iff.1 hin
      rcases Nat.lt_or_ge ptr fams.length with hlt | hge
      · rw [List.getElem?_append_left hlt] at hf
        refine .inr ⟨congrArg (Option.map Family.id) hf, ?_⟩
        apply decide_eq_true
        rintro rfl
        exact hid (List.mem_map_of_mem (List.mem_of_getElem? hf))
      · rw [List.getElem?_append_right hge, List.getElem?_singleton] at hf
        split at hf
        · cases hf
          exact .inl ⟨rfl, by omega⟩
        · cases hf
  ids := by
    rw [List.map_append, List.nodup_append']
    refine ⟨h.ids, List.nodup_singleton _, ?_⟩
    intro i hi hi'
    rw [List.map_singleton, List.mem_singleton] at hi'
    subst hi'
    exact hid hi

end Holds

/-- A change of the references keeps all that `Holds` is about. -/
theorem shape_ref (db : DBImpl) (ptr : Nat) :
    (db.ref ptr).heap.map ColumnFamily.shape = db.heap.map ColumnFamily.shape := by
  apply List.ext_getElem?
  intro i
  show ((db.heap.modify ptr _).map _)[i]? = _
  rw [List.getElem?_map, List.getElem?_modify, List.getElem?_map]
  cases db.heap[i]? with
  | none => rfl
  | some cf =>
    simp only [Option.map_some]
    split <;> rfl

theorem Holds.ref (h : Holds base db fams) (ptr : Nat) : Holds base (db.ref ptr) fams :=
  h.congr rfl (shape_ref db ptr) rfl

/-- FAMILIES is written of the shapes. -/
theorem onDisk_congr (hheap : db'.heap.map ColumnFamily.shape = db.heap.map ColumnFamily.shape)
    (hcfs : db'.cfs = db.cfs) : db'.onDisk = db.onDisk := by
  have key : ∀ db : DBImpl, db.onDisk = ((db.cfs.filterMap fun e =>
      (db.heap.map ColumnFamily.shape)[e.2]?).filter fun s => s.1 ≠ 0 ∧ s.2.2.2 = false).map
      fun s => (s.1, s.2.1) := by
    intro db
    simp only [List.getElem?_map]
    rw [← List.map_filterMap, List.filter_map, List.map_map]
    rfl
  rw [key db', key db, hheap, hcfs]

/-! ## The families that are on disk -/

/-- The descriptors whose names none of these families has. -/
def missing (all : List (Nat × Bytes)) (families : List Descriptor) : List Descriptor :=
  families.filter fun d => !all.any fun f => f.2 == d.name

theorem mem_missing {all : List (Nat × Bytes)} {families : List Descriptor} {d : Descriptor} :
    d ∈ missing all families ↔ d ∈ families ∧ d.name ∉ all.map (·.2) := by
  unfold missing
  rw [List.mem_filter, Bool.not_eq_true', List.any_eq_false, List.mem_map, not_exists]
  simp only [beq_iff_eq, not_and]

/-- The families that are created for them, with the ids from `next` on. -/
def created : Nat → List Descriptor → List Family
  | _, [] => []
  | next, d :: ds => ⟨next, d.name, d.options⟩ :: created (next + 1) ds

theorem created_options {next : Nat} {ds : List Descriptor} {f : Family} (h : f ∈ created next ds) :
    ∃ d ∈ ds, d.name = f.name ∧ d.options = f.options := by
  induction ds generalizing next with
  | nil => cases h
  | cons d ds ih =>
    rcases List.mem_cons.1 h with rfl | h
    · exact ⟨d, List.mem_cons_self, rfl, rfl⟩
    · obtain ⟨d', hd', hsame⟩ := ih h
      exact ⟨d', List.mem_cons_of_mem d hd', hsame⟩

theorem created_id {next : Nat} {ds : List Descriptor} {f : Family} (h : f ∈ created next ds) :
    next ≤ f.id ∧ f.id < next + ds.length := by
  induction ds generalizing next with
  | nil => cases h
  | cons d ds ih =>
    rw [List.length_cons]
    rcases List.mem_cons.1 h with rfl | h
    · exact ⟨le_rfl, Nat.lt_add_of_pos_right (Nat.succ_pos _)⟩
    · have := ih h
      omega

/-- with one, and without the flag, the first is refused before anything is created, -/
theorem createMissing_forbidden {all : List (Nat × Bytes)} {ds : List Descriptor}
    (h : missing all ds ≠ []) : ∃ name, DBImpl.createMissing all false db file ds =
      (.invalidArgument "column family does not exist".toList name, db, file) := by
  induction ds with
  | nil => exact absurd rfl h
  | cons d ds ih =>
    unfold DBImpl.createMissing
    by_cases hd : (all.any fun f => f.2 == d.name) = true
    · rw [if_pos hd]
      apply ih
      unfold missing at h
      rwa [List.filter_cons_of_neg (by rw [hd]; decide)] at h
    · rw [if_neg hd]
      exact ⟨d.name, rfl⟩

namespace Holds

/-- A name leads to its family. -/
theorem findName (h : Holds base db fams) (hnames : (fams.map Family.name).Nodup) {ptr : Nat}
    {f : Family} (hf : fams[ptr]? = some f) : db.findName f.name = some (f.id, ptr) := by
  unfold DBImpl.findName
  obtain ⟨cf, hcf, hid, hname, -, hdropped⟩ := h.object hf
  have hin : (f.id, ptr) ∈ db.cfs := (h.cfs _ _).2 (congrArg (Option.map Family.id) hf)
  have hmatch : (db.heap[ptr]?.any fun cf => !cf.dropped && cf.name == f.name) = true := by
    rw [hcf, Option.any_some, hdropped, hname]
    exact beq_self_eq_true f.name
  cases hfind : db.cfs.find? fun e =>
      (db.heap[e.2]?).any fun cf => !cf.dropped && cf.name == f.name with
  | none => exact absurd hmatch (List.find?_eq_none.1 hfind _ hin)
  | some e =>
    obtain ⟨id, ptr'⟩ := e
    have hin' := (h.cfs _ _).1 (List.mem_of_find?_eq_some hfind)
    obtain ⟨f', hf', rfl⟩ := Option.map_eq_some_iff.1 hin'
    obtain ⟨cf', hcf', -, hname', -⟩ := h.object hf'
    have hmatch' := List.find?_some hfind
    simp only [hcf', Option.any_some, Bool.and_eq_true, beq_iff_eq, hname'] at hmatch'
    have hsame : (fams.map Family.name)[ptr']? = (fams.map Family.name)[ptr]? := by
      rw [List.getElem?_map, List.getElem?_map, hf, hf', Option.map_some, Option.map_some,
        hmatch'.2]
    obtain ⟨hlt, -⟩ := List.getElem?_eq_some_iff.1 hf'
    have hptr : ptr' = ptr :=
      (List.getElem?_inj (by rwa [List.length_map]) hnames).1 hsame
    subst hptr
    rw [hf] at hf'
    cases hf'
    rfl

/-- Each descriptor gets the handle of its name. -/
theorem openHandles (h : Holds base db fams) (hnames : (fams.map Family.name).Nodup)
    (hdefault : db.defaultHandle = some 0) (hfirst : (fams[0]?).map Family.id = some 0)
    {ds : List Descriptor} (hds : ∀ d ∈ ds, d.name ∈ fams.map Family.name) :
    ∃ db' handles, db.openHandles ds = (.ok, db', handles) ∧ Holds base db' fams ∧
      db'.onDisk = db.onDisk ∧ db'.nextFamilyId = db.nextFamilyId ∧
      List.Forall₂ (fun d ptr => (fams[ptr]?).map Family.name = some d.name) ds handles := by
  induction ds generalizing db with
  | nil => exact ⟨db, [], rfl, h, rfl, rfl, .nil⟩
  | cons d ds ih =>
    obtain ⟨f, hf, hname⟩ := List.mem_map.1 (hds d List.mem_cons_self)
    obtain ⟨ptr, hptr⟩ := List.mem_iff_getElem?.1 hf
    have hfind := h.findName hnames hptr
    rw [hname] at hfind
    have hrest : ∀ d' ∈ ds, d'.name ∈ fams.map Family.name := fun d' hd' =>
      hds d' (List.mem_cons_of_mem d hd')
    unfold DBImpl.openHandles
    simp only [hfind]
    by_cases hid : f.id = 0
    · obtain ⟨f0, hf0, hf0id⟩ := Option.map_eq_some_iff.1 hfirst
      have hzero : 0 = ptr := by
        obtain ⟨hlt, -⟩ := List.getElem?_eq_some_iff.1 hf0
        refine (List.getElem?_inj (by rwa [List.length_map]) h.ids).1 ?_
        rw [List.getElem?_map, List.getElem?_map, hf0, hptr, Option.map_some, Option.map_some,
          hf0id, hid]
      obtain ⟨db', handles, heq, h', hdisk, hnext, hall⟩ := ih h hdefault hrest
      rw [if_pos hid, if_pos hid, heq, hdefault]
      refine ⟨db', _, rfl, h', hdisk, hnext, .cons ?_ hall⟩
      rw [Option.getD_some, hzero, hptr, ← hname]
      rfl
    · have h1 : Holds base { db.ref ptr with handles := db.handles ++ [ptr] } fams :=
        (h.ref ptr).congr rfl rfl rfl
      obtain ⟨db', handles, heq, h', hdisk, hnext, hall⟩ := ih h1 hdefault hrest
      rw [if_neg hid, if_neg hid, heq]
      refine ⟨db', _, rfl, h', ?_, hnext, .cons ?_ hall⟩
      · rw [hdisk]
        exact onDisk_congr (shape_ref db ptr) rfl
      · rw [hptr, ← hname]
        rfl

end Holds

/-! ## The decision -/

/-- The options do not refuse the database itself. -/
def OpenArgs.Admits (a : OpenArgs) : Prop :=
  if a.existed then a.options.errorIfExists = false else a.options.createIfMissing = true

instance (a : OpenArgs) : Decidable a.Admits :=
  inferInstanceAs (Decidable (if a.existed then a.options.errorIfExists = false
    else a.options.createIfMissing = true))

/-- The lists of descriptors that do not go with the families on disk. -/
def Refused (onDisk : List (Nat × Bytes)) (families : List Descriptor) (allowed : Bool) : Prop :=
  families = [] ∧ onDisk ≠ [] ∨
  families ≠ [] ∧
    (¬ (families.map (·.name)).Nodup ∨
      kDefaultColumnFamilyName ∉ families.map (·.name) ∨
      (∃ f ∈ onDisk, f.2 ∉ families.map (·.name)) ∨
      allowed = false ∧
        ∃ d ∈ families, d.name ≠ kDefaultColumnFamilyName ∧ d.name ∉ onDisk.map (·.2))

instance (onDisk : List (Nat × Bytes)) (families : List Descriptor) (allowed : Bool) :
    Decidable (Refused onDisk families allowed) :=
  haveI : Decidable (families = []) := decidable_of_iff _ List.isEmpty_iff
  inferInstanceAs (Decidable (families = [] ∧ onDisk ≠ [] ∨
    families ≠ [] ∧
      (¬ (families.map (·.name)).Nodup ∨
        kDefaultColumnFamilyName ∉ families.map (·.name) ∨
        (∃ f ∈ onDisk, f.2 ∉ families.map (·.name)) ∨
        allowed = false ∧
          ∃ d ∈ families, d.name ≠ kDefaultColumnFamilyName ∧ d.name ∉ onDisk.map (·.2))))

/-- The model of the logs opens what is not refused. -/
theorem disk_openDB_isSome {K V : Type} [LinearOrder K] (disk : Database.Disk K V)
    {families : List Descriptor} {names : List String}
    (hnames : families.map (·.name) = names.map String.toList) (allowed saveManifest : Bool) :
    (disk.openDB names allowed saveManifest).isSome = true ↔
      ¬ Refused (disk.families.map fun f => (f.1, f.2.toList)) families allowed := by
  have hinj : Function.Injective String.toList := fun _ _ => String.toList_injective
  have hmem (s : String) : s.toList ∈ families.map (·.name) ↔ s ∈ names := by
    rw [hnames]
    exact List.mem_map_of_injective hinj
  have hnil : families = [] ↔ names = [] := by
    have := congrArg List.length hnames
    rw [List.length_map, List.length_map] at this
    rw [← List.length_eq_zero_iff, ← List.length_eq_zero_iff, this]
  have hnodup : (families.map (·.name)).Nodup ↔ names.Nodup := by
    rw [hnames]
    exact List.nodup_map_iff hinj
  have hmissing : (∃ d ∈ families, d.name ≠ kDefaultColumnFamilyName ∧
      d.name ∉ (disk.families.map fun f => (f.1, f.2.toList)).map (·.2)) ↔
      ∃ n ∈ names, n ∉ ((0, "default") :: disk.families).map (·.2) := by
    have hdisk (n : String) : n.toList ∈ (disk.families.map fun f => (f.1, f.2.toList)).map (·.2) ↔
        n ∈ disk.families.map (·.2) := by
      rw [List.map_map, ← List.mem_map_of_injective hinj, List.map_map]
      rfl
    constructor
    · rintro ⟨d, hd, hdefault, hnot⟩
      have hin : d.name ∈ names.map String.toList := hnames ▸ List.mem_map_of_mem hd
      obtain ⟨n, hn, hname⟩ := List.mem_map.1 hin
      rw [← hname] at hdefault hnot
      refine ⟨n, hn, fun hmem => ?_⟩
      rcases List.mem_cons.1 hmem with rfl | hmem
      · exact hdefault rfl
      · exact hnot ((hdisk n).2 hmem)
    · rintro ⟨n, hn, hnot⟩
      obtain ⟨d, hd, hname⟩ := List.mem_map.1 ((hmem n).2 hn)
      refine ⟨d, hd, ?_, ?_⟩
      · intro heq
        exact hnot (List.mem_cons.2 (.inl (hinj (hname.symm.trans heq))))
      · rw [hname, hdisk]
        exact fun hmem => hnot (List.mem_cons_of_mem _ hmem)
  have hall : (∀ f ∈ (0, "default") :: disk.families, f.2 ∈ names) ↔
      "default" ∈ names ∧ ¬ ∃ f ∈ disk.families.map fun f => (f.1, f.2.toList),
        f.2 ∉ families.map (·.name) := by
    rw [List.forall_mem_cons]
    refine and_congr_right fun _ => ?_
    push Not
    rw [List.forall_mem_map]
    exact forall₂_congr fun f _ => (hmem f.2).symm
  have hcreated : (names.filter fun n => n ∉ ((0, "default") :: disk.families).map (·.2)) = [] ↔
      ¬ ∃ n ∈ names, n ∉ ((0, "default") :: disk.families).map (·.2) := by
    rw [List.filter_eq_nil_iff]
    simp only [decide_eq_true_eq, not_exists, not_and]
  unfold Refused
  rw [hmissing, hnodup, show kDefaultColumnFamilyName = "default".toList from rfl, hmem]
  simp only [ne_eq, hnil, List.map_eq_nil_iff]
  have hlogic : ∀ A B C D E F G : Prop, (A → ¬ F) →
      ((A → B) ∧ (¬ A → C ∧ D ∧ ¬ E) ∧ (G → ¬ F) ↔
        ¬ (A ∧ ¬ B ∨ ¬ A ∧ (¬ C ∨ ¬ D ∨ E ∨ G ∧ F))) := by
    intro A B C D E F G hAF
    by_cases hA : A
    · simp only [hA, hAF hA, true_imp_iff, not_true, false_imp_iff, not_false_eq_true, imp_true_iff,
        and_true, true_and, false_and, or_false, not_not]
    · simp only [hA, false_imp_iff, not_false_eq_true, true_imp_iff, true_and, false_and, false_or,
        not_or, not_not, not_and]
      exact and_assoc.trans (and_congr_right fun _ => and_assoc)
  have hempty : names = [] → ¬ ∃ n ∈ names, n ∉ ((0, "default") :: disk.families).map (·.2) := by
    rintro hnames ⟨n, hn, -⟩
    rw [hnames] at hn
    cases hn
  unfold Database.Disk.openDB
  dsimp only
  split
  · rename_i hopen
    rw [hcreated, hall, and_self_left] at hopen
    exact iff_of_true rfl ((hlogic _ _ _ _ _ _ _ hempty).1 hopen)
  · rename_i hopen
    rw [hcreated, hall, and_self_left] at hopen
    exact iff_of_false Bool.false_ne_true (mt (hlogic _ _ _ _ _ _ _ hempty).2 hopen)

theorem findDuplicate_eq_none {seen names : List Bytes} :
    DBImpl.findDuplicate seen names = none ↔ names.Nodup ∧ ∀ n ∈ names, n ∉ seen := by
  induction names generalizing seen with
  | nil => simp [DBImpl.findDuplicate]
  | cons n names ih =>
    unfold DBImpl.findDuplicate
    split
    · rename_i hin
      simp only [reduceCtorEq, false_iff]
      rintro ⟨-, hnone⟩
      exact hnone n List.mem_cons_self hin
    · rename_i hin
      rw [ih, List.nodup_cons]
      constructor
      · rintro ⟨hnodup, hnone⟩
        refine ⟨⟨fun hmem => hnone n hmem List.mem_cons_self, hnodup⟩, ?_⟩
        intro n' hn' hseen
        rcases List.mem_cons.1 hn' with rfl | hn'
        · exact hin hseen
        · exact hnone n' hn' (List.mem_cons_of_mem n hseen)
      · rintro ⟨⟨hnot, hnodup⟩, hnone⟩
        refine ⟨hnodup, fun n' hn' hseen => ?_⟩
        rcases List.mem_cons.1 hseen with rfl | hseen
        · exact hnot hn'
        · exact hnone n' (List.mem_cons_of_mem n hn') hseen

/-- A name is looked for among the descriptors. -/
theorem find?_isNone {families : List Descriptor} {name : Bytes} :
    (families.find? fun d => d.name = name).isNone = true ↔ name ∉ families.map (·.name) := by
  rw [Option.isNone_iff_eq_none, List.find?_eq_none, List.mem_map, not_exists]
  simp only [decide_eq_true_eq, not_and]

theorem find?_name {families : List Descriptor} (hnodup : (families.map (·.name)).Nodup)
    {d : Descriptor} (hd : d ∈ families) : (families.find? fun d' => d'.name = d.name) = some d := by
  cases hfind : families.find? fun d' => d'.name = d.name with
  | none => exact absurd (decide_eq_true rfl) (List.find?_eq_none.1 hfind d hd)
  | some d' =>
    have hname := List.find?_some hfind
    rw [decide_eq_true_eq] at hname
    exact congrArg some (List.inj_on_of_nodup_map hnodup (List.mem_of_find?_eq_some hfind) hd hname)

variable {a : OpenArgs} {onDisk : List (Nat × Bytes)} {next : Nat}

/-- The process at the start of `DB::Open`. -/
def OpenArgs.start (a : OpenArgs) : DBImpl := .new a.options a.dbname a.newLog a.newCache

/-- The families of FAMILIES, and the default. -/
def allFamilies (onDisk : List (Nat × Bytes)) : List (Nat × Bytes) :=
  (0, kDefaultColumnFamilyName) :: onDisk

theorem OpenArgs.Admits.existed (h : a.Admits) :
    (!a.existed && !a.start.options.createIfMissing) = false ∧
      (a.existed && a.start.options.errorIfExists) = false := by
  show (!a.existed && !a.options.createIfMissing) = false ∧
    (a.existed && a.options.errorIfExists) = false
  unfold OpenArgs.Admits at h
  split at h
  · rename_i hex
    rw [hex, h]
    exact ⟨rfl, rfl⟩
  · rename_i hex
    rw [eq_false_of_ne_true hex, h]
    exact ⟨rfl, rfl⟩

/-- What is refused is refused before anything is created. -/
theorem recover_refused (h : readFamilies file = .ok (onDisk, next)) (ha : a.Admits) {allowed : Bool}
    (href : Refused onDisk a.families allowed) :
    ∃ m m2 db, a.start.recover file a.existed a.families allowed =
      (.invalidArgument m m2, db, file) := by
  unfold DBImpl.recover
  simp only [ha.existed, h, Bool.false_eq_true, if_false]
  split
  · exact ⟨_, _, _, rfl⟩
  · rename_i hdup
    have hnodup := (findDuplicate_eq_none.1 hdup).1
    rcases href with ⟨hnil, hdisk⟩ | ⟨hne, hbad⟩
    · have hcond : (!!a.families.isEmpty && !onDisk.isEmpty) = true := by
        rw [hnil]
        simpa using hdisk
      rw [if_pos hcond]
      exact ⟨_, _, _, rfl⟩
    · have hby : (!a.families.isEmpty) = true := by simpa using hne
      simp only [hby, Bool.not_true, Bool.false_and, Bool.false_eq_true, if_false, Bool.true_and,
        if_true]
      split
      · exact ⟨_, _, _, rfl⟩
      · rename_i hdefault
        rw [find?_isNone, not_not] at hdefault
        split
        · exact ⟨_, _, _, rfl⟩
        · rename_i hall
          rcases hbad with hbad | hbad | ⟨f, hf, hbad⟩ | ⟨hallowed, d, hd, hnot⟩
          · exact absurd hnodup hbad
          · exact absurd hdefault hbad
          · have hf' := List.find?_eq_none.1 hall f (List.mem_cons_of_mem _ hf)
            rw [find?_isNone] at hf'
            exact absurd hbad hf'
          · subst hallowed
            have hmissing : missing (allFamilies onDisk) a.families ≠ [] := by
              refine List.ne_nil_of_mem (mem_missing.2 ⟨hd, ?_⟩)
              exact fun hin => (List.mem_cons.1 hin).elim hnot.1 hnot.2
            obtain ⟨name, heq⟩ := createMissing_forbidden hmissing
            exact ⟨_, _, _, heq⟩

/-- The options a family of the process runs with: those it was given, but for what the database
sets. -/
def OpenArgs.familyOptions (a : OpenArgs) (raw : Options) : Options := a.start.familyOptions raw

/-- The options a name is opened with. -/
def OpenArgs.optionsFor (a : OpenArgs) (name : Bytes) : Options :=
  ((a.families.find? fun d => d.name = name).map (·.options)).getD a.start.options

/-- The families of the process after `DB::Open`. -/
def OpenArgs.opened (a : OpenArgs) (onDisk : List (Nat × Bytes)) (next : Nat) : List Family :=
  (allFamilies onDisk).map (fun f => ⟨f.1, f.2, a.optionsFor f.2⟩) ++
    created next (missing (allFamilies onDisk) a.families)

/-- A family runs with the options of the descriptor that names it. -/
theorem opened_options (hnodup : (a.families.map (·.name)).Nodup) {f : Family}
    (hf : f ∈ a.opened onDisk next) {d : Descriptor} (hd : d ∈ a.families) (hname : f.name = d.name) :
    f.options = d.options := by
  rcases List.mem_append.1 hf with hf | hf
  · obtain ⟨g, -, rfl⟩ := List.mem_map.1 hf
    show a.optionsFor g.2 = d.options
    have hname : g.2 = d.name := hname
    unfold OpenArgs.optionsFor
    rw [hname, find?_name hnodup hd]
    rfl
  · obtain ⟨d', hd', hname', hoptions⟩ := created_options hf
    have hsame := List.inj_on_of_nodup_map hnodup (mem_missing.1 hd').1 hd (hname'.trans hname)
    rw [← hoptions, hsame]

/-- What is not refused gets to the families. -/
theorem recover_eq (h : readFamilies file = .ok (onDisk, next)) (ha : a.Admits) {allowed : Bool}
    (href : ¬ Refused onDisk a.families allowed) :
    (a.families.map (·.name)).Nodup ∧
    (missing (allFamilies onDisk) a.families = [] ∨ allowed = true) ∧
    a.start.recover file a.existed a.families allowed =
      DBImpl.createMissing (allFamilies onDisk) allowed
        ({ a.start with nextFamilyId := next }.openFamilies a.optionsFor (allFamilies onDisk)) file
        a.families := by
  obtain ⟨hempty, hnamed⟩ := not_or.1 href
  have hnodup : (a.families.map (·.name)).Nodup := by
    by_contra hnot
    refine hnamed ⟨?_, .inl hnot⟩
    intro hnil
    rw [hnil] at hnot
    exact hnot List.nodup_nil
  have hdup := findDuplicate_eq_none.2 ⟨hnodup, fun n _ => List.not_mem_nil⟩
  refine ⟨hnodup, ?_⟩
  unfold DBImpl.recover
  simp only [ha.existed, h, hdup, Bool.false_eq_true, if_false]
  by_cases hnil : a.families = []
  · have hdisk : onDisk = [] := by
      by_contra hne
      exact hempty ⟨hnil, hne⟩
    have hmissing : missing (allFamilies onDisk) a.families = [] := by
      rw [hnil]
      rfl
    have hby : (!a.families.isEmpty) = false := by rw [hnil]; rfl
    have hnone : (!onDisk.isEmpty) = false := by rw [hdisk]; rfl
    simp only [hby, hnone, Bool.and_false, Bool.false_and, Bool.false_eq_true, if_false]
    exact ⟨.inl hmissing, rfl⟩
  · have hgood := fun hbad => hnamed ⟨hnil, hbad⟩
    have hby : (!a.families.isEmpty) = true := by simpa using hnil
    have hdefault : kDefaultColumnFamilyName ∈ a.families.map (·.name) := by
      by_contra hnot
      exact hgood (.inr (.inl hnot))
    have hdefault' : (a.families.find? fun d => d.name = kDefaultColumnFamilyName).isNone =
        false := by
      rw [← Bool.not_eq_true, find?_isNone, not_not]
      exact hdefault
    have hall : (allFamilies onDisk).find? (fun f =>
        (a.families.find? fun d => d.name = f.2).isNone) = none := by
      refine List.find?_eq_none.2 fun f hf => ?_
      rw [find?_isNone, not_not]
      rcases List.mem_cons.1 hf with rfl | hf
      · exact hdefault
      · by_contra hnot
        exact hgood (.inr (.inr (.inl ⟨f, hf, hnot⟩)))
    unfold allFamilies at hall
    simp only [hby, hdefault', hall, Bool.not_true, Bool.false_and, Bool.and_false,
      Bool.false_eq_true, if_false, if_true]
    refine ⟨or_iff_not_imp_right.2 fun hnot => ?_, rfl⟩
    refine List.eq_nil_iff_forall_not_mem.2 fun d hd => ?_
    obtain ⟨hin, hname⟩ := mem_missing.1 hd
    have hname := not_or.1 (mt List.mem_cons.2 hname)
    exact hgood (.inr (.inr (.inr ⟨eq_false_of_ne_true hnot, d, hin, hname⟩)))

/-- What an accepted list of descriptors gets. -/
structure Opened (a : OpenArgs) (onDisk : List (Nat × Bytes)) (next : Nat) (db : DBImpl)
    (handles : List Nat) : Prop where
  /-- The handles are in the order of the descriptors, each of the live family of that name, which
  runs with the options of its descriptor. -/
  handles : List.Forall₂ (fun d ptr => ∃ cf, db.heap[ptr]? = some cf ∧ (cf.id, ptr) ∈ db.cfs ∧
    cf.dropped = false ∧ cf.name = d.name ∧ cf.options = a.familyOptions d.options)
    a.families handles
  /-- The families that were there keep their ids, -/
  kept : ∀ f ∈ allFamilies onDisk, ∃ cf ∈ db.families, (cf.id, cf.name) = f
  /-- and the others are named by descriptors and have ids that no family had. -/
  fresh : ∀ cf ∈ db.families, (cf.id, cf.name) ∈ allFamilies onDisk ∨
    (∃ d ∈ a.families, d.name = cf.name) ∧ next ≤ cf.id ∧ cf.id < 2 ^ 32
  ids : ∀ cf ∈ db.families, ∀ cf' ∈ db.families, cf.id = cf'.id → cf = cf'

theorem Holds.mem_families (h : Holds base db fams) {cf : ColumnFamily} :
    cf ∈ db.families ↔ ∃ ptr : Nat, db.heap[ptr]? = some cf := by
  unfold DBImpl.families
  rw [List.mem_filterMap]
  constructor
  · rintro ⟨e, -, he⟩
    exact ⟨e.2, he⟩
  · rintro ⟨ptr, hptr⟩
    obtain ⟨f, hf, hid, -⟩ := h.family hptr
    exact ⟨(f.id, ptr), (h.cfs _ _).2 (congrArg (Option.map Family.id) hf), hptr⟩

theorem Holds.opened (h : Holds a.familyOptions db (a.opened onDisk next))
    (hnodup : (a.families.map (·.name)).Nodup)
    (hids : next + (missing (allFamilies onDisk) a.families).length ≤ 2 ^ 32) {handles : List Nat}
    (hhandles : List.Forall₂ (fun d ptr =>
      ((a.opened onDisk next)[ptr]?).map Family.name = some d.name) a.families handles) :
    Opened a onDisk next db handles where
  handles := by
    rw [List.forall₂_iff_get] at hhandles ⊢
    refine ⟨hhandles.1, fun i hi hi' => ?_⟩
    obtain ⟨f, hf, hname⟩ := Option.map_eq_some_iff.1 (hhandles.2 i hi hi')
    obtain ⟨cf, hcf, hid, hname', hoptions, hdropped⟩ := h.object hf
    refine ⟨cf, hcf, ?_, hdropped, hname'.trans hname, ?_⟩
    · rw [h.cfs, hf, hid]
      rfl
    · rw [hoptions, opened_options hnodup (List.mem_of_getElem? hf) (List.get_mem _ _) hname]
  kept := by
    intro f hf
    have hin : (⟨f.1, f.2, a.optionsFor f.2⟩ : Family) ∈ a.opened onDisk next :=
      List.mem_append_left _ (List.mem_map_of_mem hf)
    obtain ⟨ptr, hptr⟩ := List.mem_iff_getElem?.1 hin
    obtain ⟨cf, hcf, hid, hname, -⟩ := h.object hptr
    exact ⟨cf, h.mem_families.2 ⟨ptr, hcf⟩, by rw [hid, hname]⟩
  fresh := by
    intro cf hcf
    obtain ⟨ptr, hptr⟩ := h.mem_families.1 hcf
    obtain ⟨f, hf, hid, hname, -⟩ := h.family hptr
    rw [hid, hname]
    rcases List.mem_append.1 (List.mem_of_getElem? hf) with hin | hin
    · obtain ⟨g, hg, rfl⟩ := List.mem_map.1 hin
      exact .inl hg
    · obtain ⟨d, hd, hdname, -⟩ := created_options hin
      have := created_id hin
      exact .inr ⟨⟨d, (mem_missing.1 hd).1, hdname⟩, this.1, by omega⟩
  ids := by
    intro cf hcf cf' hcf' heq
    obtain ⟨ptr, hptr⟩ := h.mem_families.1 hcf
    obtain ⟨ptr', hptr'⟩ := h.mem_families.1 hcf'
    obtain ⟨f, hf, hid, -⟩ := h.family hptr
    obtain ⟨f', hf', hid', -⟩ := h.family hptr'
    have hsame : ((a.opened onDisk next).map Family.id)[ptr]? =
        ((a.opened onDisk next).map Family.id)[ptr']? := by
      rw [List.getElem?_map, List.getElem?_map, hf, hf', Option.map_some, Option.map_some, ← hid,
        ← hid', heq]
    obtain ⟨hlt, -⟩ := List.getElem?_eq_some_iff.1 hf
    have hptrs := (List.getElem?_inj (by rwa [List.length_map]) h.ids).1 hsame
    rw [hptrs, hptr'] at hptr
    exact (Option.some.inj hptr).symm

def sampleOptions : Options where
  comparator := some 0
  createIfMissing := true
  errorIfExists := false
  paranoidChecks := false
  env := 0
  infoLog := none
  writeBufferSize := 4 * 2 ^ 20
  maxOpenFiles := 1000
  blockCache := none
  blockSize := 4 * 2 ^ 10
  blockRestartInterval := 16
  maxFileSize := 2 * 2 ^ 20
  compression := 1
  reuseLogs := false
  filterPolicy := none
  mergeOperator := none
  createMissingColumnFamilies := true

/-- One family on disk, and descriptors in another order, the last one of a family that is not. -/
def sampleArgs : OpenArgs where
  dbname := "db".toList
  options := sampleOptions
  families := [⟨"b".toList, sampleOptions⟩, ⟨kDefaultColumnFamilyName, sampleOptions⟩,
    ⟨"c".toList, sampleOptions⟩]
  existed := true
  newLog := 1
  newCache := 2

end LevelDb.Handles
