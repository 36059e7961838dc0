import LevelDb.Db.DbIter
import LevelDb.Db.Get
import LevelDb.Lib.Mvcc
import Mathlib.Data.Fintype.Defs
import Mathlib.Data.List.Dedup

/-!
# What a family holds

The purpose of the store, stated without its data structures: a family is a set of entries and
range tombstones (a `Layer` holds some of them), a reader at a sequence number sees the versions
of a key up to it (`Layer.versions`), and the value it reads is `Mvcc.read` of them. The layers
of a family are its memtables and files by age (`ColumnFamily.layers`).
-/

namespace LevelDb

open Mvcc

variable {K V : Type} [LinearOrder K]

/-! ## Entries and tombstones -/

structure Layer (K V : Type) where
  entries : List (Entry K V)
  tombstones : List (RangeTombstone K)

/-- A tombstone in `ts` hides the entry of the key at `seq` from a reader at `snapshot`. -/
def Hidden (ts : List (RangeTombstone K)) (k : K) (snapshot seq : Nat) : Prop :=
  ∃ t ∈ ts, t.Covers k ∧ seq < t.seq ∧ t.seq ≤ snapshot

instance (ts : List (RangeTombstone K)) (k : K) (snapshot seq : Nat) :
    Decidable (Hidden ts k snapshot seq) :=
  inferInstanceAs (Decidable (∃ t ∈ ts, t.Covers k ∧ seq < t.seq ∧ t.seq ≤ snapshot))

/-- What an entry is by its type. -/
def Entry.op (e : Entry K V) : Op V :=
  match e.key.type with
  | .value => .put e.value
  | .merge => .merge e.value
  | _ => .delete

/-- What an entry is to a reader at `snapshot`. -/
def versionOp (ts : List (RangeTombstone K)) (snapshot : Nat) (e : Entry K V) : Op V :=
  if Hidden ts e.key.userKey snapshot e.key.sequence then .delete else e.op

/-- The entry is one of the key a reader at `snapshot` sees. -/
def Visible (k : K) (snapshot : Nat) (e : Entry K V) : Prop :=
  e.key.userKey = k ∧ e.key.sequence ≤ snapshot

instance (k : K) (snapshot : Nat) (e : Entry K V) : Decidable (Visible k snapshot e) :=
  instDecidableAnd

namespace Layer

/-- The versions of a key for a reader at `snapshot`, newest first. -/
def versions (l : Layer K V) (k : K) (snapshot : Nat) : List (Op V) :=
  ((l.entries.filter fun e => Visible k snapshot e).insertionSort
    fun a b => b.key.sequence ≤ a.key.sequence).map (versionOp l.tombstones snapshot)

/-- The sequence numbers of the tombstones that cover a key. -/
def tombSeqs (l : Layer K V) (k : K) : List Nat :=
  (l.tombstones.filter fun t => t.Covers k).map (·.seq)

/-- The sequence numbers at a key: of its entries and of the tombstones that cover it. -/
def seqsAt (l : Layer K V) (k : K) : List Nat :=
  (l.entries.filter fun e => e.key.userKey = k).map (·.key.sequence) ++ l.tombSeqs k

/-- All of `a` at a key is newer than all of `b` there. -/
def NewerThan (a b : Layer K V) : Prop := ∀ k, ∀ s ∈ a.seqsAt k, ∀ t ∈ b.seqsAt k, t < s

instance [Fintype K] (a b : Layer K V) : Decidable (a.NewerThan b) :=
  inferInstanceAs (Decidable (∀ k, ∀ s ∈ a.seqsAt k, ∀ t ∈ b.seqsAt k, t < s))

/-- Several layers taken together. -/
def concat (ls : List (Layer K V)) : Layer K V :=
  ⟨ls.flatMap (·.entries), ls.flatMap (·.tombstones)⟩

theorem mem_tombSeqs {l : Layer K V} {k : K} {s : Nat} :
    s ∈ l.tombSeqs k ↔ ∃ t ∈ l.tombstones, t.Covers k ∧ t.seq = s := by
  simp [tombSeqs, and_assoc]

theorem mem_seqsAt {l : Layer K V} {k : K} {s : Nat} :
    s ∈ l.seqsAt k ↔ (∃ e ∈ l.entries, e.key.userKey = k ∧ e.key.sequence = s) ∨
      ∃ t ∈ l.tombstones, t.Covers k ∧ t.seq = s := by
  simp [seqsAt, tombSeqs, and_assoc]

theorem seqsAt_of_entry {l : Layer K V} {e : Entry K V} (he : e ∈ l.entries) :
    e.key.sequence ∈ l.seqsAt e.key.userKey := mem_seqsAt.2 (.inl ⟨e, he, rfl, rfl⟩)

theorem seqsAt_of_tombSeqs {l : Layer K V} {k : K} {s : Nat} (hs : s ∈ l.tombSeqs k) :
    s ∈ l.seqsAt k := mem_seqsAt.2 (.inr (mem_tombSeqs.1 hs))

theorem hidden_iff {l : Layer K V} {k : K} {snapshot seq : Nat} :
    Hidden l.tombstones k snapshot seq ↔ ∃ s ∈ l.tombSeqs k, seq < s ∧ s ≤ snapshot := by
  constructor
  · rintro ⟨t, ht, hc, hlt, hle⟩
    exact ⟨t.seq, mem_tombSeqs.2 ⟨t, ht, hc, rfl⟩, hlt, hle⟩
  · rintro ⟨s, hs, hlt, hle⟩
    obtain ⟨t, ht, hc, rfl⟩ := mem_tombSeqs.1 hs
    exact ⟨t, ht, hc, hlt, hle⟩

theorem tombSeqs_concat {ls : List (Layer K V)} {k : K} {s : Nat} :
    s ∈ (concat ls).tombSeqs k ↔ ∃ l ∈ ls, s ∈ l.tombSeqs k := by
  simp only [mem_tombSeqs, concat, List.mem_flatMap]
  constructor
  · rintro ⟨t, ⟨l, hl, ht⟩, h⟩
    exact ⟨l, hl, t, ht, h⟩
  · rintro ⟨l, hl, t, ht, h⟩
    exact ⟨t, ⟨l, hl, ht⟩, h⟩

theorem seqsAt_concat {ls : List (Layer K V)} {k : K} {s : Nat} :
    s ∈ (concat ls).seqsAt k ↔ ∃ l ∈ ls, s ∈ l.seqsAt k := by
  simp only [mem_seqsAt, concat, List.mem_flatMap]
  constructor
  · rintro (⟨e, ⟨l, hl, he⟩, h⟩ | ⟨t, ⟨l, hl, ht⟩, h⟩)
    · exact ⟨l, hl, .inl ⟨e, he, h⟩⟩
    · exact ⟨l, hl, .inr ⟨t, ht, h⟩⟩
  · rintro ⟨l, hl, ⟨e, he, h⟩ | ⟨t, ht, h⟩⟩
    · exact .inl ⟨e, ⟨l, hl, he⟩, h⟩
    · exact .inr ⟨t, ⟨l, hl, ht⟩, h⟩

/-- Entries put together newest first are sorted part by part. -/
theorem insertionSort_flatMap {ls : List (Layer K V)} (h : ls.Pairwise NewerThan) (k : K)
    (snapshot : Nat) :
    ((ls.flatMap (·.entries)).filter fun e => Visible k snapshot e).insertionSort
        (fun a b => b.key.sequence ≤ a.key.sequence) =
      ls.flatMap fun l => (l.entries.filter fun e => Visible k snapshot e).insertionSort
        fun a b => b.key.sequence ≤ a.key.sequence := by
  -- inserting an entry that is above all of the second part
  have hinsert : ∀ (a : Entry K V) (xs ys : List (Entry K V)),
      (∀ b ∈ ys, b.key.sequence ≤ a.key.sequence) →
      (xs ++ ys).orderedInsert (fun a b => b.key.sequence ≤ a.key.sequence) a =
        xs.orderedInsert (fun a b => b.key.sequence ≤ a.key.sequence) a ++ ys := by
    intro a xs ys hys
    induction xs with
    | nil =>
      cases ys with
      | nil => rfl
      | cons b ys => simp [List.orderedInsert_cons, hys b (by simp)]
    | cons b xs ih =>
      rw [List.cons_append, List.orderedInsert_cons, List.orderedInsert_cons]
      split
      · rfl
      · rw [ih, List.cons_append]
  have hsort : ∀ xs ys : List (Entry K V), (∀ a ∈ xs, ∀ b ∈ ys, b.key.sequence ≤ a.key.sequence) →
      (xs ++ ys).insertionSort (fun a b => b.key.sequence ≤ a.key.sequence) =
        xs.insertionSort (fun a b => b.key.sequence ≤ a.key.sequence) ++
          ys.insertionSort (fun a b => b.key.sequence ≤ a.key.sequence) := by
    intro xs ys hxy
    induction xs with
    | nil => rfl
    | cons a xs ih =>
      rw [List.cons_append, List.insertionSort_cons, ih fun b hb => hxy b (by simp [hb]),
        hinsert _ _ _ fun b hb => hxy a (by simp) b ((List.mem_insertionSort _).1 hb)]
      rfl
  induction ls with
  | nil => rfl
  | cons l ls ih =>
    rw [List.pairwise_cons] at h
    rw [List.flatMap_cons, List.filter_append, hsort, ih h.2, List.flatMap_cons]
    intro a ha b hb
    rw [List.mem_filter, decide_eq_true_iff] at ha hb
    obtain ⟨l', hl', hb'⟩ := List.mem_flatMap.1 hb.1
    refine (h.1 l' hl' k a.key.sequence ?_ b.key.sequence ?_).le
    · exact ha.2.1 ▸ seqsAt_of_entry ha.1
    · exact hb.2.1 ▸ seqsAt_of_entry hb'

/-- The versions of a key in several layers, newest first, are those of each in turn. -/
theorem versions_concat {ls : List (Layer K V)} (h : ls.Pairwise NewerThan) (k : K)
    (snapshot : Nat) :
    (concat ls).versions k snapshot = ls.flatMap fun l =>
      ((l.entries.filter fun e => Visible k snapshot e).insertionSort
        fun a b => b.key.sequence ≤ a.key.sequence).map
          (versionOp (concat ls).tombstones snapshot) := by
  rw [versions]
  change (((ls.flatMap (·.entries)).filter fun e => Visible k snapshot e).insertionSort _).map _ = _
  rw [insertionSort_flatMap h, List.map_flatMap]

end Layer

/-- The operator of the options as a fold: it refuses when there is none. -/
def foldOf (mergeOp : Option (MergeOperator K V)) (k : K) (base : Option V) (operands : List V) :
    Option V :=
  mergeOp.bind fun op => op.fullMerge k base operands

/-- The answer to a reader of this value; `none` when the operands could not be merged. -/
def answer (mergeOp : Option (MergeOperator K V)) : Option (Option V) → Status × Option V
  | some (some v) => (.ok, some v)
  | some none => (.notFound, none)
  | none =>
    match mergeOp with
    | none => (.invalidArgument "merge operand but no merge_operator", none)
    | some _ => (.corruption "merge operator failed", none)

/-! ## Walks -/

/-- The keys present to a reader at `snapshot` with their values, in order. -/
def Layer.present (l : Layer K V) (mergeOp : Option (MergeOperator K V)) (snapshot : Nat) :
    List (K × V) :=
  ((l.entries.map (·.key.userKey)).dedup.insertionSort (· ≤ ·)).filterMap fun k =>
    (read (foldOf mergeOp k) (l.versions k snapshot)).join.map fun v => (k, v)

/-- A cursor that moves over an ordered map. -/
def walk (m : List (K × V)) : Transition.System (Option (Cursor (K × V))) (IterCall K) where
  init c := c = none
  step c
    | .seek target => some (Cursor.seek (fun p => p.1 < target) m)
    | .seekToFirst => some (Cursor.first m)
    | .seekToLast => some (Cursor.last m)
    | .next => c.map (·.next)
    | .prev => c.map (·.prev)

/-! ## The layers of a family -/

def MemTable.layer (m : MemTable K V) : Layer K V := ⟨m.table.entries, m.rangeDels⟩

@[simp] theorem MemTable.layer_entries (m : MemTable K V) : m.layer.entries = m.table.entries := rfl
@[simp] theorem MemTable.layer_tombstones (m : MemTable K V) : m.layer.tombstones = m.rangeDels :=
  rfl

def FileMetaData.layer (f : FileMetaData K V) : Layer K V := ⟨f.table.entries, f.tombstones⟩

@[simp] theorem FileMetaData.layer_entries (f : FileMetaData K V) :
    f.layer.entries = f.table.entries := rfl
@[simp] theorem FileMetaData.layer_tombstones (f : FileMetaData K V) :
    f.layer.tombstones = f.tombstones := rfl

/-- The level-0 files, newest first. -/
def Version.newestFirst (v : Version K V) : List (FileMetaData K V) :=
  (v.files 0).insertionSort fun f g => g.number ≤ f.number

/-- The layers of the files: the level-0 files newest first, then the deeper levels. -/
def Version.layers (v : Version K V) : List (Layer K V) :=
  v.newestFirst.map (·.layer) ++
    (List.range' 1 (kNumLevels - 1)).map fun level =>
      Layer.concat ((v.files level).map (·.layer))

/-- The layers of a family in the numbering of `LayerOf`: the memtable is 0, the immutable
memtable 1. -/
def ColumnFamily.layers (cf : ColumnFamily K V) : List (Layer K V) :=
  cf.mem.layer :: (cf.imm.elim ⟨[], []⟩ (·.layer)) :: cf.current.layers

/-- Everything a family holds. -/
def ColumnFamily.contents (cf : ColumnFamily K V) : Layer K V := Layer.concat cf.layers

/-- What every reachable state of a family keeps. That a file's bounds are around its contents
is part of `FileMetaData`. -/
structure ColumnFamily.WellFormed (cf : ColumnFamily K V) : Prop where
  /-- Newer layers hold newer data of each key. -/
  ages : cf.layers.Pairwise Layer.NewerThan
  numbers : (cf.current.files 0).Pairwise fun f g => f.number ≠ g.number
  /-- The files of a deeper level are apart, -/
  disjoint : ∀ level < kNumLevels, 0 < level →
    (cf.current.files level).Pairwise fun f g => f.largest < g.smallest
  /-- and the entries of one user key are in one of them. -/
  oneFile : ∀ level < kNumLevels, 0 < level →
    (cf.current.files level).Pairwise fun f g =>
      ∀ a ∈ f.table.entries, ∀ b ∈ g.table.entries, a.key.userKey ≠ b.key.userKey
  /-- Layers are numbered below `kAllLayers`: writes stop at 12 level-0 files. -/
  few : kFirstTableLayer + (cf.current.files 0).length + kNumLevels ≤ kAllLayers

end LevelDb
