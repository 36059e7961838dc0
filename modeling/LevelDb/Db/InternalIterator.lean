import LevelDb.Db.Contents
import LevelDb.Db.History

/-!
# `DBImpl::NewInternalIterator` (`db/db_impl.cc`, `db/version_set.cc`)

What the iterator of a reader runs over: the memtable, and under it the immutable memtable and the
files, each through an iterator that skips what a tombstone of a newer layer covers
(`RangeDelSkippingIterator`), merged into one run in internal-key order. The merging iterator itself
is the stock one.
-/

namespace LevelDb

open Mvcc

variable {K V : Type} [LinearOrder K]

/-- `Version::AddLayerIterators`: what the level-0 files yield, newest first, and each deeper level
that has files, with the numbers of their layers. -/
def Version.addLayerIterators (v : Version K V) : List (List (Entry K V) × Nat) :=
  (v.newestFirst.map (·.table.entries)).zipIdx kFirstTableLayer ++
    (List.range' 1 (kNumLevels - 1)).filterMap fun level =>
      if (v.files level).isEmpty then none
      else some ((v.files level).flatMap (·.table.entries),
        kFirstTableLayer + (v.files 0).length + level - 1)

/-- What a layer yields through `NewRangeDelSkippingIterator`. There is nothing to skip where there
is no view. -/
def skipping (view : Option (RangeDelView K V)) (snapshot : Nat) (child : List (Entry K V) × Nat) :
    List (Entry K V) :=
  child.1.filter fun e =>
    (view.bind fun v => v.coveredRange e.key.userKey snapshot child.2).isNone

namespace ColumnFamily

/-- The children of the merging iterator. -/
def internalChildren (cf : ColumnFamily K V) (snapshot : Nat) : List (List (Entry K V)) :=
  cf.mem.table.entries ::
    ((cf.imm.elim [] fun imm => [(imm.table.entries, kLayerImm)]) ++
      cf.current.addLayerIterators).map (skipping cf.rangeDels snapshot)

/-- The children are the layers of the family in order, those under the memtable without what is
skipped. -/
theorem flatten_internalChildren (cf : ColumnFamily K V) (snapshot : Nat) :
    (cf.internalChildren snapshot).flatten = cf.mem.table.entries ++
      (cf.layers.tail.zipIdx 1).flatMap fun p => skipping cf.rangeDels snapshot (p.1.entries, p.2) := by
  have hlevels : ∀ n, (List.range' 1 (kNumLevels - 1)).zipIdx n =
      (List.range' 1 (kNumLevels - 1)).map fun level => (level, n + level - 1) := by
    intro n
    simp [kNumLevels, List.range', List.zipIdx]
  have hskip : ∀ layer, skipping cf.rangeDels snapshot ([], layer) = [] := fun _ => rfl
  have hfiles : (cf.current.addLayerIterators.map (skipping cf.rangeDels snapshot)).flatten =
      (cf.current.layers.zipIdx kFirstTableLayer).flatMap fun p =>
        skipping cf.rangeDels snapshot (p.1.entries, p.2) := by
    rw [Version.addLayerIterators, Version.layers, List.zipIdx_append, List.map_append,
      List.flatten_append, List.flatMap_append]
    refine congrArg₂ (· ++ ·) ?_ ?_
    · rw [List.zipIdx_map, List.zipIdx_map, List.map_map, List.flatMap_map, List.flatMap_def]
      rfl
    · rw [List.zipIdx_map, hlevels, List.map_map, List.flatMap_map, List.flatMap_def]
      generalize List.range' 1 (kNumLevels - 1) = levels
      induction levels with
      | nil => rfl
      | cons level levels ih =>
        rw [List.filterMap_cons, List.map_cons, List.flatten_cons, ← ih]
        cases hempty : (cf.current.files level).isEmpty with
        | true =>
          rw [List.isEmpty_iff] at hempty
          simp [Layer.concat, hempty, hskip]
        | false =>
          simp [Layer.concat, List.flatMap_map, Version.newestFirst, FileMetaData.layer]
  rw [internalChildren, List.flatten_cons, List.map_append, List.flatten_append, hfiles]
  cases himm : cf.imm with
  | none => simp [layers, himm, hskip, kFirstTableLayer]
  | some imm => simp [layers, himm, kFirstTableLayer, kLayerImm]

theorem mem_contents_of_child {cf : ColumnFamily K V} {snapshot : Nat} {e : Entry K V}
    (he : e ∈ (cf.internalChildren snapshot).flatten) : e ∈ cf.contents.entries := by
  rw [flatten_internalChildren] at he
  rcases List.mem_append.1 he with he | he
  · exact List.mem_flatMap.2 ⟨cf.mem.layer, List.mem_cons_self, he⟩
  · obtain ⟨p, hp, he⟩ := List.mem_flatMap.1 he
    exact List.mem_flatMap.2 ⟨p.1, List.mem_of_mem_tail (List.fst_mem_of_mem_zipIdx hp),
      (List.mem_filter.1 he).1⟩

theorem types_contents {cf : ColumnFamily K V} {e : Entry K V} (he : e ∈ cf.contents.entries) :
    e.key.type ≠ .rangeDeletion := by
  obtain ⟨l, hl, he⟩ := List.mem_flatMap.1 he
  simp only [layers, List.mem_cons, Version.layers, List.mem_append, List.mem_map] at hl
  rcases hl with rfl | rfl | ⟨f, -, rfl⟩ | ⟨level, -, rfl⟩
  · exact cf.mem.table.types e he
  · cases himm : cf.imm with
    | none => simp [himm] at he
    | some imm =>
      simp only [himm, Option.elim_some] at he
      exact imm.table.types e he
  · exact f.table.types e he
  · obtain ⟨_, hf, he⟩ := List.mem_flatMap.1 he
    obtain ⟨f, -, rfl⟩ := List.mem_map.1 hf
    exact f.table.types e he

/-- `NewInternalIterator`: what it yields. -/
def newInternalIterator (cf : ColumnFamily K V) (snapshot : Nat) : Table K V where
  entries := (cf.internalChildren snapshot).flatten.insertionSort fun a b => a.key ≤ b.key
  sorted := by
    have : Std.Total fun a b : Entry K V => a.key ≤ b.key := ⟨fun a b => le_total _ _⟩
    have : IsTrans (Entry K V) fun a b => a.key ≤ b.key := ⟨fun _ _ _ h h' => le_trans h h'⟩
    exact List.pairwise_insertionSort _ _
  types _ he := types_contents (mem_contents_of_child ((List.mem_insertionSort _).1 he))

/-- `DBImpl::NewIterator` of a live family at a snapshot. -/
def newIterator (cf : ColumnFamily K V) (snapshot : Nat) : DBIterSource K V where
  internal := cf.newInternalIterator snapshot
  sequence := snapshot
  mergeOp := cf.mergeOp
  rangeDels := cf.rangeDels

end ColumnFamily

/-! ## What a reader is to see -/

/-- The key of a record of a point. -/
def Record.key : Record K V → Option K
  | .put k _ | .delete k | .merge k _ => some k
  | .deleteRange _ _ => none

/-- The ordered map the records up to a sequence number make. -/
def mapAt (mergeOp : Option (MergeOperator K V)) (history : List (Nat × Record K V))
    (snapshot : Nat) : List (K × V) :=
  ((history.filterMap fun r => r.2.key).dedup.insertionSort (· ≤ ·)).filterMap fun k =>
    (read (foldOf mergeOp k) (opsAt history k snapshot)).join.map fun v => (k, v)

end LevelDb
