import LevelDb.Db.RangeDelIndex
import LevelDb.Db.RangeDelMap
import LevelDb.Db.Table
import Mathlib.Order.MinMax

/-!
# Memtables and the view of the tombstones (`db/memtable.cc`, `db/range_del_view.h`)

A memtable keeps its point entries in a skip list and its range tombstones on the side, in the
order they came, with their fragment map. `RangeDelView` is what a read consults: the memtables'
maps and an index over the tombstones of one version's files.
-/

namespace LevelDb

variable {K V : Type} [LinearOrder K]

def kLayerMem : Nat := 0
def kLayerImm : Nat := 1
def kFirstTableLayer : Nat := 2

/-! ## Memtables -/

structure MemTable (K V : Type) [LinearOrder K] where
  table : Table K V
  /-- In insertion order. -/
  rangeDels : List (RangeTombstone K)
  ranges : ∀ t ∈ rangeDels, t.beginKey < t.endKey
  rangeDelMap : RangeDelMap K
  map_eq : rangeDelMap = RangeDelMap.ofTombstones rangeDels

namespace MemTable

def empty : MemTable K V := ⟨.empty, [], by simp, .empty, rfl⟩

/-- `MemTable::Add` of a point entry. -/
def add (m : MemTable K V) (e : Entry K V) (he : e.key.type ≠ .rangeDeletion) : MemTable K V :=
  { m with table := m.table.insert e he }

/-- `MemTable::Add` of a range tombstone: an empty range is dropped. -/
def addRange (m : MemTable K V) (beginKey endKey : K) (seq : Nat) : MemTable K V :=
  if h : endKey ≤ beginKey then m
  else
    { m with
      rangeDels := m.rangeDels ++ [⟨beginKey, endKey, seq, 0⟩]
      ranges := by
        intro t ht
        rcases List.mem_append.1 ht with ht | ht
        · exact m.ranges t ht
        · rw [List.mem_singleton] at ht
          subst ht
          exact not_le.1 h
      rangeDelMap := m.rangeDelMap.add beginKey endKey seq
      map_eq := by simp [m.map_eq, RangeDelMap.ofTombstones] }

def numRangeTombstones (m : MemTable K V) : Nat := m.rangeDels.length

def maxCoveringRangeDel (m : MemTable K V) (userKey : K) (snapshot : Nat) : Nat :=
  m.rangeDelMap.maxCovering userKey snapshot

def coveredRangeDel (m : MemTable K V) (userKey : K) (snapshot : Nat) : Option (K × K) :=
  m.rangeDelMap.coveredRange userKey snapshot

/-- The tombstones from the `from`-th on, with their layer. -/
def getRangeTombstones (m : MemTable K V) (start layer : Nat) : List (RangeTombstone K) :=
  (m.rangeDels.drop start).map fun t => { t with layer }

end MemTable

/-! ## The view -/

structure RangeDelView (K V : Type) [LinearOrder K] where
  mem : Option (MemTable K V)
  imm : Option (MemTable K V)
  tables : Option (RangeDelIndex K)

namespace RangeDelView

/-- What a memtable (which may be missing) of this layer adds to `MaxCovering`. -/
def memCovering (m : Option (MemTable K V)) (layer : Nat) (userKey : K)
    (snapshot belowLayer : Nat) : Nat :=
  match m with
  | some m =>
    if layer < belowLayer ∧ 0 < m.numRangeTombstones then m.maxCoveringRangeDel userKey snapshot
    else 0
  | none => 0

def maxCovering (v : RangeDelView K V) (userKey : K) (snapshot : Nat)
    (belowLayer : Nat := kAllLayers) : Nat :=
  max (max (memCovering v.mem kLayerMem userKey snapshot belowLayer)
      (memCovering v.imm kLayerImm userKey snapshot belowLayer))
    (v.tables.elim 0 fun ix => ix.maxCovering userKey snapshot belowLayer)

def covers (v : RangeDelView K V) (userKey : K) (seq snapshot : Nat) : Bool :=
  seq < v.maxCovering userKey snapshot

/-- The range a memtable of this layer gives to `CoveredRange`. -/
def memCoveredRange (m : Option (MemTable K V)) (layer : Nat) (userKey : K)
    (snapshot belowLayer : Nat) : Option (K × K) :=
  match m with
  | some m =>
    if layer < belowLayer ∧ 0 < m.numRangeTombstones then m.coveredRangeDel userKey snapshot
    else none
  | none => none

def coveredRange (v : RangeDelView K V) (userKey : K) (snapshot belowLayer : Nat) :
    Option (K × K) :=
  (memCoveredRange v.mem kLayerMem userKey snapshot belowLayer).or
    ((memCoveredRange v.imm kLayerImm userKey snapshot belowLayer).or
      (v.tables.bind fun ix => ix.coveredRange userKey snapshot belowLayer))

/-! ## What the view sees -/

/-- The tombstones the view stands for, each with its layer. -/
def Sees (v : RangeDelView K V) (ts : List (RangeTombstone K)) : Prop :=
  ∃ files : List (RangeTombstone K),
    ts = (v.mem.elim [] fun m => m.getRangeTombstones 0 kLayerMem) ++
      (v.imm.elim [] fun m => m.getRangeTombstones 0 kLayerImm) ++ files ∧
    (v.tables = some (.ofTombstones files) ∨ v.tables = none ∧ files = [])

theorem lt_memCovering {m : Option (MemTable K V)} {layer : Nat} {k : K}
    {snapshot belowLayer s : Nat} :
    s < memCovering m layer k snapshot belowLayer ↔
      ∃ t ∈ m.elim [] fun m => m.getRangeTombstones 0 layer,
        t.Covers k ∧ t.seq ≤ snapshot ∧ t.layer < belowLayer ∧ s < t.seq := by
  cases m with
  | none => simp [memCovering]
  | some m =>
    simp only [memCovering, MemTable.maxCoveringRangeDel, m.map_eq, Option.elim_some,
      MemTable.getRangeTombstones, List.drop_zero, List.mem_map]
    split
    · rename_i h
      rw [RangeDelMap.maxCovering_ofTombstones, lt_maxSeq]
      constructor
      · rintro ⟨_, hs, hlt⟩
        obtain ⟨t, ht, rfl⟩ := List.mem_map.1 hs
        rw [List.mem_filter, decide_eq_true_iff] at ht
        exact ⟨_, ⟨t, ht.1, rfl⟩, ht.2.1, ht.2.2, h.1, hlt⟩
      · rintro ⟨_, ⟨t, ht, rfl⟩, hc, hle, -, hlt⟩
        exact ⟨t.seq, List.mem_map.2 ⟨t, List.mem_filter.2 ⟨ht, decide_eq_true ⟨hc, hle⟩⟩, rfl⟩,
          hlt⟩
    · rename_i h
      refine iff_of_false (Nat.not_lt_zero _) ?_
      rintro ⟨_, ⟨t, ht, rfl⟩, -, -, hl, -⟩
      exact h ⟨hl, List.length_pos_of_mem ht⟩

/-- **`MaxCovering`** is above `s` exactly when a tombstone above `s` of a layer below
`belowLayer` covers the key and is visible. -/
theorem lt_maxCovering {v : RangeDelView K V} {ts : List (RangeTombstone K)} (hv : v.Sees ts)
    {k : K} {snapshot belowLayer s : Nat} :
    s < v.maxCovering k snapshot belowLayer ↔
      ∃ t ∈ ts, t.Covers k ∧ t.seq ≤ snapshot ∧ t.layer < belowLayer ∧ s < t.seq := by
  obtain ⟨files, rfl, htables⟩ := hv
  have hix : s < (v.tables.elim 0 fun ix => ix.maxCovering k snapshot belowLayer) ↔
      ∃ t ∈ files, t.Covers k ∧ t.seq ≤ snapshot ∧ t.layer < belowLayer ∧ s < t.seq := by
    rcases htables with h | ⟨h, rfl⟩
    · rw [h, Option.elim_some, RangeDelIndex.maxCovering_ofTombstones, lt_maxSeq]
      constructor
      · rintro ⟨_, hs, hlt⟩
        obtain ⟨t, ht, rfl⟩ := List.mem_map.1 hs
        rw [List.mem_filter, decide_eq_true_iff] at ht
        exact ⟨t, ht.1, ht.2.1, ht.2.2.1, ht.2.2.2, hlt⟩
      · rintro ⟨t, ht, hc, hle, hl, hlt⟩
        exact ⟨t.seq, List.mem_map.2 ⟨t, List.mem_filter.2
          ⟨ht, decide_eq_true ⟨hc, hle, hl⟩⟩, rfl⟩, hlt⟩
    · simp [h]
  rw [maxCovering, lt_max_iff, lt_max_iff, hix, lt_memCovering, lt_memCovering]
  simp only [List.mem_append, or_and_right, exists_or, or_assoc]

end RangeDelView
end LevelDb
