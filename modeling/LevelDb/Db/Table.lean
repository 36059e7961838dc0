import LevelDb.Db.Format
import Mathlib.Data.List.Sort

/-!
# Tables and their bounds (`db/builder.cc`, `db/version_edit.h`)

A `Table` is a run of point entries in internal-key order: the skip list of a memtable or the
data blocks of a file. A `FileMetaData` is a table with the tombstones of its range-deletion
block and the bounds `BuildTable` and `FinishCompactionOutputFile` record for it
(`tableBounds`); `Bounded` says what those bounds are.
-/

namespace LevelDb

variable {K V : Type} [LinearOrder K]

/-! ## Entries and tables -/

structure Entry (K V : Type) where
  key : InternalKey K
  value : V
  deriving DecidableEq

/-- Point entries in internal-key order. Range tombstones are kept on the side. -/
structure Table (K V : Type) [LinearOrder K] where
  entries : List (Entry K V)
  sorted : entries.Pairwise fun a b => a.key ≤ b.key
  types : ∀ e ∈ entries, e.key.type ≠ .rangeDeletion

namespace Table

def empty : Table K V := ⟨[], .nil, by simp⟩

/-- The entries from the first one at or after the target on. -/
def seek (t : Table K V) (target : InternalKey K) : List (Entry K V) :=
  t.entries.dropWhile fun e => e.key < target

/-- Inserts an entry (`SkipList::Insert`). -/
def insert (t : Table K V) (e : Entry K V) (he : e.key.type ≠ .rangeDeletion) : Table K V where
  entries := t.entries.orderedInsert (fun a b => a.key ≤ b.key) e
  sorted := by
    have : Std.Total fun a b : Entry K V => a.key ≤ b.key := ⟨fun a b => le_total _ _⟩
    have : IsTrans (Entry K V) fun a b => a.key ≤ b.key := ⟨fun _ _ _ h h' => le_trans h h'⟩
    exact t.sorted.orderedInsert _ _
  types := by
    intro a ha
    rcases List.mem_orderedInsert _ |>.1 ha with rfl | ha
    · exact he
    · exact t.types a ha

theorem mem_insert {t : Table K V} {e : Entry K V} {he : e.key.type ≠ .rangeDeletion}
    {a : Entry K V} : a ∈ (t.insert e he).entries ↔ a = e ∨ a ∈ t.entries :=
  List.mem_orderedInsert _

end Table

/-! ## Bounds -/

/-- The first internal key a tombstone covers. -/
def RangeTombstone.lower (t : RangeTombstone K) : InternalKey K :=
  ⟨t.beginKey, t.seq, .rangeDeletion⟩

/-- The first internal key of the excluded end. -/
def RangeTombstone.upper (t : RangeTombstone K) : InternalKey K :=
  ⟨t.endKey, kMaxSequenceNumber, .rangeDeletion⟩

/-- Widens the bounds `smallest`, `largest` (if there are keys yet) to the tombstones. -/
def addTombstoneBounds (tombstones : List (RangeTombstone K))
    (bounds : Option (InternalKey K × InternalKey K)) : Option (InternalKey K × InternalKey K) :=
  tombstones.foldl (fun bounds t =>
    match bounds with
    | none => some (t.lower, t.upper)
    | some (smallest, largest) =>
      some (if t.lower < smallest then t.lower else smallest,
        if largest < t.upper then t.upper else largest)) bounds

/-- The bounds of the entries: the first and the last key. -/
def entryBounds (entries : List (Entry K V)) : Option (InternalKey K × InternalKey K) :=
  entries.head?.bind fun first => entries.getLast?.map fun last => (first.key, last.key)

/-- The bounds recorded for a file; `none` when there is nothing to write. -/
def tableBounds (entries : List (Entry K V)) (tombstones : List (RangeTombstone K)) :
    Option (InternalKey K × InternalKey K) :=
  addTombstoneBounds tombstones (entryBounds entries)

/-- `smallest` and `largest` are around the entries and the tombstones, and each is the bound
of one of them. -/
structure Bounded (entries : List (Entry K V)) (tombstones : List (RangeTombstone K))
    (smallest largest : InternalKey K) : Prop where
  entries_le : ∀ e ∈ entries, smallest ≤ e.key ∧ e.key ≤ largest
  tombstones_le : ∀ t ∈ tombstones, smallest ≤ t.lower ∧ t.upper ≤ largest
  smallest_eq : (∃ e ∈ entries, smallest = e.key) ∨ ∃ t ∈ tombstones, smallest = t.lower
  largest_eq : (∃ e ∈ entries, largest = e.key) ∨ ∃ t ∈ tombstones, largest = t.upper

theorem addTombstoneBounds_spec {entries : List (Entry K V)} {seen : List (RangeTombstone K)}
    (tombstones : List (RangeTombstone K)) {bounds : Option (InternalKey K × InternalKey K)}
    (hsome : ∀ b, bounds = some b → Bounded entries seen b.1 b.2)
    (hnone : bounds = none → entries = [] ∧ seen = []) :
    (∀ b, addTombstoneBounds tombstones bounds = some b →
        Bounded entries (seen ++ tombstones) b.1 b.2) ∧
      (addTombstoneBounds tombstones bounds = none → entries = [] ∧ seen ++ tombstones = []) := by
  induction tombstones generalizing seen bounds with
  | nil =>
    rw [List.append_nil]
    exact ⟨hsome, hnone⟩
  | cons t ts ih =>
    have hmove : seen ++ t :: ts = (seen ++ [t]) ++ ts := by simp
    rw [addTombstoneBounds, List.foldl_cons, hmove]
    cases bounds with
    | none =>
      obtain ⟨rfl, rfl⟩ := hnone rfl
      refine ih (fun b hb => ?_) (by simp)
      cases hb
      exact ⟨by simp, by simp, .inr ⟨t, by simp, rfl⟩, .inr ⟨t, by simp, rfl⟩⟩
    | some b =>
      obtain ⟨s, l⟩ := b
      have hb := hsome _ rfl
      refine ih (fun b' hb' => ?_) (by simp)
      cases hb'
      have hs : (if t.lower < s then t.lower else s) ≤ s ∧
          (if t.lower < s then t.lower else s) ≤ t.lower := by
        split
        · rename_i h; exact ⟨h.le, le_rfl⟩
        · rename_i h; exact ⟨le_rfl, not_lt.1 h⟩
      have hl : l ≤ (if l < t.upper then t.upper else l) ∧
          t.upper ≤ (if l < t.upper then t.upper else l) := by
        split
        · rename_i h; exact ⟨h.le, le_rfl⟩
        · rename_i h; exact ⟨le_rfl, not_lt.1 h⟩
      refine ⟨fun e he => ?_, fun u hu => ?_, ?_, ?_⟩
      · have := hb.entries_le e he
        exact ⟨hs.1.trans this.1, this.2.trans hl.1⟩
      · rcases List.mem_append.1 hu with hu | hu
        · have := hb.tombstones_le u hu
          exact ⟨hs.1.trans this.1, this.2.trans hl.1⟩
        · rw [List.mem_singleton] at hu
          subst hu
          exact ⟨hs.2, hl.2⟩
      · by_cases h : t.lower < s
        · exact .inr ⟨t, by simp, by simp [h]⟩
        · simp only [h, if_false]
          rcases hb.smallest_eq with he | ⟨u, hu, he⟩
          · exact .inl he
          · exact .inr ⟨u, by simp [hu], he⟩
      · by_cases h : l < t.upper
        · exact .inr ⟨t, by simp, by simp [h]⟩
        · simp only [h, if_false]
          rcases hb.largest_eq with he | ⟨u, hu, he⟩
          · exact .inl he
          · exact .inr ⟨u, by simp [hu], he⟩

theorem entryBounds_spec {entries : List (Entry K V)}
    (hsorted : entries.Pairwise fun a b => a.key ≤ b.key) :
    (∀ b, entryBounds entries = some b → Bounded entries [] b.1 b.2) ∧
      (entryBounds entries = none → entries = []) := by
  cases entries with
  | nil => simp [entryBounds]
  | cons a es =>
    have hlast := List.getLast?_eq_some_getLast (List.cons_ne_nil a es)
    refine ⟨fun b hb => ?_, by simp [entryBounds, hlast]⟩
    simp only [entryBounds, List.head?_cons, Option.bind_some, hlast, Option.map_some,
      Option.some.injEq] at hb
    subst hb
    refine ⟨fun e he => ⟨?_, ?_⟩, by simp, .inl ⟨a, by simp, rfl⟩,
      .inl ⟨_, List.getLast_mem _, rfl⟩⟩
    · rcases List.mem_cons.1 he with rfl | he
      · exact le_rfl
      · exact (List.pairwise_cons.1 hsorted).1 e he
    · have hsplit := List.dropLast_append_getLast (List.cons_ne_nil a es)
      rw [← hsplit] at hsorted he
      rcases List.mem_append.1 he with he | he
      · exact (List.pairwise_append.1 hsorted).2.2 e he _ (by simp)
      · rw [List.mem_singleton] at he
        rw [he]

/-- **The recorded bounds** are the bounds of what the file holds. -/
theorem tableBounds_spec {entries : List (Entry K V)} {tombstones : List (RangeTombstone K)}
    (hsorted : entries.Pairwise fun a b => a.key ≤ b.key) :
    (∀ b, tableBounds entries tombstones = some b → Bounded entries tombstones b.1 b.2) ∧
      (tableBounds entries tombstones = none → entries = [] ∧ tombstones = []) := by
  obtain ⟨h1, h2⟩ := entryBounds_spec hsorted
  exact addTombstoneBounds_spec tombstones h1 fun h => ⟨h2 h, rfl⟩

/-! ## Files -/

/-- A table file and what the manifest records of it. -/
structure FileMetaData (K V : Type) [LinearOrder K] where
  number : Nat
  fileSize : Nat
  smallest : InternalKey K
  largest : InternalKey K
  table : Table K V
  /-- The range-deletion block. -/
  tombstones : List (RangeTombstone K)
  ranges : ∀ t ∈ tombstones, t.beginKey < t.endKey
  bounds : tableBounds table.entries tombstones = some (smallest, largest)

namespace FileMetaData

def hasRangeDels (f : FileMetaData K V) : Bool := !f.tombstones.isEmpty

/-- The file written for this table and these tombstones; `none` when there is nothing. -/
def build (number fileSize : Nat) (table : Table K V) (tombstones : List (RangeTombstone K))
    (ranges : ∀ t ∈ tombstones, t.beginKey < t.endKey) : Option (FileMetaData K V) :=
  match h : tableBounds table.entries tombstones with
  | none => none
  | some (smallest, largest) =>
    some ⟨number, fileSize, smallest, largest, table, tombstones, ranges, h⟩

theorem bounded (f : FileMetaData K V) :
    Bounded f.table.entries f.tombstones f.smallest f.largest :=
  (tableBounds_spec f.table.sorted).1 _ f.bounds

theorem smallest_le_largest (f : FileMetaData K V) : f.smallest ≤ f.largest := by
  rcases f.bounded.smallest_eq with ⟨e, he, h⟩ | ⟨t, ht, h⟩
  · rw [h]
    exact (f.bounded.entries_le e he).2
  · rw [h]
    refine le_trans ?_ (f.bounded.tombstones_le t ht).2
    exact (InternalKey.lt_iff.2 (.inl (f.ranges t ht))).le

theorem build_eq_some {number fileSize : Nat} {table : Table K V}
    {tombstones : List (RangeTombstone K)} {ranges : ∀ t ∈ tombstones, t.beginKey < t.endKey}
    {f : FileMetaData K V} (h : build number fileSize table tombstones ranges = some f) :
    f.number = number ∧ f.fileSize = fileSize ∧ f.table = table ∧ f.tombstones = tombstones := by
  unfold build at h
  split at h
  · cases h
  · cases h
    exact ⟨rfl, rfl, rfl, rfl⟩

theorem build_eq_none {number fileSize : Nat} {table : Table K V}
    {tombstones : List (RangeTombstone K)} {ranges : ∀ t ∈ tombstones, t.beginKey < t.endKey}
    (h : build number fileSize table tombstones ranges = none) :
    table.entries = [] ∧ tombstones = [] := by
  unfold build at h
  split at h
  · rename_i hb
    exact (tableBounds_spec table.sorted).2 hb
  · cases h

end FileMetaData
end LevelDb
