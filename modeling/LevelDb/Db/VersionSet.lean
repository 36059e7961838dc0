import LevelDb.Db.LookupState

/-!
# Versions (`db/version_set.cc`)

The files of a column family by level. Level 0 is searched newest file first; a deeper level by
binary search for the one file that can hold the key. Before it reads a file, `Version::Get`
asks whether a tombstone of a newer layer hides the rest.
-/

namespace LevelDb

open Fragments

variable {K V : Type} [LinearOrder K]

def kNumLevels : Nat := 7

/-- The files of each level below `kNumLevels`. -/
structure Version (K V : Type) [LinearOrder K] where
  files : Nat → List (FileMetaData K V)

/-- `FindFile`: the index of the first file that ends at or after the key. -/
def findFile (files : List (FileMetaData K V)) (ikey : InternalKey K) : Nat :=
  bisect (fun mid => (files[mid]?.map fun f => decide (f.largest < ikey)).getD false)
    0 files.length

namespace Version

def hasRangeDels (v : Version K V) : Bool :=
  (List.range kNumLevels).any fun level => (v.files level).any (·.hasRangeDels)

/-- `Version::LayerOf`. -/
def layerOf (v : Version K V) (level : Nat) (f : FileMetaData K V) : Nat :=
  if 0 < level then kFirstTableLayer + (v.files 0).length + level - 1
  else kFirstTableLayer + (v.files 0).countP fun g => f.number < g.number

/-- `Version::GetRangeTombstones`: the tombstones of all files with their layers. -/
def getRangeTombstones (v : Version K V) : List (RangeTombstone K) :=
  (List.range kNumLevels).flatMap fun level =>
    (v.files level).flatMap fun f =>
      if f.hasRangeDels then f.tombstones.map fun t => { t with layer := v.layerOf level f }
      else []

/-- The files `ForEachOverlapping` calls back with, in order. -/
def overlapping (v : Version K V) (userKey : K) (ikey : InternalKey K) :
    List (Nat × FileMetaData K V) :=
  let tmp := (v.files 0).filter fun f =>
    f.smallest.userKey ≤ userKey ∧ userKey ≤ f.largest.userKey
  (tmp.insertionSort fun f g => g.number ≤ f.number).map (0, ·) ++
    (List.range' 1 (kNumLevels - 1)).filterMap fun level =>
      match (v.files level)[findFile (v.files level) ikey]? with
      | some f => if userKey < f.smallest.userKey then none else some (level, f)
      | none => none

/-- `ForEachOverlapping`: calls back until the callback returns false. -/
def forEach {S : Type} (func : S → Nat × FileMetaData K V → Bool × S) :
    List (Nat × FileMetaData K V) → S → S
  | [], s => s
  | c :: cs, s =>
    match func s c with
    | (true, s) => forEach func cs s
    | (false, s) => s

/-- The file whose seeks are to be charged for a lookup that needed more than one. -/
structure GetStats (K V : Type) [LinearOrder K] where
  seekFile : Option (FileMetaData K V) := none
  seekFileLevel : Option Nat := none

/-- `State` of `Version::Get`. -/
structure GetState (K V : Type) [LinearOrder K] where
  saver : Saver K V
  stats : GetStats K V := {}
  lastFileRead : Option (FileMetaData K V) := none
  lastFileReadLevel : Option Nat := none
  status : Status := .ok

/-- `State::Match`: true to go on with older files. -/
def match_ (v : Version K V) (rd : Option (RangeDelView K V)) (ikey : InternalKey K)
    (s : GetState K V) (c : Nat × FileMetaData K V) : Bool × GetState K V :=
  let (level, f) := c
  if 0 < rd.elim 0
      (·.maxCovering s.saver.state.userKey s.saver.state.snapshot (v.layerOf level f)) then
    (false, { s with saver := { s.saver with state := s.saver.state.settleDeleted } })
  else
    let s :=
      if s.stats.seekFile.isNone ∧ s.lastFileRead.isSome then
        { s with stats := ⟨s.lastFileRead, s.lastFileReadLevel⟩ }
      else s
    let saver := internalGet (f.table.seek ikey) s.saver
    let s := { s with lastFileRead := some f, lastFileReadLevel := some level, saver }
    if saver.corrupt then (false, { s with status := .corruption "corrupted key for " })
    else (!saver.state.done, s)

/-- `Version::Get`: feeds the lookup; the status is not ok only on an error. -/
def get (v : Version K V) (userKey : K) (snapshot : Nat) (lookup : LookupState K V)
    (rd : Option (RangeDelView K V)) : GetState K V :=
  let ikey := lookupKey userKey snapshot
  forEach (v.match_ rd ikey) (v.overlapping userKey ikey) { saver := { state := lookup } }

end Version
end LevelDb
