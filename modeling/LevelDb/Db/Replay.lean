import LevelDb.Db.Blocks
import LevelDb.Lib.Sweep

/-!
# The levels after each edit (`bench/manifest.py`)

The benchmark replays the edits of a MANIFEST by itself and keeps the layout of the levels after each,
with the depth of level 0: how many of its tables a point lookup may have to read.
-/

namespace LevelDb.Manifest

open Coding

structure ManifestError where
  msg : String
  deriving DecidableEq, Repr

/-- A user key, in the order of byte strings. -/
def UserKey : Type := Bytes

instance : LinearOrder UserKey := bytewise

instance : Inhabited UserKey := ⟨([] : Bytes)⟩

/-- All but the last eight bytes. -/
def internalUserKey (ikey : Bytes) : Except ManifestError UserKey :=
  if ikey.length < 8 then .error ⟨"internal key too short"⟩ else .ok (ikey.take (ikey.length - 8))

structure File where
  size : Nat
  smallest : Bytes
  largest : Bytes
  deriving DecidableEq, Repr

/-- A decoded edit; its compaction pointers are not replayed. -/
structure Edit where
  comparator : Option Bytes := none
  logNumber : Option Nat := none
  prevLogNumber : Option Nat := none
  nextFileNumber : Option Nat := none
  lastSequence : Option Nat := none
  deletedFiles : List (Nat × Nat) := []
  newFiles : List (Nat × Nat × File) := []

/-- The number to the file, in the order of insertion. -/
abbrev Level := List (Nat × File)

structure Replay where
  numLevels : Nat := 7
  levels : List Level := List.replicate 7 []
  maxL0 : Nat := 0
  maxFiles : Nat := 0
  maxFileSize : Nat := 0
  maxLevelUsed : Nat := 0
  edits : Nat := 0
  added : Nat := 0
  deleted : Nat := 0
  addedBytes : Nat := 0
  logNumber : Option Nat := none
  prevLogNumber : Option Nat := none
  nextFileNumber : Option Nat := none
  lastSequence : Option Nat := none
  comparator : Option Bytes := none
  history : List (List Nat) := []
  bytesHistory : List Nat := []
  maxTotalBytes : Nat := 0
  maxL0Depth : Int := 0
  memtableSwitches : Nat := 0

namespace Replay

/-- The files of level 0. -/
def level0 (r : Replay) : List File := (r.levels[0]?.getD []).map Prod.snd

def userRange (f : File) : Except ManifestError (UserKey × UserKey) :=
  (internalUserKey f.smallest).bind fun s => (internalUserKey f.largest).map fun l => (s, l)

/-- The starts and ends in order, a start before an end at the same key; `best` is the most that were
open at once. -/
def l0Depth (r : Replay) : Except ManifestError Int :=
  if r.level0.length ≤ 1 then .ok r.level0.length
  else (r.level0.mapM userRange).map fun ivs =>
    Sweep.best ((Sweep.events ivs).insertionSort (· ≤ ·))

def deleteFile (r : Replay) (file : Nat × Nat) : Except ManifestError Replay :=
  let (level, number) := file
  if r.numLevels ≤ level then .error ⟨s!"deleted file at level {level}"⟩
  else if (r.levels[level]?.getD []).all (·.1 ≠ number) then
    .error ⟨s!"edit deletes #{number} from level {level} where it is not"⟩
  else .ok { r with
    levels := r.levels.modify level (·.filter (·.1 ≠ number))
    deleted := r.deleted + 1 }

def addFile (r : Replay) (file : Nat × Nat × File) : Except ManifestError Replay :=
  let (level, number, f) := file
  if r.numLevels ≤ level then .error ⟨s!"new file at level {level}"⟩
  else if r.levels.any (·.any (·.1 = number)) then .error ⟨s!"file #{number} added twice"⟩
  else .ok { r with
    levels := r.levels.modify level (· ++ [(number, f)])
    added := r.added + 1
    addedBytes := r.addedBytes + f.size
    maxFileSize := max r.maxFileSize f.size
    maxLevelUsed := max r.maxLevelUsed level }

/-- The numbers of an edit. -/
def setNumbers (r : Replay) (edit : Edit) : Replay :=
  { r with
    edits := r.edits + 1
    comparator := edit.comparator.or r.comparator
    memtableSwitches := r.memtableSwitches +
      if edit.logNumber.isSome ∧ r.logNumber.isSome ∧ edit.logNumber ≠ r.logNumber then 1 else 0
    logNumber := edit.logNumber.or r.logNumber
    prevLogNumber := edit.prevLogNumber.or r.prevLogNumber
    nextFileNumber := edit.nextFileNumber.or r.nextFileNumber
    lastSequence := edit.lastSequence.or r.lastSequence }

/-- What `apply` keeps of the layout it made. -/
def record (r : Replay) : Except ManifestError Replay :=
  let counts := r.levels.map List.length
  let total := (r.levels.flatMap fun l => l.map fun f => f.2.size).sum
  r.l0Depth.map fun depth => { r with
    history := r.history ++ [counts]
    bytesHistory := r.bytesHistory ++ [total]
    maxTotalBytes := max r.maxTotalBytes total
    maxL0 := max r.maxL0 (counts.headD 0)
    maxL0Depth := max r.maxL0Depth depth
    maxFiles := max r.maxFiles counts.sum }

def apply (r : Replay) (edit : Edit) : Except ManifestError Replay :=
  (edit.deletedFiles.foldlM deleteFile (r.setNumbers edit)).bind fun r =>
    (edit.newFiles.foldlM addFile r).bind record

end Replay

end LevelDb.Manifest
