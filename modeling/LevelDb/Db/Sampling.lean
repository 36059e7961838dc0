import LevelDb.Db.DbIter
import LevelDb.Db.VersionSet
import LevelDb.Lib.Transition
import Mathlib.Tactic.NormNum.GCD

/-!
# Read sampling (`db/db_iter.cc`, `Version::RecordReadSample`)

A `DBIter` counts the bytes it reads and from time to time has `DBImpl::RecordReadSample` charge a
seek to the first of the files a key is in, if it is in two; a file without seeks left is to be
compacted. `DBIter` knows the database and not the family it reads.
-/

namespace LevelDb.Sampling

open Transition

/-! ## Random numbers (`util/random.h`) -/

/-- `seed_` is neither of the seeds that stay as they are. -/
structure Random where
  seed : Nat
  pos : 0 < seed
  lt : seed < 2147483647

namespace Random

def new (s : Nat) : Random :=
  if h : s % 2 ^ 31 = 0 ∨ s % 2 ^ 31 = 2147483647 then ⟨1, by decide, by decide⟩
  else ⟨s % 2 ^ 31, by omega, by omega⟩

/-- `seed_ * 16807` modulo 2^31 - 1, as `Next` computes it. -/
def nextSeed (seed : Nat) : Nat :=
  let seed := seed * 16807 / 2 ^ 31 + seed * 16807 % 2 ^ 31
  if 2147483647 < seed then seed - 2147483647 else seed

theorem nextSeed_bounds {seed : Nat} (hpos : 0 < seed) (hlt : seed < 2147483647) :
    0 < nextSeed seed ∧ nextSeed seed < 2147483647 := by
  have hcoprime : ¬ 2147483647 ∣ seed * 16807 := by
    intro h
    have h : 2147483647 ∣ seed := Nat.Coprime.dvd_of_dvd_mul_right (by norm_num) h
    exact absurd (Nat.le_of_dvd hpos h) (Nat.not_le_of_lt hlt)
  unfold nextSeed
  dsimp only
  split <;> omega

/-- `Next`. -/
def next (r : Random) : Random :=
  ⟨nextSeed r.seed, (nextSeed_bounds r.pos r.lt).1, (nextSeed_bounds r.pos r.lt).2⟩

end Random

/-! ## Sampling in `DBIter` -/

def kReadBytesPeriod : Nat := 1048576

structure Sampler where
  rnd : Random
  bytesUntilReadSampling : Nat

namespace Sampler

/-- `RandomCompactionPeriod`, of the next random number. -/
def period (r : Random) : Nat := r.seed % (2 * kReadBytesPeriod)

def new (seed : Nat) : Sampler :=
  let rnd := (Random.new seed).next
  ⟨rnd, period rnd⟩

/-- The loop of `ParseKey`, in at most so many rounds: how often it samples. -/
def sampleLoop (bytesRead : Nat) : Nat → Sampler → Nat → Sampler × Nat
  | 0, s, n => (s, n)
  | fuel + 1, s, n =>
    if s.bytesUntilReadSampling < bytesRead then
      sampleLoop bytesRead fuel
        ⟨s.rnd.next, s.bytesUntilReadSampling + period s.rnd.next⟩ (n + 1)
    else (s, n)

/-- `ParseKey` of an entry of so many bytes. -/
def parseKey (s : Sampler) (bytesRead : Nat) : Sampler × Nat :=
  let (s, n) := sampleLoop bytesRead (2 * bytesRead) s 0
  (⟨s.rnd, s.bytesUntilReadSampling - bytesRead⟩, n)

end Sampler

end LevelDb.Sampling

namespace LevelDb.DBIter

variable {K V : Type} [LinearOrder K] (src : DBIterSource K V)

/-! ## The entries that `ParseKey` is called on -/

/-- In `MergeForward`. -/
def parsedMerge (userKey : K) : List (Entry K V) → List (Entry K V)
  | [] => []
  | e :: after => if e.key.userKey ≠ userKey then [e] else e :: parsedMerge userKey after

/-- In `FindNextUserEntry`. -/
def parsedNext (skipping : Bool) (skip : K) : List (Entry K V) → List (Entry K V)
  | [] => []
  | e :: after =>
    e :: if e.key.sequence ≤ src.sequence then
      match effectiveType src e with
      | .deletion => parsedNext true e.key.userKey after
      | .rangeDeletion => parsedNext skipping skip after
      | _ =>
        if skipping = true ∧ e.key.userKey ≤ skip then parsedNext skipping skip after
        else if e.key.type = .merge then parsedMerge e.key.userKey after
        else []
    else parsedNext skipping skip after

def parsedFrom (skipping : Bool) (skip : K) : Option (Cursor (Entry K V)) → List (Entry K V)
  | none => []
  | some c => parsedNext src skipping skip (c.here :: c.after)

variable [Inhabited K] [Inhabited V]

/-- In `FindPrevUserEntry`. -/
def parsedPrev (s : Found K V) : List (Entry K V) → List (Entry K V)
  | [] => []
  | e :: before =>
    e :: if e.key.sequence ≤ src.sequence then
      if s.valueType ≠ .deletion ∧ e.key.userKey < s.savedKey then []
      else parsedPrev (s.see src e) before
    else parsedPrev s before

def parsedBack (it : DBIter K V) (place : Option (Cursor (Entry K V))) : List (Entry K V) :=
  place.elim [] fun c =>
    parsedPrev src ⟨.deletion, false, [], it.savedKey, it.savedValue⟩ (c.here :: c.before)

/-- In a call. -/
def parsed (it : DBIter K V) : IterCall K → List (Entry K V)
  | .seek target =>
    parsedFrom src false target
      (Cursor.seek (fun e => e.key < lookupKey target src.sequence) src.internal.entries)
  | .seekToFirst => parsedFrom src false it.savedKey (Cursor.first src.internal.entries)
  | .seekToLast =>
    parsedBack src { it with savedValue := default } (Cursor.last src.internal.entries)
  | .next =>
    match it.direction with
    | .reverse =>
      parsedFrom src true it.savedKey (it.iter.elim (Cursor.first src.internal.entries) (·.next))
    | .forward =>
      if it.merged then parsedFrom src true it.mergedKey it.iter
      else it.iter.elim [] fun c => parsedFrom src true c.here.key.userKey c.next
  | .prev =>
    match it.direction with
    | .reverse => parsedBack src it it.iter
    | .forward =>
      let (it, place) :=
        if it.merged then
          ({ it with merged := false, savedKey := it.mergedKey },
            it.iter.or (Cursor.last src.internal.entries))
        else (it.iter.elim it fun c => { it with savedKey := c.here.key.userKey }, it.iter)
      parsedBack src it (place.bind fun c => skipBack it.savedKey c.after (c.here :: c.before))

end LevelDb.DBIter

namespace LevelDb.Sampling

variable {K V : Type} [LinearOrder K]

/-! ## Versions -/

/-- `RecordReadSample`, `Match`: the number of matches, and the first of them. -/
def match_ (s : Nat × Option (Nat × FileMetaData K V)) (c : Nat × FileMetaData K V) :
    Bool × Nat × Option (Nat × FileMetaData K V) :=
  let matches_ := s.1 + 1
  (decide (matches_ < 2), matches_, if matches_ = 1 then some c else s.2)

/-- The file that a sample of the key is charged to, and its level. -/
def readSample (v : Version K V) (key : InternalKey K) : Option (Nat × FileMetaData K V) :=
  let s := Version.forEach match_ (v.overlapping key.userKey key) (0, none)
  if 2 ≤ s.1 then s.2 else none

/-! ## Families -/

/-- What a family has to do in the background. -/
inductive Work
  | flush
  | manual
  | size (level : Nat)
  | seek (file level : Nat)
  | rangeDel (file level : Nat)
deriving DecidableEq

structure ColumnFamily (K V : Type) [LinearOrder K] where
  id : Nat
  dropped : Bool
  hasImm : Bool
  hasManual : Bool
  current : Version K V
  /-- By the number of the file. -/
  allowedSeeks : Nat → Int
  /-- A file and its level. -/
  fileToCompact : Option (Nat × Nat)
  /-- `compaction_score_` is 1 at least. -/
  oversized : Bool
  compactionLevel : Nat
  rdFileToCompact : Option (Nat × Nat)

namespace ColumnFamily

def needsCompaction (cf : ColumnFamily K V) : Bool :=
  cf.oversized || cf.fileToCompact.isSome || cf.rdFileToCompact.isSome

/-- What `BackgroundCompaction` does when it comes to the family. -/
def work (cf : ColumnFamily K V) : Option Work :=
  if cf.dropped then none
  else if cf.hasImm then some .flush
  else if cf.hasManual then some .manual
  else if cf.oversized then some (.size cf.compactionLevel)
  else
    match cf.fileToCompact, cf.rdFileToCompact with
    | some (file, level), _ => some (.seek file level)
    | none, some (file, level) => some (.rangeDel file level)
    | none, none => none

/-- `UpdateStats`, of the current version. -/
def updateStats (cf : ColumnFamily K V) : Option (Nat × FileMetaData K V) → ColumnFamily K V × Bool
  | none => (cf, false)
  | some (level, f) =>
    let seeks := cf.allowedSeeks f.number - 1
    let cf := { cf with allowedSeeks := Function.update cf.allowedSeeks f.number seeks }
    if seeks ≤ 0 ∧ cf.fileToCompact = none then
      ({ cf with fileToCompact := some (f.number, level) }, true)
    else (cf, false)

/-- `Version::RecordReadSample`. -/
def recordReadSample (cf : ColumnFamily K V) (key : InternalKey K) : ColumnFamily K V × Bool :=
  cf.updateStats (readSample cf.current key)

end ColumnFamily

/-! ## The database -/

structure DBImpl (K V : Type) [LinearOrder K] where
  /-- `cfs_`, in the order of ids; `default_cf_` is the one with id 0. -/
  cfs : List (ColumnFamily K V)
  backgroundCompactionScheduled : Bool
  shuttingDown : Bool
  bgError : Bool

namespace DBImpl

def find (db : DBImpl K V) (id : Nat) : Option (ColumnFamily K V) := db.cfs.find? fun cf => cf.id = id

def needsBackgroundWork (db : DBImpl K V) : Bool :=
  db.cfs.any fun cf => !cf.dropped && (cf.hasImm || cf.hasManual || cf.needsCompaction)

def maybeScheduleCompaction (db : DBImpl K V) : DBImpl K V :=
  if db.backgroundCompactionScheduled then db
  else if db.shuttingDown then db
  else if db.bgError then db
  else if !db.needsBackgroundWork then db
  else { db with backgroundCompactionScheduled := true }

/-- `RecordReadSample`: in the default family, whatever family is read. -/
def recordReadSample (db : DBImpl K V) (key : InternalKey K) : DBImpl K V :=
  match db.find 0 with
  | none => db
  | some cf =>
    let (cf, full) := cf.recordReadSample key
    let db := { db with cfs := db.cfs.map fun c => if c.id = 0 then cf else c }
    if full then db.maybeScheduleCompaction else db

end DBImpl

/-! ## Reading -/

/-- The database and an iterator of a family. -/
structure State (K V : Type) [LinearOrder K] where
  db : DBImpl K V
  iter : DBIter K V
  sampler : Sampler

/-- The samples while these entries are parsed; `bytes` are those of a key and its value. -/
def sampleAll (bytes : Entry K V → Nat) (s : Sampler) :
    List (Entry K V) → Sampler × List (InternalKey K)
  | [] => (s, [])
  | e :: es =>
    let (s, n) := s.parseKey (bytes e)
    let (s, keys) := sampleAll bytes s es
    (s, List.replicate n e.key ++ keys)

variable [Inhabited K] [Inhabited V]

/-- The keys that a call samples. -/
def State.samples (src : DBIterSource K V) (bytes : Entry K V → Nat) (s : State K V)
    (call : IterCall K) : List (InternalKey K) :=
  (sampleAll bytes s.sampler (s.iter.parsed src call)).2

def system (src : DBIterSource K V) (bytes : Entry K V → Nat) :
    Transition.System (State K V) (IterCall K) where
  init s := s.iter = .new ∧ ∃ seed, s.sampler = .new seed
  step s call :=
    ((DBIter.system src).step s.iter call).map fun iter =>
      { db := (s.samples src bytes call).foldl DBImpl.recordReadSample s.db
        iter
        sampler := (sampleAll bytes s.sampler (s.iter.parsed src call)).1 }

end LevelDb.Sampling
