import LevelDb.Lib.Coding
import LevelDb.Lib.Feistel
import LevelDb.Lib.Numerals

/-!
# The benchmark's writes (`bench/workload.h`)

The keys and values of the benchmark, and the versions it expects. Phase B inserts the ids from
`n_load` to `n_load + n_insert` in a pseudo-random order: a permutation of the range, one to four ids
in a batch, a point read every 16 batches. The other phases are left out.
-/

namespace LevelDb.Bench

def mix64 (x : UInt64) : UInt64 :=
  let x := x + 0x9E3779B97F4A7C15
  let x := (x ^^^ (x >>> 30)) * 0xBF58476D1CE4E5B9
  let x := (x ^^^ (x >>> 27)) * 0x94D049BB133111EB
  x ^^^ (x >>> 31)

structure Rng where
  s : UInt64

namespace Rng

def next (r : Rng) : UInt64 × Rng :=
  let s := r.s + 0x9E3779B97F4A7C15
  let z := (s ^^^ (s >>> 30)) * 0xBF58476D1CE4E5B9
  let z := (z ^^^ (z >>> 27)) * 0x94D049BB133111EB
  (z ^^^ (z >>> 31), ⟨s⟩)

def below (r : Rng) (n : UInt64) : UInt64 × Rng :=
  if n = 0 then (0, r) else (r.next.1 % n, r.next.2)

def chance (r : Rng) (percent : UInt64) : Bool × Rng :=
  ((r.below 100).1 < percent, (r.below 100).2)

end Rng

/-! ## Keys and values -/

open Coding Numerals

def kKeyLen : Nat := 16

def kDeletedBit : UInt32 := 0x80000000

def keyOf (id : Nat) : Bytes := ((padded 16 id).map Char.toUInt8).take kKeyLen

/-- `none` at a key that is not one of the benchmark's. -/
def idOf (key : Bytes) : Option Nat :=
  if key.length ≠ kKeyLen then none
  else key.foldlM (fun v c => if c < 48 ∨ 57 < c then none else some (v * 10 + (c.toNat - 48))) 0

structure ValueProfile where
  minLen : UInt32
  maxLen : UInt32

namespace ValueGen

def salt (seed id : UInt64) (w : UInt32) : UInt64 :=
  mix64 (mix64 (seed ^^^ 0x5157) + mix64 (id * 0x100000001B3 + w.toUInt64))

def length (p : ValueProfile) (seed id : UInt64) (w : UInt32) : UInt32 :=
  p.minLen + (salt seed id w % (p.maxLen - p.minLen + 1).toUInt64).toUInt32

/-- So many words, the low byte first. -/
def words : Nat → Rng → Bytes
  | 0, _ => []
  | n + 1, r => putFixed 8 r.next.1.toNat ++ words n r.next.2

def make (p : ValueProfile) (seed id : UInt64) (w : UInt32) : Bytes :=
  let len := (length p seed id w).toNat
  -- one recognisable byte first
  ((words ((len + 7) / 8) ⟨mix64 (salt seed id w ^^^ 0xABCD)⟩).take len).set 0 118

def equals (p : ValueProfile) (seed id : UInt64) (w : UInt32) (data : Bytes) : Bool :=
  data.length = (length p seed id w).toNat ∧ make p seed id w = data

end ValueGen

/-- The expected state of the database: for each id 0, or the number of the write that put it, or that
number with `kDeletedBit`. -/
structure Model where
  profile : ValueProfile
  seed : UInt64
  ver : List UInt32
  wseq : UInt32 := 0

def isLive (ver : UInt32) : Bool := ver ≠ 0 ∧ ver &&& kDeletedBit = 0

def Model.live (m : Model) (id : Nat) : Bool := (m.ver[id]?).any isLive

/-! ## The order of the inserts -/

/-- `while ((1ull << bits) < n) bits += 2`. -/
def bitsLoop (n : UInt64) : Nat → UInt64 → Option UInt64
  | 0, _ => none
  | fuel + 1, bits => if (1 : UInt64) <<< bits < n then bitsLoop n fuel (bits + 2) else some bits

/-- What a round mixes in. -/
def roundFunction (permKey hm round r : UInt64) : UInt64 :=
  mix64 (r + permKey + round * 0x9E37) &&& hm

/-- Four rounds on the two halves of `x`. -/
def feistel (permKey bits x : UInt64) : UInt64 :=
  let half := bits / 2
  let hm := (1 : UInt64) <<< half - 1
  let lr := Feistel.network (· ^^^ ·) ([0, 1, 2, 3].map (roundFunction permKey hm))
    (x &&& hm, (x >>> half) &&& hm)
  (lr.2 <<< half) ||| lr.1

/-- `Permute`; `none` when the fuel runs out. -/
def permute (fuel : Nat) (permKey i n : UInt64) : Option UInt64 :=
  (bitsLoop n fuel 2).bind fun bits => Feistel.walk (feistel permKey bits) (· < n) fuel i

/-! ## Phase B -/

structure Op where
  del : Bool
  id : UInt64
  deriving DecidableEq, Repr

inductive Step
  | batch (ops : List Op)
  | get (id : UInt64)
  deriving DecidableEq, Repr

/-- The generator, with what phase B uses of it. -/
structure Workload where
  nLoad : UInt64
  nInsert : UInt64
  readUniverse : UInt64
  permKey : UInt64
  rng : Rng
  batches : UInt64
  maxWritten : UInt64
  sub : UInt64
  insertBatches : UInt64
  didRead : Bool

namespace Workload

def existingId (w : Workload) : UInt64 × Workload :=
  let draw := w.rng.below (if w.maxWritten = 0 then 1 else w.maxWritten)
  (draw.1, { w with rng := draw.2 })

def readId (w : Workload) : UInt64 × Workload :=
  let draw := w.rng.chance 85
  if draw.1 then existingId { w with rng := draw.2 }
  else
    let draw := draw.2.below w.readUniverse
    (draw.1, { w with rng := draw.2 })

/-- `AddPut` and the step to the next id. -/
def addPut (w : Workload) (id : UInt64) : Workload :=
  { w with maxWritten := if w.maxWritten < id + 1 then id + 1 else w.maxWritten, sub := w.sub + 1 }

/-- The loop of a batch. -/
def addPuts (fuel : Nat) : Nat → Workload → List Op → Option (List Op × Workload)
  | 0, w, ops => some (ops, w)
  | i + 1, w, ops =>
    if w.sub < w.nInsert then
      (permute fuel w.permKey w.sub w.nInsert).bind fun id =>
        addPuts fuel i (w.addPut (w.nLoad + id)) (ops ++ [⟨false, w.nLoad + id⟩])
    else some (ops, w)

def insertStep (fuel : Nat) (w : Workload) : Option (Step × Workload) :=
  if 0 < w.sub ∧ w.insertBatches % 16 = 0 ∧ w.didRead = false then
    let r := readId { w with didRead := true }
    some (.get r.1, r.2)
  else
    let draw := w.rng.below 4
    let w := { w with
      didRead := false, batches := w.batches + 1, insertBatches := w.insertBatches + 1,
      rng := draw.2 }
    (addPuts fuel (1 + draw.1.toNat) w []).map fun r => (.batch r.1, r.2)

/-- The steps of the phase, for so many at most. -/
def phaseB (fuel : Nat) : Nat → Workload → Option (List Step × Workload)
  | 0, _ => none
  | steps + 1, w =>
    if w.nInsert ≤ w.sub then some ([], w)
    else (insertStep fuel w).bind fun r => (phaseB fuel steps r.2).map fun rs => (r.1 :: rs.1, rs.2)

end Workload

/-- The ids that a step puts. -/
def Step.puts : Step → List UInt64
  | .batch ops => (ops.filter fun op => !op.del).map Op.id
  | .get _ => []

end LevelDb.Bench
