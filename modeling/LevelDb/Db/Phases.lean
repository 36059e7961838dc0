import LevelDb.Db.Workload
import LevelDb.Lib.Hoare
import LevelDb.Lib.Rounding
import LevelDb.Lib.Transition
import Mathlib.Data.Rat.Floor

/-!
# The benchmark's workloads (`bench/workload.h`)

All of `Workload::Next`: the phases of `mixed` and those of the recipes. A call of it is a program
over the generator and the step it fills in, which does not end where the loops of `Permute` do not.
What the constructor sets and nothing changes later is a `Config`. The sizes of phase F are left out.

Beside the code the generator keeps `inRange`: whether every unsigned subtraction so far had a
result, and `RecentId` an id to choose.
-/

namespace LevelDb.Bench

/-! ## The model of the database -/

/-- `Put`; `none` where `ver` has no such index. -/
def Model.put (m : Model) (id : UInt64) : Option Model :=
  if id.toNat < m.ver.length then
    some { m with wseq := m.wseq + 1, ver := m.ver.set id.toNat (m.wseq + 1) }
  else none

def Model.del (m : Model) (id : UInt64) : Option Model :=
  if id.toNat < m.ver.length then
    some { m with wseq := m.wseq + 1, ver := m.ver.set id.toNat ((m.wseq + 1) ||| kDeletedBit) }
  else none

/-- `ReplayBatch`. -/
def Model.replayBatch (m : Model) (ops : List Op) : Option Model :=
  ops.foldlM (fun m op => if op.del then m.del op.id else m.put op.id) m

namespace Phases

open Hoare

/-! ## Recipes -/

inductive WorkloadKind
  | mixed | uniform | series | blob | hotkey | bursts | ttl | scan | bimodal | rolling | smallval | wide
  deriving DecidableEq, Repr

/-- Where the next written key comes from. -/
inductive KeyDist
  | uniform
  | hot
  | rolling
  | append
  | bimodal
  | sparse
  deriving DecidableEq, Repr

structure Recipe where
  dist : KeyDist
  load : Nat
  ops : Nat
  hotShare : UInt64
  hotPct : UInt64
  delPct : UInt64
  getPct : UInt64
  scanPct : UInt64
  scanLo : UInt32
  scanHi : UInt32
  batchMax : UInt64
  burst : UInt32
  window : Nat
  lag : Nat
  corrPct : UInt64
  snapshots : Bool
  vmax : UInt32

def recipeOf : WorkloadKind → Recipe
  | .mixed => ⟨.uniform, 0, 0, 0, 0, 0, 0, 0, 0, 0, 0, 0, 0, 0, 0, false, 400⟩
  | .uniform => ⟨.uniform, 200000, 600000, 0, 0, 5, 8, 1, 50, 200, 8, 0, 0, 0, 0, true, 400⟩
  | .series => ⟨.append, 0, 700000, 0, 0, 0, 10, 1, 100, 500, 8, 0, 180000, 20000, 12, false, 400⟩
  | .blob => ⟨.hot, 30000, 30000, 8, 70, 5, 10, 1, 8, 32, 2, 0, 0, 0, 0, false, 6144⟩
  | .hotkey => ⟨.hot, 200000, 600000, 1, 90, 3, 8, 1, 50, 200, 8, 0, 0, 0, 0, true, 400⟩
  | .bursts => ⟨.uniform, 200000, 500000, 0, 0, 5, 2, 1, 50, 200, 12, 200, 0, 0, 0, false, 400⟩
  | .ttl => ⟨.append, 0, 600000, 0, 0, 0, 8, 2, 200, 800, 8, 0, 60000, 8000, 8, false, 400⟩
  | .scan => ⟨.uniform, 300000, 300000, 0, 0, 4, 5, 15, 500, 2000, 8, 0, 0, 0, 0, false, 400⟩
  | .bimodal => ⟨.bimodal, 150000, 600000, 5, 50, 3, 6, 1, 50, 200, 8, 0, 0, 0, 0, false, 400⟩
  | .rolling => ⟨.rolling, 300000, 600000, 0, 0, 2, 6, 1, 50, 200, 8, 0, 0, 0, 0, false, 400⟩
  | .smallval => ⟨.uniform, 600000, 1200000, 0, 0, 5, 6, 1, 50, 200, 16, 0, 0, 0, 0, false, 48⟩
  | .wide => ⟨.sparse, 50000, 400000, 0, 0, 2, 6, 1, 50, 200, 8, 0, 0, 0, 0, false, 400⟩

/-! ## Shapes -/

structure WorkloadShape where
  nLoad : UInt64
  nInsert : UInt64
  nHot : UInt64
  nUpdates : UInt64
  nDeletes : UInt64
  nMixed : UInt64
  nMixedNew : UInt64
  universeSize : UInt64
  readUniverse : UInt64
  window : UInt64
  lag : UInt64
  deriving DecidableEq, Repr

/-- `static_cast<uint64_t>` of a `double`, where it is defined: it drops the fraction. -/
def toUInt64 (v : ℚ) : Option UInt64 := if -1 < v ∧ v < 2 ^ 64 then some (.ofNat ⌊v⌋₊) else none

/-- `base * scale + 0.5`, each operation to the nearest `double`. -/
def scaled (scale : ℚ) (base : Nat) : ℚ :=
  Rounding.nearest 53 (Rounding.nearest 53 (base * scale) + 1 / 2)

/-- `sc`. -/
def sc (scale : ℚ) (base : Nat) (least : UInt64) : Option UInt64 :=
  (toUInt64 (scaled scale base)).map fun v => if v < least then least else v

/-- `base == 0 ? 0 : sc(base, least)`. -/
def scOrZero (scale : ℚ) (base : Nat) (least : UInt64) : Option UInt64 :=
  if base = 0 then some 0 else sc scale base least

namespace WorkloadShape

def initOther (scale : ℚ) (kind : WorkloadKind) : Option WorkloadShape := do
  let r := recipeOf kind
  let nLoad ← scOrZero scale r.load 100
  let nUpdates ← sc scale r.ops 400
  let window ← scOrZero scale r.window 200
  let lag ← scOrZero scale r.lag 50
  let universeSize := match r.dist with
    | .append => nUpdates
    | .bimodal => nLoad + nUpdates
    | .sparse => (nLoad + nUpdates) * 4
    | _ => nLoad
  return {
    nLoad, nUpdates, window, lag, universeSize
    nInsert := 0, nDeletes := 0, nMixed := 0, nMixedNew := 0
    nHot := if r.hotShare = 0 then 0 else nLoad * r.hotShare / 100 + 1
    readUniverse := universeSize + universeSize / 16 + 64 }

/-- The constructor; `none` where a conversion has no defined result. -/
def make (scale : ℚ) (kind : WorkloadKind) : Option WorkloadShape :=
  if kind ≠ .mixed then initOther scale kind
  else do
    let nLoad ← sc scale 240000 200
    let nInsert ← sc scale 240000 200
    let nHot ← sc scale 30000 64
    let nUpdates ← sc scale 320000 200
    let nDeletes ← sc scale 120000 100
    let nMixed ← sc scale 240000 200
    let nMixedNew ← sc scale 120000 100
    let universeSize := nLoad + nInsert + nMixedNew
    return {
      nLoad, nInsert, nHot, nUpdates, nDeletes, nMixed, nMixedNew, universeSize
      readUniverse := universeSize + universeSize / 16 + 64
      window := 0, lag := 0 }

end WorkloadShape

/-- The members of the generator that keep their values. -/
structure Config where
  seed : UInt64
  kind : WorkloadKind
  shape : WorkloadShape
  hotLo : UInt64
  delLo : UInt64
  delRangeLen : UInt64
  permKey : UInt64

/-- What the constructor draws and computes. -/
def Config.make (seed : UInt64) (kind : WorkloadKind) (shape : WorkloadShape) : Config :=
  let hr : Rng := ⟨mix64 (seed ^^^ 0x407)⟩
  let hot := hr.below (shape.nLoad + shape.nInsert - shape.nHot)
  let delRangeLen := shape.nDeletes * 6 / 10
  let del := hot.2.below (shape.nLoad + shape.nInsert - delRangeLen)
  ⟨seed, kind, shape, hot.1, del.1, delRangeLen, mix64 (seed ^^^ 0x9999)⟩

/-! ## Steps and the generator -/

inductive StepKind
  | batch
  | get
  | scan
  | snapTake
  | snapCheck
  | phase
  deriving DecidableEq, Repr

structure Step where
  kind : StepKind := .batch
  ops : List Op := []
  ids : List UInt64 := []
  id : UInt64 := 0
  count : UInt32 := 0
  phase : Char := '?'
  deriving DecidableEq, Repr

/-- The generator, and the step that a call of `Next` fills in. -/
structure Workload where
  st : Step := {}
  inRange : Bool := true
  rng : Rng
  batches : UInt64 := 0
  delNext : UInt64 := 0
  deleted : List UInt64 := []
  maxWritten : UInt64 := 0
  pos : Nat := 0
  sub : UInt64 := 0
  mixedNewNext : UInt64 := 0
  head : UInt64 := 0
  purgeNext : UInt64 := 0
  mainBatches : UInt64 := 0
  cursor : UInt64 := 0
  burstLeft : UInt32 := 0
  lullLeft : UInt32 := 0
  insertBatches : UInt64 := 0
  updateBatches : UInt64 := 0
  deleteBatches : UInt64 := 0
  mixedBatches : UInt64 := 0
  didRead : Bool := false
  pendingRead : Nat := 0
  snapPending : Bool := false
  snapCheckAt : UInt64 := 0
  snapTakenAt : UInt64 := 0xFFFFFFFFFFFFFFFF
  allowExtension : Bool := false

/-- The constructor, which makes two subtractions. -/
def Workload.new (c : Config) : Workload :=
  { rng := ⟨mix64 (c.seed ^^^ 0x77)⟩
    delNext := c.delLo
    inRange := c.shape.nHot ≤ c.shape.nLoad + c.shape.nInsert ∧
      c.delRangeLen ≤ c.shape.nLoad + c.shape.nInsert }

abbrev Gen := StateT Workload Option

def below (n : UInt64) : Gen UInt64 :=
  fun w => some ((w.rng.below n).1, { w with rng := (w.rng.below n).2 })

def chance (percent : UInt64) : Gen Bool :=
  fun w => some ((w.rng.chance percent).1, { w with rng := (w.rng.chance percent).2 })

/-- `rng_.Chance(percent) ? x : y`. -/
def choose (percent : UInt64) (x y : Gen UInt64) : Gen UInt64 := do
  if ← chance percent then x else y

def require (ok : Bool) : Gen Unit := modify fun w => { w with inRange := w.inRange && ok }

/-- `a - b`. -/
def minus (a b : UInt64) : Gen UInt64 := do
  require (b ≤ a)
  return a - b

def marker (phase : Char) : Gen Unit :=
  modify fun w => { w with st.kind := .phase, st.phase := phase }

def batch (phase : Char) : Gen Unit :=
  modify fun w => { w with st.kind := .batch, st.phase := phase, batches := w.batches + 1 }

def addPut (id : UInt64) : Gen Unit :=
  modify fun w => { w with
    st.ops := w.st.ops ++ [⟨false, id⟩]
    maxWritten := if w.maxWritten < id + 1 then id + 1 else w.maxWritten }

def addDel (id : UInt64) : Gen Unit := modify fun w => { w with st.ops := w.st.ops ++ [⟨true, id⟩] }

/-- `sub_++`. -/
def nextSub : Gen Unit := modify fun w => { w with sub := w.sub + 1 }

/-- The condition of the loops over `sub_`. -/
def subBelow (n : UInt64) : Gen Bool := do return decide ((← get).sub < n)

def readStep (phase : Char) (id : UInt64) : Gen Unit :=
  modify fun w => { w with st.kind := .get, st.phase := phase, st.id := id }

section
variable (c : Config)

def existingId : Gen UInt64 := do
  let w ← get
  below (if w.maxWritten = 0 then 1 else w.maxWritten)

def hotId : Gen UInt64 := do return c.hotLo + (← below c.shape.nHot)

def windowId : Gen UInt64 := do
  let w ← get
  let span := c.shape.nLoad + c.shape.nInsert
  let start := (c.hotLo + w.sub * span / c.shape.nMixed) % span
  return (start + (← below (c.shape.nHot / 2 + 1))) % span

def readId : Gen UInt64 := choose 85 existingId (below c.shape.readUniverse)

/-- `Get`. -/
def getStep (phase : Char) : Gen Unit := do readStep phase (← readId c)

def scanStep (phase : Char) (lo hi : UInt32) : Gen Unit := do
  let id ← below c.shape.readUniverse
  let more ← below (hi - lo + 1).toUInt64
  modify fun w => { w with
    st.kind := .scan, st.phase := phase, st.id := id, st.count := lo + more.toUInt32 }

/-- 64 ids, as `draw` has the one with each number. -/
def snapTake (phase : Char) (draw : Nat → Gen UInt64) : Gen Unit := do
  modify fun w => { w with st.kind := .snapTake, st.phase := phase }
  forWhile (pure true) (fun i => do
    let id ← draw i
    modify fun w => { w with st.ids := w.st.ids ++ [id] }) 64 0

def snapCheck (phase : Char) : Gen Unit :=
  modify fun w => { w with st.kind := .snapCheck, st.phase := phase, snapPending := false }

def snapId (i : Nat) : Gen UInt64 := if i % 2 = 1 then hotId c else existingId

/-- The snapshot that is due after so many batches, if one is. -/
def snapStep (batches : UInt64) (phase : Char) (draw : Nat → Gen UInt64) : Gen Bool := do
  let w ← get
  if w.snapPending ∧ w.snapCheckAt ≤ batches then
    snapCheck phase
    return true
  else if 0 < batches ∧ batches % 3000 = 0 ∧ !w.snapPending ∧ w.snapTakenAt ≠ batches then
    modify fun w => { w with
      snapTakenAt := batches, snapPending := true, snapCheckAt := batches + 1500 }
    snapTake phase draw
    return true
  else return false

/-! ## The phases of `mixed` -/

def loadStep : Gen Unit := do
  batch 'A'
  forWhile (subBelow c.shape.nLoad) (fun _ => do
    addPut (← get).sub
    nextSub) 8 0

def insertStep (fuel : Nat) : Gen Unit := do
  let w ← get
  if 0 < w.sub ∧ w.insertBatches % 16 = 0 ∧ !w.didRead then
    modify fun w => { w with didRead := true }
    getStep c 'B'
  else
    modify fun w => { w with didRead := false, insertBatches := w.insertBatches + 1 }
    batch 'B'
    let n ← below 4
    forWhile (subBelow c.shape.nInsert) (fun _ => do
      let id ← StateT.lift (permute fuel c.permKey (← get).sub c.shape.nInsert)
      addPut (c.shape.nLoad + id)
      nextSub) (1 + n.toNat) 0

def updateStep : Gen Unit := do
  if ← snapStep (← get).updateBatches 'C' (snapId c) then pure ()
  else
    let w ← get
    if 0 < w.updateBatches ∧ w.updateBatches % 100 = 0 ∧ w.pendingRead = 0 then
      modify fun w => { w with pendingRead := 1 }
      scanStep c 'C' 100 300
    else if 0 < w.updateBatches ∧ w.updateBatches % 8 = 0 ∧ w.pendingRead < 2 then
      modify fun w => { w with pendingRead := 2 }
      getStep c 'C'
    else
      modify fun w => { w with pendingRead := 0, updateBatches := w.updateBatches + 1 }
      batch 'C'
      let n ← below 8
      forWhile (subBelow c.shape.nUpdates) (fun _ => do
        addPut (← choose 75 (hotId c) existingId)
        nextSub) (1 + n.toNat) 0

/-- `del_next_++`. -/
def nextDel : Gen UInt64 := fun w => some (w.delNext, { w with delNext := w.delNext + 1 })

/-- Up to 4096 ids, one of them replaced by each further one. -/
def remember (id : UInt64) : Gen Unit := do
  let w ← get
  if w.deleted.length < 4096 then modify fun w => { w with deleted := w.deleted ++ [id] }
  else
    let i ← below (.ofNat w.deleted.length)
    modify fun w => { w with deleted := w.deleted.set i.toNat id }

def deletedId : Gen UInt64 := do
  let w ← get
  let i ← below (.ofNat w.deleted.length)
  return w.deleted.getD i.toNat 0

/-- What phase D reads. -/
def rereadId : Gen UInt64 := do
  let again ← chance 50
  let w ← get
  if again && !w.deleted.isEmpty then deletedId else readId c

def delId (rangeBatch : Bool) : Gen UInt64 := if rangeBatch then nextDel else existingId

def deleteStep : Gen Unit := do
  let w ← get
  if 0 < w.deleteBatches ∧ w.deleteBatches % 4 = 0 ∧ w.pendingRead = 0 then
    modify fun w => { w with pendingRead := 1 }
    readStep 'D' (← rereadId c)
  else
    modify fun w => { w with pendingRead := 0, deleteBatches := w.deleteBatches + 1 }
    batch 'D'
    let n ← below 4
    let ranged ← chance 60
    let rangeBatch := ranged && decide ((← get).delNext < c.delLo + c.delRangeLen)
    forWhile (subBelow c.shape.nDeletes) (fun _ => do
      let id ← delId rangeBatch
      addDel id
      remember id
      nextSub) (1 + n.toNat) 0

/-- `mixed_new_next_++`. -/
def nextNew : Gen UInt64 :=
  fun w => some (w.mixedNewNext, { w with mixedNewNext := w.mixedNewNext + 1 })

def mixedOp : Gen Unit := do
  let r ← below 100
  let w ← get
  if r < 60 then addPut (← choose 67 (windowId c) existingId)
  else if r < 85 ∧ w.mixedNewNext < c.shape.universeSize then addPut (← nextNew)
  else addDel (← existingId)

def mixedStep : Gen Unit := do
  if ← snapStep (← get).mixedBatches 'E' (snapId c) then pure ()
  else
    let roll ← below 100
    if roll < 20 then getStep c 'E'
    else if roll < 25 then scanStep c 'E' 32 256
    else
      modify fun w => { w with mixedBatches := w.mixedBatches + 1 }
      batch 'E'
      let n ← below 6
      forWhile (subBelow c.shape.nMixed) (fun _ => do
        mixedOp c
        nextSub) (1 + n.toNat) 0

def extensionOp : Gen Unit := do
  if ← chance 80 then addPut (← choose 50 (windowId c) existingId)
  else addDel (← existingId)

def extensionStep : Gen Unit := do
  let roll ← below 100
  if roll < 20 then getStep c 'X'
  else if roll < 25 then scanStep c 'X' 32 256
  else
    batch 'X'
    let n ← below 6
    forWhile (pure true) (fun _ => do
      extensionOp c
      nextSub) (1 + n.toNat) 0

/-! ## The recipes -/

def otherLoadStep : Gen Unit := do
  batch 'A'
  forWhile (subBelow c.shape.nLoad) (fun _ => do
    addPut (← get).sub
    nextSub) (if 1024 < (recipeOf c.kind).vmax then 2 else 8) 0

def scatterHotId : Gen UInt64 := do
  return mix64 (c.seed ^^^ 0xB10B ^^^ (← below c.shape.nHot)) % c.shape.nLoad

def recentId : Gen UInt64 := do
  let w ← get
  require (w.purgeNext < w.head)
  let live ← minus w.head w.purgeNext
  let last ← minus w.head 1
  minus last (← below (if live = 0 then 1 else live))

/-- `cursor_++`. -/
def nextCursor : Gen UInt64 := fun w => some (w.cursor, { w with cursor := w.cursor + 1 })

def writeId : Gen UInt64 := do
  match (recipeOf c.kind).dist with
  | .hot => choose (recipeOf c.kind).hotPct (scatterHotId c) (below c.shape.nLoad)
  | .rolling => return (← nextCursor) % c.shape.nLoad
  | .sparse => below c.shape.universeSize
  | _ => below (if c.shape.nLoad = 0 then 1 else c.shape.nLoad)

/-- A recent id where there is one, else what `x` draws, half of the time of the hot set. -/
def sampleId (recent x : Gen UInt64) : Gen UInt64 := do
  let w ← get
  if (recipeOf c.kind).dist = .append ∧ w.purgeNext < w.head then recent
  else if (recipeOf c.kind).dist = .hot then choose 50 (scatterHotId c) x
  else x

def snapSampleId : Gen UInt64 := sampleId c recentId existingId

def otherReadId : Gen UInt64 :=
  sampleId c (choose 90 recentId (below c.shape.readUniverse)) (readId c)

/-- Where a scan starts. -/
def scanId : Gen UInt64 := do
  let w ← get
  if (recipeOf c.kind).dist = .append ∧ w.purgeNext < w.head then recentId
  else below c.shape.readUniverse

/-- `head_++`. -/
def nextHead : Gen UInt64 := fun w => some (w.head, { w with head := w.head + 1 })

/-- Whether a write corrects a recent id. -/
def isLate (ext : Bool) : Gen Bool := do
  let w ← get
  if w.head = 0 then return false
  else if ext ∨ c.shape.universeSize ≤ w.head then return true
  else chance (recipeOf c.kind).corrPct

/-- A correction, if there is an id to correct. -/
def correct : Gen Unit := do
  let w ← get
  let back ← minus w.head w.purgeNext
  let back := if c.shape.lag < back then c.shape.lag else back
  if back = 0 then pure ()
  else
    let last ← minus w.head 1
    addPut (← minus last (← below back))

def countSub (ext : Bool) : Gen Unit := if ext then pure () else nextSub

def purgeDue : Gen Bool := do
  let w ← get
  if 0 < c.shape.window then
    let live ← minus w.head w.purgeNext
    return decide (c.shape.window < live ∧ w.st.ops.length < 24)
  else return false

def appendBatch (ext : Bool) : Gen Unit := do
  forWhile (pure true) (fun _ => do
    if ← isLate c ext then correct c
    else
      addPut (← nextHead)
      countSub ext) (recipeOf c.kind).batchMax.toNat 0
  -- each round adds one of the 24 operations there may be
  forWhile (purgeDue c) (fun _ => do
    addDel (← get).purgeNext
    modify fun w => { w with purgeNext := w.purgeNext + 1 }) 24 0

def mainOp : Gen Unit := do
  let r := recipeOf c.kind
  if ← chance r.delPct then addDel (← existingId)
  else if r.dist = .bimodal then
    let low ← chance r.hotPct
    let w ← get
    if low || decide (c.shape.universeSize ≤ w.head) then addPut (c.hotLo + (← below c.shape.nHot))
    else addPut (← nextHead)
  else addPut (← writeId c)

/-- A batch of `OtherMainStep`. -/
def mainBatch (phase : Char) : Gen Unit := do
  let r := recipeOf c.kind
  let ext := decide (phase = 'X')
  modify fun w => { w with mainBatches := w.mainBatches + 1 }
  batch phase
  if r.dist = .append then appendBatch c ext
  else
    let n ← below r.batchMax
    forWhile (if ext then pure true else subBelow c.shape.nUpdates) (fun _ => do
      mainOp c
      countSub ext) (1 + n.toNat) 0

def mainSnapStep (phase : Char) : Gen Bool := do
  let w ← get
  if (recipeOf c.kind).snapshots ∧ phase ≠ 'X' then
    snapStep w.mainBatches phase fun _ => snapSampleId c
  else return false

def otherMainStep (phase : Char) : Gen Unit := do
  let r := recipeOf c.kind
  if ← mainSnapStep c phase then pure ()
  else if 0 < r.burst then
    let w ← get
    if 0 < w.lullLeft then
      modify fun w => { w with lullLeft := w.lullLeft - 1 }
      readStep phase (← otherReadId c)
    else
      modify fun w => { w with
        burstLeft := if w.burstLeft = 0 then r.burst else w.burstLeft
        lullLeft := if w.burstLeft = 0 then r.burst / 4 + 1 else w.lullLeft }
      modify fun w => { w with burstLeft := w.burstLeft - 1 }
      mainBatch c phase
  else
    let roll ← below 100
    if roll < r.getPct then readStep phase (← otherReadId c)
    else if roll < r.getPct + r.scanPct then
      let id ← scanId c
      let more ← below (r.scanHi - r.scanLo + 1).toUInt64
      modify fun w => { w with
        st.kind := .scan, st.phase := phase, st.id := id, st.count := r.scanLo + more.toUInt32 }
    else mainBatch c phase

/-! ## Next -/

/-- `pos_ = …; sub_ = 0`. -/
def goTo (pos : Nat) : Gen Unit := modify fun w => { w with pos := pos, sub := 0 }

/-- A round of the loop of `Next`: whether there is a step, or `none` for another round. -/
def mixedTurn (fuel : Nat) : Gen (Option Bool) := do
  let w ← get
  match w.pos with
  | 0 => goTo 1; marker 'A'; return some true
  | 1 => if c.shape.nLoad ≤ w.sub then goTo 2; return none else loadStep c; return some true
  | 2 => goTo 3; marker 'B'; return some true
  | 3 => if c.shape.nInsert ≤ w.sub then goTo 4; return none else insertStep c fuel; return some true
  | 4 => goTo 5; marker 'C'; return some true
  | 5 =>
    if c.shape.nUpdates ≤ w.sub then
      if w.snapPending then snapCheck 'C'; return some true else goTo 6; return none
    else updateStep c; return some true
  | 6 => goTo 7; marker 'D'; return some true
  | 7 => if c.shape.nDeletes ≤ w.sub then goTo 8; return none else deleteStep c; return some true
  | 8 =>
    goTo 9
    modify fun w => { w with
      mixedNewNext := c.shape.nLoad + c.shape.nInsert, snapTakenAt := 0xFFFFFFFFFFFFFFFF }
    marker 'E'
    return some true
  | 9 =>
    if c.shape.nMixed ≤ w.sub then
      if w.snapPending then snapCheck 'E'; return some true else goTo 10; return none
    else mixedStep c; return some true
  | 10 =>
    if !w.allowExtension then return some false
    else
      modify fun w => { w with pos := 11 }
      marker 'X'
      return some true
  | _ => if !w.allowExtension then return some false else extensionStep c; return some true

/-- A round of the loop of `NextOther`. -/
def otherTurn : Gen (Option Bool) := do
  let w ← get
  match w.pos with
  | 0 =>
    goTo 1
    if c.shape.nLoad = 0 then return none
    else
      marker 'A'
      return some true
  | 1 => if c.shape.nLoad ≤ w.sub then goTo 2; return none else otherLoadStep c; return some true
  | 2 =>
    goTo 3
    modify fun w => { w with head := c.shape.nLoad }
    marker 'B'
    return some true
  | 3 =>
    if c.shape.nUpdates ≤ w.sub then
      if w.snapPending then snapCheck 'B'; return some true
      else
        modify fun w => { w with pos := 4 }
        return none
    else otherMainStep c 'B'; return some true
  | 4 =>
    if !w.allowExtension then return some false
    else
      modify fun w => { w with pos := 5 }
      marker 'X'
      return some true
  | _ => if !w.allowExtension then return some false else otherMainStep c 'X'; return some true

/-- `Next`: whether there is a step. -/
def next (fuel : Nat) : Gen Bool := do
  modify fun w => { w with st.ops := [], st.ids := [], st.count := 0, st.id := 0 }
  if c.kind ≠ .mixed then untilSome (otherTurn c) fuel else untilSome (mixedTurn c fuel) fuel

/-! ## Runs -/

inductive Call
  | next (fuel : Nat)
  | allowExtension

def system : Transition.System Workload Call where
  init w := w = .new c
  step w
    | .next fuel => (next c fuel w).map Prod.snd
    | .allowExtension => some { w with allowExtension := true }

end

/-- The ids of the batch are in the universe, nothing was computed out of range, and the batch writes
to no index that the model of the database does not have. -/
structure InUniverse (shape : WorkloadShape) (w : Workload) : Prop where
  ops : ∀ op ∈ w.st.ops, op.id < shape.universeSize
  inRange : w.inRange = true
  model : ∀ m : Model, m.ver.length = shape.universeSize.toNat → (m.replayBatch w.st.ops).isSome

end Phases
end LevelDb.Bench
