import LevelDb.Db.Format
import LevelDb.Lib.Coding
import Mathlib.Data.List.Lex

/-!
# Blocks (`table/format.cc`, `table/block_builder.cc`, `table/block.cc`, `db/range_del.cc`)

The blocks of a table file byte by byte: where they are, how they are written and read back, and
what is in them: sorted keys with their values, or range tombstones. Blocks are stored without
compression.
-/

namespace LevelDb

/-- `BytewiseComparator`. -/
abbrev bytewise : LinearOrder Coding.Bytes :=
  LinearOrder.lift' (fun bs : Coding.Bytes => bs.map UInt8.toNat)
    (List.map_injective_iff.2 fun _ _ h => UInt8.toNat_inj.1 h)

end LevelDb

namespace LevelDb.Sstable

open Coding

/-- The statuses other than OK that a table can give. -/
inductive Error
  | ioError
  | corruption (msg : String)
  deriving DecidableEq, Repr

/-! ## Where blocks are -/

structure BlockHandle where
  offset : Nat
  size : Nat
  deriving DecidableEq, Repr

def BlockHandle.encode (h : BlockHandle) : Bytes := putVarint64 h.offset ++ putVarint64 h.size

def BlockHandle.decode : Reader BlockHandle :=
  getVarint64.bind fun offset => getVarint64.bind fun size => .pure ⟨offset, size⟩

structure Footer where
  metaindexHandle : BlockHandle
  indexHandle : BlockHandle

def kTableMagicNumber : Nat := 0xdb4775248b80fb57

/-- Two handles of at most 20 bytes each, and the magic number. -/
def Footer.kEncodedLength : Nat := 48

/-- `resize`: cut, or filled with zeros. -/
def resize (n : Nat) (bs : Bytes) : Bytes := bs.take n ++ List.replicate (n - bs.length) 0

def Footer.encode (f : Footer) : Bytes :=
  resize 40 (f.metaindexHandle.encode ++ f.indexHandle.encode) ++ putFixed 8 kTableMagicNumber

def Footer.decode (bs : Bytes) : Except Error Footer :=
  if getFixed 8 (bs.drop 40) ≠ kTableMagicNumber then
    .error (.corruption "not an sstable (bad magic number)")
  else
    match (BlockHandle.decode.bind fun m => BlockHandle.decode.bind fun i => .pure ⟨m, i⟩) bs with
    | some (f, _) => .ok f
    | none => .error (.corruption "bad block handle")

/-! ## Blocks in the file -/

def kBlockTrailerSize : Nat := 5

/-- `WriteRawBlock`: the contents, the type `kNoCompression`, and the checksum of both. -/
def writeRawBlock (crc : Bytes → UInt32) (contents file : Bytes) : Bytes × BlockHandle :=
  (file ++ (contents ++ 0 :: putFixed 4 (crc (contents ++ [0])).toNat), ⟨file.length, contents.length⟩)

/-- `ReadBlock` on a file that gives what it holds. -/
def readStored (crc : Bytes → UInt32) (file : Bytes) (verifyChecksums : Bool) (h : BlockHandle) :
    Except Error Bytes :=
  let contents := (file.drop h.offset).take (h.size + kBlockTrailerSize)
  if contents.length ≠ h.size + kBlockTrailerSize then
    .error (.corruption "truncated block read")
  else if verifyChecksums ∧
      getFixed 4 (contents.drop (h.size + 1)) ≠ (crc (contents.take (h.size + 1))).toNat then
    .error (.corruption "block checksum mismatch")
  else if contents[h.size]? = some 0 then .ok (contents.take h.size)
  else .error (.corruption "bad block type")

/-! ## Keys and values -/

structure BlockBuilder where
  buffer : Bytes
  restarts : List Nat
  /-- Entries since the last restart. -/
  counter : Nat
  lastKey : Bytes

namespace BlockBuilder

def empty : BlockBuilder := ⟨[], [0], 0, []⟩

/-- How many bytes two keys share at their start. -/
def sharedLength : Bytes → Bytes → Nat
  | a :: as, b :: bs => if a = b then sharedLength as bs + 1 else 0
  | _, _ => 0

def encodeEntry (shared : Nat) (key value : Bytes) : Bytes :=
  putVarint32 shared ++ (putVarint32 (key.length - shared) ++ (putVarint32 value.length ++
    (key.drop shared ++ value)))

def add (blockRestartInterval : Nat) (b : BlockBuilder) (entry : Bytes × Bytes) : BlockBuilder :=
  let restart := blockRestartInterval ≤ b.counter
  let shared := if restart then 0 else sharedLength b.lastKey entry.1
  { buffer := b.buffer ++ encodeEntry shared entry.1 entry.2
    restarts := if restart then b.restarts ++ [b.buffer.length] else b.restarts
    counter := (if restart then 0 else b.counter) + 1
    lastKey := entry.1 }

def finish (b : BlockBuilder) : Bytes :=
  b.buffer ++ (b.restarts.flatMap (putFixed 4) ++ putFixed 4 b.restarts.length)

/-- The block of these entries. -/
def build (blockRestartInterval : Nat) (entries : List (Bytes × Bytes)) : Bytes :=
  (entries.foldl (add blockRestartInterval) empty).finish

end BlockBuilder

namespace Block

/-- `DecodeEntry`, after this key. -/
def decodeEntry (lastKey : Bytes) : Reader (Bytes × Bytes) :=
  getVarint32.bind fun shared => getVarint32.bind fun nonShared => getVarint32.bind fun length bs =>
    if bs.length < (nonShared + length) % 2 ^ 32 ∨ lastKey.length < shared then none
    else some ((lastKey.take shared ++ bs.take nonShared, (bs.drop nonShared).take length),
      bs.drop (nonShared + length))

/-- Entries up to the first that is bad, `n` at most. -/
def parse : Nat → Bytes → Bytes → List (Bytes × Bytes)
  | 0, _, _ => []
  | n + 1, lastKey, bs =>
    if bs = [] then []
    else match decodeEntry lastKey bs with
      | some (entry, rest) => entry :: parse n entry.1 rest
      | none => []

/-- What an iterator over the block shows; restart points only help it to seek. -/
def entries (block : Bytes) : List (Bytes × Bytes) :=
  let numRestarts := getFixed 4 (block.drop (block.length - 4))
  if block.length < 4 ∨ (block.length - 4) / 4 < numRestarts ∨ numRestarts = 0 then []
  else parse block.length [] (block.take (block.length - (1 + numRestarts) * 4))

/-- `Seek`, by `BytewiseComparator`: the first entry at or after the key. -/
def seek (block : Bytes) (target : Bytes) : Option (Bytes × Bytes) :=
  (entries block).find? fun entry => target ≤ entry.1

end Block

/-! ## Range tombstones -/

def putTombstone (t : RangeTombstone Bytes) : Bytes :=
  putLengthPrefixed t.beginKey ++ (putLengthPrefixed t.endKey ++ putVarint64 t.seq)

def encodeRangeTombstones (ts : List (RangeTombstone Bytes)) : Bytes :=
  putVarint32 (ts.length % 2 ^ 32) ++ ts.flatMap putTombstone

def getTombstone : Reader (RangeTombstone Bytes) :=
  getLengthPrefixed.bind fun b => getLengthPrefixed.bind fun e => getVarint64.bind fun seq =>
    .pure ⟨b, e, seq, 0⟩

/-- The loop of `DecodeRangeTombstones`: so many are appended, and whether none of them was bad. -/
def appendTombstones : Nat → Bytes → List (RangeTombstone Bytes) → Bool × List (RangeTombstone Bytes)
  | 0, _, t => (true, t)
  | n + 1, bs, t =>
    match getTombstone bs with
    | some (r, bs) => appendTombstones n bs (t ++ [r])
    | none => (false, t)

/-- `DecodeRangeTombstones` with the vector it appends to: the status, and what is then in `t`. -/
def decodeRangeTombstonesInto (src : Bytes) (t : List (RangeTombstone Bytes)) :
    Except Error Unit × List (RangeTombstone Bytes) :=
  match getVarint32 src with
  | some (n, bs) =>
    match appendTombstones n bs t with
    | (true, t) => (.ok (), t)
    | (false, t) => (.error (.corruption "bad range-deletion block"), t)
  | none => (.error (.corruption "bad range-deletion block"), t)

/-- `DecodeRangeTombstones` with a vector that is empty. -/
def decodeRangeTombstones (src : Bytes) : Except Error (List (RangeTombstone Bytes)) :=
  let (status, ts) := decodeRangeTombstonesInto src []
  status.map fun _ => ts

end LevelDb.Sstable
