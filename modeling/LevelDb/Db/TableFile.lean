import LevelDb.Db.Blocks
import LevelDb.Db.Compaction

/-!
# Table files (`table/table_builder.cc`, `table/table.cc`, `db/table_cache.cc`)

How a table file ends: with its filter block, its range-deletion block, the metaindex that says where
they are, the index and the footer; and how a table is opened, when any of these can fail to be read.
The table cache opens tables on demand; reads and compactions ask it for the tombstones of the files
that are said to have some. Data blocks are bytes here.
-/

namespace LevelDb.Sstable

open Coding

/-- The options a table is written or read with. -/
structure Options where
  blockRestartInterval : Nat
  /-- The name of the filter policy, if there is one. -/
  filterPolicy : Option Bytes
  paranoidChecks : Bool

def ascii (s : String) : Bytes := s.toList.map fun c => UInt8.ofNat c.toNat

def filterKey (policy : Bytes) : Bytes := ascii "filter." ++ policy

def rangeDelKey : Bytes := ascii "leveldb.rangedel"

/-! ## `TableBuilder::Finish` -/

/-- A builder whose last data block has been written. -/
structure TableBuilder where
  options : Options
  /-- The data blocks. -/
  file : Bytes
  /-- What the filter block's builder gives. -/
  filterBlock : Bytes
  rangeDelBlock : Bytes
  /-- The entries of the index block. -/
  index : List (Bytes × Bytes)

namespace TableBuilder

variable (crc : Bytes → UInt32) (b : TableBuilder)

/-- The file so far, and what the metaindex is to say. -/
def writeFilterBlock : Bytes × List (Bytes × BlockHandle) :=
  match b.options.filterPolicy with
  | some policy =>
    let written := writeRawBlock crc b.filterBlock b.file
    (written.1, [(filterKey policy, written.2)])
  | none => (b.file, [])

def writeRangeDelBlock : Bytes × List (Bytes × BlockHandle) :=
  let r := b.writeFilterBlock crc
  if b.rangeDelBlock ≠ [] then
    let written := writeRawBlock crc b.rangeDelBlock r.1
    (written.1, r.2 ++ [(rangeDelKey, written.2)])
  else r

/-- The entries of the metaindex block. -/
def metaindex : List (Bytes × Bytes) :=
  (b.writeRangeDelBlock crc).2.map fun e => (e.1, e.2.encode)

def writeMetaindex : Bytes × BlockHandle :=
  writeRawBlock crc (BlockBuilder.build b.options.blockRestartInterval (b.metaindex crc))
    (b.writeRangeDelBlock crc).1

def writeIndex : Bytes × BlockHandle :=
  writeRawBlock crc (BlockBuilder.build 1 b.index) (b.writeMetaindex crc).1

def footer : Footer := ⟨(b.writeMetaindex crc).2, (b.writeIndex crc).2⟩

/-- The file. -/
def finish : Bytes := (b.writeIndex crc).1 ++ (b.footer crc).encode

end TableBuilder

/-! ## `Table::Open` -/

/-- What cannot be read: the footer, or a block, with checksums verified or without. -/
structure Faults where
  footer : Option Error
  block : Bool → BlockHandle → Option Error

structure Table where
  metaindexHandle : BlockHandle
  indexBlock : Bytes
  filter : Option Bytes
  rangeDelBlock : Bytes

section
variable (crc : Bytes → UInt32) (options : Options) (faults : Faults) (file : Bytes)

def readBlock (verifyChecksums : Bool) (h : BlockHandle) : Except Error Bytes :=
  match faults.block verifyChecksums h with
  | some e => .error e
  | none => readStored crc file verifyChecksums h

def readFilter (value : Bytes) : Option Bytes :=
  match BlockHandle.decode value with
  | some (h, _) => (readBlock crc faults file options.paranoidChecks h).toOption
  | none => none

/-- The block's contents; an error is recorded in `rep_->status`. -/
def readRangeDel (value : Bytes) : Except Error Bytes :=
  let unreadable := Error.corruption "unreadable range-deletion block"
  match BlockHandle.decode value with
  | some (h, _) => (readBlock crc faults file true h).mapError fun _ => unreadable
  | none => .error unreadable

/-- The filter, and the range-deletion block. -/
def readMeta (footer : Footer) : Option Bytes × Except Error Bytes :=
  if footer.metaindexHandle.size ≤ 8 then (none, .ok [])
  else
    match readBlock crc faults file options.paranoidChecks footer.metaindexHandle with
    -- the error is not propagated
    | .error _ => (none, .ok [])
    | .ok contents =>
      (options.filterPolicy.bind fun policy =>
        match Block.seek contents (filterKey policy) with
        | some (key, value) =>
          if key = filterKey policy then readFilter crc options faults file value else none
        | none => none,
      match Block.seek contents rangeDelKey with
      | some (key, value) =>
        if key = rangeDelKey then readRangeDel crc faults file value else .ok []
      | none => .ok [])

def Table.open (size : Nat) : Except Error Table :=
  if size < Footer.kEncodedLength then
    .error (.corruption "file is too short to be an sstable")
  else
    match faults.footer with
    | some e => .error e
    | none =>
      match Footer.decode ((file.drop (size - Footer.kEncodedLength)).take Footer.kEncodedLength) with
      | .error e => .error e
      | .ok footer =>
        match readBlock crc faults file options.paranoidChecks footer.indexHandle with
        | .error e => .error e
        | .ok indexBlock =>
          let (filter, rangeDelBlock) := readMeta crc options faults file footer
          rangeDelBlock.map fun block => ⟨footer.metaindexHandle, indexBlock, filter, block⟩

end

/-- The tombstones `TableCache::GetRangeTombstones` appends, once it has the table. -/
def Table.getRangeTombstones (t : Table) : Except Error (List (RangeTombstone Bytes)) :=
  if t.rangeDelBlock = [] then .ok [] else decodeRangeTombstones t.rangeDelBlock

/-! ## The table cache -/

/-- The open tables by their file numbers. -/
abbrev TableCache := List (Nat × Table)

/-- The files on disk by their numbers, and what cannot be read of each. -/
structure Disk where
  file : Nat → Bytes
  faults : Nat → Faults

variable (crc : Bytes → UInt32) (options : Options) (disk : Disk)

def TableCache.findTable (cache : TableCache) (number size : Nat) : Except Error Table × TableCache :=
  match cache.lookup number with
  | some t => (.ok t, cache)
  | none =>
    match Table.open crc options (disk.faults number) (disk.file number) size with
    | .ok t => (.ok t, (number, t) :: cache)
    | .error e => (.error e, cache)

def TableCache.getRangeTombstones (cache : TableCache) (number size : Nat) :
    Except Error (List (RangeTombstone Bytes)) × TableCache :=
  match cache.findTable crc options disk number size with
  | (.ok t, cache) => (t.getRangeTombstones, cache)
  | (.error e, cache) => (.error e, cache)

/-! ## Who asks for tombstones -/

/-- A file that is asked for its tombstones, and the layer they are given. -/
structure Asked where
  layer : Nat
  number : Nat
  fileSize : Nat
  hasRangeDels : Bool

/-- The loop of `Version::GetRangeTombstones` and of `DoCompactionWork` over files. -/
def gather : TableCache → List Asked → Except Error (List (RangeTombstone Bytes)) × TableCache
  | cache, [] => (.ok [], cache)
  | cache, f :: files =>
    if f.hasRangeDels = false then gather cache files
    else
      match cache.getRangeTombstones crc options disk f.number f.fileSize with
      | (.error e, cache) => (.error e, cache)
      | (.ok ts, cache) =>
        let rest := gather cache files
        (rest.1.map fun rest => (ts.map fun t => { t with layer := f.layer }) ++ rest, rest.2)

section
variable {V : Type} [LinearOrder Bytes]

def askedFor (layer : Nat) (f : FileMetaData Bytes V) : Asked :=
  ⟨layer, f.number, f.fileSize, f.hasRangeDels⟩

/-- `Version::GetRangeTombstones`. -/
def Version.readRangeTombstones (v : Version Bytes V) (cache : TableCache) :
    Except Error (List (RangeTombstone Bytes)) × TableCache :=
  gather crc options disk cache ((List.range kNumLevels).flatMap fun level =>
    (v.files level).map fun f => askedFor (v.layerOf level f) f)

/-- The tombstones of its inputs, as `DoCompactionWork` reads them. -/
def Compaction.readInputTombstones (c : Compaction Bytes V) (cache : TableCache) :
    Except Error (List (RangeTombstone Bytes)) × TableCache :=
  gather crc options disk cache (c.inputs.map (askedFor 0))

/-- The cached index over the tombstones of one version's tables; no version has id 0. -/
structure RangeDelCache where
  versionId : Nat
  versionHasRangeDels : Bool
  index : Option (RangeDelIndex Bytes)

/-- The part of `RangeDelsLocked` that fills the cache. -/
def rangeDelsLocked (v : Version Bytes V) (id : Nat) (c : RangeDelCache) (cache : TableCache) :
    Except Error RangeDelCache × RangeDelCache × TableCache :=
  if c.versionId = id then (.ok c, c, cache)
  else if v.hasRangeDels then
    match Version.readRangeTombstones crc options disk v cache with
    | (.error e, cache) => (.error e, ⟨0, true, none⟩, cache)
    | (.ok all, cache) =>
      let c := ⟨id, true, some (.ofTombstones all)⟩
      (.ok c, c, cache)
  else
    let c := ⟨id, false, none⟩
    (.ok c, c, cache)

end
end LevelDb.Sstable
