import LevelDb.Db.TableFile
import LevelDb.Proof.Blocks

/-!
# Tombstones of a table that is opened

What `Table::Open` makes of a table file with a range-deletion block, whichever of its blocks cannot be
read (`open_finish`). The tombstones are all there, or the status is not OK, exactly if the metaindex
block can be read once the footer and the index block have been.
-/

namespace LevelDb.Sstable

open Coding

variable {crc : Bytes → UInt32} {options : Options} {faults : Faults} {b : TableBuilder}
  {ts : List (RangeTombstone Bytes)}

/-! ## Where the blocks are -/

theorem prefix_writeRawBlock (contents file : Bytes) : file <+: (writeRawBlock crc contents file).1 :=
  List.prefix_append file _

/-- A block is read back from any file that goes on after it. -/
theorem readStored_of_written {contents file whole : Bytes} (verify : Bool)
    (h : (writeRawBlock crc contents file).1 <+: whole) :
    readStored crc whole verify (writeRawBlock crc contents file).2 = .ok contents := by
  obtain ⟨rest, rfl⟩ := h
  exact readStored_writeRawBlock crc contents file rest verify

theorem prefix_index : (b.writeIndex crc).1 <+: b.finish crc := List.prefix_append _ _

theorem prefix_metaindex : (b.writeMetaindex crc).1 <+: b.finish crc :=
  (prefix_writeRawBlock _ _).trans prefix_index

theorem prefix_rangeDel : (b.writeRangeDelBlock crc).1 <+: b.finish crc :=
  (prefix_writeRawBlock _ _).trans prefix_metaindex

/-- Offsets and sizes fit into 64 bits, and the filter policy's name into a key. -/
structure TableBuilder.Fits (crc : Bytes → UInt32) (b : TableBuilder) : Prop where
  file : (b.finish crc).length < 2 ^ 64
  policy : ∀ policy ∈ b.options.filterPolicy, policy.length < 2 ^ 31

theorem fits_of_written (hfits : b.Fits crc) {contents file : Bytes}
    (h : (writeRawBlock crc contents file).1 <+: b.finish crc) :
    (writeRawBlock crc contents file).2.Fits := by
  have hle := h.length_le
  have hlt := hfits.file
  rw [show (writeRawBlock crc contents file).1 = file ++ (contents ++ _) from rfl,
    List.length_append, List.length_append] at hle
  exact ⟨show file.length < 2 ^ 64 by omega, show contents.length < 2 ^ 64 by omega⟩

/-! ## The metaindex -/

/-- Where the range-deletion block goes. -/
def TableBuilder.rangeDelHandle (crc : Bytes → UInt32) (b : TableBuilder) : BlockHandle :=
  (writeRawBlock crc b.rangeDelBlock (b.writeFilterBlock crc).1).2

theorem writeRangeDelBlock_eq (hne : b.rangeDelBlock ≠ []) : b.writeRangeDelBlock crc =
    ((writeRawBlock crc b.rangeDelBlock (b.writeFilterBlock crc).1).1,
      (b.writeFilterBlock crc).2 ++ [(rangeDelKey, b.rangeDelHandle crc)]) := by
  rw [TableBuilder.writeRangeDelBlock]
  exact if_pos hne

theorem filterKey_lt (policy : Bytes) : filterKey policy < rangeDelKey :=
  List.Lex.rel (by decide)

/-- What comes before it is the filter's entry. -/
theorem writeFilterBlock_snd : ∀ e ∈ (b.writeFilterBlock crc).2,
    ∃ policy ∈ b.options.filterPolicy, e.1 = filterKey policy := by
  rw [TableBuilder.writeFilterBlock]
  split
  · rename_i policy hpolicy
    intro e he
    exact ⟨policy, hpolicy, (List.mem_singleton.1 he) ▸ rfl⟩
  · exact nofun

/-- Seeking the range-deletion block in the metaindex finds it. -/
theorem find_rangeDel (hne : b.rangeDelBlock ≠ []) :
    (b.metaindex crc).find? (fun e => rangeDelKey ≤ e.1) =
      some (rangeDelKey, (b.rangeDelHandle crc).encode) := by
  rw [TableBuilder.metaindex, writeRangeDelBlock_eq hne, List.map_append, List.find?_append]
  have hfilter : (((b.writeFilterBlock crc).2.map fun e => (e.1, e.2.encode)).find? fun e =>
      rangeDelKey ≤ e.1) = none := by
    rw [List.find?_eq_none]
    intro e he
    obtain ⟨e0, he0, rfl⟩ := List.mem_map.1 he
    obtain ⟨policy, -, heq⟩ := writeFilterBlock_snd e0 he0
    show ¬ decide (rangeDelKey ≤ e0.1) = true
    rw [heq, decide_eq_true_eq, List.not_le]
    exact filterKey_lt policy
  rw [hfilter, Option.none_or, List.map_singleton, List.find?_singleton,
    if_pos (decide_eq_true (List.le_refl _))]

theorem length_writeFilterBlock : (b.writeFilterBlock crc).2.length ≤ 1 := by
  rw [TableBuilder.writeFilterBlock]
  split
  · exact le_rfl
  · exact Nat.zero_le _

theorem metaindex_fits (hfits : b.Fits crc) (hne : b.rangeDelBlock ≠ []) :
    (∀ e ∈ b.metaindex crc, EntryFits e) ∧ (b.metaindex crc).length ≤ 2 := by
  rw [TableBuilder.metaindex, writeRangeDelBlock_eq hne]
  constructor
  · intro e he
    obtain ⟨e0, he0, rfl⟩ := List.mem_map.1 he
    have hvalue := length_encode_le e0.2
    show e0.1.length + e0.2.encode.length < 2 ^ 32
    rcases List.mem_append.1 he0 with he0 | he0
    · obtain ⟨policy, hpolicy, heq⟩ := writeFilterBlock_snd e0 he0
      have hlt := hfits.policy policy hpolicy
      have hkey : e0.1.length = 7 + policy.length := by
        rw [heq, filterKey, List.length_append]
        rfl
      omega
    · have hkey : e0.1.length = 16 := by
        rw [List.mem_singleton.1 he0]
        rfl
      omega
  · rw [List.length_map, List.length_append, List.length_singleton]
    exact Nat.add_le_add_right length_writeFilterBlock 1

theorem metaindex_ne_nil (hne : b.rangeDelBlock ≠ []) : b.metaindex crc ≠ [] := by
  rw [TableBuilder.metaindex, writeRangeDelBlock_eq hne, List.map_append]
  exact List.append_ne_nil_of_right_ne_nil _ (List.cons_ne_nil _ _)

theorem seek_rangeDel (hfits : b.Fits crc) (hne : b.rangeDelBlock ≠ []) :
    Block.seek (BlockBuilder.build b.options.blockRestartInterval (b.metaindex crc)) rangeDelKey =
      some (rangeDelKey, (b.rangeDelHandle crc).encode) := by
  obtain ⟨hentries, hlength⟩ := metaindex_fits hfits hne
  rw [Block.seek, entries_build hentries (by omega)]
  exact find_rangeDel hne

/-! ## Opening the table -/

/-- The handles of the three blocks that matter. -/
def TableBuilder.metaindexHandle (crc : Bytes → UInt32) (b : TableBuilder) : BlockHandle :=
  (b.writeMetaindex crc).2

def TableBuilder.indexHandle (crc : Bytes → UInt32) (b : TableBuilder) : BlockHandle :=
  (b.writeIndex crc).2

theorem readBlock_metaindex (verify : Bool)
    (hread : faults.block verify (b.metaindexHandle crc) = none) :
    readBlock crc faults (b.finish crc) verify (b.metaindexHandle crc) =
      .ok (BlockBuilder.build b.options.blockRestartInterval (b.metaindex crc)) := by
  rw [readBlock, hread]
  exact readStored_of_written verify prefix_metaindex

theorem readBlock_index (verify : Bool)
    (hread : faults.block verify (b.indexHandle crc) = none) :
    readBlock crc faults (b.finish crc) verify (b.indexHandle crc) =
      .ok (BlockBuilder.build 1 b.index) := by
  rw [readBlock, hread]
  exact readStored_of_written verify prefix_index

theorem readFooter (hfits : b.Fits crc) :
    Footer.decode (((b.finish crc).drop ((b.finish crc).length - Footer.kEncodedLength)).take
      Footer.kEncodedLength) = .ok (b.footer crc) := by
  have hlength := length_footer (b.footer crc)
  have htail : (b.finish crc).drop ((b.finish crc).length - Footer.kEncodedLength) =
      (b.footer crc).encode := by
    rw [TableBuilder.finish, List.length_append, hlength, Nat.add_sub_cancel, List.drop_left]
  rw [htail, ← hlength, List.take_length]
  exact decode_footer (fits_of_written hfits prefix_metaindex) (fits_of_written hfits prefix_index)

/-- The range-deletion block is read with its checksum, or the table is not opened. -/
theorem readRangeDel_eq (hfits : b.Fits crc) (hne : b.rangeDelBlock ≠ []) :
    readRangeDel crc faults (b.finish crc) (b.rangeDelHandle crc).encode =
      match faults.block true (b.rangeDelHandle crc) with
      | some _ => .error (.corruption "unreadable range-deletion block")
      | none => .ok b.rangeDelBlock := by
  have hprefix : (writeRawBlock crc b.rangeDelBlock (b.writeFilterBlock crc).1).1 <+:
      b.finish crc := by
    have h := @prefix_rangeDel crc b
    rwa [writeRangeDelBlock_eq hne] at h
  have hdecode := (reads_decode (fits_of_written hfits hprefix)).eq
  rw [show (writeRawBlock crc b.rangeDelBlock (b.writeFilterBlock crc).1).2 =
    b.rangeDelHandle crc from rfl] at hdecode
  simp only [readRangeDel, hdecode, readBlock]
  cases faults.block true (b.rangeDelHandle crc) with
  | some e => rfl
  | none =>
    show Except.mapError _ (readStored crc (b.finish crc) true (b.rangeDelHandle crc)) = _
    rw [show readStored crc (b.finish crc) true (b.rangeDelHandle crc) = .ok b.rangeDelBlock from
      readStored_of_written true hprefix]
    rfl

/-- What `ReadMeta` finds of the range-deletion block: nothing, if it cannot read the metaindex. -/
theorem readMeta_eq (hfits : b.Fits crc) (hne : b.rangeDelBlock ≠ []) :
    (readMeta crc options faults (b.finish crc) (b.footer crc)).2 =
      match faults.block options.paranoidChecks (b.metaindexHandle crc) with
      | some _ => .ok []
      | none =>
        match faults.block true (b.rangeDelHandle crc) with
        | some _ => .error (.corruption "unreadable range-deletion block")
        | none => .ok b.rangeDelBlock := by
  have hsize : ¬ (b.footer crc).metaindexHandle.size ≤ 8 :=
    not_le.2 (length_build (metaindex_fits hfits hne).1 (metaindex_ne_nil hne))
  rw [readMeta, if_neg hsize]
  cases hread : faults.block options.paranoidChecks (b.metaindexHandle crc) with
  | some e =>
    have herror : readBlock crc faults (b.finish crc) options.paranoidChecks
        (b.footer crc).metaindexHandle = .error e := by
      show readBlock crc faults (b.finish crc) options.paranoidChecks (b.metaindexHandle crc) = _
      rw [readBlock, hread]
    rw [herror]
  | none =>
    have hok : readBlock crc faults (b.finish crc) options.paranoidChecks
        (b.footer crc).metaindexHandle = _ := readBlock_metaindex options.paranoidChecks hread
    rw [hok]
    simp only [seek_rangeDel hfits hne, if_true]
    exact readRangeDel_eq hfits hne

/-- **What opening the table gives**: an error, or the range-deletion block; or the table without it,
where the metaindex block cannot be read. -/
theorem open_finish (hfits : b.Fits crc) :
    (Table.open crc options faults (b.finish crc) (b.finish crc).length).map (·.rangeDelBlock) =
      match faults.footer with
      | some e => .error e
      | none =>
        match faults.block options.paranoidChecks (b.indexHandle crc) with
        | some e => .error e
        | none => (readMeta crc options faults (b.finish crc) (b.footer crc)).2 := by
  have hsize : ¬ (b.finish crc).length < Footer.kEncodedLength := by
    rw [TableBuilder.finish, List.length_append, length_footer]
    omega
  rw [Table.open, if_neg hsize]
  cases faults.footer with
  | some e => rfl
  | none =>
    simp only [readFooter hfits]
    cases hread : faults.block options.paranoidChecks (b.indexHandle crc) with
    | some e =>
      have herror : readBlock crc faults (b.finish crc) options.paranoidChecks
          (b.footer crc).indexHandle = .error e := by
        show readBlock crc faults (b.finish crc) options.paranoidChecks (b.indexHandle crc) = _
        rw [readBlock, hread]
      rw [herror]
      rfl
    | none =>
      have hok : readBlock crc faults (b.finish crc) options.paranoidChecks
          (b.footer crc).indexHandle = _ := readBlock_index options.paranoidChecks hread
      rw [hok]
      cases (readMeta crc options faults (b.finish crc) (b.footer crc)).2 with
      | error e => rfl
      | ok block => rfl

/-! ## The tombstones of one table -/

/-- The file at this number is that of the builder, with these tombstones. -/
structure Written (crc : Bytes → UInt32) (disk : Disk) (number size : Nat) (b : TableBuilder)
    (ts : List (RangeTombstone Bytes)) : Prop where
  file : disk.file number = b.finish crc
  size : size = (b.finish crc).length
  rangeDelBlock : b.rangeDelBlock = if ts = [] then [] else encodeRangeTombstones ts
  fits : b.Fits crc
  tombstones : ∀ t ∈ ts, TombstoneFits t
  length : ts.length < 2 ^ 32

/-- Whatever the status, it is not OK with fewer tombstones. -/
def Lossless (ts : List (RangeTombstone Bytes)) (r : Except Error (List (RangeTombstone Bytes))) :
    Prop := ∀ got, r = .ok got → got = ts.map stored

/-- Where the footer and the index block can be read, so can the metaindex block. -/
def MetaReads (crc : Bytes → UInt32) (options : Options) (faults : Faults) (b : TableBuilder) :
    Prop :=
  faults.footer = none → faults.block options.paranoidChecks (b.indexHandle crc) = none →
    faults.block options.paranoidChecks (b.metaindexHandle crc) = none

theorem encode_ne_nil (ts : List (RangeTombstone Bytes)) : encodeRangeTombstones ts ≠ [] := by
  have hne : ∀ v, putVarint32 v ≠ [] := fun v => by
    rw [putVarint32, putVarint]
    split
    · exact List.cons_ne_nil _ _
    · exact List.cons_ne_nil _ _
  exact List.append_ne_nil_of_left_ne_nil (hne _) _

variable {disk : Disk} {number size : Nat} {cache : TableCache}

theorem Written.ne_nil (h : Written crc disk number size b ts) (hne : ts ≠ []) :
    b.rangeDelBlock ≠ [] := by
  rw [h.rangeDelBlock, if_neg hne]
  exact encode_ne_nil ts

/-- A table that has the block gives its tombstones. -/
theorem Written.getRangeTombstones (h : Written crc disk number size b ts) {t : Table}
    (ht : t.rangeDelBlock = b.rangeDelBlock) : t.getRangeTombstones = .ok (ts.map stored) := by
  rw [Table.getRangeTombstones, ht, h.rangeDelBlock]
  by_cases hts : ts = []
  · rw [if_pos hts, if_pos rfl, hts]
    rfl
  · rw [if_neg hts, if_neg (encode_ne_nil ts)]
    exact decode_encodeRangeTombstones h.tombstones h.length

theorem Written.open_map (h : Written crc disk number size b ts) (hne : ts ≠ []) :
    (Table.open crc options (disk.faults number) (disk.file number) size).map (·.rangeDelBlock) =
      match (disk.faults number).footer with
      | some e => .error e
      | none =>
        match (disk.faults number).block options.paranoidChecks (b.indexHandle crc) with
        | some e => .error e
        | none =>
          match (disk.faults number).block options.paranoidChecks (b.metaindexHandle crc) with
          | some _ => .ok []
          | none =>
            match (disk.faults number).block true (b.rangeDelHandle crc) with
            | some _ => .error (.corruption "unreadable range-deletion block")
            | none => .ok b.rangeDelBlock := by
  rw [h.file, h.size, open_finish h.fits, readMeta_eq h.fits (h.ne_nil hne)]

/-- Where the metaindex block can be read, a table that is opened has the block. -/
theorem Written.open_eq (h : Written crc disk number size b ts) (hne : ts ≠ [])
    (hreads : MetaReads crc options (disk.faults number) b) {t : Table}
    (hopen : Table.open crc options (disk.faults number) (disk.file number) size = .ok t) :
    t.rangeDelBlock = b.rangeDelBlock := by
  have heq := @Written.open_map crc options b ts disk number size h hne
  rw [hopen] at heq
  cases hfooter : (disk.faults number).footer with
  | some e =>
    rw [hfooter] at heq
    cases heq
  | none =>
    cases hindex : (disk.faults number).block options.paranoidChecks (b.indexHandle crc) with
    | some e =>
      rw [hfooter, hindex] at heq
      cases heq
    | none =>
      simp only [hfooter, hindex, hreads hfooter hindex] at heq
      cases hblock : (disk.faults number).block true (b.rangeDelHandle crc) with
      | some e =>
        rw [hblock] at heq
        cases heq
      | none =>
        rw [hblock] at heq
        exact Except.ok.inj heq

theorem findTable_of_lookup (hcache : cache.lookup number = none) :
    (cache.findTable crc options disk number size).1 =
      Table.open crc options (disk.faults number) (disk.file number) size := by
  rw [TableCache.findTable, hcache]
  cases Table.open crc options (disk.faults number) (disk.file number) size with
  | ok t => rfl
  | error e => rfl

theorem getRangeTombstones_of_lookup (hcache : cache.lookup number = none) :
    (cache.getRangeTombstones crc options disk number size).1 =
      (Table.open crc options (disk.faults number) (disk.file number) size).bind
        (·.getRangeTombstones) := by
  have hfind := @findTable_of_lookup crc options disk number size cache hcache
  rw [TableCache.getRangeTombstones, ← hfind]
  split
  · rename_i t c heq
    rw [heq]
    rfl
  · rename_i e c heq
    rw [heq]
    rfl

/-- **When no tombstone is lost silently**. -/
theorem lossless_iff_metaReads (h : Written crc disk number size b ts) (hne : ts ≠ [])
    (hcache : cache.lookup number = none) :
    Lossless ts (cache.getRangeTombstones crc options disk number size).1 ↔
      MetaReads crc options (disk.faults number) b := by
  rw [getRangeTombstones_of_lookup hcache]
  constructor
  · intro hlossless hfooter hindex
    apply Classical.byContradiction
    intro hunread
    obtain ⟨e, hmeta⟩ := Option.ne_none_iff_exists'.1 hunread
    have heq := @Written.open_map crc options b ts disk number size h hne
    simp only [hfooter, hindex, hmeta] at heq
    -- the table is opened, and shows no block
    obtain ⟨t, hopen, hblock⟩ : ∃ t, Table.open crc options (disk.faults number) (disk.file number)
        size = .ok t ∧ t.rangeDelBlock = [] := by
      cases hopen : Table.open crc options (disk.faults number) (disk.file number) size with
      | error e =>
        rw [hopen] at heq
        cases heq
      | ok t =>
        rw [hopen] at heq
        exact ⟨t, rfl, Except.ok.inj heq⟩
    have hnil := hlossless [] (by
      rw [hopen]
      show t.getRangeTombstones = .ok []
      rw [Table.getRangeTombstones, if_pos hblock])
    exact hne (List.map_eq_nil_iff.1 hnil.symm)
  · intro hreads got hgot
    cases hopen : Table.open crc options (disk.faults number) (disk.file number) size with
    | error e =>
      rw [hopen] at hgot
      cases hgot
    | ok t =>
      rw [hopen] at hgot
      have hts := h.getRangeTombstones (h.open_eq hne hreads hopen)
      exact (Except.ok.inj (hts.symm.trans hgot)).symm

/-! ## Who asks for tombstones -/

/-- The tables that are open have their range-deletion blocks. -/
def Sound (builder : Nat → TableBuilder) (cache : TableCache) : Prop :=
  ∀ number t, cache.lookup number = some t → t.rangeDelBlock = (builder number).rangeDelBlock

/-- A file with tombstones, whose metaindex block can be read if the footer and the index can. -/
structure Readable (crc : Bytes → UInt32) (options : Options) (disk : Disk)
    (builder : Nat → TableBuilder) (tombstones : Nat → List (RangeTombstone Bytes)) (f : Asked) :
    Prop where
  ne_nil : tombstones f.number ≠ []
  written : Written crc disk f.number f.fileSize (builder f.number) (tombstones f.number)
  reads : MetaReads crc options (disk.faults f.number) (builder f.number)

variable {builder : Nat → TableBuilder} {tombstones : Nat → List (RangeTombstone Bytes)} {f : Asked}

/-- A sound cache stays so, and gives tables that have their blocks. -/
theorem Sound.findTable (h : Sound builder cache)
    (hread : Readable crc options disk builder tombstones f) :
    Sound builder (cache.findTable crc options disk f.number f.fileSize).2 ∧
      ∀ t, (cache.findTable crc options disk f.number f.fileSize).1 = .ok t →
        t.rangeDelBlock = (builder f.number).rangeDelBlock := by
  rw [TableCache.findTable]
  split
  · rename_i t hlookup
    refine ⟨h, fun t' ht' => ?_⟩
    cases ht'
    exact h _ _ hlookup
  · cases hopen : Table.open crc options (disk.faults f.number) (disk.file f.number) f.fileSize with
    | error e => exact ⟨h, nofun⟩
    | ok t =>
      have hblock := hread.written.open_eq hread.ne_nil hread.reads hopen
      refine ⟨fun number t' ht' => ?_, fun t' ht' => ?_⟩
      · rw [List.lookup_cons] at ht'
        split at ht'
        · rename_i heq
          cases ht'
          rw [eq_of_beq heq]
          exact hblock
        · exact h number t' ht'
      · cases ht'
        exact hblock

theorem Sound.getRangeTombstones (h : Sound builder cache)
    (hread : Readable crc options disk builder tombstones f) :
    Sound builder (cache.getRangeTombstones crc options disk f.number f.fileSize).2 ∧
      Lossless (tombstones f.number)
        (cache.getRangeTombstones crc options disk f.number f.fileSize).1 := by
  obtain ⟨hsound, hblock⟩ := h.findTable hread
  rw [TableCache.getRangeTombstones]
  split
  · rename_i t c heq
    rw [heq] at hsound hblock
    refine ⟨hsound, fun got hgot => ?_⟩
    have hts := hread.written.getRangeTombstones (hblock t rfl)
    exact (Except.ok.inj (hts.symm.trans hgot)).symm
  · rename_i e c heq
    rw [heq] at hsound
    exact ⟨hsound, nofun⟩

/-- The tombstones of the files asked for. -/
def wanted (tombstones : Nat → List (RangeTombstone Bytes)) (files : List Asked) :
    List (RangeTombstone Bytes) :=
  files.flatMap fun f =>
    if f.hasRangeDels then (tombstones f.number).map fun t => { t with layer := f.layer } else []

/-- **Whoever asks gets all tombstones, or an error**. -/
theorem gather_lossless {files : List Asked} (h : Sound builder cache)
    (hread : ∀ f ∈ files, f.hasRangeDels = true →
      Readable crc options disk builder tombstones f) :
    Sound builder (gather crc options disk cache files).2 ∧
      ∀ got, (gather crc options disk cache files).1 = .ok got → got = wanted tombstones files := by
  induction files generalizing cache with
  | nil =>
    refine ⟨h, fun got hgot => ?_⟩
    cases hgot
    rfl
  | cons f files ih =>
    have hrest := fun f' hf' => hread f' (List.mem_cons_of_mem f hf')
    rw [gather, wanted, List.flatMap_cons]
    split
    · rename_i hnone
      rw [hnone]
      exact ih h hrest
    · rename_i hsome
      have hhas := Bool.eq_true_of_not_eq_false hsome
      obtain ⟨hsound, hlossless⟩ := h.getRangeTombstones (hread f List.mem_cons_self hhas)
      split
      · rename_i e c heq
        rw [heq] at hsound
        exact ⟨hsound, nofun⟩
      · rename_i ts c heq
        rw [heq] at hsound hlossless
        obtain ⟨hsound', hgot'⟩ := ih hsound hrest
        refine ⟨hsound', fun got hgot => ?_⟩
        cases hcase : (gather crc options disk c files).1 with
        | error e =>
          simp only [hcase] at hgot
          cases hgot
        | ok rest =>
          simp only [hcase] at hgot
          cases hgot
          rw [hhas, if_pos rfl, hlossless ts rfl, List.map_map, hgot' rest hcase]
          rfl

/-- **Tombstones are not lost silently**, for the files with tombstones that a read or a compaction
asks for, whatever cannot be read: a table that has to be opened gives an error or all of its tombstones
exactly if its metaindex block can be read once its footer and its index block have been; and where
this holds of each, whoever asks for all of them gets an error or all of them. -/
theorem tombstones_iff {files : List Asked} (h : Sound builder cache)
    (hfiles : ∀ f ∈ files, f.hasRangeDels = true → tombstones f.number ≠ [] ∧
      Written crc disk f.number f.fileSize (builder f.number) (tombstones f.number)) :
    (∀ f ∈ files, f.hasRangeDels = true → cache.lookup f.number = none →
      (Lossless (tombstones f.number)
          (cache.getRangeTombstones crc options disk f.number f.fileSize).1 ↔
        MetaReads crc options (disk.faults f.number) (builder f.number))) ∧
    ((∀ f ∈ files, f.hasRangeDels = true →
        MetaReads crc options (disk.faults f.number) (builder f.number)) →
      ∀ got, (gather crc options disk cache files).1 = .ok got → got = wanted tombstones files) := by
  constructor
  · intro f hf hhas hcache
    obtain ⟨hne, hwritten⟩ := hfiles f hf hhas
    exact lossless_iff_metaReads hwritten hne hcache
  · intro hreads
    refine (gather_lossless h fun f hf hhas => ?_).2
    obtain ⟨hne, hwritten⟩ := hfiles f hf hhas
    exact ⟨hne, hwritten, hreads f hf hhas⟩

section
variable {V : Type} [LinearOrder Bytes]

/-- The metadata says what the file holds, and the file is readable. -/
def Described (crc : Bytes → UInt32) (options : Options) (disk : Disk)
    (builder : Nat → TableBuilder) (tombstones : Nat → List (RangeTombstone Bytes)) (layer : Nat)
    (f : FileMetaData Bytes V) : Prop :=
  f.tombstones = tombstones f.number ∧
    (f.hasRangeDels = true → Readable crc options disk builder tombstones (askedFor layer f))

variable {v : Version Bytes V}

/-- A version's tombstones are all read, or none are. -/
theorem readRangeTombstones_lossless (h : Sound builder cache)
    (hv : ∀ level, ∀ f ∈ v.files level,
      Described crc options disk builder tombstones (v.layerOf level f) f) :
    Sound builder (Version.readRangeTombstones crc options disk v cache).2 ∧
      ∀ got, (Version.readRangeTombstones crc options disk v cache).1 = .ok got →
        got = v.getRangeTombstones := by
  have hgather := @gather_lossless crc options disk cache builder tombstones
    ((List.range kNumLevels).flatMap fun level =>
      (v.files level).map fun f => askedFor (v.layerOf level f) f) h (fun f hf hhas => by
    obtain ⟨level, -, hf⟩ := List.mem_flatMap.1 hf
    obtain ⟨f0, hf0, rfl⟩ := List.mem_map.1 hf
    exact (hv level f0 hf0).2 hhas)
  refine ⟨hgather.1, fun got hgot => ?_⟩
  rw [hgather.2 got hgot, wanted, List.flatMap_assoc, LevelDb.Version.getRangeTombstones]
  refine List.flatMap_congr fun level _ => ?_
  rw [List.flatMap_map]
  refine List.flatMap_congr fun f hf => ?_
  rw [(hv level f hf).1]
  rfl

/-- So are those of a compaction's inputs. -/
theorem readInputTombstones_lossless {c : Compaction Bytes V} (h : Sound builder cache)
    (hc : ∀ f ∈ c.inputs, Described crc options disk builder tombstones 0 f) :
    ∀ got, (Compaction.readInputTombstones crc options disk c cache).1 = .ok got →
      got = c.inputTombstones := by
  intro got hgot
  have hgather := @gather_lossless crc options disk cache builder tombstones
    (c.inputs.map (askedFor 0)) h (fun f hf hhas => by
    obtain ⟨f0, hf0, rfl⟩ := List.mem_map.1 hf
    exact (hc f0 hf0).2 hhas)
  rw [hgather.2 got hgot, wanted, List.flatMap_map, LevelDb.Compaction.inputTombstones]
  refine List.flatMap_congr fun f hf => ?_
  rw [(hc f hf).1]
  rfl

/-- What is cached for a version. -/
def RangeDelCache.of (v : Version Bytes V) (id : Nat) : RangeDelCache :=
  ⟨id, v.hasRangeDels,
    if v.hasRangeDels then some (.ofTombstones v.getRangeTombstones) else none⟩

/-- **A read sees all tombstones of its version**, or gets an error, which is not cached. -/
theorem rangeDelsLocked_lossless {id : Nat} {c : RangeDelCache} (h : Sound builder cache)
    (hid : id ≠ 0) (hvalid : c.versionId = id → c = .of v id)
    (hv : ∀ level, ∀ f ∈ v.files level,
      Described crc options disk builder tombstones (v.layerOf level f) f) :
    (∀ got, (rangeDelsLocked crc options disk v id c cache).1 = .ok got → got = .of v id) ∧
      ((rangeDelsLocked crc options disk v id c cache).2.1.versionId = id →
        (rangeDelsLocked crc options disk v id c cache).2.1 = .of v id) := by
  obtain ⟨-, hread⟩ := readRangeTombstones_lossless h hv
  rw [rangeDelsLocked]
  split
  · rename_i hsame
    exact ⟨fun got hgot => Except.ok.inj hgot ▸ hvalid hsame, hvalid⟩
  · split
    · rename_i hhas
      split
      · refine ⟨nofun, fun hzero => ?_⟩
        exact absurd hzero.symm hid
      · rename_i all cache' heq
        have hall := hread all (by rw [heq])
        have hof : (⟨id, true, some (.ofTombstones all)⟩ : RangeDelCache) = .of v id := by
          rw [RangeDelCache.of, hhas, if_pos rfl, hall]
        exact ⟨fun got hgot => (Except.ok.inj hgot).symm.trans hof, fun _ => hof⟩
    · rename_i hnone
      have hof : (⟨id, false, none⟩ : RangeDelCache) = .of v id := by
        rw [RangeDelCache.of, if_neg hnone, Bool.eq_false_of_not_eq_true hnone]
      exact ⟨fun got hgot => (Except.ok.inj hgot).symm.trans hof, fun _ => hof⟩

end

/-! ## Two openings -/

/-- A table with one tombstone and nothing else. -/
def sampleTombstones : List (RangeTombstone Bytes) := [⟨ascii "a", ascii "c", 5, 0⟩]

def sampleBuilder : TableBuilder where
  options := ⟨16, none, true⟩
  file := []
  filterBlock := []
  rangeDelBlock := encodeRangeTombstones sampleTombstones
  index := []

def sampleDisk (faults : Faults) : Disk :=
  ⟨fun _ => sampleBuilder.finish fun _ => 0, fun _ => faults⟩

theorem written_sampleDisk (faults : Faults) :
    Written (fun _ => 0) (sampleDisk faults) 7 (sampleBuilder.finish fun _ => 0).length
      sampleBuilder sampleTombstones := by
  refine ⟨rfl, rfl, rfl, ⟨by decide +kernel, nofun⟩, fun t ht => ?_, by decide⟩
  rw [List.mem_singleton.1 ht]
  exact ⟨by decide, by decide, by decide⟩

def sampleFile : Asked := ⟨2, 7, (sampleBuilder.finish fun _ => 0).length, true⟩

/-- The filter block cannot be read, nor any other that the table does not have. -/
def sampleFaults : Faults :=
  ⟨none, fun _ h => if h.size = 0 then some .ioError else none⟩

theorem tombstones_iff_sampleFile :
    (gather (fun _ => 0) sampleBuilder.options (sampleDisk sampleFaults) [] [sampleFile]).1 =
        .ok (wanted (fun _ => sampleTombstones) [sampleFile]) ∧
      Lossless sampleTombstones (TableCache.getRangeTombstones (fun _ => 0) sampleBuilder.options
        (sampleDisk sampleFaults) [] 7 sampleFile.fileSize).1 := by
  have hreads : MetaReads (fun _ => 0) sampleBuilder.options sampleFaults sampleBuilder :=
    fun _ _ => by decide +kernel
  have hall := @tombstones_iff (fun _ => 0) sampleBuilder.options (sampleDisk sampleFaults) []
    (fun _ => sampleBuilder) (fun _ => sampleTombstones) [sampleFile] (fun _ _ => nofun)
    fun f hf _ => by
      rw [List.mem_singleton.1 hf]
      exact ⟨by decide, written_sampleDisk sampleFaults⟩
  refine ⟨?_, (hall.1 sampleFile (List.mem_singleton_self _) rfl rfl).2 hreads⟩
  obtain ⟨got, hgot⟩ : ∃ got, (gather (fun _ => 0) sampleBuilder.options (sampleDisk sampleFaults) []
      [sampleFile]).1 = .ok got := ⟨_, by rfl⟩
  rw [hgot, hall.2 (fun f hf _ => (List.mem_singleton.1 hf) ▸ hreads) got hgot]

/-- **The metaindex block cannot be read**: the status is OK, and the tombstone is lost. -/
theorem not_lossless : ¬ ∀ (crc : Bytes → UInt32) (options : Options) (disk : Disk)
    (cache : TableCache) (number size : Nat) (b : TableBuilder)
    (ts : List (RangeTombstone Bytes)), Written crc disk number size b ts → ts ≠ [] →
      cache.lookup number = none →
        Lossless ts (cache.getRangeTombstones crc options disk number size).1 := by
  intro hall
  let faults : Faults := ⟨none, fun _ h =>
    if h = sampleBuilder.metaindexHandle (fun _ => 0) then some .ioError else none⟩
  have hlossless := hall (fun _ => 0) sampleBuilder.options (sampleDisk faults) [] 7 _ sampleBuilder
    sampleTombstones (written_sampleDisk faults) (by decide) rfl
  have hempty := hlossless [] (by decide +kernel)
  cases hempty

end LevelDb.Sstable
