import LevelDb.Db.Blocks

/-!
# Blocks are read back

Each code of a table file is read back as what was written: handles and the footer, the blocks in the
file, the entries in a block, and range tombstones.
-/

namespace LevelDb.Sstable

open Coding

/-! ## Handles and the footer -/

def BlockHandle.Fits (h : BlockHandle) : Prop := h.offset < 2 ^ 64 ∧ h.size < 2 ^ 64

theorem reads_decode {h : BlockHandle} (hfits : h.Fits) : Reads BlockHandle.decode h.encode h :=
  (reads_getVarint64 hfits.1).bind ((reads_getVarint64 hfits.2).bind_pure _)

theorem length_encode_le (h : BlockHandle) : h.encode.length ≤ 20 := by
  have hoffset := @length_putVarint_le 10 h.offset
  have hsize := @length_putVarint_le 10 h.size
  rw [BlockHandle.encode, List.length_append]
  exact Nat.add_le_add hoffset hsize

theorem length_resize (n : Nat) (bs : Bytes) : (resize n bs).length = n := by
  rw [resize, List.length_append, List.length_take, List.length_replicate]
  omega

theorem length_footer (f : Footer) : f.encode.length = Footer.kEncodedLength := by
  rw [Footer.encode, List.length_append, length_resize, length_putFixed]
  rfl

/-- **The footer is read back.** -/
theorem decode_footer {f : Footer} (hm : f.metaindexHandle.Fits) (hi : f.indexHandle.Fits) :
    Footer.decode f.encode = .ok f := by
  have hle : (f.metaindexHandle.encode ++ f.indexHandle.encode).length ≤ 40 := by
    have h1 := length_encode_le f.metaindexHandle
    have h2 := length_encode_le f.indexHandle
    rw [List.length_append]
    omega
  have hmagic : getFixed 8 (f.encode.drop 40) = kTableMagicNumber := by
    rw [Footer.encode, List.drop_left' (length_resize 40 _)]
    have h := @getFixed_putFixed 8 kTableMagicNumber (by decide) []
    rwa [List.append_nil] at h
  have hreads : Reads (BlockHandle.decode.bind fun m => BlockHandle.decode.bind fun i =>
      Reader.pure (⟨m, i⟩ : Footer)) (f.metaindexHandle.encode ++ f.indexHandle.encode) f :=
    (reads_decode hm).bind ((reads_decode hi).bind_pure _)
  rw [Footer.decode, if_neg (not_not_intro hmagic)]
  rw [Footer.encode, resize, List.take_of_length_le hle, List.append_assoc, hreads]

/-! ## Blocks in the file -/

/-- **A block is read back** from where it was written. -/
theorem readStored_writeRawBlock (crc : Bytes → UInt32) (contents file rest : Bytes)
    (verify : Bool) :
    readStored crc ((writeRawBlock crc contents file).1 ++ rest) verify
      (writeRawBlock crc contents file).2 = .ok contents := by
  have htrailer : ((0 : UInt8) :: putFixed 4 (crc (contents ++ [0])).toNat).length =
      kBlockTrailerSize := by
    rw [List.length_cons, length_putFixed]
    rfl
  have hstored : (((writeRawBlock crc contents file).1 ++ rest).drop file.length).take
      (contents.length + kBlockTrailerSize) =
      contents ++ 0 :: putFixed 4 (crc (contents ++ [0])).toNat := by
    rw [writeRawBlock, List.append_assoc, List.drop_left, List.take_left']
    rw [List.length_append, htrailer]
  have hlength : (contents ++ (0 : UInt8) :: putFixed 4 (crc (contents ++ [0])).toNat).length =
      contents.length + kBlockTrailerSize := by
    rw [List.length_append, htrailer]
  have hcut : contents ++ (0 : UInt8) :: putFixed 4 (crc (contents ++ [0])).toNat =
      (contents ++ [0]) ++ putFixed 4 (crc (contents ++ [0])).toNat := by
    rw [List.append_assoc, List.singleton_append]
  have hcrc : getFixed 4 ((contents ++ (0 : UInt8) ::
      putFixed 4 (crc (contents ++ [0])).toNat).drop (contents.length + 1)) =
      (crc ((contents ++ (0 : UInt8) :: putFixed 4 (crc (contents ++ [0])).toNat).take
        (contents.length + 1))).toNat := by
    have hone : (contents ++ [(0 : UInt8)]).length = contents.length + 1 := List.length_append
    rw [hcut, List.drop_left' hone, List.take_left' hone]
    have h := @getFixed_putFixed 4 (crc (contents ++ [0])).toNat (UInt32.toNat_lt _) []
    rwa [List.append_nil] at h
  have htype : (contents ++ (0 : UInt8) :: putFixed 4 (crc (contents ++ [0])).toNat)[
      contents.length]? = some 0 := by
    rw [List.getElem?_append_right le_rfl, Nat.sub_self]
    rfl
  simp only [readStored]
  rw [show (writeRawBlock crc contents file).2 = ⟨file.length, contents.length⟩ from rfl]
  simp only [hstored]
  rw [if_neg (not_not_intro hlength), if_neg (fun h => h.2 hcrc), if_pos htype, List.take_left]

/-! ## Keys and values -/

open BlockBuilder Block

theorem sharedLength_le (a b : Bytes) :
    sharedLength a b ≤ a.length ∧ sharedLength a b ≤ b.length ∧
      a.take (sharedLength a b) = b.take (sharedLength a b) := by
  induction a generalizing b with
  | nil =>
    rw [sharedLength]
    · exact ⟨le_rfl, Nat.zero_le _, rfl⟩
    · exact nofun
  | cons x as ih =>
    cases b with
    | nil => exact ⟨Nat.zero_le _, le_rfl, rfl⟩
    | cons y bs =>
      rw [sharedLength]
      split
      · rename_i heq
        obtain ⟨h1, h2, h3⟩ := ih bs
        refine ⟨Nat.succ_le_succ h1, Nat.succ_le_succ h2, ?_⟩
        rw [List.take_succ_cons, List.take_succ_cons, heq, h3]
      · exact ⟨Nat.zero_le _, Nat.zero_le _, rfl⟩

/-- A key and its value together are shorter than 4 GiB. -/
def EntryFits (entry : Bytes × Bytes) : Prop := entry.1.length + entry.2.length < 2 ^ 32

/-- An entry is read back after the key it was written after. -/
theorem reads_decodeEntry {lastKey : Bytes} {entry : Bytes × Bytes} {shared : Nat}
    (hfits : EntryFits entry) (hle : shared ≤ lastKey.length) (hle' : shared ≤ entry.1.length)
    (hsame : lastKey.take shared = entry.1.take shared) :
    Reads (decodeEntry lastKey) (encodeEntry shared entry.1 entry.2) entry := by
  have hlt : entry.1.length + entry.2.length < 2 ^ 32 := hfits
  refine (reads_getVarint32 (by omega)).bind ((reads_getVarint32 (by omega)).bind
    ((reads_getVarint32 (by omega)).bind fun rest => ?_))
  have hdrop : (entry.1.drop shared).length = entry.1.length - shared := List.length_drop
  rw [Nat.mod_eq_of_lt (by omega), if_neg, hsame, List.append_assoc, List.take_left' hdrop,
    List.drop_left' hdrop, List.take_left, List.take_append_drop, ← List.append_assoc,
    List.drop_left']
  · rw [List.length_append, hdrop]
  · rw [List.length_append, List.length_append, hdrop]
    omega

theorem encodeEntry_ne_nil (shared : Nat) (key value : Bytes) : encodeEntry shared key value ≠ [] := by
  have hne : putVarint32 shared ≠ [] := by
    rw [putVarint32, putVarint]
    split
    · exact List.cons_ne_nil _ _
    · exact List.cons_ne_nil _ _
  exact List.append_ne_nil_of_left_ne_nil hne _

/-- What a builder adds to its buffer is parsed as the entries. -/
theorem exists_parse (interval : Nat) {es : List (Bytes × Bytes)} (hfits : ∀ e ∈ es, EntryFits e)
    (b : BlockBuilder) : ∃ tail, (es.foldl (add interval) b).buffer = b.buffer ++ tail ∧
      ∀ n, tail.length ≤ n → parse n b.lastKey tail = es := by
  induction es generalizing b with
  | nil =>
    refine ⟨[], (List.append_nil _).symm, fun n _ => ?_⟩
    cases n with
    | zero => rfl
    | succ n => rfl
  | cons entry es ih =>
    obtain ⟨tail, hbuffer, hparse⟩ := ih (fun e he => hfits e (List.mem_cons_of_mem entry he))
      (b.add interval entry)
    -- how much is shared with the key before
    obtain ⟨shared, hadd, hle, hle', hsame⟩ : ∃ shared,
        (b.add interval entry).buffer = b.buffer ++ encodeEntry shared entry.1 entry.2 ∧
        shared ≤ b.lastKey.length ∧ shared ≤ entry.1.length ∧
        b.lastKey.take shared = entry.1.take shared := by
      refine ⟨_, rfl, ?_⟩
      split
      · exact ⟨Nat.zero_le _, Nat.zero_le _, rfl⟩
      · exact sharedLength_le _ _
    have hread := reads_decodeEntry (hfits entry List.mem_cons_self) hle hle' hsame tail
    refine ⟨encodeEntry shared entry.1 entry.2 ++ tail, ?_, fun n hn => ?_⟩
    · rw [List.foldl_cons, hbuffer, hadd, List.append_assoc]
    · have hne := encodeEntry_ne_nil shared entry.1 entry.2
      have hpos := List.length_pos_of_ne_nil hne
      rw [List.length_append] at hn
      cases n with
      | zero => omega
      | succ n =>
        rw [parse, if_neg (List.append_ne_nil_of_left_ne_nil hne tail), hread]
        exact congrArg _ (hparse n (by omega))

theorem length_restarts (interval : Nat) (es : List (Bytes × Bytes)) (b : BlockBuilder) :
    b.restarts.length ≤ (es.foldl (add interval) b).restarts.length ∧
      (es.foldl (add interval) b).restarts.length ≤ b.restarts.length + es.length := by
  induction es generalizing b with
  | nil => exact ⟨le_rfl, le_rfl⟩
  | cons entry es ih =>
    obtain ⟨h1, h2⟩ := ih (b.add interval entry)
    have hadd : b.restarts.length ≤ (b.add interval entry).restarts.length ∧
        (b.add interval entry).restarts.length ≤ b.restarts.length + 1 := by
      show b.restarts.length ≤ (if interval ≤ b.counter then b.restarts ++ [b.buffer.length]
        else b.restarts).length ∧ (if interval ≤ b.counter then b.restarts ++ [b.buffer.length]
        else b.restarts).length ≤ b.restarts.length + 1
      split
      · rw [List.length_append, List.length_singleton]
        exact ⟨Nat.le_succ _, le_rfl⟩
      · exact ⟨le_rfl, Nat.le_succ _⟩
    rw [List.foldl_cons, List.length_cons]
    omega

theorem length_flatMap_putFixed (rs : List Nat) :
    (rs.flatMap (putFixed 4)).length = 4 * rs.length := by
  induction rs with
  | nil => rfl
  | cons r rs ih =>
    rw [List.flatMap_cons, List.length_append, ih, length_putFixed, List.length_cons]
    omega

theorem length_finish (b : BlockBuilder) :
    b.finish.length = b.buffer.length + (4 * b.restarts.length + 4) := by
  rw [finish, List.length_append, List.length_append, length_flatMap_putFixed, length_putFixed]

/-- A block with an entry is longer than an empty one. -/
theorem length_build {interval : Nat} {es : List (Bytes × Bytes)} (hfits : ∀ e ∈ es, EntryFits e)
    (hne : es ≠ []) : 8 < (build interval es).length := by
  obtain ⟨tail, hbuffer, hparse⟩ := exists_parse interval hfits BlockBuilder.empty
  have hrestarts : 1 ≤ _ := (length_restarts interval es BlockBuilder.empty).1
  have htail : tail ≠ [] := by
    rintro rfl
    exact hne (hparse 0 le_rfl).symm
  have hpos := List.length_pos_of_ne_nil htail
  rw [build, length_finish, hbuffer, List.length_append]
  omega

/-- **The entries of a block are read back.** -/
theorem entries_build {interval : Nat} {es : List (Bytes × Bytes)} (hfits : ∀ e ∈ es, EntryFits e)
    (hlength : es.length + 1 < 2 ^ 32) : entries (build interval es) = es := by
  obtain ⟨tail, hbuffer, hparse⟩ := exists_parse interval hfits BlockBuilder.empty
  obtain ⟨hpos, hle⟩ := length_restarts interval es BlockBuilder.empty
  rw [build, finish]
  generalize es.foldl (add interval) BlockBuilder.empty = b at hbuffer hpos hle
  have hone : BlockBuilder.empty.restarts.length = 1 := rfl
  have hrestarts := length_flatMap_putFixed b.restarts
  have htotal := length_finish b
  rw [finish] at htotal
  have hnum : getFixed 4 ((b.buffer ++ (b.restarts.flatMap (putFixed 4) ++
      putFixed 4 b.restarts.length)).drop (b.buffer.length + 4 * b.restarts.length)) =
      b.restarts.length := by
    rw [← List.append_assoc, List.drop_left' (by rw [List.length_append, hrestarts])]
    have h := @getFixed_putFixed 4 b.restarts.length (by omega) []
    rwa [List.append_nil] at h
  have hempty : BlockBuilder.empty.buffer = [] := rfl
  rw [hempty, List.nil_append] at hbuffer
  simp only [entries]
  rw [htotal, show b.buffer.length + (4 * b.restarts.length + 4) - 4 =
    b.buffer.length + 4 * b.restarts.length by omega, hnum, if_neg (by omega),
    show b.buffer.length + (4 * b.restarts.length + 4) - (1 + b.restarts.length) * 4 =
      b.buffer.length by omega, List.take_left, hbuffer]
  exact hparse _ (Nat.le_add_right _ _)

/-! ## Range tombstones -/

/-- Keys shorter than 4 GiB, and a 64-bit sequence number. -/
def TombstoneFits (t : RangeTombstone Bytes) : Prop :=
  t.beginKey.length < 2 ^ 32 ∧ t.endKey.length < 2 ^ 32 ∧ t.seq < 2 ^ 64

/-- Without the layer, which is not stored. -/
def stored (t : RangeTombstone Bytes) : RangeTombstone Bytes := { t with layer := 0 }

theorem reads_getTombstone {t : RangeTombstone Bytes} (h : TombstoneFits t) :
    Reads getTombstone (putTombstone t) (stored t) :=
  (reads_getLengthPrefixed h.1).bind
    ((reads_getLengthPrefixed h.2.1).bind ((reads_getVarint64 h.2.2).bind_pure _))

theorem local_getTombstone : getTombstone.Local :=
  parses_getLengthPrefixed.local.bind fun _ => parses_getLengthPrefixed.local.bind fun _ =>
    parses_getVarint64.local.bind fun _ => .pure _

/-- The loop appends what the reader reads, or stops at what it cannot read. -/
theorem appendTombstones_eq (n : Nat) (bs : Bytes) (t : List (RangeTombstone Bytes)) :
    (∃ ts rest, getTombstone.many n bs = some (ts, rest) ∧
      appendTombstones n bs t = (true, t ++ ts)) ∨
    (getTombstone.many n bs = none ∧ (appendTombstones n bs t).1 = false) := by
  induction n generalizing bs t with
  | zero => exact .inl ⟨[], bs, rfl, by rw [appendTombstones, List.append_nil]⟩
  | succ n ih =>
    rw [Reader.many, Reader.bind, appendTombstones]
    cases getTombstone bs with
    | none => exact .inr ⟨rfl, rfl⟩
    | some x =>
      obtain ⟨r, mid⟩ := x
      dsimp only
      rw [Reader.bind]
      obtain ⟨ts, rest, hmany, hloop⟩ | ⟨hmany, hloop⟩ := ih mid (t ++ [r])
      · refine .inl ⟨r :: ts, rest, ?_, ?_⟩
        · rw [hmany]
          rfl
        · rw [hloop, List.append_assoc, List.singleton_append]
      · exact .inr ⟨by rw [hmany], hloop⟩

/-- The reader of a block: a count, and so many tombstones. -/
def getTombstones : Reader (List (RangeTombstone Bytes)) := getVarint32.bind getTombstone.many

/-- What the reader reads is appended. -/
theorem decodeRangeTombstonesInto_of_some {src rest : Bytes} {ts : List (RangeTombstone Bytes)}
    (h : getTombstones src = some (ts, rest)) (t : List (RangeTombstone Bytes)) :
    decodeRangeTombstonesInto src t = (.ok (), t ++ ts) := by
  rw [getTombstones, Reader.bind] at h
  rw [decodeRangeTombstonesInto]
  cases hn : getVarint32 src with
  | none =>
    rw [hn] at h
    cases h
  | some x =>
    obtain ⟨n, bs⟩ := x
    rw [hn] at h
    dsimp only at h ⊢
    obtain ⟨ts', rest', hmany, hloop⟩ | ⟨hmany, -⟩ := appendTombstones_eq n bs t
    · rw [hmany] at h
      cases h
      rw [hloop]
    · rw [hmany] at h
      cases h

/-- What the reader cannot read is refused. -/
theorem decodeRangeTombstonesInto_of_none {src : Bytes} (h : getTombstones src = none)
    (t : List (RangeTombstone Bytes)) :
    (decodeRangeTombstonesInto src t).1 = .error (.corruption "bad range-deletion block") := by
  rw [getTombstones, Reader.bind] at h
  rw [decodeRangeTombstonesInto]
  cases hn : getVarint32 src with
  | none => rfl
  | some x =>
    obtain ⟨n, bs⟩ := x
    rw [hn] at h
    dsimp only at h ⊢
    obtain ⟨ts, rest, hmany, -⟩ | ⟨-, hloop⟩ := appendTombstones_eq n bs t
    · rw [hmany] at h
      cases h
    · generalize appendTombstones n bs t = x at hloop
      obtain ⟨ok, t'⟩ := x
      dsimp only at hloop
      rw [hloop]

theorem reads_getTombstones {ts : List (RangeTombstone Bytes)} (hfits : ∀ t ∈ ts, TombstoneFits t)
    (hlength : ts.length < 2 ^ 32) :
    Reads getTombstones (encodeRangeTombstones ts) (ts.map stored) := by
  rw [encodeRangeTombstones, Nat.mod_eq_of_lt hlength]
  exact (reads_getVarint32 hlength).bind (Reads.many fun t ht => reads_getTombstone (hfits t ht))

/-- **Range tombstones are read back.** -/
theorem decode_encodeRangeTombstones {ts : List (RangeTombstone Bytes)}
    (hfits : ∀ t ∈ ts, TombstoneFits t) (hlength : ts.length < 2 ^ 32) :
    decodeRangeTombstones (encodeRangeTombstones ts) = .ok (ts.map stored) := by
  rw [decodeRangeTombstones,
    decodeRangeTombstonesInto_of_some (reads_getTombstones hfits hlength).eq, List.nil_append]
  rfl

/-- **The codec loses nothing.** All the tombstones are appended in order, and what is cut short is
refused. -/
theorem codec_lossless {ts : List (RangeTombstone Bytes)} (hfits : ∀ t ∈ ts, TombstoneFits t)
    (hlength : ts.length < 2 ^ 32) (t : List (RangeTombstone Bytes)) :
    decodeRangeTombstonesInto (encodeRangeTombstones ts) t = (.ok (), t ++ ts.map stored) ∧
      ∀ front back, front ++ back = encodeRangeTombstones ts → back ≠ [] →
        (decodeRangeTombstonesInto front t).1 =
          .error (.corruption "bad range-deletion block") := by
  have hreads := reads_getTombstones hfits hlength
  constructor
  · exact decodeRangeTombstonesInto_of_some hreads.eq t
  · -- a block that was cut short is not taken for a smaller one
    intro front back hcut hback
    have hlocal : getTombstones.Local := parses_getVarint32.local.bind local_getTombstone.many
    rw [← hcut] at hreads
    exact decodeRangeTombstonesInto_of_none (hreads.none_of_cut hlocal hback) t

/-- A tombstone onto another, read back and cut after each byte. -/
theorem codec_lossless_sample :
    TombstoneFits ⟨[97], [98], 300, 0⟩ ∧
      decodeRangeTombstonesInto (encodeRangeTombstones [⟨[97], [98], 300, 0⟩]) [⟨[0], [1], 2, 0⟩] =
        (.ok (), [⟨[0], [1], 2, 0⟩, ⟨[97], [98], 300, 0⟩]) ∧
      (decodeRangeTombstonesInto [1, 1, 97, 1, 98, 172] []).1 =
        .error (.corruption "bad range-deletion block") := by
  have hfits : TombstoneFits ⟨[97], [98], 300, 0⟩ := by
    unfold TombstoneFits
    decide
  have hall : ∀ t ∈ [(⟨[97], [98], 300, 0⟩ : RangeTombstone Bytes)], TombstoneFits t := by
    intro t ht
    cases List.mem_singleton.1 ht
    exact hfits
  refine ⟨hfits, (codec_lossless hall (by decide) _).1, ?_⟩
  exact (codec_lossless hall (by decide) []).2 _ [2] (by decide) (by decide)

/-- The length of a key of a multiple of 4 GiB is written as 0, and its bytes are read as what comes
next. -/
theorem decode_of_long {n : Nat} (hn : (n + 2) % 2 ^ 32 = 0) :
    decodeRangeTombstonesInto (encodeRangeTombstones [⟨List.replicate (n + 2) 0, [], 1, 0⟩]) [] =
      (.ok (), [⟨[], [], 0, 0⟩]) := by
  rw [encodeRangeTombstones, List.flatMap_cons, putTombstone, putLengthPrefixed,
    List.length_replicate, hn, List.replicate_succ, List.replicate_succ]
  rfl

theorem not_codec_lossless :
    ¬ ∀ (ts t : List (RangeTombstone Bytes)), ts.length < 2 ^ 32 → (∀ r ∈ ts, r.seq < 2 ^ 64) →
      decodeRangeTombstonesInto (encodeRangeTombstones ts) t = (.ok (), t ++ ts.map stored) := by
  intro h
  -- the length of the key stays a variable, which nothing evaluates
  obtain ⟨n, hn⟩ : ∃ n, (n + 2) % 2 ^ 32 = 0 := ⟨2 ^ 32 - 2, by decide⟩
  have hlong := h [⟨List.replicate (n + 2) 0, [], 1, 0⟩] [] (by simp) (by simp)
  rw [decode_of_long hn] at hlong
  simp [stored, List.replicate_succ] at hlong

end LevelDb.Sstable
