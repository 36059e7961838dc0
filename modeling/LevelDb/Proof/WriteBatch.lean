import LevelDb.Db.WriteBatch
import LevelDb.Proof.RangeDels
import Mathlib.Data.Finset.Dedup
import Mathlib.Data.Finset.Lattice.Lemmas

/-!
# Write batches: what is read back is what was written

* `Build.batch_eq`: the bytes of a batch, however it was built, are a header and the codes of its
  records in order.
* `iterateLoop_codes`, `iterateLoop_ok`: the loop of `Iterate` goes through codes of the grammar,
  reports each record, and fails on everything else.
* `Build.iterate_eq`, `foldl_putDelete`, `Inserter.foldl_report`, `Scanner.foldl_report`: what a handler
  sees, what the memtables get and what a scan finds.
-/

namespace LevelDb

open Coding

/-- A record that erases nothing. -/
def Record.EmptyRange {K V : Type} [LinearOrder K] : Record K V → Prop
  | .deleteRange beginKey endKey => endKey ≤ beginKey
  | _ => False

instance {K V : Type} [LinearOrder K] (r : Record K V) : Decidable r.EmptyRange :=
  match r with
  | .put _ _ => instDecidableFalse
  | .delete _ => instDecidableFalse
  | .merge _ _ => instDecidableFalse
  | .deleteRange beginKey endKey => decidable_of_iff (endKey ≤ beginKey) Iff.rfl

theorem MemTable.addRecord_emptyRange {K V : Type} [LinearOrder K] [Inhabited V] {m : MemTable K V}
    {seq : Nat} {r : Record K V} (h : r.EmptyRange) : m.addRecord seq r = m := by
  cases r with
  | deleteRange beginKey endKey =>
    rw [addRecord, addRange]
    exact dif_pos h
  | _ => exact h.elim

namespace WriteBatch

/-! ## Batches by their parts -/

/-- The batch with this sequence number, count and records. -/
def of (seq n : Nat) (data : Bytes) : WriteBatch := ⟨putFixed 8 seq ++ (putFixed 4 n ++ data)⟩

section

variable (seq n : Nat) (data : Bytes)

theorem clear_eq : clear = of 0 0 [] := rfl

@[simp] theorem drop_rep_of : (of seq n data).rep.drop kHeader = data := by
  show (putFixed 8 seq ++ (putFixed 4 n ++ data)).drop (8 + 4) = data
  rw [← List.append_assoc]
  exact List.drop_left' (by simp)

@[simp] theorem length_rep_of : (of seq n data).rep.length = kHeader + data.length := by
  simp [of, kHeader]
  omega

theorem of_congr {n n' : Nat} (h : n % 2 ^ 32 = n' % 2 ^ 32) : of seq n data = of seq n' data := by
  have hmod (m : Nat) : putFixed 4 (m % 2 ^ 32) = putFixed 4 m := putFixed_mod
  unfold of
  rw [← hmod n, ← hmod n', h]

@[simp] theorem count_of : (of seq n data).count = asInt n := by
  have hdrop : (of seq n data).rep.drop 8 = putFixed 4 n ++ data := List.drop_left' (by simp)
  have hmod : putFixed 4 n = putFixed 4 (n % 2 ^ 32) := putFixed_mod.symm
  have hget : getFixed 4 (putFixed 4 (n % 2 ^ 32) ++ data) = n % 2 ^ 32 :=
    getFixed_putFixed (n := 4) (Nat.mod_lt n (by decide)) data
  rw [count, hdrop, hmod, hget]
  unfold asInt
  rw [Int.natCast_mod]
  exact Int.emod_bmod n (2 ^ 32)

theorem setCount_of (m : Int) : (of seq n data).setCount m = of seq (m % 2 ^ 32).toNat data := by
  have htake : (of seq n data).rep.take 8 = putFixed 8 seq := List.take_left' (by simp)
  rw [setCount, drop_rep_of, htake]
  rfl

@[simp] theorem setSequence_of (seq' : Nat) :
    (of seq n data).setSequence seq' = of seq' n data := by
  have hdrop : (of seq n data).rep.drop 8 = putFixed 4 n ++ data := List.drop_left' (by simp)
  rw [setSequence, hdrop]
  rfl

theorem sequence_of (h : seq < 2 ^ 64) : (of seq n data).sequence = seq :=
  getFixed_putFixed h _

/-- The count that `SetCount(this, Count(this) + k)` leaves. -/
theorem toNat_asInt_add (k : Int) (m : Nat) (hk : k.bmod (2 ^ 32) = asInt m) :
    ((asInt n + k) % 2 ^ 32).toNat % 2 ^ 32 = (n + m) % 2 ^ 32 := by
  unfold asInt at hk ⊢
  rw [Int.bmod_def, Int.bmod_def] at hk
  rw [Int.bmod_def]
  omega

theorem push_of (tag : Nat) (record : Bytes) :
    (of seq n data).push tag record = of seq (n + 1) (data ++ UInt8.ofNat tag :: record) := by
  have hcount := of_congr seq data (toNat_asInt_add n 1 1 rfl)
  rw [push, count_of, setCount_of, hcount]
  simp [of]

theorem append_of (seq' n' : Nat) (data' : Bytes) :
    (of seq n data).append (of seq' n' data') = of seq (n + n') (data ++ data') := by
  have hcount := of_congr seq data (toNat_asInt_add n (asInt n') n' Int.bmod_bmod)
  rw [append, count_of, count_of, setCount_of, hcount, drop_rep_of]
  simp [of]

end

/-! ## The codes of records -/

/-- The plain tag of a record. -/
def typeOf : BatchRecord → ValueType
  | .put _ _ => .value
  | .delete _ => .deletion
  | .merge _ _ => .merge
  | .deleteRange _ _ => .rangeDeletion

/-- The strings of a record, each after its length. -/
def payload : BatchRecord → Bytes
  | .put key value => putLengthPrefixed key ++ putLengthPrefixed value
  | .delete key => putLengthPrefixed key
  | .merge key value => putLengthPrefixed key ++ putLengthPrefixed value
  | .deleteRange beginKey endKey => putLengthPrefixed beginKey ++ putLengthPrefixed endKey

/-- What a record of a family adds to `rep_`. -/
def recordBytes (r : Nat × BatchRecord) : Bytes :=
  if r.1 = 0 then UInt8.ofNat (typeOf r.2).code :: payload r.2
  else UInt8.ofNat (kCFTagBase + (typeOf r.2).code) :: (putVarint32 r.1 ++ payload r.2)

/-- The id is a `uint32_t`, the strings are shorter than `2 ^ 32` bytes. -/
def Fits (r : Nat × BatchRecord) : Prop :=
  r.1 < 2 ^ 32 ∧ match r.2 with
    | .put key value => key.length < 2 ^ 32 ∧ value.length < 2 ^ 32
    | .delete key => key.length < 2 ^ 32
    | .merge key value => key.length < 2 ^ 32 ∧ value.length < 2 ^ 32
    | .deleteRange beginKey endKey => beginKey.length < 2 ^ 32 ∧ endKey.length < 2 ^ 32

theorem varString {s : Bytes} (h : s.length < 2 ^ 32) : VarString (putLengthPrefixed s) s :=
  parses_getLengthPrefixed.of_reads (reads_getLengthPrefixed h)

theorem payload_payload {r : Nat × BatchRecord} (h : Fits r) :
    Payload (typeOf r.2).code (payload r.2) r.2 := by
  obtain ⟨cf, r⟩ := r
  obtain ⟨-, h⟩ := h
  cases r with
  | put key value => exact .put (varString h.1) (varString h.2)
  | delete key => exact .delete (varString h)
  | merge key value => exact .merge (varString h.1) (varString h.2)
  | deleteRange beginKey endKey => exact .deleteRange (varString h.1) (varString h.2)

theorem recordCode_recordBytes {r : Nat × BatchRecord} (h : Fits r) :
    RecordCode (recordBytes r) r := by
  have hpayload := payload_payload h
  obtain ⟨cf, r⟩ := r
  have hle := (typeOf r).code_le
  unfold recordBytes
  split
  · rename_i hcf
    obtain rfl : cf = 0 := hcf
    refine .plain ?_
    rwa [toNat_ofNat (show (typeOf r).code < 256 by omega)]
  · have htag : (UInt8.ofNat (kCFTagBase + (typeOf r).code)).toNat = 16 + (typeOf r).code :=
      toNat_ofNat (show 16 + (typeOf r).code < 256 by omega)
    refine .family (by rw [htag]; exact Nat.le_add_right _ _)
      (parses_getVarint32.of_reads (reads_getVarint32 h.1)) ?_
    rwa [htag, kCFTagBase, Nat.add_sub_cancel_left]

theorem recordCodes_flatMap {rs : List (Nat × BatchRecord)} (h : ∀ r ∈ rs, Fits r) :
    RecordCodes (rs.flatMap recordBytes) rs := by
  induction rs with
  | nil => exact .nil
  | cons r rs ih =>
    exact .cons (recordCode_recordBytes (h r List.mem_cons_self))
      (ih fun r' hr' => h r' (List.mem_cons_of_mem r hr'))

/-! ## The loop of `Iterate` -/

section

variable {σ : Type} {h : Handler σ} {count : Int}

theorem iterateLoop_cons {tag : UInt8} {input rest : Bytes} {r : Nat × BatchRecord} {found : Int}
    {s : σ} (hr : readRecord tag input = .ok (r, rest)) :
    iterateLoop h count (tag :: input) found s =
      iterateLoop h count rest ((found + 1).bmod (2 ^ 32)) (h.report s r) := by
  rw [iterateLoop]
  split
  · rename_i msg herr
    rw [hr] at herr
    cases herr
  · rename_i r' rest' hok
    rw [hr] at hok
    cases hok
    rfl

/-- Over codes of the grammar the loop reports every record and compares the counts. -/
theorem iterateLoop_codes {input : Bytes} {rs : List (Nat × BatchRecord)} (hrs : RecordCodes input rs)
    (n : Nat) (s : σ) :
    iterateLoop h count input (asInt n) s =
      (if asInt (n + rs.length) = count then .ok () else .error "WriteBatch has wrong count",
        rs.foldl h.report s) := by
  induction hrs generalizing n s with
  | nil => rw [iterateLoop, List.length_nil, Nat.add_zero, List.foldl_nil]
  | @cons bs rest r rs hr _ ih =>
    obtain ⟨tag, input, rfl⟩ := List.exists_cons_of_ne_nil (List.ne_nil_of_length_pos hr.length_pos)
    rw [List.cons_append, iterateLoop_cons (readRecord_ok.2 ⟨tag :: input, List.cons_append.symm, hr⟩)]
    have hnext : (asInt n + 1).bmod (2 ^ 32) = asInt (n + 1) := asInt_add n 1
    rw [hnext, ih, List.length_cons, Nat.add_assoc, Nat.add_comm 1, List.foldl_cons]

/-- The loop fails on what is not in the grammar. -/
theorem iterateLoop_ok {input : Bytes} {found : Int} {s : σ}
    (hok : (iterateLoop h count input found s).1 = .ok ()) : ∃ rs, RecordCodes input rs := by
  fun_induction iterateLoop h count input found s with
  | case1 found s => exact ⟨[], .nil⟩
  | case2 found s tag input msg hr => cases hok
  | case3 found s tag input r rest hr _ ih =>
    obtain ⟨rs, hrs⟩ := ih hok
    obtain ⟨bs, hbs, hcode⟩ := readRecord_ok.1 hr
    exact ⟨r :: rs, hbs ▸ .cons hcode hrs⟩

/-- `Iterate` returns OK for records of the grammar, as many as the count says. -/
theorem iterate_ok_iff {b : WriteBatch} (hlen : kHeader ≤ b.rep.length) {s : σ} :
    (b.iterate h s).1 = .ok () ↔
      ∃ rs, RecordCodes (b.rep.drop kHeader) rs ∧ asInt rs.length = b.count := by
  rw [iterate, if_neg (by omega)]
  constructor
  · intro hok
    obtain ⟨rs, hrs⟩ := iterateLoop_ok hok
    have heq : iterateLoop h b.count (b.rep.drop kHeader) (asInt 0) s = _ :=
      iterateLoop_codes hrs 0 s
    have hzero : asInt 0 = 0 := rfl
    rw [hzero, Nat.zero_add] at heq
    rw [heq] at hok
    refine ⟨rs, hrs, ?_⟩
    by_contra hne
    rw [if_neg hne] at hok
    cases hok
  · rintro ⟨rs, hrs, hcount⟩
    have heq : iterateLoop h b.count (b.rep.drop kHeader) (asInt 0) s = _ :=
      iterateLoop_codes hrs 0 s
    have hzero : asInt 0 = 0 := rfl
    rw [hzero, Nat.zero_add, if_pos hcount] at heq
    rw [heq]

end

/-! ## Building a batch -/

/-- A call of `Put`, `Delete`, `Merge` or `DeleteRange`: the plain method, or that of a family by its
handle. -/
inductive Call
  | plain (r : BatchRecord)
  | family (handle : Option Nat) (r : BatchRecord)

def Call.record : Call → Nat × BatchRecord
  | plain r => (0, r)
  | family handle r => (familyId handle, r)

def call (b : WriteBatch) : Call → WriteBatch
  | .plain (.put key value) => b.put key value
  | .plain (.delete key) => b.delete key
  | .plain (.merge key value) => b.merge key value
  | .plain (.deleteRange beginKey endKey) => b.deleteRange beginKey endKey
  | .family handle (.put key value) => b.putCF handle key value
  | .family handle (.delete key) => b.deleteCF handle key
  | .family handle (.merge key value) => b.mergeCF handle key value
  | .family handle (.deleteRange beginKey endKey) => b.deleteRangeCF handle beginKey endKey

/-- A way to build a batch: calls, and `Append` of batches built in the same way. -/
inductive Build
  | clear
  | call (b : Build) (c : Call)
  | append (dst src : Build)

namespace Build

def batch : Build → WriteBatch
  | clear => .clear
  | call b c => b.batch.call c
  | append dst src => dst.batch.append src.batch

/-- The records of the calls, in order. -/
def records : Build → List (Nat × BatchRecord)
  | clear => []
  | call b c => b.records ++ [c.record]
  | append dst src => dst.records ++ src.records

end Build

theorem call_of (seq n : Nat) (data : Bytes) (c : Call) :
    (of seq n data).call c = of seq (n + 1) (data ++ recordBytes c.record) := by
  cases c with
  | plain r =>
    cases r <;> exact push_of seq n data _ _
  | family handle r =>
    by_cases hcf : familyId handle = 0
    · cases r <;> simp [call, putCF, deleteCF, mergeCF, deleteRangeCF, put, delete, merge, deleteRange,
        Call.record, recordBytes, payload, typeOf, hcf, push_of]
    · cases r <;> simp [call, putCF, deleteCF, mergeCF, deleteRangeCF, Call.record, recordBytes,
        payload, typeOf, hcf, push_of]

/-- **A batch is a header and the codes of its records**, in whatever way it was built. -/
theorem Build.batch_eq (b : Build) :
    b.batch = of 0 b.records.length (b.records.flatMap recordBytes) := by
  induction b with
  | clear => exact clear_eq
  | call b c ih =>
    rw [batch, ih, call_of]
    simp [records]
  | append dst src ihdst ihsrc =>
    rw [batch, ihdst, ihsrc, append_of]
    simp [records]

theorem Build.iterate_eq {b : Build} (hb : ∀ r ∈ b.records, Fits r) (seq : Nat) {σ : Type}
    (h : Handler σ) (s : σ) :
    (b.batch.setSequence seq).iterate h s = (.ok (), b.records.foldl h.report s) := by
  have heq : iterateLoop h (asInt b.records.length) _ (asInt 0) s = _ :=
    iterateLoop_codes (recordCodes_flatMap hb) 0 s
  have hzero : asInt 0 = 0 := rfl
  rw [hzero, Nat.zero_add, if_pos rfl] at heq
  rw [b.batch_eq, setSequence_of, iterate, length_rep_of, if_neg (by omega), count_of, drop_rep_of, heq]

theorem Build.setSequence_batch (b : Build) : b.batch.setSequence 0 = b.batch := by
  rw [b.batch_eq, setSequence_of]

/-! ## What the handlers see -/

/-- The puts and deletes of the default family: the key, and the value that is put. -/
def putsAndDeletes (rs : List (Nat × BatchRecord)) : List (Bytes × Option Bytes) :=
  rs.filterMap fun
    | (0, .put key value) => some (key, some value)
    | (0, .delete key) => some (key, none)
    | _ => none

/-- A handler that overrides `Put` and `Delete` only sees these of the default family. -/
theorem foldl_putDelete {σ : Type} (put : σ → Bytes → Bytes → σ) (delete : σ → Bytes → σ)
    (rs : List (Nat × BatchRecord)) (s : σ) :
    rs.foldl ({ put, delete : Handler σ }).report s =
      (putsAndDeletes rs).foldl (fun s x => x.2.elim (delete s x.1) (put s x.1)) s := by
  induction rs generalizing s with
  | nil => rfl
  | cons r rs ih =>
    rw [List.foldl_cons, ih]
    obtain ⟨cf, r⟩ := r
    cases cf with
    | zero => cases r <;> rfl
    | succ cf => cases r <;> rfl

/-- The operands among the records. -/
def isMerge (r : Nat × BatchRecord) : Bool := typeOf r.2 = .merge

theorem Scanner.foldl_report (rs : List (Nat × BatchRecord)) (s : Scanner) :
    rs.foldl batchScanner.report s = ⟨(rs.map (·.1)).toFinset ∪ s.families,
      ((rs.filter isMerge).map (·.1)).toFinset ∪ s.merges⟩ := by
  induction rs generalizing s with
  | nil => simp [Finset.empty_union]
  | cons r rs ih =>
    rw [List.foldl_cons, ih]
    obtain ⟨cf, r⟩ := r
    cases r <;> simp [Handler.report, batchScanner, isMerge, typeOf]

/-! ## What the memtables get -/

/-- The records of a family that do something, with their sequence numbers. -/
def ofFamily [LinearOrder Bytes] (cf base : Nat) (rs : List (Nat × BatchRecord)) :
    List (Nat × BatchRecord) :=
  (rs.zipIdx base).filterMap fun x =>
    if x.1.1 = cf ∧ ¬ x.1.2.EmptyRange then some (x.2, x.1.2) else none

section

variable [LinearOrder Bytes]

theorem memTableInserter_report (s : Inserter) (r : Nat × BatchRecord) :
    memTableInserter.report s r = s.add r.1 r.2 := by
  obtain ⟨cf, r⟩ := r
  cases r <;> rfl

theorem Inserter.add_mems (s : Inserter) (r : Nat × BatchRecord) (cf : Nat) :
    (s.add r.1 r.2).mems cf = (s.mems cf).map fun mem =>
      if r.1 = cf ∧ ¬ r.2.EmptyRange then mem.addRecord s.sequence r.2 else mem := by
  rw [add]
  by_cases hcf : r.1 = cf
  · subst hcf
    by_cases hempty : r.2.EmptyRange
    · cases hmem : s.mems r.1 with
      | none => simp [hmem]
      | some mem => simp [hempty, MemTable.addRecord_emptyRange hempty]
    · cases hmem : s.mems r.1 <;> simp [hmem, hempty]
  · cases hmem : s.mems r.1 <;> simp [hcf, Function.update_of_ne (Ne.symm hcf)]

theorem Inserter.foldl_report {rs : List (Nat × BatchRecord)} {s : Inserter}
    (hseq : s.sequence + rs.length < 2 ^ 64) (cf : Nat) :
    (rs.foldl memTableInserter.report s).mems cf = (s.mems cf).map fun mem =>
      (ofFamily cf s.sequence rs).foldl (fun mem r => mem.addRecord r.1 r.2) mem := by
  induction rs generalizing s with
  | nil => simp [ofFamily]
  | cons r rs ih =>
    rw [List.length_cons] at hseq
    have hnext : (s.add r.1 r.2).sequence = s.sequence + 1 := Nat.mod_eq_of_lt (by omega)
    rw [List.foldl_cons, memTableInserter_report, ih (by rw [hnext]; omega), hnext, add_mems,
      Option.map_map]
    congr 1
    funext mem
    by_cases hr : r.1 = cf ∧ ¬ r.2.EmptyRange <;> simp [ofFamily, List.zipIdx_cons, hr]

end

/-! ## The encoding -/

/-- **The encoding of batches is faithful.** A batch built by any calls and `Append`s is read back by
`Iterate`: every handler gets the records in order with their families; one that overrides `Put` and
`Delete` only gets these of the default family; the count is the number of records, as an `int`;
`InsertInto` numbers the records from the base on and puts each into its family's memtable, whatever
families are missing; `Scan` finds the families and those given operands. On any bytes of at least the
size of the header, `Iterate` returns OK exactly if what follows it are records of the grammar, as many
as the count says, as an `int`. -/
theorem encoding_faithful [LinearOrder Bytes] :
    (∀ b : Build, (∀ r ∈ b.records, Fits r) → b.records.length < 2 ^ 32 →
      (∀ (σ : Type) (h : Handler σ) (s : σ),
        b.batch.iterate h s = (.ok (), b.records.foldl h.report s)) ∧
      b.batch.count = asInt b.records.length ∧
      (b.records.length < 2 ^ 31 → b.batch.count = b.records.length) ∧
      (∀ (σ : Type) (put : σ → Bytes → Bytes → σ) (delete : σ → Bytes → σ) (s : σ),
        b.batch.iterate { put, delete } s =
          (.ok (), (putsAndDeletes b.records).foldl
            (fun s x => x.2.elim (delete s x.1) (put s x.1)) s)) ∧
      (∀ (base : Nat) (mems : Nat → Option (MemTable Bytes Bytes)),
        base + b.records.length ≤ 2 ^ 56 →
        (b.batch.setSequence base).insertInto mems = (.ok (), fun cf => (mems cf).map fun mem =>
          (ofFamily cf base b.records).foldl (fun mem r => mem.addRecord r.1 r.2) mem)) ∧
      b.batch.scan = ((b.records.map (·.1)).toFinset,
        ((b.records.filter isMerge).map (·.1)).toFinset)) ∧
    ∀ (b : WriteBatch) (σ : Type) (h : Handler σ) (s : σ), kHeader ≤ b.rep.length →
      ((b.iterate h s).1 = .ok () ↔
        ∃ rs, RecordCodes (b.rep.drop kHeader) rs ∧ asInt rs.length = b.count) := by
  refine ⟨fun b hb _ => ?_, fun b σ h s hlen => iterate_ok_iff hlen⟩
  have hiterate {σ : Type} (h : Handler σ) (s : σ) := b.setSequence_batch ▸ b.iterate_eq hb 0 h s
  have hcount : b.batch.count = asInt b.records.length := by rw [b.batch_eq, count_of]
  refine ⟨fun σ h s => hiterate h s, hcount, fun hlt => hcount.trans (asInt_of_lt hlt),
    fun σ put delete s => ?_, fun base mems hbase => ?_, ?_⟩
  · rw [hiterate, foldl_putDelete]
  · have hsequence : (b.batch.setSequence base).sequence = base := by
      rw [b.batch_eq, setSequence_of, sequence_of _ _ _ (by omega)]
    rw [insertInto, hsequence, b.iterate_eq hb]
    refine Prod.ext rfl (funext fun cf => ?_)
    exact Inserter.foldl_report (s := ⟨base, mems⟩) (show base + _ < _ by omega) cf
  · rw [scan, hiterate, Scanner.foldl_report]
    simp

/-- A batch of family 7's operand and, appended, a deletion of the default family. -/
def sampleBuild : Build :=
  .append (.call .clear (.family (some 7) (.merge [97] [1]))) (.call .clear (.plain (.delete [98])))

/-- Without family 7's memtable, the deletion still gets the second number. -/
theorem encoding_faithful_sampleBuild :
    letI := bytewise
    sampleBuild.batch.count = 2 ∧
    sampleBuild.batch.scan = ({7, 0}, {7}) ∧
    (((sampleBuild.batch.setSequence 5).insertInto
      fun cf => if cf = 0 then some .empty else none).2 0).map (·.table.entries) =
        some [⟨⟨[98], 6, .deletion⟩, []⟩] ∧
    ((WriteBatch.mk (List.replicate 12 0)).iterate batchScanner ⟨∅, ∅⟩).1 = .ok () := by
  let order := bytewise
  have hrecords : sampleBuild.records = [(7, .merge [97] [1]), (0, .delete [98])] := rfl
  have hfits : ∀ r ∈ sampleBuild.records, Fits r := by
    simp [hrecords, Fits]
  obtain ⟨-, -, hcount, -, hinsert, hscan⟩ := (encoding_faithful).1 sampleBuild hfits (by decide)
  refine ⟨hcount (by decide), hscan.trans (by decide), ?_, ?_⟩
  · rw [hinsert 5 _ (by decide)]
    rfl
  · exact ((encoding_faithful).2 _ _ _ _ (by decide)).2 ⟨[], .nil, rfl⟩

/-- So many deletions of the empty key. -/
def deletions : Nat → Build
  | 0 => .clear
  | n + 1 => .call (deletions n) (.plain (.delete []))

theorem records_deletions (n : Nat) : (deletions n).records = List.replicate n (0, .delete []) := by
  induction n with
  | zero => rfl
  | succ n ih =>
    rw [deletions, Build.records, ih, List.replicate_succ']
    rfl

theorem deletions_spec (n : Nat) :
    (∀ r ∈ (deletions n).records, Fits r) ∧ (deletions n).records.length = n ∧
      (deletions n).batch.count = asInt n := by
  have hlen : (deletions n).records.length = n := by rw [records_deletions, List.length_replicate]
  refine ⟨fun r hr => ?_, hlen, by rw [Build.batch_eq, count_of, hlen]⟩
  rw [records_deletions, List.mem_replicate] at hr
  obtain ⟨-, rfl⟩ := hr
  exact ⟨by decide, by decide⟩

/-- The count of a batch of `2 ^ 31` records is negative. -/
theorem not_encoding_faithful :
    ∃ b : Build, (∀ r ∈ b.records, Fits r) ∧ b.records.length < 2 ^ 32 ∧
      b.batch.count ≠ b.records.length := by
  obtain ⟨hfits, hlen, hcount⟩ := deletions_spec (2 ^ 31)
  refine ⟨deletions (2 ^ 31), hfits, by rw [hlen]; decide, ?_⟩
  rw [hcount, hlen]
  decide

end WriteBatch

end LevelDb
