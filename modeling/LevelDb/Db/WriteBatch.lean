import LevelDb.Db.Levels
import LevelDb.Lib.Coding
import Mathlib.Data.Finset.Insert

/-!
# Write batches (`db/write_batch.cc`)

A batch is a string of bytes: a sequence number, a count and the records. A record of the default
family has a plain tag; one of another family a tag above `kCFTagBase` and the family's id. `RecordCode`
is the grammar of the comment at the top of the source; `readRecord_ok` says that the switch of
`Iterate` reads it. The counts are of type `int`: where that overflows, which C++ leaves undefined,
they wrap around here.
-/

namespace LevelDb

open Coding

/-- The tag of a record of family `cf` is this plus the plain tag. -/
def kCFTagBase : Nat := 16

/-- The size of the header. -/
def kHeader : Nat := 12

abbrev BatchRecord := Record Bytes Bytes

/-! ## The records of `Iterate` -/

namespace WriteBatch

def orCorruption {α : Type} (msg : String) : Option α → Except String α
  | some a => .ok a
  | none => .error msg

def readOne (f : Bytes → BatchRecord) : Reader BatchRecord :=
  getLengthPrefixed.bind fun key => .pure (f key)

def readTwo (f : Bytes → Bytes → BatchRecord) : Reader BatchRecord :=
  getLengthPrefixed.bind fun key => getLengthPrefixed.bind fun value => .pure (f key value)

/-- The switch over the tags. -/
def readPayload (tag : Nat) (input : Bytes) : Except String (BatchRecord × Bytes) :=
  if tag = ValueType.value.code then orCorruption "bad WriteBatch Put" (readTwo .put input)
  else if tag = ValueType.deletion.code then
    orCorruption "bad WriteBatch Delete" (readOne .delete input)
  else if tag = ValueType.merge.code then
    orCorruption "bad WriteBatch Merge" (readTwo .merge input)
  else if tag = ValueType.rangeDeletion.code then
    orCorruption "bad WriteBatch DeleteRange" (readTwo .deleteRange input)
  else .error "unknown WriteBatch tag"

/-- A record with its family, after its tag. -/
def readRecord (tag : UInt8) (input : Bytes) : Except String ((Nat × BatchRecord) × Bytes) :=
  if kCFTagBase ≤ tag.toNat ∧ tag.toNat ≤ kCFTagBase + ValueType.rangeDeletion.code then do
    let (cf, input) ← orCorruption "bad WriteBatch column family" (getVarint32 input)
    let (r, input) ← readPayload (tag.toNat - kCFTagBase) input
    return ((cf, r), input)
  else do
    let (r, input) ← readPayload tag.toNat input
    return ((0, r), input)

/-! ## The grammar -/

/-- What follows a plain tag. -/
inductive Payload : Nat → Bytes → BatchRecord → Prop
  | put {bs bs' key value : Bytes} : VarString bs key → VarString bs' value →
      Payload ValueType.value.code (bs ++ bs') (.put key value)
  | delete {bs key : Bytes} : VarString bs key → Payload ValueType.deletion.code bs (.delete key)
  | merge {bs bs' key value : Bytes} : VarString bs key → VarString bs' value →
      Payload ValueType.merge.code (bs ++ bs') (.merge key value)
  | deleteRange {bs bs' beginKey endKey : Bytes} : VarString bs beginKey → VarString bs' endKey →
      Payload ValueType.rangeDeletion.code (bs ++ bs') (.deleteRange beginKey endKey)

/-- `record` of the grammar, with the family. -/
inductive RecordCode : Bytes → Nat × BatchRecord → Prop
  | plain {tag : UInt8} {bs : Bytes} {r : BatchRecord} : Payload tag.toNat bs r →
      RecordCode (tag :: bs) (0, r)
  | family {tag : UInt8} {mid bs : Bytes} {cf : Nat} {r : BatchRecord} : kCFTagBase ≤ tag.toNat →
      Varint32 mid cf → Payload (tag.toNat - kCFTagBase) bs r → RecordCode (tag :: (mid ++ bs)) (cf, r)

/-- `record` again and again. -/
inductive RecordCodes : Bytes → List (Nat × BatchRecord) → Prop
  | nil : RecordCodes [] []
  | cons {bs rest : Bytes} {r : Nat × BatchRecord} {rs : List (Nat × BatchRecord)} :
      RecordCode bs r → RecordCodes rest rs → RecordCodes (bs ++ rest) (r :: rs)

theorem orCorruption_ok {α : Type} {msg : String} {o : Option α} {a : α} :
    orCorruption msg o = .ok a ↔ o = some a := by
  cases o <;> simp [orCorruption]

theorem parses_readOne (f : Bytes → BatchRecord) :
    (readOne f).Parses fun bs r => ∃ key, VarString bs key ∧ r = f key := by
  refine (parses_getLengthPrefixed.bind fun key => Reader.Parses.pure (f key)).congr fun bs r => ?_
  constructor
  · rintro ⟨bs, key, _, rfl, hkey, rfl, rfl⟩
    exact ⟨key, by rwa [List.append_nil], rfl⟩
  · rintro ⟨key, hkey, rfl⟩
    exact ⟨bs, key, [], (List.append_nil _).symm, hkey, rfl, rfl⟩

theorem parses_readTwo (f : Bytes → Bytes → BatchRecord) :
    (readTwo f).Parses fun bs r => ∃ front key back value, bs = front ++ back ∧
      VarString front key ∧ VarString back value ∧ r = f key value := by
  refine (parses_getLengthPrefixed.bind fun key => parses_getLengthPrefixed.bind fun value =>
    Reader.Parses.pure (f key value)).congr fun bs r => ?_
  constructor
  · rintro ⟨front, key, _, rfl, hkey, back, value, _, rfl, hvalue, rfl, rfl⟩
    exact ⟨front, key, back, value, by rw [List.append_nil], hkey, hvalue, rfl⟩
  · rintro ⟨front, key, back, value, rfl, hkey, hvalue, rfl⟩
    exact ⟨front, key, back, rfl, hkey, back, value, [], (List.append_nil _).symm, hvalue, rfl, rfl⟩

theorem readPayload_ok {tag : Nat} {input rest : Bytes} {r : BatchRecord} :
    readPayload tag input = .ok (r, rest) ↔ ∃ bs, input = bs ++ rest ∧ Payload tag bs r := by
  unfold readPayload
  constructor
  · intro h
    split_ifs at h with hput hdelete hmerge hrange
    · obtain ⟨_, rfl, front, key, back, value, rfl, hkey, hvalue, rfl⟩ :=
        (parses_readTwo _ _ _ _).1 (orCorruption_ok.1 h)
      exact ⟨_, rfl, hput ▸ .put hkey hvalue⟩
    · obtain ⟨_, rfl, key, hkey, rfl⟩ := (parses_readOne _ _ _ _).1 (orCorruption_ok.1 h)
      exact ⟨_, rfl, hdelete ▸ .delete hkey⟩
    · obtain ⟨_, rfl, front, key, back, value, rfl, hkey, hvalue, rfl⟩ :=
        (parses_readTwo _ _ _ _).1 (orCorruption_ok.1 h)
      exact ⟨_, rfl, hmerge ▸ .merge hkey hvalue⟩
    · obtain ⟨_, rfl, front, key, back, value, rfl, hkey, hvalue, rfl⟩ :=
        (parses_readTwo _ _ _ _).1 (orCorruption_ok.1 h)
      exact ⟨_, rfl, hrange ▸ .deleteRange hkey hvalue⟩
  · rintro ⟨bs, rfl, h⟩
    cases h with
    | put hkey hvalue =>
      rw [if_pos rfl, orCorruption_ok]
      exact (parses_readTwo _ _ _ _).2 ⟨_, rfl, _, _, _, _, rfl, hkey, hvalue, rfl⟩
    | delete hkey =>
      rw [if_neg (by decide), if_pos rfl, orCorruption_ok]
      exact (parses_readOne _ _ _ _).2 ⟨_, rfl, _, hkey, rfl⟩
    | merge hkey hvalue =>
      rw [if_neg (by decide), if_neg (by decide), if_pos rfl, orCorruption_ok]
      exact (parses_readTwo _ _ _ _).2 ⟨_, rfl, _, _, _, _, rfl, hkey, hvalue, rfl⟩
    | deleteRange hkey hvalue =>
      rw [if_neg (by decide), if_neg (by decide), if_neg (by decide), if_pos rfl, orCorruption_ok]
      exact (parses_readTwo _ _ _ _).2 ⟨_, rfl, _, _, _, _, rfl, hkey, hvalue, rfl⟩

theorem Payload.tag_le {tag : Nat} {bs : Bytes} {r : BatchRecord} (h : Payload tag bs r) :
    tag ≤ ValueType.rangeDeletion.code := by
  cases h <;> decide

/-- **The loop body of `Iterate` reads the records of the grammar**, and nothing else. -/
theorem readRecord_ok {tag : UInt8} {input rest : Bytes} {r : Nat × BatchRecord} :
    readRecord tag input = .ok (r, rest) ↔ ∃ bs, tag :: input = bs ++ rest ∧ RecordCode bs r := by
  unfold readRecord
  constructor
  · intro h
    split_ifs at h with htag
    · obtain ⟨⟨cf, mid⟩, hcf, h⟩ := bind_eq_ok.1 h
      obtain ⟨⟨r', rest'⟩, hr, h⟩ := bind_eq_ok.1 h
      cases h
      obtain ⟨front, rfl, hfront⟩ := (parses_getVarint32 _ _ _).1 (orCorruption_ok.1 hcf)
      obtain ⟨bs, rfl, hbs⟩ := readPayload_ok.1 hr
      exact ⟨tag :: (front ++ bs), by simp, .family htag.1 hfront hbs⟩
    · obtain ⟨⟨r', rest'⟩, hr, h⟩ := bind_eq_ok.1 h
      cases h
      obtain ⟨bs, rfl, hbs⟩ := readPayload_ok.1 hr
      exact ⟨tag :: bs, rfl, .plain hbs⟩
  · rintro ⟨bs, hinput, h⟩
    cases h with
    | plain hbs =>
      rw [List.cons_append] at hinput
      obtain ⟨rfl, rfl⟩ := List.cons.inj hinput
      have htag : ¬ (kCFTagBase ≤ tag.toNat ∧
          tag.toNat ≤ kCFTagBase + ValueType.rangeDeletion.code) := fun h =>
        absurd (h.1.trans hbs.tag_le) (by decide)
      rw [if_neg htag]
      exact bind_eq_ok.2 ⟨_, readPayload_ok.2 ⟨_, rfl, hbs⟩, rfl⟩
    | family hge hmid hbs =>
      rw [List.cons_append, List.append_assoc] at hinput
      obtain ⟨rfl, rfl⟩ := List.cons.inj hinput
      have hle := hbs.tag_le
      rw [if_pos ⟨hge, by omega⟩]
      refine bind_eq_ok.2 ⟨_, orCorruption_ok.2 (parses_getVarint32.reads hmid _), ?_⟩
      exact bind_eq_ok.2 ⟨_, readPayload_ok.2 ⟨_, rfl, hbs⟩, rfl⟩

theorem RecordCode.length_pos {bs : Bytes} {r : Nat × BatchRecord} (h : RecordCode bs r) :
    0 < bs.length := by
  cases h <;> simp

theorem readRecord_length {tag : UInt8} {input rest : Bytes} {r : Nat × BatchRecord}
    (h : readRecord tag input = .ok (r, rest)) : rest.length < (tag :: input).length := by
  obtain ⟨bs, hbs, hr⟩ := readRecord_ok.1 h
  have hpos := hr.length_pos
  rw [hbs, List.length_append]
  omega

/-! ## Handlers -/

/-- `WriteBatch::Handler` with its default methods; `σ` is what the object holds. -/
structure Handler (σ : Type) where
  put : σ → Bytes → Bytes → σ
  delete : σ → Bytes → σ
  deleteRange : σ → Bytes → Bytes → σ := fun s _ _ => s
  merge : σ → Bytes → Bytes → σ := fun s _ _ => s
  putCF : σ → Nat → Bytes → Bytes → σ := fun s cf key value =>
    if cf = 0 then put s key value else s
  deleteCF : σ → Nat → Bytes → σ := fun s cf key => if cf = 0 then delete s key else s
  mergeCF : σ → Nat → Bytes → Bytes → σ := fun s cf key value =>
    if cf = 0 then merge s key value else s
  deleteRangeCF : σ → Nat → Bytes → Bytes → σ := fun s cf beginKey endKey =>
    if cf = 0 then deleteRange s beginKey endKey else s

/-- The call `Iterate` makes for a record. -/
def Handler.report {σ : Type} (h : Handler σ) (s : σ) : Nat × BatchRecord → σ
  | (cf, .put key value) => h.putCF s cf key value
  | (cf, .delete key) => h.deleteCF s cf key
  | (cf, .merge key value) => h.mergeCF s cf key value
  | (cf, .deleteRange beginKey endKey) => h.deleteRangeCF s cf beginKey endKey

end WriteBatch

/-! ## Batches -/

structure WriteBatch where
  rep : Bytes

namespace WriteBatch

/-- The loop of `Iterate`, after `found` records. -/
def iterateLoop {σ : Type} (h : Handler σ) (count : Int) :
    Bytes → Int → σ → Except String Unit × σ
  | [], found, s => (if found = count then .ok () else .error "WriteBatch has wrong count", s)
  | tag :: input, found, s =>
    match hr : readRecord tag input with
    | .error msg => (.error msg, s)
    | .ok (r, rest) =>
      have := readRecord_length hr
      iterateLoop h count rest ((found + 1).bmod (2 ^ 32)) (h.report s r)
termination_by input => input.length
decreasing_by exact this

/-- `WriteBatchInternal::Count`. -/
def count (b : WriteBatch) : Int := asInt (getFixed 4 (b.rep.drop 8))

/-- `WriteBatchInternal::SetCount`. -/
def setCount (b : WriteBatch) (n : Int) : WriteBatch :=
  ⟨b.rep.take 8 ++ (putFixed 4 (n % 2 ^ 32).toNat ++ b.rep.drop kHeader)⟩

/-- `WriteBatchInternal::Sequence`. -/
def sequence (b : WriteBatch) : Nat := getFixed 8 b.rep

/-- `WriteBatchInternal::SetSequence`. -/
def setSequence (b : WriteBatch) (seq : Nat) : WriteBatch := ⟨putFixed 8 seq ++ b.rep.drop 8⟩

def iterate {σ : Type} (b : WriteBatch) (h : Handler σ) (s : σ) : Except String Unit × σ :=
  if b.rep.length < kHeader then (.error "malformed WriteBatch (too small)", s)
  else iterateLoop h b.count (b.rep.drop kHeader) 0 s

/-- The state of a batch after its constructor and after `Clear`. -/
def clear : WriteBatch := ⟨List.replicate kHeader 0⟩

/-- Counts one record more and puts its tag and what follows at the end. -/
def push (b : WriteBatch) (tag : Nat) (data : Bytes) : WriteBatch :=
  ⟨(b.setCount (b.count + 1)).rep ++ UInt8.ofNat tag :: data⟩

def put (b : WriteBatch) (key value : Bytes) : WriteBatch :=
  b.push ValueType.value.code (putLengthPrefixed key ++ putLengthPrefixed value)

def delete (b : WriteBatch) (key : Bytes) : WriteBatch :=
  b.push ValueType.deletion.code (putLengthPrefixed key)

def deleteRange (b : WriteBatch) (beginKey endKey : Bytes) : WriteBatch :=
  b.push ValueType.rangeDeletion.code (putLengthPrefixed beginKey ++ putLengthPrefixed endKey)

def merge (b : WriteBatch) (key value : Bytes) : WriteBatch :=
  b.push ValueType.merge.code (putLengthPrefixed key ++ putLengthPrefixed value)

/-- The id of a handle's family, 0 for a null handle. -/
def familyId : Option Nat → Nat
  | none => 0
  | some id => id

/-- `Put`, `Delete`, `Merge` and `DeleteRange` of a family. -/
def putCF (b : WriteBatch) (family : Option Nat) (key value : Bytes) : WriteBatch :=
  let cf := familyId family
  if cf = 0 then b.put key value
  else b.push (kCFTagBase + ValueType.value.code)
    (putVarint32 cf ++ (putLengthPrefixed key ++ putLengthPrefixed value))

def deleteCF (b : WriteBatch) (family : Option Nat) (key : Bytes) : WriteBatch :=
  let cf := familyId family
  if cf = 0 then b.delete key
  else b.push (kCFTagBase + ValueType.deletion.code) (putVarint32 cf ++ putLengthPrefixed key)

def mergeCF (b : WriteBatch) (family : Option Nat) (key value : Bytes) : WriteBatch :=
  let cf := familyId family
  if cf = 0 then b.merge key value
  else b.push (kCFTagBase + ValueType.merge.code)
    (putVarint32 cf ++ (putLengthPrefixed key ++ putLengthPrefixed value))

def deleteRangeCF (b : WriteBatch) (family : Option Nat) (beginKey endKey : Bytes) : WriteBatch :=
  let cf := familyId family
  if cf = 0 then b.deleteRange beginKey endKey
  else b.push (kCFTagBase + ValueType.rangeDeletion.code)
    (putVarint32 cf ++ (putLengthPrefixed beginKey ++ putLengthPrefixed endKey))

/-- `WriteBatchInternal::Append`. -/
def append (dst src : WriteBatch) : WriteBatch :=
  ⟨(dst.setCount (dst.count + src.count)).rep ++ src.rep.drop kHeader⟩

/-! ## What is done with a batch -/

section Inserter

variable [LinearOrder Bytes]

/-- `MemTableInserter`: the next sequence number and the memtables by family. -/
structure Inserter where
  sequence : Nat
  mems : Nat → Option (MemTable Bytes Bytes)

/-- A family the map does not name is skipped, but still consumes its sequence number. -/
def Inserter.add (s : Inserter) (cf : Nat) (r : BatchRecord) : Inserter where
  sequence := (s.sequence + 1) % 2 ^ 64
  mems := match s.mems cf with
    | some mem => Function.update s.mems cf (some (mem.addRecord s.sequence r))
    | none => s.mems

def memTableInserter : Handler Inserter where
  put s key value := s.add 0 (.put key value)
  delete s key := s.add 0 (.delete key)
  deleteRange s beginKey endKey := s.add 0 (.deleteRange beginKey endKey)
  merge s key value := s.add 0 (.merge key value)
  putCF s cf key value := s.add cf (.put key value)
  deleteCF s cf key := s.add cf (.delete key)
  deleteRangeCF s cf beginKey endKey := s.add cf (.deleteRange beginKey endKey)
  mergeCF s cf key value := s.add cf (.merge key value)

/-- `WriteBatchInternal::InsertInto`: the status and the memtables after it. -/
def insertInto (b : WriteBatch) (mems : Nat → Option (MemTable Bytes Bytes)) :
    Except String Unit × (Nat → Option (MemTable Bytes Bytes)) :=
  let result := b.iterate memTableInserter ⟨b.sequence, mems⟩
  (result.1, result.2.mems)

end Inserter

/-- `BatchScanner`: the families touched, and those given operands. -/
structure Scanner where
  families : Finset Nat
  merges : Finset Nat

def batchScanner : Handler Scanner where
  put s _ _ := { s with families := insert 0 s.families }
  delete s _ := { s with families := insert 0 s.families }
  merge s _ _ := ⟨insert 0 s.families, insert 0 s.merges⟩
  deleteRange s _ _ := { s with families := insert 0 s.families }
  putCF s cf _ _ := { s with families := insert cf s.families }
  deleteCF s cf _ := { s with families := insert cf s.families }
  mergeCF s cf _ _ := ⟨insert cf s.families, insert cf s.merges⟩
  deleteRangeCF s cf _ _ := { s with families := insert cf s.families }

/-- `WriteBatchInternal::Scan`. -/
def scan (b : WriteBatch) : Finset Nat × Finset Nat :=
  let scanner := (b.iterate batchScanner ⟨∅, ∅⟩).2
  (scanner.families, scanner.merges)

end WriteBatch

end LevelDb
