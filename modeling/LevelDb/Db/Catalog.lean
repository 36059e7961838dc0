import LevelDb.Lib.Lines
import LevelDb.Lib.Numerals
import LevelDb.Lib.Transition
import Mathlib.Data.List.Sort

/-!
# FAMILIES (`db/column_family.cc`)

The file that names the families, byte by byte, and the runs of creations, drops, crashes and
openings that write and read it. A byte is the character of its code. Family ids are `uint32_t`.
-/

namespace LevelDb.Catalog

open Lines

abbrev Bytes := List Char

/-! ## The file -/

/-- `std::to_string`. -/
def decimal (n : Nat) : Bytes := Nat.toDigits 10 n

/-- `strtoul(s, nullptr, 10)`: an `unsigned long` has 64 bits. -/
def strtoul (s : Bytes) : Nat := (Numerals.strtoull s).1.toNat

/-- The cast to `uint32_t`. -/
def uint32 (n : Nat) : Nat := n % 2 ^ 32

def familyLine (f : Nat × Bytes) : Bytes := decimal f.1 ++ ' ' :: f.2

def writeFamilies (families : List (Nat × Bytes)) (nextId : Nat) : Bytes :=
  unlines '\n' (decimal nextId :: families.map familyLine)

/-- `Status::Corruption`, with its two messages. -/
abbrev Corruption := String × Bytes

def readLine (line : Bytes) : Except Corruption (Nat × Bytes) :=
  match line.findIdx? (· = ' ') with
  | none => .error ("malformed FAMILIES line", line)
  | some space =>
    let id := uint32 (strtoul line)
    if id = 0 then .error ("bad family id in FAMILIES", line) else .ok (id, line.drop (space + 1))

/-- The families, and the next id. -/
def readFamilies : Option Bytes → Except Corruption (List (Nat × Bytes) × Nat)
  | none => .ok ([], 1)
  | some contents =>
    match (lines '\n' contents).filter (· ≠ []) with
    | [] => .error ("empty FAMILIES file", [])
    | first :: rest => (rest.mapM readLine).map fun families => (families, uint32 (strtoul first))

def kDefaultColumnFamilyName : Bytes := "default".toList

def listColumnFamilies (file : Option Bytes) : Except Corruption (List Bytes) :=
  (readFamilies file).map fun r => kDefaultColumnFamilyName :: r.1.map (·.2)

/-! ## Creations and drops -/

structure ColumnFamily where
  id : Nat
  name : Bytes
  dropped : Bool

structure DBImpl where
  /-- A map from ids, in their order. -/
  cfs : List ColumnFamily
  /-- Families whose creation has given up the mutex. -/
  creating : List ColumnFamily
  nextFamilyId : Nat

/-- FAMILIES and the process, if one is up; beside, the families whose creation has returned OK, and
those whose drop has. -/
structure State where
  file : Option Bytes
  db : Option DBImpl
  created : List (Nat × Bytes)
  dropped : List Nat

inductive Action
  /-- `DB::Open`, up to the creation of families; the names it is given do not matter here. -/
  | openDB
  | createColumnFamily (name : Bytes)
  /-- A creation ends before FAMILIES is written, -/
  | failCreate (i : Nat)
  /-- or writes it and returns OK. -/
  | commitColumnFamily (i : Nat)
  | dropColumnFamily (id : Nat)
  /-- The last handle of a dropped family goes. -/
  | destroyColumnFamilyHandle (id : Nat)
  | crash

namespace DBImpl

/-- `cfs_[cf->id] = cf`. -/
def insert (cf : ColumnFamily) (cfs : List ColumnFamily) : List ColumnFamily :=
  (cfs.filter fun c => c.id ≠ cf.id).orderedInsert (fun a b => a.id ≤ b.id) cf

/-- What `WriteFamilies` is given. -/
def onDisk (db : DBImpl) : List (Nat × Bytes) :=
  (db.cfs.filter fun cf => cf.id ≠ 0 ∧ cf.dropped = false).map fun cf => (cf.id, cf.name)

def write (db : DBImpl) : Bytes := writeFamilies db.onDisk db.nextFamilyId

def createColumnFamily (db : DBImpl) (name : Bytes) : Option DBImpl :=
  if name ≠ kDefaultColumnFamilyName ∧ ∀ cf ∈ db.cfs, cf.dropped = false → cf.name ≠ name then
    some { db with
      creating := db.creating ++ [⟨db.nextFamilyId, name, false⟩]
      nextFamilyId := uint32 (db.nextFamilyId + 1) }
  else none

def commitColumnFamily (db : DBImpl) (i : Nat) (cf : ColumnFamily) : DBImpl :=
  { db with cfs := insert cf db.cfs, creating := db.creating.eraseIdx i }

def dropColumnFamily (db : DBImpl) (id : Nat) : DBImpl :=
  { db with cfs := db.cfs.map fun cf => if cf.id = id then { cf with dropped := true } else cf }

end DBImpl

namespace State

def openDB (families : List (Nat × Bytes)) (nextId : Nat) : DBImpl :=
  let all := (0, kDefaultColumnFamilyName) :: families
  ⟨all.foldl (fun cfs f => DBImpl.insert ⟨f.1, f.2, false⟩ cfs) [], [], nextId⟩

def stepDB (s : State) (db : DBImpl) : Action → Option State
  | .openDB => none
  | .createColumnFamily name => (db.createColumnFamily name).map fun db => { s with db := some db }
  | .failCreate i =>
    if i < db.creating.length then
      some { s with db := some { db with creating := db.creating.eraseIdx i } }
    else none
  | .commitColumnFamily i =>
    (db.creating[i]?).map fun cf =>
      let db := db.commitColumnFamily i cf
      { s with file := some db.write, db := some db, created := s.created ++ [(cf.id, cf.name)] }
  | .dropColumnFamily id =>
    if id ≠ 0 ∧ ∃ cf ∈ db.cfs, cf.id = id ∧ cf.dropped = false then
      let db := db.dropColumnFamily id
      some { s with file := some db.write, db := some db, dropped := s.dropped ++ [id] }
    else none
  | .destroyColumnFamilyHandle id =>
    some { s with
      db := some { db with cfs := db.cfs.filter fun cf => ¬ (cf.id = id ∧ cf.dropped = true) } }
  | .crash => some { s with db := none }

def step (s : State) (a : Action) : Option State :=
  match s.db with
  | some db => s.stepDB db a
  | none =>
    match a, readFamilies s.file with
    | .openDB, .ok (families, nextId) => some { s with db := some (openDB families nextId) }
    | _, _ => none

/-- A creation is of a name in one line, with an id that is not the last. -/
def Plain (s : State) : Action → Prop
  | .createColumnFamily name => '\n' ∉ name ∧ ∀ db ∈ s.db, db.nextFamilyId + 1 < 2 ^ 32
  | _ => True

instance (s : State) : ∀ a, Decidable (s.Plain a)
  | .createColumnFamily name =>
    inferInstanceAs (Decidable ('\n' ∉ name ∧ ∀ db ∈ s.db, db.nextFamilyId + 1 < 2 ^ 32))
  | .openDB | .failCreate _ | .commitColumnFamily _ | .dropColumnFamily _
  | .destroyColumnFamilyHandle _ | .crash => inferInstanceAs (Decidable True)

end State

def system : Transition.System State Action where
  init s := s = ⟨none, none, [], []⟩
  step := State.step

end LevelDb.Catalog
