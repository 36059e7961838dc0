import LevelDb.Db.LookupState
import LevelDb.Lib.Cursor
import LevelDb.Lib.Transition

/-!
# `DBIter` (`db/db_iter.cc`)

The iterator a reader gets: over the internal iterator of its family, which yields every entry in
internal-key order, it shows the keys that are present at the reader's sequence number with their
values. Moving forward it stands at the entry it shows, or past all entries of the key when it had
to merge operands; moving backwards it stands before all entries of the key.
-/

namespace LevelDb

variable {K V : Type} [LinearOrder K]

inductive Direction
  | forward
  | reverse
  deriving DecidableEq

/-- What a `DBIter` is made with. -/
structure DBIterSource (K V : Type) [LinearOrder K] where
  /-- What the internal iterator yields. -/
  internal : Table K V
  sequence : Nat
  mergeOp : Option (MergeOperator K V)
  rangeDels : Option (RangeDelView K V)

/-- The default key and value are the empty strings that the saved ones are cleared to. -/
structure DBIter (K V : Type) where
  iter : Option (Cursor (Entry K V))
  direction : Direction
  valid : Bool
  merged : Bool
  /-- The current key when the direction is reverse. -/
  savedKey : K
  /-- The current value when the direction is reverse or `merged`. -/
  savedValue : V
  /-- The current key when `merged`. -/
  mergedKey : K
  status : Status

namespace DBIter

variable [Inhabited K] [Inhabited V] (src : DBIterSource K V)

/-- `NewDBIterator`. -/
def new : DBIter K V := ⟨none, .forward, false, false, default, default, default, .ok⟩

def key (it : DBIter K V) : Option K :=
  match it.direction with
  | .forward => if it.merged then some it.mergedKey else it.iter.map (·.here.key.userKey)
  | .reverse => some it.savedKey

def value (it : DBIter K V) : Option V :=
  if it.direction = .forward ∧ it.merged = false then it.iter.map (·.here.value)
  else some it.savedValue

/-- `EffectiveType`: an entry covered by a range tombstone is a deletion. -/
def effectiveType (e : Entry K V) : ValueType :=
  if e.key.type ≠ .deletion ∧
      src.rangeDels.elim false (·.covers e.key.userKey e.key.sequence src.sequence) = true then
    .deletion
  else e.key.type

/-- `FullMerge`: sets `valid_`. -/
def fullMerge (it : DBIter K V) (base : Option V) (operands : List V) : DBIter K V :=
  let key := if it.direction = .forward then it.mergedKey else it.savedKey
  match src.mergeOp with
  | none =>
    { it with
      valid := false, status := .invalidArgument "merge operand but no merge_operator" }
  | some op =>
    match op.fullMerge key base operands with
    | none => { it with valid := false, status := .corruption "merge operator failed" }
    | some result => { it with valid := true, savedValue := result }

/-! ## Moving forward -/

/-- The loop of `MergeForward` over the entries after the newest: the operands, newest first, the
base if there is one, and where the entries of the key end. -/
def mergeLoop (userKey : K) (operands : List V) (base : Option V) (settled : Bool)
    (before : List (Entry K V)) : List (Entry K V) →
      List V × Option V × Option (Cursor (Entry K V))
  | [] => (operands, base, none)
  | e :: after =>
    if e.key.userKey ≠ userKey then (operands, base, some ⟨before, e, after⟩)
    else if settled then mergeLoop userKey operands base true (e :: before) after
    else
      match effectiveType src e with
      | .merge => mergeLoop userKey (operands ++ [e.value]) base false (e :: before) after
      | .value => mergeLoop userKey operands (some e.value) true (e :: before) after
      | _ => mergeLoop userKey operands base true (e :: before) after

/-- `MergeForward` at the newest visible entry of a key, an operand. -/
def mergeForward (it : DBIter K V) (before : List (Entry K V)) (e : Entry K V)
    (after : List (Entry K V)) : DBIter K V :=
  let (operands, base, iter) :=
    mergeLoop src e.key.userKey [e.value] none false (e :: before) after
  fullMerge src { it with mergedKey := e.key.userKey, iter, merged := true } base operands.reverse

/-- `FindNextUserEntry`, whose `skip` is always `saved_key_`: from the place between the two parts
on. -/
def findNextUserEntry (it : DBIter K V) (skipping : Bool) (before : List (Entry K V)) :
    List (Entry K V) → DBIter K V
  | [] => { it with iter := none, savedKey := default, valid := false }
  | e :: after =>
    if e.key.sequence ≤ src.sequence then
      match effectiveType src e with
      | .deletion =>
        -- all older entries of the key are hidden
        findNextUserEntry { it with savedKey := e.key.userKey } true (e :: before) after
      | .rangeDeletion => findNextUserEntry it skipping (e :: before) after
      | _ =>
        if skipping = true ∧ e.key.userKey ≤ it.savedKey then
          findNextUserEntry it skipping (e :: before) after
        else if e.key.type = .merge then
          mergeForward src { it with savedKey := default } before e after
        else { it with iter := some ⟨before, e, after⟩, valid := true, savedKey := default }
    else findNextUserEntry it skipping (e :: before) after

/-- `FindNextUserEntry(skipping, &saved_key_)` if the internal iterator is valid. If it is not,
`Next`, which skips, clears the saved key. -/
def findNextFrom (it : DBIter K V) (skipping : Bool) :
    Option (Cursor (Entry K V)) → DBIter K V
  | none =>
    { it with
      iter := none, valid := false, savedKey := if skipping then default else it.savedKey }
  | some c => findNextUserEntry src it skipping c.before (c.here :: c.after)

/-- `Next`. -/
def next (it : DBIter K V) : DBIter K V :=
  match it.direction with
  | .reverse =>
    -- the internal iterator is just before the entries of the key
    findNextFrom src { it with direction := .forward } true
      (it.iter.elim (Cursor.first src.internal.entries) (·.next))
  | .forward =>
    if it.merged then
      -- the internal iterator is past the entries of the key
      findNextFrom src { it with merged := false, savedKey := it.mergedKey, savedValue := default }
        true it.iter
    else
      match it.iter with
      | none => it
      | some c => findNextFrom src { it with savedKey := c.here.key.userKey } true c.next

/-! ## Moving backwards -/

/-- What the loop of `FindPrevUserEntry` keeps: what the newest entry seen so far of the saved key
makes of it, and the operands, oldest first, on top of the saved value if `hasBase`. -/
structure Found (K V : Type) where
  valueType : ValueType
  hasBase : Bool
  operands : List V
  savedKey : K
  savedValue : V

/-- The next newer entry. -/
def Found.see (s : Found K V) (e : Entry K V) : Found K V :=
  match effectiveType src e with
  | .deletion => ⟨.deletion, false, [], default, default⟩
  | .value => ⟨.value, true, [], e.key.userKey, e.value⟩
  | .merge =>
    if s.valueType = .deletion then ⟨.merge, false, [e.value], e.key.userKey, default⟩
    else { s with valueType := .merge, operands := s.operands ++ [e.value] }
  | .rangeDeletion => s

/-- The loop of `FindPrevUserEntry`, backwards from the place between the two parts, until an entry
of a smaller key when there is something to show. -/
def findPrevLoop (s : Found K V) (after : List (Entry K V)) :
    List (Entry K V) → Found K V × Option (Cursor (Entry K V))
  | [] => (s, none)
  | e :: before =>
    if e.key.sequence ≤ src.sequence then
      if s.valueType ≠ .deletion ∧ e.key.userKey < s.savedKey then (s, some ⟨before, e, after⟩)
      else findPrevLoop (s.see src e) (e :: after) before
    else findPrevLoop s (e :: after) before

/-- `FindPrevUserEntry`. -/
def findPrevUserEntry (it : DBIter K V) : DBIter K V :=
  let start : Found K V := ⟨.deletion, false, [], it.savedKey, it.savedValue⟩
  let (s, iter) := it.iter.elim (start, none) fun c =>
    findPrevLoop src start c.after (c.here :: c.before)
  let it := { it with merged := false, iter, savedKey := s.savedKey, savedValue := s.savedValue }
  if s.valueType = .deletion then
    { it with valid := false, savedKey := default, savedValue := default, direction := .forward }
  else if s.operands.isEmpty then { it with valid := true }
  else if s.hasBase then fullMerge src { it with savedValue := default } (some s.savedValue) s.operands
  else fullMerge src it none s.operands

/-- Back to the last entry of a smaller key. -/
def skipBack (userKey : K) (after : List (Entry K V)) :
    List (Entry K V) → Option (Cursor (Entry K V))
  | [] => none
  | e :: before =>
    if userKey ≤ e.key.userKey then skipBack userKey (e :: after) before
    else some ⟨before, e, after⟩

/-- `Prev`. -/
def prev (it : DBIter K V) : DBIter K V :=
  match it.direction with
  | .reverse => findPrevUserEntry src it
  | .forward =>
    let (it, place) :=
      if it.merged then
        ({ it with merged := false, savedKey := it.mergedKey },
          it.iter.or (Cursor.last src.internal.entries))
      else (it.iter.elim it fun c => { it with savedKey := c.here.key.userKey }, it.iter)
    match place.bind fun c => skipBack it.savedKey c.after (c.here :: c.before) with
    | none => { it with iter := none, valid := false, savedKey := default, savedValue := default }
    | some c => findPrevUserEntry src { it with iter := some c, direction := .reverse }

/-! ## Seeking -/

/-- `Seek`; the source keeps the internal key to seek in `saved_key_` meanwhile. -/
def seek (it : DBIter K V) (target : K) : DBIter K V :=
  let it := { it with
    direction := .forward, merged := false, savedKey := target, savedValue := default }
  findNextFrom src it false
    (Cursor.seek (fun e => e.key < lookupKey target src.sequence) src.internal.entries)

def seekToFirst (it : DBIter K V) : DBIter K V :=
  findNextFrom src { it with direction := .forward, merged := false, savedValue := default } false
    (Cursor.first src.internal.entries)

def seekToLast (it : DBIter K V) : DBIter K V :=
  findPrevUserEntry src
    { it with
      direction := .reverse, merged := false, savedValue := default
      iter := Cursor.last src.internal.entries }

end DBIter

/-! ## Calls -/

/-- The calls that move an iterator. -/
inductive IterCall (K : Type)
  | seek (target : K)
  | seekToFirst
  | seekToLast
  | next
  | prev

/-- The iterator and the calls on it; `Next` and `Prev` assert that it is valid. -/
def DBIter.system [Inhabited K] [Inhabited V] (src : DBIterSource K V) :
    Transition.System (DBIter K V) (IterCall K) where
  init it := it = .new
  step it
    | .seek target => some (it.seek src target)
    | .seekToFirst => some (it.seekToFirst src)
    | .seekToLast => some (it.seekToLast src)
    | .next => if it.valid then some (it.next src) else none
    | .prev => if it.valid then some (it.prev src) else none

/-- What a call leaves to see: the key and the value if the iterator is valid. -/
def DBIter.shown (it : DBIter K V) : Option (K × V) :=
  if it.valid then it.key.bind fun k => it.value.map fun v => (k, v) else none

end LevelDb
