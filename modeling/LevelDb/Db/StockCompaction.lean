import LevelDb.Db.Compaction

/-!
# The loop of `DoCompactionWork` before the extensions (`db/db_impl.cc`)

It reads one entry at a time and drops it when the previous entry of its user key is at or below the
smallest snapshot already, or when it is an obsolete deletion marker.
-/

namespace LevelDb.Compaction

variable {K V : Type} [LinearOrder K] (c : Compaction K V)

/-- Whether the entry is dropped; `last` is the sequence number of the previous entry of its user
key. -/
def stockDrop (last : Nat) (e : Entry K V) : Prop :=
  -- hidden by a newer entry for the same user key
  last ≤ c.smallestSnapshot ∨
    e.key.type = .deletion ∧ e.key.sequence ≤ c.smallestSnapshot ∧
      c.isBaseLevelForKey e.key.userKey = true

instance (last : Nat) (e : Entry K V) : Decidable (c.stockDrop last e) := instDecidableOr

/-- What the loop keeps, from `current_user_key` and `last_sequence_for_key` on. -/
def stockLoop : Option K → Nat → List (Entry K V) → List (Entry K V)
  | _, _, [] => []
  | current, last, e :: es =>
    let last := if current = some e.key.userKey then last else kMaxSequenceNumber
    if c.stockDrop last e then stockLoop (some e.key.userKey) e.key.sequence es
    else e :: stockLoop (some e.key.userKey) e.key.sequence es

/-- What the stock compaction keeps of the input. -/
def stockEntries : List (Entry K V) := c.stockLoop none kMaxSequenceNumber c.input

end LevelDb.Compaction
