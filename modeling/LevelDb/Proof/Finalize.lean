import LevelDb.Db.PickCompaction
import LevelDb.Proof.Levels
import Mathlib.Algebra.BigOperators.Group.List.Basic

/-!
# The estimate of hidden data

`Finalize` adds up, tombstone by tombstone, the deeper files a file's tombstones overlap. A file
that two of them overlap is counted twice, so the sum is not an estimate of the data that is there:
it stays within the files, each counted once, exactly when none of them counts for two tombstones
(`covered_le_iff`). Then what is compacted for its tombstones is above as much data as the threshold
asks for.
-/

namespace LevelDb

variable {K V : Type} [LinearOrder K]

/-! ## Counting each file once -/

/-- The file and the tombstone have user keys in common. -/
def RangeTombstone.OverlapsFile (t : RangeTombstone K) (g : FileMetaData K V) : Prop :=
  t.beginKey ≤ g.largest.userKey ∧ g.smallest.userKey < t.endKey

/-- The file is inside the tombstone. -/
def RangeTombstone.Contains (t : RangeTombstone K) (g : FileMetaData K V) : Prop :=
  t.beginKey ≤ g.smallest.userKey ∧ g.largest.userKey < t.endKey

instance (t : RangeTombstone K) (g : FileMetaData K V) : Decidable (t.OverlapsFile g) :=
  instDecidableAnd

instance (t : RangeTombstone K) (g : FileMetaData K V) : Decidable (t.Contains g) :=
  instDecidableAnd

/-- What tombstones hide of a file: all of it inside one of them, half of it where one overlaps. -/
def hiddenOnce (tombstones : List (RangeTombstone K)) (g : FileMetaData K V) : Nat :=
  if ∃ t ∈ tombstones, t.Contains g then g.fileSize
  else if ∃ t ∈ tombstones, t.OverlapsFile g then g.fileSize / 2
  else 0

/-- What they hide below a level, each file counted once. -/
def Version.hiddenBelow (v : Version K V) (level : Nat) (tombstones : List (RangeTombstone K)) :
    Nat :=
  ((v.deeperFiles level).map (hiddenOnce tombstones)).sum

/-- The size of the files below a level that they overlap. -/
def Version.overlappedBelow (v : Version K V) (level : Nat)
    (tombstones : List (RangeTombstone K)) : Nat :=
  totalFileSize ((v.deeperFiles level).filter fun g => ∃ t ∈ tombstones, t.OverlapsFile g)

theorem RangeTombstone.Contains.overlapsFile {t : RangeTombstone K} {g : FileMetaData K V}
    (h : t.Contains g) : t.OverlapsFile g := by
  have := userKey_le g.smallest_le_largest
  exact ⟨h.1.trans this, this.trans_lt h.2⟩

theorem RangeTombstone.hides_eq (t : RangeTombstone K) (g : FileMetaData K V) :
    t.hides g = if t.Contains g then g.fileSize else if t.OverlapsFile g then g.fileSize / 2
      else 0 := by
  unfold RangeTombstone.hides
  by_cases hover : t.OverlapsFile g
  · have hnot : ¬ (g.largest.userKey < t.beginKey ∨ t.endKey ≤ g.smallest.userKey) := by
      rintro (h | h)
      · exact absurd h (not_lt.2 hover.1)
      · exact absurd hover.2 (not_lt.2 h)
    rw [if_neg hnot, if_pos hover]
    rfl
  · have hout : g.largest.userKey < t.beginKey ∨ t.endKey ≤ g.smallest.userKey := by
      rw [RangeTombstone.OverlapsFile, not_and_or, not_le, not_lt] at hover
      exact hover
    rw [if_pos hout, if_neg hover, if_neg (mt Contains.overlapsFile hover)]

theorem hiddenOnce_cons (t : RangeTombstone K) (ts : List (RangeTombstone K))
    (g : FileMetaData K V) : hiddenOnce (t :: ts) g = max (t.hides g) (hiddenOnce ts g) := by
  have hhalf : g.fileSize / 2 ≤ g.fileSize := Nat.div_le_self _ _
  simp only [hiddenOnce, t.hides_eq]
  split_ifs <;> simp_all

/-- What the tombstones count for a file together is what they hide of it, if one at most counts,
and more otherwise. -/
theorem sum_hides (ts : List (RangeTombstone K)) (g : FileMetaData K V) :
    hiddenOnce ts g ≤ (ts.map (·.hides g)).sum ∧
      ((ts.map (·.hides g)).sum ≤ hiddenOnce ts g ↔
        (ts.filter fun t => 0 < t.hides g).length ≤ 1) ∧
      ((ts.map (·.hides g)).sum = 0 ↔ (ts.filter fun t => 0 < t.hides g).length = 0) := by
  induction ts with
  | nil => simp [hiddenOnce]
  | cons t ts ih =>
    obtain ⟨hle, hiff, hzero⟩ := ih
    rw [hiddenOnce_cons, List.map_cons, List.sum_cons, List.filter_cons]
    by_cases hpos : 0 < t.hides g
    · simp only [hpos, decide_true, if_true, List.length_cons]
      omega
    · simp only [hpos, decide_false, Bool.false_eq_true, if_false]
      omega

theorem sum_map_comm {α β : Type} (as : List α) (bs : List β) (w : α → β → Nat) :
    (as.map fun a => (bs.map (w a)).sum).sum = (bs.map fun b => (as.map (w · b)).sum).sum := by
  induction as with
  | nil => simp
  | cons a as ih => simp [ih, List.sum_map_add]

/-- Sums of terms that are no smaller are no larger only if all terms are the same. -/
theorem sum_map_le_iff {α : Type} {f h : α → Nat} :
    ∀ {l : List α}, (∀ a ∈ l, f a ≤ h a) →
      (l.map f).sum ≤ (l.map h).sum ∧
        ((l.map h).sum ≤ (l.map f).sum ↔ ∀ a ∈ l, h a ≤ f a)
  | [], _ => by simp
  | a :: l, hle => by
    obtain ⟨ih, hiff⟩ := sum_map_le_iff fun b hb => hle b (List.mem_cons_of_mem a hb)
    have ha := hle a List.mem_cons_self
    simp only [List.map_cons, List.sum_cons, List.forall_mem_cons, ← hiff]
    omega

namespace Version

variable (v : Version K V)

theorem covered_eq (level : Nat) (ts : List (RangeTombstone K)) :
    v.covered level ts = ((v.deeperFiles level).map fun g => (ts.map (·.hides g)).sum).sum :=
  sum_map_comm ts (v.deeperFiles level) fun t g => t.hides g

theorem hiddenOnce_le (ts : List (RangeTombstone K)) (g : FileMetaData K V) :
    hiddenOnce ts g ≤ if ∃ t ∈ ts, t.OverlapsFile g then g.fileSize else 0 := by
  have hhalf : g.fileSize / 2 ≤ g.fileSize := Nat.div_le_self _ _
  unfold hiddenOnce
  by_cases hin : ∃ t ∈ ts, t.Contains g
  · obtain ⟨t, ht, hc⟩ := hin
    have hover : ∃ t ∈ ts, t.OverlapsFile g := ⟨t, ht, hc.overlapsFile⟩
    rw [if_pos ⟨t, ht, hc⟩, if_pos hover]
  · rw [if_neg hin]
    split_ifs <;> simp [hhalf]

theorem hiddenBelow_le (level : Nat) (ts : List (RangeTombstone K)) :
    v.hiddenBelow level ts ≤ v.overlappedBelow level ts := by
  unfold hiddenBelow overlappedBelow totalFileSize
  induction v.deeperFiles level with
  | nil => simp
  | cons g gs ih =>
    have hg := hiddenOnce_le ts g
    rw [List.map_cons, List.sum_cons, List.filter_cons]
    by_cases hover : ∃ t ∈ ts, t.OverlapsFile g
    · simp only [hover, if_true, decide_true, List.map_cons, List.sum_cons] at hg ⊢
      omega
    · simp only [hover, if_false, decide_false, Bool.false_eq_true] at hg ⊢
      omega

/-! ## The file that is noted -/

/-- **What is noted** is a file above the last level whose tombstones, as read, count for at least
the threshold. -/
structure Noted (read : FileMetaData K V → Option (List (RangeTombstone K)))
    (c : Nat × FileMetaData K V) : Prop where
  level_lt : c.1 + 1 < kNumLevels
  mem : c.2 ∈ v.files c.1
  threshold : ∃ tombstones, read c.2 = some tombstones ∧
    c.2.hiddenThreshold ≤ v.covered c.1 tombstones

theorem noted_foldl {read : FileMetaData K V → Option (List (RangeTombstone K))}
    {l : List (Nat × FileMetaData K V)}
    (hl : ∀ c ∈ l, c.1 + 1 < kNumLevels ∧ c.2 ∈ v.files c.1)
    {best : Nat × Option (Nat × FileMetaData K V)} (hbest : ∀ c, best.2 = some c → v.Noted read c)
    {c : Nat × FileMetaData K V} (h : (l.foldl (v.noteFile read) best).2 = some c) :
    v.Noted read c := by
  induction l generalizing best with
  | nil => exact hbest c h
  | cons a l ih =>
    rw [List.foldl_cons] at h
    refine ih (fun c hc => hl c (List.mem_cons_of_mem a hc)) (fun c hc => ?_) h
    obtain ⟨hlevel, hmem⟩ := hl a List.mem_cons_self
    unfold noteFile at hc
    split at hc
    · split at hc
      · exact hbest c hc
      · rename_i tombstones hread
        simp only at hc
        split at hc
        · rename_i hcovered
          cases hc
          exact ⟨hlevel, hmem, tombstones, hread, hcovered.1⟩
        · exact hbest c hc
    · exact hbest c hc

theorem mem_upperFiles {c : Nat × FileMetaData K V} (h : c ∈ v.upperFiles) :
    c.1 + 1 < kNumLevels ∧ c.2 ∈ v.files c.1 := by
  obtain ⟨level, hlevel, hc⟩ := List.mem_flatMap.1 h
  obtain ⟨f, hf, rfl⟩ := List.mem_map.1 hc
  rw [List.mem_range] at hlevel
  exact ⟨by omega, hf⟩

theorem noted {read : FileMetaData K V → Option (List (RangeTombstone K))}
    {c : Nat × FileMetaData K V} (h : v.rdFileToCompact read = some c) : v.Noted read c :=
  v.noted_foldl (fun _ hc => v.mem_upperFiles hc) (by simp) h

/-- **The estimate is within the data** below a file exactly when no deeper file counts for two of
its tombstones; and then a file that is compacted for its tombstones overlaps as much data as the
threshold says. -/
theorem covered_le_iff (level : Nat) (f : FileMetaData K V) (tombstones : List (RangeTombstone K)) :
    (v.covered level tombstones ≤ v.hiddenBelow level tombstones ∧
      ∀ read : FileMetaData K V → Option (List (RangeTombstone K)), read f = some tombstones →
        v.rdFileToCompact read = some (level, f) →
          max (2 ^ 20) (2 * f.fileSize) ≤ v.overlappedBelow level tombstones) ↔
      ∀ g ∈ v.deeperFiles level, (tombstones.filter fun t => 0 < t.hides g).length ≤ 1 := by
  have hsum := sum_map_le_iff fun g (_ : g ∈ v.deeperFiles level) => (sum_hides tombstones g).1
  have hiff : v.covered level tombstones ≤ v.hiddenBelow level tombstones ↔
      ∀ g ∈ v.deeperFiles level, (tombstones.filter fun t => 0 < t.hides g).length ≤ 1 := by
    rw [covered_eq, hiddenBelow, hsum.2]
    exact forall₂_congr fun g _ => (sum_hides tombstones g).2.1
  refine ⟨fun h => hiff.1 h.1, fun h => ⟨hiff.2 h, fun read hread hnoted => ?_⟩⟩
  obtain ⟨ts, hts, hthreshold⟩ := (v.noted hnoted).threshold
  rw [hread] at hts
  cases hts
  exact hthreshold.trans ((hiff.2 h).trans (v.hiddenBelow_le level tombstones))

end Version

/-! ## A range deleted twice -/

/-- The range from 1 to 9 deleted twice. -/
def deletedTwice : FileMetaData Nat Nat where
  number := 7
  fileSize := 1000
  smallest := ⟨1, 11, .rangeDeletion⟩
  largest := ⟨9, kMaxSequenceNumber, .rangeDeletion⟩
  table := .empty
  tombstones := [⟨1, 9, 10, 0⟩, ⟨1, 9, 11, 0⟩]
  ranges := by decide
  bounds := by decide

/-- A file of 600 KiB with the keys 3 and 5. -/
def underneath : FileMetaData Nat Nat where
  number := 5
  fileSize := 600 * 2 ^ 10
  smallest := ⟨3, 8, .value⟩
  largest := ⟨5, 9, .value⟩
  table := ⟨[⟨⟨3, 8, .value⟩, 30⟩, ⟨⟨5, 9, .value⟩, 50⟩], by decide, by decide⟩
  tombstones := []
  ranges := by simp
  bounds := by decide

def twiceAbove : Version Nat Nat where
  files
    | 0 => [deletedTwice]
    | 2 => [underneath]
    | _ => []

/-- The file below counts for both tombstones: the sum is twice its size, and with it more than the
threshold that its size is below. -/
theorem not_covered_le : ¬ ∀ (v : Version Nat Nat) (level : Nat), ∀ f ∈ v.files level,
    v.covered level f.tombstones ≤ v.hiddenBelow level f.tombstones ∧
      ∀ read : FileMetaData Nat Nat → Option (List (RangeTombstone Nat)),
        read f = some f.tombstones → v.rdFileToCompact read = some (level, f) →
          max (2 ^ 20) (2 * f.fileSize) ≤ v.overlappedBelow level f.tombstones := by
  intro h
  obtain ⟨-, hread⟩ := h twiceAbove 0 deletedTwice (by simp [twiceAbove])
  have hnoted : twiceAbove.rdFileToCompact (fun f => some f.tombstones) =
      some (0, deletedTwice) := rfl
  exact absurd (hread _ rfl hnoted) (by decide)

end LevelDb
