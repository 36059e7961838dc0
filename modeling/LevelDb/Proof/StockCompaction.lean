import LevelDb.Db.StockCompaction
import LevelDb.Proof.Compaction
import Mathlib.Data.List.Find

/-!
# The new compaction against the stock one

On puts and deletions alone, a group keeps the first entry of each stripe, but for an obsolete
deletion marker (`compactGroup_plain`); the stock loop keeps those too, and what else is above the
smallest snapshot (`firsts_sublist`). A reader at a live snapshot, or above the last sequence number,
finds the same entry of each key in both (`find?_firsts`).
-/

namespace LevelDb.Compaction

open Runs

variable {K V : Type} [LinearOrder K] {c : Compaction K V}

/-- A database that never used the extensions, and what a compaction may rely on there. -/
structure Plain (c : Compaction K V) : Prop where
  types : ∀ e ∈ c.input, e.key.type = .value ∨ e.key.type = .deletion
  tombstones : c.inputTombstones = []
  snapshots : c.snapshots.Pairwise (· ≤ ·)
  snapshots_le : ∀ s ∈ c.snapshots, s ≤ c.lastSequence
  seqs_le : ∀ e ∈ c.input, e.key.sequence ≤ c.lastSequence
  last_lt : c.lastSequence < kMaxSequenceNumber

/-! ## The first entry of each stripe -/

/-- The first entry of each stripe, where the entry before was of stripe `prev`. -/
def firsts (c : Compaction K V) : Option Nat → List (Entry K V) → List (Entry K V)
  | _, [] => []
  | prev, e :: es =>
    if prev = some (c.stripeOf e.key.sequence) then firsts c prev es
    else e :: firsts c (some (c.stripeOf e.key.sequence)) es

/-- An obsolete deletion marker. -/
def obsolete (c : Compaction K V) (e : Entry K V) : Bool :=
  decide (e.key.type = .deletion ∧ c.stripeOf e.key.sequence = 0 ∧
    c.isBaseLevelForKey e.key.userKey = true)

theorem firsts_append {stripe : Nat} {s : List (Entry K V)}
    (h : ∀ e ∈ s, c.stripeOf e.key.sequence = stripe) (es : List (Entry K V)) :
    c.firsts (some stripe) (s ++ es) = c.firsts (some stripe) es := by
  induction s with
  | nil => rfl
  | cons e s ih =>
    rw [List.cons_append, firsts, h e (by simp), if_pos rfl, ih fun e he => h e (by simp [he])]

/-- Nothing is rewritten when there are no tombstones. -/
theorem cover_plain (hc : c.inputTombstones = []) (b : Nat) (e : Entry K V) : c.cover b e = e := by
  have hrd : c.inputRd.covers e.key.userKey e.key.sequence b = false := by
    rw [inputRd, hc]
    rfl
  unfold cover
  rw [if_neg (by simp [hrd])]

/-- A stripe of puts and deletions keeps its newest entry, unless that is an obsolete deletion. -/
theorem compactStripe_plain (hc : c.inputTombstones = []) {base last : Bool} {newest : Entry K V}
    {rest : List (Entry K V)} (htype : newest.key.type = .value ∨ newest.key.type = .deletion)
    (hbase : base = c.isBaseLevelForKey newest.key.userKey) :
    c.compactStripe base last (newest :: rest) = [newest].filter fun e => !c.obsolete e := by
  have hmap : (newest :: rest).map (c.cover (c.bound (c.stripeOf newest.key.sequence))) =
      newest :: rest := by
    conv_rhs => rw [← List.map_id (newest :: rest)]
    exact List.map_congr_left fun e _ => cover_plain hc _ e
  have hmerge : ¬ newest.key.type = .merge := by
    rcases htype with h | h
    · rw [h]; decide
    · rw [h]; decide
  simp only [compactStripe, hmap]
  rw [List.takeWhile_cons_of_neg (by simpa using hmerge),
    List.dropWhile_cons_of_neg (by simpa using hmerge)]
  simp only [List.head?_cons, hbase]
  by_cases hob : newest.key.type = .deletion ∧ c.stripeOf newest.key.sequence = 0 ∧
      c.isBaseLevelForKey newest.key.userKey = true
  · have hobsolete : c.obsolete newest = true := decide_eq_true hob
    rw [if_pos hob, List.filter_cons, hobsolete]
    rfl
  · have hobsolete : c.obsolete newest = false := decide_eq_false hob
    rw [if_neg hob, List.filter_cons, hobsolete]
    rfl

theorem compactStripes_plain (hc : c.inputTombstones = []) {base : Bool}
    {stripes : List (List (Entry K V))} (hne : ∀ s ∈ stripes, s ≠ [])
    (htype : ∀ s ∈ stripes, ∀ e ∈ s, e.key.type = .value ∨ e.key.type = .deletion)
    (hbase : ∀ s ∈ stripes, ∀ e ∈ s, base = c.isBaseLevelForKey e.key.userKey)
    (heq : ∀ s ∈ stripes, ∀ a ∈ s, ∀ b ∈ s, c.stripeKey a = c.stripeKey b)
    (hup : stripes.Pairwise fun s s' => ∀ a ∈ s, ∀ b ∈ s', c.stripeKey a < c.stripeKey b)
    {prev : Option Nat}
    (hprev : ∀ s ∈ stripes, ∀ e ∈ s, prev ≠ some (c.stripeOf e.key.sequence)) :
    c.compactStripes base stripes =
      (c.firsts prev stripes.flatten).filter fun e => !c.obsolete e := by
  induction stripes generalizing prev with
  | nil => rfl
  | cons s stripes ih =>
    obtain ⟨newest, rest, rfl⟩ := List.exists_cons_of_ne_nil (hne s (by simp))
    rw [List.pairwise_cons] at hup
    have hsame : ∀ e ∈ rest, c.stripeOf e.key.sequence = c.stripeOf newest.key.sequence :=
      fun e he => OrderDual.toDual_inj.1
        (heq (newest :: rest) (by simp) e (by simp [he]) newest (by simp))
    have hih := ih (fun s hs => hne s (by simp [hs])) (fun s hs => htype s (by simp [hs]))
      (fun s hs => hbase s (by simp [hs])) (fun s hs => heq s (by simp [hs])) hup.2
      fun s hs e he (h : some (c.stripeOf newest.key.sequence) = _) => by
        have hlt := hup.1 s hs newest (by simp) e he
        exact absurd (congrArg OrderDual.toDual (Option.some.inj h)) hlt.ne
    have hin : newest :: rest ∈ (newest :: rest) :: stripes := List.mem_cons_self
    have hnewest : newest ∈ newest :: rest := List.mem_cons_self
    rw [compactStripes, compactStripe_plain hc (htype _ hin newest hnewest)
      (hbase _ hin newest hnewest), hih, List.flatten_cons, List.cons_append, firsts,
      if_neg (hprev _ hin newest hnewest), firsts_append hsame, List.filter_cons,
      List.filter_cons]
    split
    · rfl
    · rfl

/-- **A group of puts and deletions** keeps the first entry of each stripe, but for an obsolete
deletion marker. -/
theorem compactGroup_plain (hc : c.inputTombstones = []) {group : List (Entry K V)}
    (htype : ∀ e ∈ group, e.key.type = .value ∨ e.key.type = .deletion)
    (hkey : ∀ a ∈ group, ∀ b ∈ group, a.key.userKey = b.key.userKey)
    (hdesc : group.Pairwise fun a b => b.key.sequence ≤ a.key.sequence) :
    c.compactGroup group = (c.firsts none group).filter fun e => !c.obsolete e := by
  cases group with
  | nil => rfl
  | cons first rest =>
    have hsorted : (first :: rest).Pairwise fun a b => c.stripeKey a ≤ c.stripeKey b :=
      hdesc.imp fun {a b} hle => OrderDual.toDual_le_toDual.2 (stripeOf_mono c hle)
    have hplain := @compactStripes_plain _ _ _ c hc (c.isBaseLevelForKey first.key.userKey)
      (runs c.stripeKey (first :: rest)) (fun s hs => run_ne_nil hs)
      (fun s hs e he => htype e (mem_of_mem_run hs he))
      (fun s hs e he => by rw [hkey first (by simp) e (mem_of_mem_run hs he)])
      (fun s hs a ha b hb => eq_of_mem_run hs ha hb) (runs_pairwise hsorted) none
      (fun s hs e he => nofun)
    rw [compactGroup, hplain, flatten_runs]

/-! ## One group of the stock loop -/

/-- The loop over the entries of one user key. -/
def stockGroup (c : Compaction K V) : Nat → List (Entry K V) → List (Entry K V)
  | _, [] => []
  | last, e :: es =>
    if c.stockDrop last e then stockGroup c e.key.sequence es
    else e :: stockGroup c e.key.sequence es

/-- The entries that the smallest snapshot sees are those of the oldest stripe. -/
theorem stripeOf_eq_zero {s : Nat} (hs : s ≤ c.lastSequence) :
    c.stripeOf s = 0 ↔ s ≤ c.smallestSnapshot := by
  unfold stripeOf smallestSnapshot
  cases hsn : c.snapshots with
  | nil => simpa using hs
  | cons a as =>
    rw [List.findIdx_cons, List.head?_cons, Option.getD_some]
    by_cases h : s ≤ a
    · simp [h]
    · simp [h]

/-- What is known of the entries of a group still to come: they are of the key, seen by `lastSequence`,
and not above the entry before, whose sequence number is `last`. -/
structure Coming (c : Compaction K V) (last : Nat) (es : List (Entry K V)) : Prop where
  le_last : ∀ e ∈ es, e.key.sequence ≤ last
  le : ∀ e ∈ es, e.key.sequence ≤ c.lastSequence
  desc : es.Pairwise fun a b => b.key.sequence ≤ a.key.sequence

theorem Coming.cons {last : Nat} {e : Entry K V} {es : List (Entry K V)}
    (h : Coming c last (e :: es)) : Coming c e.key.sequence es :=
  ⟨(List.pairwise_cons.1 h.desc).1, fun e he => h.le e (by simp [he]), (List.pairwise_cons.1 h.desc).2⟩

/-- The stripe and the sequence number of the entry before, if there is one. -/
def Before (c : Compaction K V) (prev : Option Nat) (last : Nat) : Prop :=
  prev = none ∧ c.smallestSnapshot < last ∨ prev = some (c.stripeOf last) ∧ last ≤ c.lastSequence

/-- What the stock loop drops for what is before it is not the first of its stripe. -/
theorem prev_of_le {prev : Option Nat} {last : Nat} (hb : Before c prev last) {e : Entry K V}
    (hle : e.key.sequence ≤ last) (hsmall : last ≤ c.smallestSnapshot) :
    prev = some (c.stripeOf e.key.sequence) := by
  rcases hb with ⟨-, hlt⟩ | ⟨hprev, hlast⟩
  · omega
  · have hzero := (stripeOf_eq_zero hlast).2 hsmall
    have hle := stripeOf_mono c hle
    rw [hprev]
    congr 1
    omega

/-- **The new compaction keeps no more**: the first of each stripe, obsolete markers apart, is kept
by the stock loop. -/
theorem firsts_sublist {es : List (Entry K V)} {prev : Option Nat} {last : Nat}
    (h : Coming c last es) (hb : Before c prev last) :
    ((c.firsts prev es).filter fun e => !c.obsolete e).Sublist (c.stockGroup last es) := by
  induction es generalizing prev last with
  | nil => exact .refl _
  | cons e es ih =>
    have hle := h.le_last e (by simp)
    have hlast := h.le e (by simp)
    have hnext : Before c (some (c.stripeOf e.key.sequence)) e.key.sequence := .inr ⟨rfl, hlast⟩
    have hih := ih h.cons hnext
    rw [firsts, stockGroup]
    by_cases hprev : prev = some (c.stripeOf e.key.sequence)
    · rw [if_pos hprev, hprev]
      split
      · exact hih
      · exact hih.cons e
    · rw [if_neg hprev, List.filter_cons]
      by_cases hdrop : c.stockDrop last e
      · have hobsolete : c.obsolete e = true := by
          rcases hdrop with hsmall | ⟨htype, hsmall, hbase⟩
          · exact absurd (prev_of_le hb hle hsmall) hprev
          · exact decide_eq_true ⟨htype, (stripeOf_eq_zero hlast).2 hsmall, hbase⟩
        rw [hobsolete, if_pos hdrop]
        exact hih
      · rw [if_neg hdrop]
        split
        · exact hih.cons_cons e
        · exact hih.cons e

/-- Past an entry that the smallest snapshot sees, neither keeps anything. -/
theorem firsts_eq_nil {es : List (Entry K V)} {last : Nat} (h : Coming c last es)
    (hlast : last ≤ c.lastSequence) (hsmall : last ≤ c.smallestSnapshot) :
    c.firsts (some (c.stripeOf last)) es = [] ∧ c.stockGroup last es = [] := by
  induction es generalizing last with
  | nil => exact ⟨rfl, rfl⟩
  | cons e es ih =>
    have hle := h.le_last e (by simp)
    have hprev := prev_of_le (.inr ⟨rfl, hlast⟩) hle hsmall
    obtain ⟨h1, h2⟩ := ih h.cons (hle.trans hlast) (hle.trans hsmall)
    constructor
    · rw [firsts, if_pos hprev, hprev]
      exact h1
    · rw [stockGroup, if_pos (.inl hsmall)]
      exact h2

/-- Without a live snapshot both keep the newest entry, unless that is an obsolete marker. -/
theorem firsts_eq_stockGroup (hnil : c.snapshots = []) {es : List (Entry K V)} {last : Nat}
    (h : Coming c last es) (hb : c.smallestSnapshot < last) :
    ((c.firsts none es).filter fun e => !c.obsolete e) = c.stockGroup last es := by
  cases es with
  | nil => rfl
  | cons e es =>
    have hlast := h.le e (by simp)
    have hsmall : e.key.sequence ≤ c.smallestSnapshot := by
      rw [smallestSnapshot, hnil]
      exact hlast
    obtain ⟨h1, h2⟩ := firsts_eq_nil h.cons hlast hsmall
    rw [firsts, if_neg nofun, h1, stockGroup, h2, List.filter_cons]
    by_cases hobsolete : c.obsolete e = true
    · obtain ⟨htype, -, hbase⟩ := of_decide_eq_true hobsolete
      rw [if_pos (show c.stockDrop last e from .inr ⟨htype, hsmall, hbase⟩), hobsolete]
      rfl
    · have hkeep : ¬ c.stockDrop last e := by
        rintro (hle | ⟨htype, -, hbase⟩)
        · omega
        · exact hobsolete (decide_eq_true ⟨htype, (stripeOf_eq_zero hlast).2 hsmall, hbase⟩)
      rw [if_neg hkeep, if_pos (by simpa using hobsolete)]
      rfl

/-- **The same view**: a reader finds the same entry in what both keep of a group. -/
theorem find?_firsts (hsnap : c.snapshots.Pairwise (· ≤ ·))
    (hmax : c.lastSequence ≤ kMaxSequenceNumber) {r : Nat}
    (hr : r ∈ c.snapshots ∨ c.lastSequence ≤ r) {es : List (Entry K V)} {prev : Option Nat}
    {last : Nat} (h : Coming c last es) (hb : Before c prev last)
    (hlive : prev = some (c.stripeOf last) → r < last) :
    ((c.firsts prev es).filter fun e => !c.obsolete e).find? (fun e => e.key.sequence ≤ r) =
      (c.stockGroup last es).find? fun e => e.key.sequence ≤ r := by
  induction es generalizing prev last with
  | nil => rfl
  | cons e es ih =>
    have hle := h.le_last e (by simp)
    have hlast := h.le e (by simp)
    have hnext : Before c (some (c.stripeOf e.key.sequence)) e.key.sequence := .inr ⟨rfl, hlast⟩
    rw [firsts, stockGroup]
    by_cases hvis : e.key.sequence ≤ r
    · -- the reader sees this entry, and none before it: it is the first of its stripe
      have hprev : prev ≠ some (c.stripeOf e.key.sequence) := by
        intro heq
        rcases hb with ⟨hnone, -⟩ | ⟨hprev, hle'⟩
        · rw [hnone] at heq
          cases heq
        · have hstripe : c.stripeOf e.key.sequence = c.stripeOf last := by
            rw [hprev] at heq
            exact (Option.some.inj heq).symm
          have := le_of_bound hsnap hr hvis
            (by rw [hstripe]; exact le_bound (hle'.trans hmax)) hle'
          exact absurd this (Nat.not_le.2 (hlive hprev))
      rw [if_neg hprev, List.filter_cons]
      by_cases hobsolete : c.obsolete e = true
      · obtain ⟨htype, hzero, hbase⟩ := of_decide_eq_true hobsolete
        have hsmall := (stripeOf_eq_zero hlast).1 hzero
        obtain ⟨h1, h2⟩ := firsts_eq_nil h.cons hlast hsmall
        rw [if_pos (show c.stockDrop last e from .inr ⟨htype, hsmall, hbase⟩), hobsolete, h1, h2]
        rfl
      · have hkeep : ¬ c.stockDrop last e := by
          rintro (hsmall | ⟨htype, hsmall, hbase⟩)
          · exact hprev (prev_of_le hb hle hsmall)
          · exact hobsolete (decide_eq_true ⟨htype, (stripeOf_eq_zero hlast).2 hsmall, hbase⟩)
        rw [if_neg hkeep, if_pos (by simpa using hobsolete), List.find?_cons_of_pos (by simpa using hvis),
          List.find?_cons_of_pos (by simpa using hvis)]
    · -- the reader does not see it
      have hskip : ∀ l : List (Entry K V), ∀ p : Prop, ∀ [Decidable p],
          (if p then l else e :: l).find? (fun e => e.key.sequence ≤ r) =
            l.find? fun e => e.key.sequence ≤ r := by
        intro l p _
        split
        · rfl
        · rw [List.find?_cons_of_neg (by simpa using hvis)]
      have hih := ih h.cons hnext fun _ => Nat.lt_of_not_le hvis
      rw [hskip, ← hih]
      by_cases hprev : prev = some (c.stripeOf e.key.sequence)
      · rw [if_pos hprev, hprev]
      · rw [if_neg hprev, List.filter_cons]
        split
        · rw [List.find?_cons_of_neg (by simpa using hvis)]
        · rfl

/-! ## All groups -/

theorem stockLoop_append {k : K} {g : List (Entry K V)} (hkey : ∀ e ∈ g, e.key.userKey = k)
    (last : Nat) (es : List (Entry K V)) :
    ∃ last', c.stockLoop (some k) last (g ++ es) =
      c.stockGroup last g ++ c.stockLoop (some k) last' es := by
  induction g generalizing last with
  | nil => exact ⟨last, rfl⟩
  | cons e g ih =>
    have hk := hkey e (by simp)
    obtain ⟨last', h⟩ := ih (fun e he => hkey e (by simp [he])) e.key.sequence
    refine ⟨last', ?_⟩
    rw [List.cons_append, stockLoop, hk, if_pos rfl, h, stockGroup]
    split
    · rfl
    · rfl

/-- The stock loop starts afresh at each user key. -/
theorem stockLoop_flatten {groups : List (List (Entry K V))} (hne : ∀ g ∈ groups, g ≠ [])
    (heq : ∀ g ∈ groups, ∀ a ∈ g, ∀ b ∈ g, a.key.userKey = b.key.userKey)
    (hup : groups.Pairwise fun g g' => ∀ a ∈ g, ∀ b ∈ g', a.key.userKey < b.key.userKey)
    {current : Option K} (last : Nat)
    (hcurrent : ∀ g ∈ groups, ∀ e ∈ g, current ≠ some e.key.userKey) :
    c.stockLoop current last groups.flatten = groups.flatMap (c.stockGroup kMaxSequenceNumber) := by
  induction groups generalizing current last with
  | nil => rfl
  | cons g groups ih =>
    obtain ⟨first, rest, rfl⟩ := List.exists_cons_of_ne_nil (hne g (by simp))
    rw [List.pairwise_cons] at hup
    have hin : first :: rest ∈ (first :: rest) :: groups := List.mem_cons_self
    have hfirst : first ∈ first :: rest := List.mem_cons_self
    have hkey : ∀ e ∈ rest, e.key.userKey = first.key.userKey := fun e he =>
      heq _ hin e (List.mem_cons_of_mem _ he) first hfirst
    obtain ⟨last', h⟩ := @stockLoop_append _ _ _ c _ rest hkey first.key.sequence groups.flatten
    have hih := ih (fun g hg => hne g (by simp [hg])) (fun g hg => heq g (by simp [hg])) hup.2
      last' fun g hg e he (h : some first.key.userKey = _) =>
        absurd (Option.some.inj h) (hup.1 g hg first hfirst e he).ne
    rw [List.flatten_cons, List.cons_append, stockLoop, if_neg (hcurrent _ hin first hfirst),
      List.flatMap_cons, stockGroup, h, hih]
    split
    · rfl
    · rfl

theorem stockGroup_sublist (c : Compaction K V) (last : Nat) (es : List (Entry K V)) :
    (c.stockGroup last es).Sublist es := by
  induction es generalizing last with
  | nil => exact .refl _
  | cons e es ih =>
    rw [stockGroup]
    split
    · exact (ih _).cons e
    · exact (ih _).cons_cons e

omit [LinearOrder K] in
theorem find?_flatMap_congr {α : Type} {p : Entry K V → Bool} {f f' : α → List (Entry K V)}
    {l : List α} (h : ∀ a ∈ l, (f a).find? p = (f' a).find? p) :
    (l.flatMap f).find? p = (l.flatMap f').find? p := by
  induction l with
  | nil => rfl
  | cons a l ih =>
    rw [List.flatMap_cons, List.flatMap_cons, List.find?_append, List.find?_append, h a (by simp),
      ih fun a ha => h a (by simp [ha])]

theorem stockEntries_eq (c : Compaction K V) :
    c.stockEntries = (runs (fun e : Entry K V => e.key.userKey) c.input).flatMap
      (c.stockGroup kMaxSequenceNumber) := by
  conv_lhs => rw [stockEntries, ← flatten_runs (fun e : Entry K V => e.key.userKey) c.input]
  exact stockLoop_flatten (fun g hg => run_ne_nil hg) (fun g hg a ha b hb => eq_of_mem_run hg ha hb)
    (runs_pairwise (c.input_sorted.imp fun {a b} h => userKey_le h)) _ fun g hg e he => nofun

section
variable (hc : c.Plain)
include hc

theorem Plain.smallest_lt : c.smallestSnapshot < kMaxSequenceNumber := by
  unfold smallestSnapshot
  cases hsn : c.snapshots with
  | nil => exact hc.last_lt
  | cons a as => exact (hc.snapshots_le a (by simp [hsn])).trans_lt hc.last_lt

variable {g : List (Entry K V)} (hg : g ∈ runs (fun e : Entry K V => e.key.userKey) c.input)
include hg

theorem Plain.coming : Coming c kMaxSequenceNumber g := by
  have hle : ∀ e ∈ g, e.key.sequence ≤ c.lastSequence := fun e he =>
    hc.seqs_le e (mem_of_mem_run hg he)
  refine ⟨fun e he => (hle e he).trans hc.last_lt.le, hle, ?_⟩
  have hsorted := c.input_sorted.sublist
    ((List.sublist_flatten_of_mem hg).trans
      (flatten_runs (fun e : Entry K V => e.key.userKey) _ ▸ .refl _))
  exact hsorted.imp_of_mem fun {_ _} ha hb hab => sequence_le hab (eq_of_mem_run hg ha hb)

theorem Plain.compactGroup_eq :
    c.compactGroup g = (c.firsts none g).filter fun e => !c.obsolete e :=
  compactGroup_plain hc.tombstones (fun e he => hc.types e (mem_of_mem_run hg he))
    (fun _ ha _ hb => eq_of_mem_run hg ha hb) (hc.coming hg).desc

theorem Plain.group_sublist :
    (c.compactGroup g).Sublist (c.stockGroup kMaxSequenceNumber g) := by
  rw [hc.compactGroup_eq hg]
  exact firsts_sublist (hc.coming hg) (.inl ⟨rfl, hc.smallest_lt⟩)

theorem Plain.group_find? (k : K) {r : Nat} (hr : r ∈ c.snapshots ∨ c.lastSequence ≤ r) :
    (c.compactGroup g).find? (fun e => e.key.userKey = k ∧ e.key.sequence ≤ r) =
      (c.stockGroup kMaxSequenceNumber g).find?
        fun e => e.key.userKey = k ∧ e.key.sequence ≤ r := by
  have hstock := stockGroup_sublist c kMaxSequenceNumber g
  have hnew := (hc.group_sublist hg).trans hstock
  obtain ⟨a, ha⟩ := List.exists_mem_of_ne_nil g (run_ne_nil hg)
  by_cases hk : a.key.userKey = k
  · -- all of the group has the key
    have hsame : ∀ e ∈ g, decide (e.key.userKey = k ∧ e.key.sequence ≤ r) =
        decide (e.key.sequence ≤ r) := fun e he => by
      have := (eq_of_mem_run hg he ha).trans hk
      simp [this]
    rw [List.find?_congr fun e he => hsame e (hnew.subset he),
      List.find?_congr fun e he => hsame e (hstock.subset he), hc.compactGroup_eq hg]
    exact find?_firsts hc.snapshots hc.last_lt.le hr (hc.coming hg) (.inl ⟨rfl, hc.smallest_lt⟩) nofun
  · have hnone : ∀ e ∈ g, ¬ decide (e.key.userKey = k ∧ e.key.sequence ≤ r) = true := fun e he h =>
      hk ((eq_of_mem_run hg ha he).trans (of_decide_eq_true h).1)
    rw [List.find?_eq_none.2 fun e he => hnone e (hnew.subset he),
      List.find?_eq_none.2 fun e he => hnone e (hstock.subset he)]

end

/-- **On databases without the extensions the new compaction keeps no more than the stock one**: a
part of what that keeps, the same without live snapshots; and at every live snapshot, and from the
last sequence number on, a reader finds the same entry of each key in both. -/
theorem keeps_no_more (hc : c.Plain) :
    (c.doCompactionWork.flatMap (·.entries)).Sublist c.stockEntries ∧
    (c.snapshots = [] → c.doCompactionWork.flatMap (·.entries) = c.stockEntries) ∧
    ∀ (k : K) (r : Nat), r ∈ c.snapshots ∨ c.lastSequence ≤ r →
      (c.doCompactionWork.flatMap (·.entries)).find?
          (fun e => e.key.userKey = k ∧ e.key.sequence ≤ r) =
        c.stockEntries.find? fun e => e.key.userKey = k ∧ e.key.sequence ≤ r := by
  rw [c.doCompactionWork_written.1, stockEntries_eq]
  have hbefore : Before c none kMaxSequenceNumber := .inl ⟨rfl, hc.smallest_lt⟩
  refine ⟨?_, fun hnil => ?_, fun k r hr => ?_⟩
  · exact List.Sublist.flatMap_right _ fun g hg => hc.group_sublist hg
  · refine List.flatMap_congr fun g hg => ?_
    rw [hc.compactGroup_eq hg]
    exact firsts_eq_stockGroup hnil (hc.coming hg) hc.smallest_lt
  · exact find?_flatMap_congr fun g hg => hc.group_find? hg k hr

theorem plainCompaction_ranges :
    ∀ t ∈ ([] : List (RangeTombstone (Fin 3))), t.beginKey < t.endKey := List.forall_mem_nil _

/-- Two puts of a key and a deletion below them, between two snapshots. -/
def plainCompaction : Compaction (Fin 3) Nat where
  inputs := [⟨7, 100, ⟨1, 8, .value⟩, ⟨1, 2, .value⟩,
    ⟨[⟨⟨1, 8, .value⟩, 2⟩, ⟨⟨1, 6, .value⟩, 10⟩, ⟨⟨1, 5, .deletion⟩, 0⟩, ⟨⟨1, 2, .value⟩, 7⟩],
      by decide, by decide⟩, [], plainCompaction_ranges, by decide⟩]
  isBaseLevelForKey _ := true
  isBaseLevelForRange _ _ := true
  shouldStopBefore _ := false
  fileFull _ := false
  snapshots := [3, 6]
  lastSequence := 9
  mergeOp := none

theorem plain_plainCompaction : plainCompaction.Plain where
  types := by decide
  tombstones := by decide
  snapshots := by decide
  snapshots_le := by decide
  seqs_le := by decide
  last_lt := by decide

/-- The stock loop keeps all four entries, the new compaction not the deletion under the put at 6. -/
theorem keeps_no_more_plainCompaction :
    (plainCompaction.doCompactionWork.flatMap (·.entries)).Sublist
      [⟨⟨1, 8, .value⟩, 2⟩, ⟨⟨1, 6, .value⟩, 10⟩, ⟨⟨1, 5, .deletion⟩, 0⟩, ⟨⟨1, 2, .value⟩, 7⟩] :=
  (keeps_no_more plain_plainCompaction).1.trans (by
    have : plainCompaction.stockEntries = _ := rfl
    rw [this]
    decide)

end LevelDb.Compaction
