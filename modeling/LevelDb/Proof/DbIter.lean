import LevelDb.Db.Counter
import LevelDb.Proof.Layers

/-!
# The iterator is a cursor

`DBIter.run_shown`: after any calls, `DBIter` shows what a cursor shows that makes the same calls
over the ordered map of the keys that are present at the iterator's sequence number.

Moving forward, `FindNextUserEntry` lands on the first key that is present among those still live,
where the visible entries of the live keys are all ahead (`Seeking`, `findNextUserEntry_lands`).
Moving backwards, `FindPrevUserEntry` keeps what the entries of a key seen so far, oldest first, make
of it (`Found.Folds`) and lands on the last present key below a bound (`findPrevUserEntry_lands`).
`Shows` relates an iterator to the key and the value it shows, in either direction.
-/

namespace LevelDb

open Mvcc

variable {K V : Type} [LinearOrder K]

/-- What the iterator of a reader may rely on: its view is that of the tombstones `ts`, and
operands can be merged. -/
structure DBIterSource.Reads (src : DBIterSource K V) (ts : List (RangeTombstone K)) : Prop where
  view : src.rangeDels = none ∧ ts = [] ∨ ∃ v, src.rangeDels = some v ∧ v.Sees ts
  layers : ∀ t ∈ ts, t.layer < kAllLayers
  merges : ∀ k b xs, xs ≠ [] → (foldOf src.mergeOp k b xs).isSome = true

/-- The ordered map a reader of these entries and tombstones is to see. -/
def DBIterSource.contents (src : DBIterSource K V) (ts : List (RangeTombstone K)) : List (K × V) :=
  (Layer.mk src.internal.entries ts).present src.mergeOp src.sequence

namespace DBIter

variable {src : DBIterSource K V} {ts : List (RangeTombstone K)}

/-! ## The versions of a key -/

/-- What an entry is to the iterator. -/
def op (src : DBIterSource K V) (e : Entry K V) : Op V :=
  match effectiveType src e with
  | .value => .put e.value
  | .merge => .merge e.value
  | _ => .delete

/-- The versions of a key in a stretch of the stream, newest first. -/
def vers (src : DBIterSource K V) (k : K) (es : List (Entry K V)) : List (Op V) :=
  (es.filter fun e => Visible k src.sequence e).map (op src)

theorem op_eq_versionOp (h : src.Reads ts) (e : Entry K V) :
    versionOp ts src.sequence e = op src e := by
  have hcovers : src.rangeDels.elim false
      (·.covers e.key.userKey e.key.sequence src.sequence) = true ↔
        Hidden ts e.key.userKey src.sequence e.key.sequence := by
    rcases h.view with ⟨hnone, rfl⟩ | ⟨v, hsome, hsees⟩
    · simp [hnone, Hidden]
    · rw [hsome, Option.elim_some, RangeDelView.covers, decide_eq_true_iff,
        RangeDelView.lt_maxCovering hsees]
      constructor
      · rintro ⟨t, ht, hc, hle, -, hlt⟩
        exact ⟨t, ht, hc, hlt, hle⟩
      · rintro ⟨t, ht, hc, hlt, hle⟩
        exact ⟨t, ht, hc, hle, h.layers t ht, hlt⟩
  unfold versionOp op effectiveType
  simp only [hcovers]
  by_cases hhid : Hidden ts e.key.userKey src.sequence e.key.sequence
  · cases ht : e.key.type <;> simp [hhid]
  · cases ht : e.key.type <;> simp [hhid, Entry.op, ht]

theorem versions_eq (h : src.Reads ts) (k : K) :
    (Layer.mk src.internal.entries ts).versions k src.sequence = vers src k src.internal.entries := by
  have hsorted : (src.internal.entries.filter fun e => Visible k src.sequence e).Pairwise
      fun a b => b.key.sequence ≤ a.key.sequence := by
    refine (src.internal.sorted.filter _).imp_of_mem fun {a b} ha hb hab => ?_
    rw [List.mem_filter, decide_eq_true_iff] at ha hb
    exact sequence_le hab (ha.2.1.trans hb.2.1.symm)
  rw [Layer.versions, hsorted.insertionSort_eq, vers]
  exact List.map_congr_left fun e _ => op_eq_versionOp h e

theorem vers_append (k : K) (xs ys : List (Entry K V)) :
    vers src k (xs ++ ys) = vers src k xs ++ vers src k ys := by
  simp [vers]

theorem vers_cons_of_visible {k : K} {e : Entry K V} (h : Visible k src.sequence e)
    (es : List (Entry K V)) : vers src k (e :: es) = op src e :: vers src k es := by
  simp [vers, h]

theorem vers_cons_of_not {k : K} {e : Entry K V} (h : ¬ Visible k src.sequence e)
    (es : List (Entry K V)) : vers src k (e :: es) = vers src k es := by
  simp [vers, h]

theorem vers_eq_nil {k : K} {es : List (Entry K V)}
    (h : ∀ e ∈ es, ¬ Visible k src.sequence e) : vers src k es = [] := by
  rw [vers, List.filter_eq_nil_iff.2 fun e he => by simpa using h e he, List.map_nil]

/-- **What is in the map**: a key whose versions read as a value. -/
theorem mem_contents (h : src.Reads ts) {k : K} {v : V} : (k, v) ∈ src.contents ts ↔
    read (foldOf src.mergeOp k) (vers src k src.internal.entries) = some (some v) := by
  simp only [DBIterSource.contents, Layer.present, List.mem_filterMap, List.mem_insertionSort,
    List.mem_dedup, List.mem_map, versions_eq h, Option.map_eq_some_iff, Prod.mk.injEq,
    Option.join_eq_some_iff]
  constructor
  · rintro ⟨k', -, v', hread, rfl, rfl⟩
    exact hread
  · intro hread
    refine ⟨k, ?_, v, hread, rfl, rfl⟩
    by_contra hno
    have : vers src k src.internal.entries = [] :=
      vers_eq_nil fun e he hv => hno ⟨e, he, hv.1⟩
    simp [this, Mvcc.read] at hread

theorem exists_visible (h : src.Reads ts) {p : K × V} (hp : p ∈ src.contents ts) :
    ∃ e ∈ src.internal.entries, Visible p.1 src.sequence e := by
  by_contra hno
  push Not at hno
  have hread := (mem_contents h).1 (show (p.1, p.2) ∈ _ from hp)
  simp [vers_eq_nil hno, Mvcc.read] at hread

theorem contents_sorted (src : DBIterSource K V) (ts : List (RangeTombstone K)) :
    (src.contents ts).Pairwise fun p q => p.1 < q.1 := by
  have hle := List.pairwise_insertionSort (· ≤ ·)
    (src.internal.entries.map (·.key.userKey)).dedup
  have hne : ((src.internal.entries.map (·.key.userKey)).dedup.insertionSort (· ≤ ·)).Nodup :=
    (List.perm_insertionSort _ _).nodup_iff.2 (List.nodup_dedup _)
  rw [DBIterSource.contents, Layer.present, List.pairwise_filterMap]
  refine (hle.and hne).imp fun {a b} hab p hp q hq => ?_
  obtain ⟨v, -, rfl⟩ := Option.map_eq_some_iff.1 hp
  obtain ⟨w, -, rfl⟩ := Option.map_eq_some_iff.1 hq
  exact lt_of_le_of_ne hab.1 hab.2

/-! ## What an iterator shows -/

/-- The iterator stands at this key and value, and the internal iterator where its direction
wants it. -/
inductive Shows (src : DBIterSource K V) (it : DBIter K V) (k : K) (v : V) : Prop
  | entry (c : Cursor (Entry K V)) : it.valid = true → it.direction = .forward →
      it.merged = false → it.iter = some c → c.toList = src.internal.entries →
      c.here.key.userKey = k → c.here.value = v → Shows src it k v
  | merged (before after : List (Entry K V)) : it.valid = true → it.direction = .forward →
      it.merged = true → it.mergedKey = k → it.savedValue = v →
      it.iter = Cursor.front before after → before.reverse ++ after = src.internal.entries →
      (∀ e ∈ before, e.key.userKey ≤ k) → (∀ e ∈ after, k < e.key.userKey) → Shows src it k v
  | saved (before after : List (Entry K V)) : it.valid = true → it.direction = .reverse →
      it.merged = false → it.savedKey = k → it.savedValue = v →
      it.iter = Cursor.back after before → before.reverse ++ after = src.internal.entries →
      (∀ e ∈ before, e.key.sequence ≤ src.sequence → e.key.userKey < k) →
      (∀ e ∈ after, e.key.sequence ≤ src.sequence → k ≤ e.key.userKey) → Shows src it k v

theorem Shows.valid {it : DBIter K V} {k : K} {v : V} (h : Shows src it k v) : it.valid = true := by
  cases h <;> assumption

theorem Shows.shown {it : DBIter K V} {k : K} {v : V} (h : Shows src it k v) :
    it.shown = some (k, v) := by
  cases h with
  | entry c hvalid hdir hmerged hiter hlist hk hv =>
    simp [DBIter.shown, hvalid, key, value, hdir, hmerged, hiter, hk, hv]
  | merged before after hvalid hdir hmerged hk hv =>
    simp [DBIter.shown, hvalid, key, value, hdir, hmerged, hk, hv]
  | saved before after hvalid hdir hmerged hk hv =>
    simp [DBIter.shown, hvalid, key, value, hdir, hk, hv]

/-- The iterator shows the first key of the map that meets `P`, or is not valid if there is none. -/
def LandsFirst (src : DBIterSource K V) (ts : List (RangeTombstone K)) (P : K → Prop)
    (it : DBIter K V) : Prop :=
  it.valid = false ∧ (∀ p ∈ src.contents ts, ¬ P p.1) ∨
    ∃ k v, Shows src it k v ∧ (k, v) ∈ src.contents ts ∧ P k ∧
      ∀ p ∈ src.contents ts, P p.1 → k ≤ p.1

/-- The same with the last such key. -/
def LandsLast (src : DBIterSource K V) (ts : List (RangeTombstone K)) (P : K → Prop)
    (it : DBIter K V) : Prop :=
  it.valid = false ∧ (∀ p ∈ src.contents ts, ¬ P p.1) ∨
    ∃ k v, Shows src it k v ∧ (k, v) ∈ src.contents ts ∧ P k ∧
      ∀ p ∈ src.contents ts, P p.1 → p.1 ≤ k

theorem LandsFirst.congr {P Q : K → Prop} {it : DBIter K V} (h : LandsFirst src ts P it)
    (hPQ : ∀ p ∈ src.contents ts, P p.1 ↔ Q p.1) : LandsFirst src ts Q it := by
  rcases h with ⟨hvalid, hno⟩ | ⟨k, v, hshows, hmem, hP, hmin⟩
  · exact .inl ⟨hvalid, fun p hp hQ => hno p hp ((hPQ p hp).2 hQ)⟩
  · exact .inr ⟨k, v, hshows, hmem, (hPQ _ hmem).1 hP, fun p hp hQ => hmin p hp ((hPQ p hp).2 hQ)⟩

theorem sorted_keys {before after : List (Entry K V)}
    (hsplit : before.reverse ++ after = src.internal.entries) :
    (∀ e ∈ before, ∀ e' ∈ after, e.key ≤ e'.key) ∧
      after.Pairwise (fun e e' => e.key ≤ e'.key) ∧
        before.Pairwise fun e e' => e'.key ≤ e.key := by
  have h := src.internal.sorted
  rw [← hsplit, List.pairwise_append, List.pairwise_reverse] at h
  exact ⟨fun e he e' he' => h.2.2 e (List.mem_reverse.2 he) e' he', h.2.1, h.1⟩

theorem mem_split {before after : List (Entry K V)}
    (hsplit : before.reverse ++ after = src.internal.entries) {e : Entry K V}
    (he : e ∈ src.internal.entries) : e ∈ before ∨ e ∈ after := by
  rw [← hsplit, List.mem_append, List.mem_reverse] at he
  exact he

/-! ## Moving forward -/

theorem fullMerge_spec (h : src.Reads ts) (it : DBIter K V) {k : K}
    (hk : (if it.direction = .forward then it.mergedKey else it.savedKey) = k) (base : Option V)
    {operands : List V} (hne : operands ≠ []) : ∃ v,
      foldOf src.mergeOp k base operands = some v ∧
        fullMerge src it base operands = { it with valid := true, savedValue := v } := by
  obtain ⟨v, hv⟩ := Option.isSome_iff_exists.1 (h.merges k base operands hne)
  refine ⟨v, hv, ?_⟩
  obtain ⟨mop, hop, hfull⟩ := Option.bind_eq_some_iff.1 hv
  simp [fullMerge, hop, hk, hfull]

/-- The loop of `MergeForward` ends past the entries of the key. -/
theorem mergeLoop_place (src : DBIterSource K V) {k : K} {after : List (Entry K V)}
    (hsorted : after.Pairwise fun e e' => e.key ≤ e'.key) (hge : ∀ e ∈ after, k ≤ e.key.userKey)
    (operands : List V) (base : Option V) (settled : Bool) (before : List (Entry K V)) :
    ∃ skipped rest, after = skipped ++ rest ∧ (∀ e ∈ skipped, e.key.userKey = k) ∧
      (∀ e ∈ rest, k < e.key.userKey) ∧
      (mergeLoop src k operands base settled before after).2.2 =
        Cursor.front (skipped.reverse ++ before) rest := by
  induction after generalizing operands base settled before with
  | nil => exact ⟨[], [], rfl, by simp, by simp, rfl⟩
  | cons e after ih =>
    rw [List.pairwise_cons] at hsorted
    by_cases hk : e.key.userKey = k
    · obtain ⟨ops', base', settled', hstep⟩ : ∃ ops' base' settled',
          mergeLoop src k operands base settled before (e :: after) =
            mergeLoop src k ops' base' settled' (e :: before) after := by
        simp only [mergeLoop, hk, ne_eq, not_true, if_false]
        split
        · exact ⟨_, _, _, rfl⟩
        · split <;> exact ⟨_, _, _, rfl⟩
      obtain ⟨skipped, rest, hsplit, hskip, hrest, hiter⟩ := ih hsorted.2
        (fun e he => hge e (by simp [he])) ops' base' settled' (e :: before)
      refine ⟨e :: skipped, rest, by rw [hsplit, List.cons_append], ?_, hrest, ?_⟩
      · intro e' he'
        rcases List.mem_cons.1 he' with rfl | he'
        · exact hk
        · exact hskip e' he'
      · rw [hstep, hiter]
        simp
    · -- the entries of the key end here
      have hke : k < e.key.userKey := lt_of_le_of_ne (hge e (by simp)) (Ne.symm hk)
      refine ⟨[], e :: after, rfl, by simp, fun e' he' => ?_, by simp [mergeLoop, hk, Cursor.front]⟩
      rcases List.mem_cons.1 he' with rfl | he'
      · exact hke
      · exact hke.trans_le (userKey_le (hsorted.1 e' he'))

/-- Once the key is settled, nothing is collected. -/
theorem mergeLoop_settled {k : K} (after : List (Entry K V)) (operands : List V) (base : Option V)
    (before : List (Entry K V)) :
    (mergeLoop src k operands base true before after).1 = operands ∧
      (mergeLoop src k operands base true before after).2.1 = base := by
  induction after generalizing before with
  | nil => exact ⟨rfl, rfl⟩
  | cons e after ih =>
    simp only [mergeLoop, if_true]
    split
    · exact ⟨rfl, rfl⟩
    · exact ih (e :: before)

/-- Until then it collects the versions of the key. -/
theorem mergeLoop_collect {k : K} {after : List (Entry K V)}
    (hsorted : after.Pairwise fun e e' => e.key ≤ e'.key) (hge : ∀ e ∈ after, k ≤ e.key.userKey)
    (hvisible : ∀ e ∈ after, e.key.userKey = k → e.key.sequence ≤ src.sequence)
    (operands : List V) (before : List (Entry K V)) :
    (mergeLoop src k operands none false before after).1 =
        operands ++ (collect (vers src k after)).1 ∧
      (mergeLoop src k operands none false before after).2.1 = (collect (vers src k after)).2 := by
  induction after generalizing operands before with
  | nil => simp [mergeLoop, vers]
  | cons e after ih =>
    rw [List.pairwise_cons] at hsorted
    by_cases hk : e.key.userKey = k
    · have hvis : Visible k src.sequence e := ⟨hk, hvisible e (by simp) hk⟩
      rw [vers_cons_of_visible hvis]
      simp only [mergeLoop, hk, ne_eq, not_true, if_false, Bool.false_eq_true, op]
      cases effectiveType src e with
      | merge =>
        obtain ⟨h1, h2⟩ := ih hsorted.2 (fun e he => hge e (by simp [he]))
          (fun e he => hvisible e (by simp [he])) (operands ++ [e.value]) (e :: before)
        simp [h1, h2]
      | value => simp [mergeLoop_settled]
      | deletion => simp [mergeLoop_settled]
      | rangeDeletion => simp [mergeLoop_settled]
    · have hke : k < e.key.userKey := lt_of_le_of_ne (hge e (by simp)) (Ne.symm hk)
      have hnone : vers src k (e :: after) = [] := by
        refine vers_eq_nil fun e' he' hv => ?_
        rcases List.mem_cons.1 he' with rfl | he'
        · exact hk hv.1
        · exact absurd hv.1 (hke.trans_le (userKey_le (hsorted.1 e' he'))).ne'
      simp [mergeLoop, hk, hnone]

/-- **`MergeForward`** shows the key with its merged value. -/
theorem mergeForward_shows (h : src.Reads ts) (it : DBIter K V) (hdir : it.direction = .forward)
    {before after : List (Entry K V)} {e : Entry K V}
    (hsplit : before.reverse ++ e :: after = src.internal.entries)
    (hvis : e.key.sequence ≤ src.sequence) (hop : op src e = .merge e.value)
    (hnewest : vers src e.key.userKey src.internal.entries =
      vers src e.key.userKey (e :: after)) :
    ∃ v, Shows src (mergeForward src it before e after) e.key.userKey v ∧
      (e.key.userKey, v) ∈ src.contents ts := by
  obtain ⟨hbefore, hafter, -⟩ := sorted_keys hsplit
  rw [List.pairwise_cons] at hafter
  have hge : ∀ e' ∈ after, e.key.userKey ≤ e'.key.userKey := fun e' he' =>
    userKey_le (hafter.1 e' he')
  have hvisible : ∀ e' ∈ after, e'.key.userKey = e.key.userKey →
      e'.key.sequence ≤ src.sequence := fun e' he' hk =>
    (sequence_le (hafter.1 e' he') hk.symm).trans hvis
  obtain ⟨hops, hbase⟩ := mergeLoop_collect hafter.2 hge hvisible [e.value] (e :: before)
  obtain ⟨skipped, rest, hrest, hskip, hlt, hiter⟩ :=
    mergeLoop_place src hafter.2 hge [e.value] none false (e :: before)
  generalize hloop : mergeLoop src e.key.userKey [e.value] none false (e :: before) after = r
    at hops hbase hiter
  obtain ⟨operands, base, iter⟩ := r
  simp only at hops hbase hiter
  have hne : operands.reverse ≠ [] := by simp [hops]
  obtain ⟨v, hfold, hmerged⟩ := fullMerge_spec h
    { it with mergedKey := e.key.userKey, iter, merged := true } (if_pos hdir) base hne
  refine ⟨v, ?_, ?_⟩
  · rw [mergeForward, hloop]
    simp only [hmerged]
    refine .merged (skipped.reverse ++ e :: before) rest rfl hdir rfl rfl rfl hiter ?_ ?_ hlt
    · rw [← hsplit, hrest]
      simp
    · intro e' he'
      rcases List.mem_append.1 he' with he' | he'
      · exact (hskip e' (List.mem_reverse.1 he')).le
      · rcases List.mem_cons.1 he' with rfl | he'
        · exact le_rfl
        · exact userKey_le (hbefore e' he' e (by simp))
  · rw [mem_contents h, hnewest, vers_cons_of_visible ⟨rfl, hvis⟩, hop, Mvcc.read, collect_merge,
      settle_ne (by simp)]
    have hcollect : e.value :: (collect (vers src e.key.userKey after)).1 = operands := by
      simpa using hops.symm
    rw [hcollect, ← hbase]
    exact congrArg _ hfold

theorem effectiveType_cases (src : DBIterSource K V) (e : Entry K V) :
    effectiveType src e = .deletion ∨ effectiveType src e = e.key.type := by
  unfold effectiveType
  split
  · exact .inl rfl
  · exact .inr rfl

/-- The keys that are not skipped. -/
def Live (skipping : Bool) (skip k : K) : Prop := skipping = true → skip < k

variable (src) in
/-- Where the loop of `FindNextUserEntry` is: the visible entries of the keys that meet `P` are all
ahead, those ahead that are live are of such keys, and none ahead is below what is skipped. -/
structure Seeking (P : K → Prop) (it : DBIter K V) (skipping : Bool)
    (before after : List (Entry K V)) : Prop where
  direction : it.direction = .forward
  merged : it.merged = false
  split : before.reverse ++ after = src.internal.entries
  past : ∀ e ∈ before, e.key.sequence ≤ src.sequence → ¬ P e.key.userKey
  live : ∀ e ∈ after, e.key.sequence ≤ src.sequence →
    (P e.key.userKey ↔ Live skipping it.savedKey e.key.userKey)
  skip : skipping = true → ∀ e ∈ after, e.key.sequence ≤ src.sequence → it.savedKey ≤ e.key.userKey

namespace Seeking

variable {P : K → Prop} {it : DBIter K V} {skipping : Bool} {before after : List (Entry K V)}
  {e : Entry K V}

theorem vers_eq (hs : Seeking src P it skipping before after) {k : K} (hk : P k) :
    vers src k src.internal.entries = vers src k after := by
  rw [← hs.split, vers_append, vers_eq_nil, List.nil_append]
  intro e he hv
  exact hs.past e (List.mem_reverse.1 he) hv.2 (hv.1 ▸ hk)

theorem split_cons (hs : Seeking src P it skipping before (e :: after)) :
    (e :: before).reverse ++ after = src.internal.entries := by simpa using hs.split

theorem mem (hs : Seeking src P it skipping before (e :: after)) : e ∈ src.internal.entries := by
  rw [← hs.split]
  simp

theorem le_of_ahead (hs : Seeking src P it skipping before (e :: after)) :
    ∀ e' ∈ after, e.key.userKey ≤ e'.key.userKey := fun e' he' => by
  obtain ⟨-, hafter, -⟩ := sorted_keys hs.split
  exact userKey_le ((List.pairwise_cons.1 hafter).1 e' he')

theorem le_of_passed (hs : Seeking src P it skipping before (e :: after)) :
    ∀ e' ∈ before, e'.key.userKey ≤ e.key.userKey := fun e' he' =>
  userKey_le ((sorted_keys hs.split).1 e' he' e List.mem_cons_self)

/-- No present key that meets `P` is below the entry. -/
theorem le_present (h : src.Reads ts) (hs : Seeking src P it skipping before (e :: after))
    {p : K × V} (hp : p ∈ src.contents ts) (hP : P p.1) : e.key.userKey ≤ p.1 := by
  obtain ⟨e', he', hv⟩ := exists_visible h hp
  rcases mem_split hs.split he' with he' | he'
  · exact absurd (hv.1 ▸ hP) (hs.past e' he' hv.2)
  · rcases List.mem_cons.1 he' with rfl | he'
    · exact hv.1.le
    · exact (hs.le_of_ahead e' he').trans hv.1.le

/-- Past a deletion the keys above its own are looked for. -/
theorem deleted (hs : Seeking src P it skipping before (e :: after)) :
    Seeking src (fun k => e.key.userKey < k) { it with savedKey := e.key.userKey } true
      (e :: before) after where
  direction := hs.direction
  merged := hs.merged
  split := hs.split_cons
  past e' he' _ := by
    rcases List.mem_cons.1 he' with rfl | he'
    · exact lt_irrefl _
    · exact not_lt.2 (hs.le_of_passed e' he')
  live _ _ _ := ⟨fun hlt _ => hlt, fun hP => hP rfl⟩
  skip _ e' he' _ := hs.le_of_ahead e' he'

/-- These are the present keys that meet `P`. -/
theorem deleted_iff (h : src.Reads ts) (hs : Seeking src P it skipping before (e :: after))
    (hvis : e.key.sequence ≤ src.sequence) (hdel : op src e = .delete) {p : K × V}
    (hp : p ∈ src.contents ts) : e.key.userKey < p.1 ↔ P p.1 := by
  constructor
  · intro hlt
    obtain ⟨e', he', hv⟩ := exists_visible h hp
    rcases mem_split hs.split he' with he' | he'
    · exact absurd (hlt.trans_le (hv.1.ge.trans (hs.le_of_passed e' he'))) (lt_irrefl _)
    · rw [← hv.1, hs.live e' he' hv.2]
      intro hskip
      exact (hs.skip hskip e List.mem_cons_self hvis).trans_lt (hlt.trans_le hv.1.ge)
  · intro hP
    refine lt_of_le_of_ne (hs.le_present h hp hP) fun heq => ?_
    have hread := (mem_contents h).1 (show (p.1, p.2) ∈ _ from hp)
    rw [hs.vers_eq hP, vers_cons_of_visible ⟨heq, hvis⟩, hdel] at hread
    simp [Mvcc.read] at hread

/-- An entry that is hidden from the reader or skipped is passed. -/
theorem passed (hs : Seeking src P it skipping before (e :: after))
    (hpass : src.sequence < e.key.sequence ∨ skipping = true ∧ e.key.userKey ≤ it.savedKey) :
    Seeking src P it skipping (e :: before) after where
  direction := hs.direction
  merged := hs.merged
  split := hs.split_cons
  past e' he' hv hP := by
    rcases List.mem_cons.1 he' with rfl | he'
    · rcases hpass with hlt | ⟨hskip, hle⟩
      · omega
      · exact absurd ((hs.live e' List.mem_cons_self hv).1 hP hskip) (not_lt.2 hle)
    · exact hs.past e' he' hv hP
  live e' he' := hs.live e' (List.mem_cons_of_mem e he')
  skip hskip e' he' := hs.skip hskip e' (List.mem_cons_of_mem e he')

end Seeking

section
variable [Inhabited K]

/-- What `FindNextUserEntry` does at an entry: a deletion is skipped from, an entry that is hidden or
skipped is passed, any other is shown. -/
theorem findNextUserEntry_cons (it : DBIter K V) (skipping : Bool) (before after : List (Entry K V))
    {e : Entry K V} (htype : e.key.type ≠ .rangeDeletion) :
    e.key.sequence ≤ src.sequence ∧ op src e = .delete ∧
        findNextUserEntry src it skipping before (e :: after) =
          findNextUserEntry src { it with savedKey := e.key.userKey } true (e :: before) after ∨
      (src.sequence < e.key.sequence ∨ skipping = true ∧ e.key.userKey ≤ it.savedKey) ∧
        findNextUserEntry src it skipping before (e :: after) =
          findNextUserEntry src it skipping (e :: before) after ∨
      e.key.sequence ≤ src.sequence ∧ ¬ (skipping = true ∧ e.key.userKey ≤ it.savedKey) ∧
        (op src e = .merge e.value ∧ findNextUserEntry src it skipping before (e :: after) =
            mergeForward src { it with savedKey := default } before e after ∨
          op src e = .put e.value ∧ findNextUserEntry src it skipping before (e :: after) =
            { it with iter := some ⟨before, e, after⟩, valid := true, savedKey := default }) := by
  by_cases hvis : e.key.sequence ≤ src.sequence
  · have heff := effectiveType_cases src e
    simp only [findNextUserEntry, hvis, if_true, op]
    cases hcase : effectiveType src e with
    | deletion => exact .inl ⟨trivial, rfl, rfl⟩
    | rangeDeletion =>
      rcases heff with heff | heff
      · rw [hcase] at heff
        cases heff
      · exact absurd (heff.symm.trans hcase) htype
    | value =>
      right
      have hkey : e.key.type = .value := by
        rcases heff with heff | heff
        · rw [hcase] at heff
          cases heff
        · exact heff.symm.trans hcase
      by_cases hskip : skipping = true ∧ e.key.userKey ≤ it.savedKey
      · exact .inl ⟨.inr hskip, by simp [hskip]⟩
      · exact .inr ⟨trivial, hskip, .inr ⟨rfl, by simp [hskip, hkey]⟩⟩
    | merge =>
      right
      have hkey : e.key.type = .merge := by
        rcases heff with heff | heff
        · rw [hcase] at heff
          cases heff
        · exact heff.symm.trans hcase
      by_cases hskip : skipping = true ∧ e.key.userKey ≤ it.savedKey
      · exact .inl ⟨.inr hskip, by simp [hskip]⟩
      · exact .inr ⟨trivial, hskip, .inl ⟨rfl, by simp [hskip, hkey]⟩⟩
  · refine .inr (.inl ⟨.inl (not_le.1 hvis), ?_⟩)
    simp only [findNextUserEntry, hvis, if_false]

/-- **`FindNextUserEntry`** lands on the first present key that meets `P`. -/
theorem findNextUserEntry_lands (h : src.Reads ts) {P : K → Prop} {it : DBIter K V}
    {skipping : Bool} {before after : List (Entry K V)}
    (hs : Seeking src P it skipping before after) :
    LandsFirst src ts P (findNextUserEntry src it skipping before after) := by
  induction after generalizing it skipping before P with
  | nil =>
    refine .inl ⟨rfl, fun p hp hP => ?_⟩
    obtain ⟨e, he, hv⟩ := exists_visible h hp
    rcases mem_split hs.split he with he | he
    · exact hs.past e he hv.2 (hv.1 ▸ hP)
    · cases he
  | cons e after ih =>
    rcases findNextUserEntry_cons it skipping before after (src.internal.types e hs.mem) with
      ⟨hvis, hdel, heq⟩ | ⟨hpass, heq⟩ | ⟨hvis, hland, hcase⟩
    · -- a deletion: the key is not in the map, and is skipped from here on
      rw [heq]
      exact (ih hs.deleted).congr fun p hp => hs.deleted_iff h hvis hdel hp
    · rw [heq]
      exact ih (hs.passed hpass)
    · -- the newest visible entry of a key that meets `P`
      have hP : P e.key.userKey := (hs.live e List.mem_cons_self hvis).2 fun hskip =>
        not_le.1 fun hle => hland ⟨hskip, hle⟩
      have hfirst : ∀ p ∈ src.contents ts, P p.1 → e.key.userKey ≤ p.1 := fun p hp hP =>
        hs.le_present h hp hP
      right
      rcases hcase with ⟨hop, heq⟩ | ⟨hop, heq⟩
      · obtain ⟨v, hshows, hin⟩ := mergeForward_shows h
          { it with savedKey := default } hs.direction hs.split hvis hop (hs.vers_eq hP)
        rw [heq]
        exact ⟨_, v, hshows, hin, hP, hfirst⟩
      · rw [heq]
        refine ⟨_, e.value, .entry ⟨before, e, after⟩ rfl hs.direction hs.merged rfl hs.split rfl
          rfl, ?_, hP, hfirst⟩
        rw [mem_contents h, hs.vers_eq hP, vers_cons_of_visible ⟨rfl, hvis⟩, hop]
        rfl

theorem findNextFrom_lands (h : src.Reads ts) {P : K → Prop} {it : DBIter K V} {skipping : Bool}
    {before after : List (Entry K V)} (hs : Seeking src P it skipping before after) :
    LandsFirst src ts P (findNextFrom src it skipping (Cursor.front before after)) := by
  have hlands := findNextUserEntry_lands h hs
  cases after with
  | nil =>
    rcases hlands with ⟨-, hno⟩ | ⟨k, v, hshows, -⟩
    · exact .inl ⟨rfl, hno⟩
    · exact absurd hshows.valid (by simp [findNextUserEntry])
  | cons e after => exact hlands

variable [Inhabited V]

/-- **`Next`** goes to the first present key past the current one. -/
theorem next_lands (h : src.Reads ts) {it : DBIter K V} {k : K} {v : V}
    (hshows : Shows src it k v) : LandsFirst src ts (fun k' => k < k') (it.next src) := by
  obtain ⟨iter, direction, valid, merged, savedKey, savedValue, mergedKey, status⟩ := it
  cases hshows with
  | entry c hvalid hdir hmerged hiter hlist hk hv =>
    simp only at hvalid hdir hmerged hiter
    subst hvalid hdir hmerged hiter hk
    have hsplit : (c.here :: c.before).reverse ++ c.after = src.internal.entries := by
      simpa [Cursor.toList] using hlist
    obtain ⟨hbefore, -, -⟩ := sorted_keys hlist
    obtain ⟨hhere, -, -⟩ := sorted_keys hsplit
    refine findNextFrom_lands h ⟨rfl, rfl, hsplit, ?_,
      fun _ _ _ => ⟨fun hlt _ => hlt, fun hP => hP rfl⟩, ?_⟩
    · intro e he _
      rcases List.mem_cons.1 he with rfl | he
      · exact lt_irrefl _
      · exact not_lt.2 (userKey_le (hbefore e he c.here (by simp)))
    · intro _ e he _
      exact userKey_le (hhere c.here (by simp) e he)
  | merged before after hvalid hdir hmerged hk hv hiter hsplit hle hlt =>
    simp only at hvalid hdir hmerged hk hiter
    subst hvalid hdir hmerged hk hiter
    exact findNextFrom_lands h ⟨rfl, rfl, hsplit, fun e he _ => not_lt.2 (hle e he),
      fun _ _ _ => ⟨fun hlt _ => hlt, fun hP => hP rfl⟩, fun _ e he _ => (hlt e he).le⟩
  | saved before after hvalid hdir hmerged hk hv hiter hsplit hlt hge =>
    simp only at hvalid hdir hmerged hk hiter
    subst hvalid hdir hmerged hk hiter
    have hplace : (Cursor.back after before).elim (Cursor.first src.internal.entries) Cursor.next =
        Cursor.front before after := by rw [← hsplit, Cursor.elim_back_next]
    rw [next]
    simp only [hplace]
    exact findNextFrom_lands h ⟨rfl, rfl, hsplit, fun e he hv => not_lt.2 (hlt e he hv).le,
      fun _ _ _ => ⟨fun hlt _ => hlt, fun hP => hP rfl⟩, fun _ e he hv => hge e he hv⟩

theorem seekToFirst_lands (h : src.Reads ts) (it : DBIter K V) :
    LandsFirst src ts (fun _ => True) (it.seekToFirst src) :=
  findNextFrom_lands h ⟨rfl, rfl, (List.nil_append _ : ([] : List (Entry K V)).reverse ++ _ = _),
    by simp, by simp [Live], by simp⟩

/-- **`Seek`** goes to the first present key at or past the target. -/
theorem seek_lands (h : src.Reads ts) (it : DBIter K V) (target : K) :
    LandsFirst src ts (fun k => target ≤ k) (it.seek src target) := by
  have hsplit : (src.internal.entries.takeWhile fun e =>
        e.key < lookupKey target src.sequence).reverse.reverse ++
      (src.internal.entries.dropWhile fun e => e.key < lookupKey target src.sequence) =
        src.internal.entries := by
    rw [List.reverse_reverse]
    exact List.takeWhile_append_dropWhile
  have hdrop := Fragments.dropWhile_eq_filter
    (fun e : Entry K V => decide (e.key < lookupKey target src.sequence))
    (src.internal.sorted.imp fun {a b} hab hb =>
      decide_eq_true (hab.trans_lt (of_decide_eq_true hb)))
  refine findNextFrom_lands h ⟨rfl, rfl, hsplit, ?_, ?_, by simp⟩
  · -- what is passed over is of smaller keys, or hidden from the reader
    intro e he hv
    have hlt := List.mem_takeWhile_imp (List.mem_reverse.1 he)
    rcases lt_lookupKey.1 (of_decide_eq_true hlt) with hlt | ⟨-, hlt⟩
    · exact not_le.2 hlt
    · omega
  · intro e he _
    rw [hdrop, List.mem_filter] at he
    have hge : ¬ e.key < lookupKey target src.sequence := by simpa using he.2
    exact ⟨fun _ hs => absurd hs Bool.false_ne_true,
      fun _ => not_lt.1 fun hlt => hge (lt_lookupKey.2 (.inl hlt))⟩

/-! ## Moving backwards -/

/-- The loop of `FindPrevUserEntry` has folded these versions of the key, newest first. -/
structure Found.Folds (s : Found K V) (k : K) (versions : List (Op V)) : Prop where
  collect : collect versions = (s.operands.reverse, if s.hasBase then some s.savedValue else none)
  valueType : s.valueType =
    if s.operands.isEmpty then (if s.hasBase then .value else .deletion) else .merge
  key : s.valueType ≠ .deletion → s.savedKey = k

omit [LinearOrder K] [Inhabited K] [Inhabited V] in
theorem Found.Folds.deletion {s : Found K V} {k : K} {versions : List (Op V)}
    (h : s.Folds k versions) (hs : s.valueType = .deletion) :
    s.operands = [] ∧ s.hasBase = false ∧ Mvcc.collect versions = ([], none) := by
  have htype := h.valueType
  rw [hs] at htype
  split at htype
  · rename_i hops
    split at htype
    · cases htype
    · rename_i hbase
      have hops := List.isEmpty_iff.1 hops
      refine ⟨hops, by simpa using hbase, ?_⟩
      rw [h.collect, hops]
      simp [hbase]
  · cases htype

/-- **One entry more**, of the same key unless there is nothing to show yet. -/
theorem Found.Folds.see {s : Found K V} {k : K} {versions versions' : List (Op V)}
    (h : s.Folds k versions) {e : Entry K V} (htype : e.key.type ≠ .rangeDeletion)
    (hkey : s.valueType ≠ .deletion → k = e.key.userKey)
    (hsame : Mvcc.collect versions' = Mvcc.collect versions) :
    (s.see src e).Folds e.key.userKey (op src e :: versions') := by
  unfold Found.see op
  cases heff : effectiveType src e with
  | deletion => exact ⟨by simp, by simp, by simp⟩
  | value => exact ⟨by simp, by simp, by simp⟩
  | merge =>
    by_cases hs : s.valueType = .deletion
    · obtain ⟨-, -, hnone⟩ := h.deletion hs
      simp only [hs, if_true]
      exact ⟨by simp [hsame, hnone], by simp, by simp⟩
    · simp only [hs, if_false]
      refine ⟨by simp [hsame, h.collect], by simp, fun _ => ?_⟩
      rw [← hkey hs]
      exact h.key hs
  | rangeDeletion =>
    rcases effectiveType_cases src e with h' | h'
    · rw [heff] at h'
      cases h'
    · exact absurd (h'.symm.trans heff) htype

omit [Inhabited K] [Inhabited V] in
/-- The versions of a key whose entries are all ahead. -/
theorem vers_of_ahead {before after : List (Entry K V)} {k : K}
    (hsplit : before.reverse ++ after = src.internal.entries)
    (hlt : ∀ e ∈ before, e.key.sequence ≤ src.sequence → e.key.userKey < k) :
    vers src k src.internal.entries = vers src k after := by
  rw [← hsplit, vers_append, vers_eq_nil, List.nil_append]
  intro e he hvis
  exact absurd hvis.1 (hlt e (List.mem_reverse.1 he) hvis.2).ne

variable (src) in
/-- Where the loop of `FindPrevUserEntry` is: it has folded what is ahead of one key, and all other
visible entries of the keys that meet `P` and may still be shown are behind. -/
structure Passing (ts : List (RangeTombstone K)) (P : K → Prop) (s : Found K V) (cur : K)
    (versions : List (Op V)) (before after : List (Entry K V)) : Prop where
  split : before.reverse ++ after = src.internal.entries
  folds : s.Folds cur versions
  folded : P cur → vers src cur after = versions
  behind : ∀ e ∈ before, e.key.sequence ≤ src.sequence → P e.key.userKey ∧ e.key.userKey ≤ cur
  ahead : ∀ e ∈ after, e.key.sequence ≤ src.sequence → P e.key.userKey → cur ≤ e.key.userKey
  present : ∀ p ∈ src.contents ts, P p.1 → p.1 ≤ cur
  meets : s.valueType ≠ .deletion → P cur

variable (src) in
/-- Where it stops with something to show: the versions of the last present key that meets `P`. -/
def StopsAt (ts : List (RangeTombstone K)) (P : K → Prop) (s : Found K V)
    (it : Option (Cursor (Entry K V))) : Prop :=
  ∃ k before' after', before'.reverse ++ after' = src.internal.entries ∧
    it = Cursor.back after' before' ∧ P k ∧
    s.Folds k (vers src k src.internal.entries) ∧
    (∀ p ∈ src.contents ts, P p.1 → p.1 ≤ k) ∧
    (∀ e ∈ before', e.key.sequence ≤ src.sequence → e.key.userKey < k) ∧
    ∀ e ∈ after', e.key.sequence ≤ src.sequence → k ≤ e.key.userKey

namespace Passing

variable {P : K → Prop} {s : Found K V} {cur : K} {versions : List (Op V)}
  {before after : List (Entry K V)} {e : Entry K V}

omit [Inhabited K] [Inhabited V] in
/-- A key whose versions leave nothing to show is not present. -/
theorem not_present (h : src.Reads ts) (hp : Passing src ts P s cur versions before after)
    (hs : s.valueType = .deletion)
    (hlt : ∀ e ∈ before, e.key.sequence ≤ src.sequence → e.key.userKey < cur) {p : K × V}
    (hin : p ∈ src.contents ts) (hP : P p.1) : p.1 ≠ cur := by
  intro heq
  have hread := (mem_contents h).1 (show (p.1, p.2) ∈ _ from hin)
  rw [heq, vers_of_ahead hp.split hlt, hp.folded (heq ▸ hP), Mvcc.read,
    (hp.folds.deletion hs).2.2] at hread
  simp at hread

omit [Inhabited K] [Inhabited V] in
theorem stops (hdown : ∀ k k', P k → k' ≤ k → P k')
    (hp : Passing src ts P s cur versions before after) (hs : s.valueType ≠ .deletion)
    (hlt : ∀ e ∈ before, e.key.sequence ≤ src.sequence → e.key.userKey < cur) :
    StopsAt src ts P s (Cursor.back after before) := by
  have hP := hp.meets hs
  refine ⟨cur, before, after, hp.split, rfl, hP, ?_, hp.present, hlt, fun e he hvis => ?_⟩
  · rw [vers_of_ahead hp.split hlt, hp.folded hP]
    exact hp.folds
  · by_contra hlt'
    exact hlt' (hp.ahead e he hvis (hdown _ _ hP (not_le.1 hlt').le))

omit [Inhabited K] [Inhabited V] in
theorem split_cons (hp : Passing src ts P s cur versions (e :: before) after) :
    before.reverse ++ e :: after = src.internal.entries := by simpa using hp.split

omit [Inhabited K] [Inhabited V] in
theorem le_of_behind (hp : Passing src ts P s cur versions (e :: before) after) :
    ∀ e' ∈ before, e'.key.userKey ≤ e.key.userKey := fun e' he' =>
  userKey_le ((sorted_keys (split_cons hp)).1 e' he' e (by simp))

omit [Inhabited K] [Inhabited V] in
/-- An entry that is hidden from the reader is passed. -/
theorem hidden (hp : Passing src ts P s cur versions (e :: before) after)
    (hvis : ¬ e.key.sequence ≤ src.sequence) :
    Passing src ts P s cur versions before (e :: after) where
  split := split_cons hp
  folds := hp.folds
  folded hP := by
    rw [vers_cons_of_not fun hv => hvis hv.2]
    exact hp.folded hP
  behind e' he' := hp.behind e' (List.mem_cons_of_mem e he')
  ahead e' he' hv := by
    rcases List.mem_cons.1 he' with rfl | he'
    · exact absurd hv hvis
    · exact hp.ahead e' he' hv
  present := hp.present
  meets := hp.meets

/-- An entry of the same key, or any if there is nothing to show yet, is folded. -/
theorem see (h : src.Reads ts) (hp : Passing src ts P s cur versions (e :: before) after)
    (hvis : e.key.sequence ≤ src.sequence)
    (hend : ¬ (s.valueType ≠ .deletion ∧ e.key.userKey < s.savedKey)) :
    Passing src ts P (s.see src e) e.key.userKey (vers src e.key.userKey (e :: after)) before
      (e :: after) := by
  obtain ⟨hPe, hecur⟩ := hp.behind e List.mem_cons_self hvis
  have hle := le_of_behind hp
  have hsame : s.valueType ≠ .deletion → cur = e.key.userKey := by
    intro hs
    refine le_antisymm (not_lt.1 fun hlt => hend ⟨hs, ?_⟩) hecur
    rwa [hp.folds.key hs]
  refine ⟨split_cons hp, ?_, fun _ => rfl, fun e' he' hv =>
    ⟨(hp.behind e' (List.mem_cons_of_mem e he') hv).1, hle e' he'⟩, ?_, ?_, fun _ => hPe⟩
  · -- the versions of the key so far
    have hmem : e ∈ src.internal.entries := by
      rw [← split_cons hp]
      simp
    rw [vers_cons_of_visible ⟨rfl, hvis⟩]
    refine hp.folds.see (src.internal.types e hmem) hsame ?_
    by_cases hk : e.key.userKey = cur
    · rw [hk, hp.folded (hk ▸ hPe)]
    · have hs : s.valueType = .deletion := by
        by_contra hs
        exact hk (hsame hs).symm
      rw [(hp.folds.deletion hs).2.2, vers_eq_nil, collect_nil]
      intro e' he' hv
      have := hp.ahead e' he' hv.2 (hv.1 ▸ hPe)
      exact hk (le_antisymm hecur (this.trans hv.1.le))
  · intro e' he' hv hP
    rcases List.mem_cons.1 he' with rfl | he'
    · exact le_rfl
    · exact hecur.trans (hp.ahead e' he' hv hP)
  · -- no present key above this one
    intro p hin hP
    obtain ⟨e', he', hv⟩ := exists_visible h hin
    rcases mem_split (split_cons hp) he' with he' | he'
    · exact hv.1.ge.trans (hle e' he')
    · rcases List.mem_cons.1 he' with rfl | he'
      · exact hv.1.ge
      · have heq : p.1 = cur := le_antisymm (hp.present p hin hP)
          ((hp.ahead e' he' hv.2 (hv.1 ▸ hP)).trans hv.1.le)
        by_contra hgt
        rw [heq] at hgt
        have hs : s.valueType = .deletion := by
          by_contra hs
          exact hgt (hsame hs).le
        refine not_present h hp hs (fun e'' he'' _ => ?_) hin hP heq
        rcases List.mem_cons.1 he'' with rfl | he''
        · exact not_le.1 hgt
        · exact (hle e'' he'').trans_lt (not_le.1 hgt)

end Passing

/-- **The loop of `FindPrevUserEntry`** ends with the versions of the last present key that meets
`P`, for a `P` that goes down, if there is one. -/
theorem findPrevLoop_spec (h : src.Reads ts) {P : K → Prop} (hdown : ∀ k k', P k → k' ≤ k → P k')
    {s : Found K V} {cur : K} {versions : List (Op V)} {before after : List (Entry K V)}
    (hp : Passing src ts P s cur versions before after) :
    ((findPrevLoop src s after before).1.valueType = .deletion ∧
        ∀ p ∈ src.contents ts, ¬ P p.1) ∨
      (findPrevLoop src s after before).1.valueType ≠ .deletion ∧
        StopsAt src ts P (findPrevLoop src s after before).1 (findPrevLoop src s after before).2 := by
  induction before generalizing s cur versions after with
  | nil =>
    by_cases hs : s.valueType = .deletion
    · refine .inl ⟨hs, fun p hin hP => ?_⟩
      obtain ⟨e, he, hv⟩ := exists_visible h hin
      have he : e ∈ after := by
        rcases mem_split hp.split he with he | he
        · cases he
        · exact he
      have hle := hp.ahead e he hv.2 (hv.1 ▸ hP)
      exact hp.not_present h hs (by simp) hin hP
        (le_antisymm (hp.present p hin hP) (hle.trans hv.1.le))
    · exact .inr ⟨hs, hp.stops hdown hs (by simp)⟩
  | cons e before ih =>
    by_cases hvis : e.key.sequence ≤ src.sequence
    · by_cases hend : s.valueType ≠ .deletion ∧ e.key.userKey < s.savedKey
      · -- an entry of a smaller key: the current one is complete
        have hloop : findPrevLoop src s after (e :: before) = (s, some ⟨before, e, after⟩) := by
          rw [findPrevLoop, if_pos hvis, if_pos hend]
        rw [hloop]
        rw [hp.folds.key hend.1] at hend
        refine .inr ⟨hend.1, hp.stops hdown hend.1 fun e' he' _ => ?_⟩
        rcases List.mem_cons.1 he' with rfl | he'
        · exact hend.2
        · exact (hp.le_of_behind e' he').trans_lt hend.2
      · have hloop : findPrevLoop src s after (e :: before) =
            findPrevLoop src (s.see src e) (e :: after) before := by
          rw [findPrevLoop, if_pos hvis, if_neg hend]
        rw [hloop]
        exact ih (hp.see h hvis hend)
    · have hloop : findPrevLoop src s after (e :: before) = findPrevLoop src s (e :: after) before := by
        rw [findPrevLoop, if_neg hvis]
      rw [hloop]
      exact ih (hp.hidden hvis)

/-- **`FindPrevUserEntry`** lands on the last present key that meets `P`, for a `P` that goes down,
if the visible entries of the keys that do are those behind. -/
theorem findPrevUserEntry_lands (h : src.Reads ts) {P : K → Prop}
    (hdown : ∀ k k', P k → k' ≤ k → P k') {it : DBIter K V} {cur : K}
    {before after : List (Entry K V)} (hdir : it.direction = .reverse)
    (hiter : it.iter = Cursor.back after before)
    (hsplit : before.reverse ++ after = src.internal.entries)
    (hbefore : ∀ e ∈ before, e.key.sequence ≤ src.sequence →
      P e.key.userKey ∧ e.key.userKey ≤ cur)
    (hafter : ∀ e ∈ after, e.key.sequence ≤ src.sequence → ¬ P e.key.userKey) :
    LandsLast src ts P (findPrevUserEntry src it) := by
  have hstart : (⟨.deletion, false, [], it.savedKey, it.savedValue⟩ : Found K V).Folds cur [] :=
    ⟨by simp, by simp, by simp⟩
  have hmap : ∀ p ∈ src.contents ts, P p.1 → p.1 ≤ cur := by
    intro p hp hP
    obtain ⟨e, he, hv⟩ := exists_visible h hp
    rcases mem_split hsplit he with he | he
    · exact hv.1.ge.trans (hbefore e he hv.2).2
    · exact absurd (hv.1 ▸ hP) (hafter e he hv.2)
  have hloop := findPrevLoop_spec h hdown ⟨hsplit, hstart,
    fun hP => vers_eq_nil fun e he hv => hafter e he hv.2 (hv.1 ▸ hP), hbefore,
    fun e he hv hP => absurd hP (hafter e he hv), hmap, by simp⟩
  have hplace : (it.iter.elim ((⟨.deletion, false, [], it.savedKey, it.savedValue⟩ : Found K V), none)
      fun c => findPrevLoop src ⟨.deletion, false, [], it.savedKey, it.savedValue⟩ c.after
        (c.here :: c.before)) =
      findPrevLoop src ⟨.deletion, false, [], it.savedKey, it.savedValue⟩ after before := by
    rw [hiter]
    cases before with
    | nil => rfl
    | cons e before => rfl
  unfold findPrevUserEntry
  simp only [hplace]
  generalize findPrevLoop src ⟨.deletion, false, [], it.savedKey, it.savedValue⟩ after before = r
    at hloop
  obtain ⟨s, iter⟩ := r
  simp only at hloop ⊢
  rcases hloop with ⟨hs, hno⟩ | ⟨hs, k, before', after', hsplit', hback, hP, hfolds, hlast, hlt, hge⟩
  · rw [if_pos hs]
    exact .inl ⟨rfl, hno⟩
  · right
    have hk := hfolds.key hs
    have htype := hfolds.valueType
    have hread : read (foldOf src.mergeOp k) (vers src k src.internal.entries) =
        settle (foldOf src.mergeOp k) s.operands.reverse
          (if s.hasBase then some s.savedValue else none) := by
      rw [Mvcc.read, hfolds.collect]
    rw [if_neg hs]
    by_cases hops : s.operands.isEmpty = true
    · -- a value
      have hbase : s.hasBase = true := by
        by_contra hbase
        rw [if_pos hops, if_neg hbase] at htype
        exact hs htype
      rw [if_pos hops]
      refine ⟨k, s.savedValue, .saved before' after' rfl hdir rfl hk rfl hback hsplit' hlt hge, ?_,
        hP, hlast⟩
      rw [mem_contents h, hread, List.isEmpty_iff.1 hops, hbase]
      rfl
    · -- operands, on the saved value or on nothing
      have hne : s.operands ≠ [] := fun hnil => hops (List.isEmpty_iff.2 hnil)
      have hrne : s.operands.reverse ≠ [] := by simpa using hne
      have hreverse : ∀ k', (if it.direction = .forward then k' else s.savedKey) = s.savedKey :=
        fun _ => if_neg (by rw [hdir]; decide)
      rw [if_neg hops]
      split
      · rename_i hbase
        obtain ⟨v, hfold, heq⟩ := fullMerge_spec h
          { it with merged := false, iter, savedKey := s.savedKey, savedValue := default }
          (hreverse _) (some s.savedValue) hne
        rw [heq]
        refine ⟨k, v, .saved before' after' rfl hdir rfl hk rfl hback hsplit' hlt hge, ?_, hP, hlast⟩
        rw [mem_contents h, hread, settle_ne hrne, List.reverse_reverse, hbase, ← hk]
        exact congrArg _ hfold
      · rename_i hbase
        obtain ⟨v, hfold, heq⟩ := fullMerge_spec h
          { it with merged := false, iter, savedKey := s.savedKey, savedValue := s.savedValue }
          (hreverse _) none hne
        rw [heq]
        refine ⟨k, v, .saved before' after' rfl hdir rfl hk rfl hback hsplit' hlt hge, ?_, hP, hlast⟩
        rw [mem_contents h, hread, settle_ne hrne, List.reverse_reverse, if_neg hbase, ← hk]
        exact congrArg _ hfold

omit [Inhabited K] [Inhabited V] in
theorem skipBack_spec (k : K) {before after : List (Entry K V)}
    (hsplit : before.reverse ++ after = src.internal.entries)
    (hafter : ∀ e ∈ after, k ≤ e.key.userKey) : ∃ before' after',
      before'.reverse ++ after' = src.internal.entries ∧
      skipBack k after before = Cursor.back after' before' ∧
      (∀ e ∈ before', e.key.userKey < k) ∧ ∀ e ∈ after', k ≤ e.key.userKey := by
  induction before generalizing after with
  | nil => exact ⟨[], after, hsplit, rfl, by simp, hafter⟩
  | cons e before ih =>
    have hsplit' : before.reverse ++ e :: after = src.internal.entries := by simpa using hsplit
    by_cases hk : k ≤ e.key.userKey
    · rw [skipBack, if_pos hk]
      refine ih hsplit' fun e' he' => ?_
      rcases List.mem_cons.1 he' with rfl | he'
      · exact hk
      · exact hafter e' he'
    · obtain ⟨hsorted, -, -⟩ := sorted_keys hsplit'
      refine ⟨e :: before, after, hsplit, by rw [skipBack, if_neg hk]; rfl, ?_, hafter⟩
      intro e' he'
      rcases List.mem_cons.1 he' with rfl | he'
      · exact not_le.1 hk
      · exact (userKey_le (hsorted e' he' e (by simp))).trans_lt (not_le.1 hk)

/-- Turning round: back from a place whose entries ahead are of the key or larger. -/
theorem prevFrom_lands (h : src.Reads ts) (it : DBIter K V) {k : K}
    {before after : List (Entry K V)} (hsplit : before.reverse ++ after = src.internal.entries)
    (hafter : ∀ e ∈ after, k ≤ e.key.userKey) :
    LandsLast src ts (fun k' => k' < k)
      (match (Cursor.back after before).bind fun c => skipBack k c.after (c.here :: c.before) with
        | none => { it with iter := none, valid := false, savedKey := default, savedValue := default }
        | some c => findPrevUserEntry src { it with iter := some c, direction := .reverse }) := by
  obtain ⟨before', after', hsplit', hskip, hlt, hge⟩ := skipBack_spec k hsplit hafter
  have hplace : ((Cursor.back after before).bind fun c => skipBack k c.after (c.here :: c.before)) =
      Cursor.back after' before' := by
    rw [← hskip]
    cases before with
    | nil => rfl
    | cons e before => rfl
  rw [hplace]
  cases before' with
  | nil =>
    refine .inl ⟨rfl, fun p hp hP => ?_⟩
    obtain ⟨e, he, hv⟩ := exists_visible h hp
    rcases mem_split hsplit' he with he | he
    · cases he
    · exact absurd (hge e he) (not_le.2 (hv.1 ▸ hP))
  | cons e before' =>
    exact findPrevUserEntry_lands h (fun _ _ hP hle => hle.trans_lt hP) rfl rfl hsplit'
      (fun e he _ => ⟨hlt e he, (hlt e he).le⟩) fun e he _ => not_lt.2 (hge e he)

/-- **`Prev`** goes to the last present key before the current one. -/
theorem prev_lands (h : src.Reads ts) {it : DBIter K V} {k : K} {v : V}
    (hshows : Shows src it k v) : LandsLast src ts (fun k' => k' < k) (it.prev src) := by
  obtain ⟨iter, direction, valid, merged, savedKey, savedValue, mergedKey, status⟩ := it
  cases hshows with
  | entry c hvalid hdir hmerged hiter hlist hk hv =>
    simp only at hvalid hdir hmerged hiter
    subst hvalid hdir hmerged hiter hk
    have hsplit : (c.here :: c.before).reverse ++ c.after = src.internal.entries := by
      simpa [Cursor.toList] using hlist
    obtain ⟨hhere, -, -⟩ := sorted_keys hsplit
    exact prevFrom_lands h ⟨_, .forward, true, false, c.here.key.userKey, savedValue,
      mergedKey, status⟩ hsplit fun e he => userKey_le (hhere c.here (by simp) e he)
  | merged before after hvalid hdir hmerged hk hv hiter hsplit hle hlt =>
    simp only at hvalid hdir hmerged hk hiter
    subst hvalid hdir hmerged hk hiter
    cases after with
    | nil =>
      have hall : src.internal.entries.reverse.reverse ++ [] = src.internal.entries := by simp
      exact prevFrom_lands h ⟨_, .forward, true, false, mergedKey, savedValue, mergedKey,
        status⟩ hall (by simp)
    | cons e after =>
      have hsplit' : (e :: before).reverse ++ after = src.internal.entries := by simpa using hsplit
      exact prevFrom_lands h ⟨_, .forward, true, false, mergedKey, savedValue, mergedKey,
        status⟩ hsplit' fun e' he' => (hlt e' (by simp [he'])).le
  | saved before after hvalid hdir hmerged hk hv hiter hsplit hlt hge =>
    simp only at hvalid hdir hmerged hk hiter
    subst hvalid hdir hmerged hk
    exact findPrevUserEntry_lands h (fun _ _ hP hle => hle.trans_lt hP) rfl hiter hsplit
      (fun e he hv => ⟨hlt e he hv, (hlt e he hv).le⟩) fun e he hv => not_lt.2 (hge e he hv)

theorem seekToLast_lands (h : src.Reads ts) (it : DBIter K V) :
    LandsLast src ts (fun _ => True) (it.seekToLast src) := by
  have hall : src.internal.entries.reverse.reverse ++ [] = src.internal.entries := by simp
  obtain ⟨-, -, hdown⟩ := sorted_keys hall
  let cur : K := src.internal.entries.reverse.head?.elim default (·.key.userKey)
  have hcur : ∀ e ∈ src.internal.entries.reverse, e.key.userKey ≤ cur := by
    intro e he
    obtain ⟨m, rest, hm⟩ := List.exists_cons_of_ne_nil (List.ne_nil_of_mem he)
    simp only [cur, hm, List.head?_cons, Option.elim_some]
    rw [hm] at he hdown
    rcases List.mem_cons.1 he with rfl | he
    · exact le_rfl
    · exact userKey_le ((List.pairwise_cons.1 hdown).1 e he)
  exact findPrevUserEntry_lands h (fun _ _ _ _ => trivial) rfl rfl hall
    (fun e he _ => ⟨trivial, hcur e he⟩) (by simp)

/-! ## The walk -/

/-- The iterator and the cursor are at the same key, or both at none. -/
def Follows (src : DBIterSource K V) (ts : List (RangeTombstone K)) (it : DBIter K V)
    (c : Option (Cursor (K × V))) : Prop :=
  it.valid = false ∧ c = none ∨
    ∃ d, c = some d ∧ d.toList = src.contents ts ∧ Shows src it d.here.1 d.here.2

omit [Inhabited K] [Inhabited V] in
theorem follows_first {P : K → Prop} {it : DBIter K V} {c : Option (Cursor (K × V))}
    (hit : LandsFirst src ts P it) (hc : Cursor.IsFirst (·.1) (src.contents ts) (fun p => P p.1) c) :
    Follows src ts it c := by
  rcases hit with ⟨hvalid, hno⟩ | ⟨k, v, hshows, hmem, hP, hmin⟩
  · exact .inl ⟨hvalid, hc.eq_none hno⟩
  · obtain ⟨d, hd, hlist, hhere⟩ := hc.eq_of_mem (contents_sorted src ts) hmem hP hmin
    exact .inr ⟨d, hd, hlist, by rw [hhere]; exact hshows⟩

omit [Inhabited K] [Inhabited V] in
theorem follows_last {P : K → Prop} {it : DBIter K V} {c : Option (Cursor (K × V))}
    (hit : LandsLast src ts P it) (hc : Cursor.IsLast (·.1) (src.contents ts) (fun p => P p.1) c) :
    Follows src ts it c := by
  rcases hit with ⟨hvalid, hno⟩ | ⟨k, v, hshows, hmem, hP, hmax⟩
  · exact .inl ⟨hvalid, hc.eq_none hno⟩
  · obtain ⟨d, hd, hlist, hhere⟩ := hc.eq_of_mem (contents_sorted src ts) hmem hP hmax
    exact .inr ⟨d, hd, hlist, by rw [hhere]; exact hshows⟩

/-- **One call** moves the iterator and the cursor alike. -/
theorem step_follows (h : src.Reads ts) {it : DBIter K V} {c : Option (Cursor (K × V))}
    (hrel : Follows src ts it c) (call : IterCall K) :
    Option.Rel (Follows src ts) ((system src).step it call)
      ((walk (src.contents ts)).step c call) := by
  have hsorted := contents_sorted src ts
  cases call with
  | seek target => exact .some (follows_first (seek_lands h it target) (Cursor.isFirst_seek hsorted _))
  | seekToFirst => exact .some (follows_first (seekToFirst_lands h it) (Cursor.isFirst_first hsorted))
  | seekToLast => exact .some (follows_last (seekToLast_lands h it) (Cursor.isLast_last hsorted))
  | next =>
    rcases hrel with ⟨hvalid, rfl⟩ | ⟨d, rfl, hlist, hshows⟩
    · simp only [system, walk, hvalid]
      exact .none
    · simp only [system, walk, hshows.valid]
      exact .some (follows_first (next_lands h hshows) (Cursor.isFirst_next hsorted hlist))
  | prev =>
    rcases hrel with ⟨hvalid, rfl⟩ | ⟨d, rfl, hlist, hshows⟩
    · simp only [system, walk, hvalid]
      exact .none
    · simp only [system, walk, hshows.valid]
      exact .some (follows_last (prev_lands h hshows) (Cursor.isLast_prev hsorted hlist))

/-- **The iterator is a cursor**: after any calls, it shows what a cursor over the ordered map of
the present keys shows after the same calls; and a call is possible where it is for the cursor. -/
theorem run_shown (h : src.Reads ts) (calls : List (IterCall K)) :
    ((system src).run new calls).map shown =
      ((walk (src.contents ts)).run none calls).map fun c => c.map (·.here) := by
  have hstart : Follows src ts (new : DBIter K V) none := .inl ⟨rfl, rfl⟩
  have hrun := Transition.System.run_rel (system src) (walk (src.contents ts))
    (fun it c call hrel => step_follows h hrel call) hstart calls
  generalize (system src).run new calls = x, (walk (src.contents ts)).run none calls = y at hrun
  cases hrun with
  | none => rfl
  | some hrel =>
    rcases hrel with ⟨hvalid, rfl⟩ | ⟨d, rfl, -, hshows⟩
    · simp [shown, hvalid]
    · simp [hshows.shown]

end

/-- An operand over a put of key 1, a put of key 0 that a tombstone of sequence number 4 hides, and
a put of key 2 with one above the snapshot. -/
def sampleSource : DBIterSource (Fin 3) Nat where
  internal := ⟨[⟨⟨0, 3, .value⟩, 7⟩, ⟨⟨1, 5, .merge⟩, 2⟩, ⟨⟨1, 2, .value⟩, 10⟩, ⟨⟨2, 9, .value⟩, 8⟩,
    ⟨⟨2, 1, .value⟩, 20⟩], by decide, by decide⟩
  sequence := 6
  mergeOp := some (.counter _)
  rangeDels := some ⟨none, none, some (.ofTombstones [⟨0, 1, 4, 2⟩])⟩

theorem sampleSource_reads : sampleSource.Reads [⟨0, 1, 4, 2⟩] where
  view := .inr ⟨_, rfl, [⟨0, 1, 4, 2⟩], rfl, .inl rfl⟩
  layers := by decide
  merges _ _ _ _ := rfl

theorem run_shown_sampleSource :
    ((system sampleSource).run new [.seek 0, .next, .prev, .next, .prev]).map shown =
      some (some (1, 12)) :=
  (run_shown sampleSource_reads _).trans (by decide)

end DBIter
end LevelDb
