import LevelDb.Db.Verify

/-!
# The full check is sound and complete

`scanLoop_ok` reduces the pass over the scan to one question for each id: does it show what it should
before the batch, and what it should after? The pass goes through just when all ids answer yes to the
first or all to the second, and returns which (`verifyScan_spec`).
-/

namespace LevelDb.Bench

open Coding Numerals

/-! ## Keys -/

theorem toNat_toUInt8_of_isDigit {c : Char} (h : c.isDigit = true) : c.toUInt8.toNat = c.toNat := by
  have hle := (toNat_of_isDigit h).2
  show c.toNat % 2 ^ 8 = c.toNat
  omega

/-- The loop of `IdOf` reads digits as their number. -/
theorem foldlM_digits {ds : Text} (h : ∀ c ∈ ds, c.isDigit = true) (v : Nat) :
    (ds.map Char.toUInt8).foldlM (fun v c => if c < 48 ∨ 57 < c then none
      else some (v * 10 + (c.toNat - 48))) v = some (Nat.ofDigitChars 10 ds v) := by
  induction ds generalizing v with
  | nil => rfl
  | cons c cs ih =>
    obtain ⟨h1, h2⟩ := toNat_of_isDigit (h c List.mem_cons_self)
    have hnat := toNat_toUInt8_of_isDigit (h c List.mem_cons_self)
    have hin : ¬ (c.toUInt8 < 48 ∨ 57 < c.toUInt8) := by
      rw [UInt8.lt_iff_toNat_lt, UInt8.lt_iff_toNat_lt, hnat]
      show ¬ (c.toNat < 48 ∨ 57 < c.toNat)
      omega
    rw [List.map_cons, List.foldlM_cons, if_neg hin, hnat, Nat.ofDigitChars_cons, Nat.mul_comm 10]
    exact ih (fun d hd => h d (List.mem_cons_of_mem c hd)) _

theorem keyOf_eq {id : Nat} (h : id < 10 ^ 16) : keyOf id = (padded 16 id).map Char.toUInt8 := by
  rw [keyOf, List.take_of_length_le]
  rw [List.length_map, length_padded (by decide) h]
  exact le_rfl

theorem idOf_keyOf {id : Nat} (h : id < 10 ^ 16) : idOf (keyOf id) = some id := by
  have hlen : ((padded 16 id).map Char.toUInt8).length = kKeyLen := by
    rw [List.length_map, length_padded (by decide) h]
    rfl
  rw [keyOf_eq h, idOf, if_neg (not_not_intro hlen), foldlM_digits fun c => isDigit_of_mem_padded]
  exact congrArg some (value_padded 16 id)

/-- Every byte of a key that parses is a digit. -/
theorem digits_of_foldlM {key : Bytes} {v id : Nat}
    (h : key.foldlM (fun v c => if c < 48 ∨ 57 < c then none
      else some (v * 10 + (c.toNat - 48))) v = some id) :
    ∃ ds : Text, (∀ c ∈ ds, c.isDigit = true) ∧ key = ds.map Char.toUInt8 := by
  induction key generalizing v with
  | nil => exact ⟨[], nofun, rfl⟩
  | cons b key ih =>
    rw [List.foldlM_cons] at h
    split at h
    · cases h
    · rename_i hin
      obtain ⟨ds, hds, rfl⟩ := ih h
      rw [UInt8.lt_iff_toNat_lt, UInt8.lt_iff_toNat_lt] at hin
      change ¬ (b.toNat < 48 ∨ 57 < b.toNat) at hin
      have hnat : (Char.ofNat b.toNat).toNat = b.toNat := by
        have hvalid : b.toNat.isValidChar := .inl (by omega)
        rw [Char.ofNat, dif_pos hvalid]
        rfl
      refine ⟨Char.ofNat b.toNat :: ds, ?_, ?_⟩
      · rintro c (- | ⟨_, hc⟩)
        · simp only [Char.isDigit, Bool.and_eq_true, decide_eq_true_eq]
          show 48 ≤ (Char.ofNat b.toNat).toNat ∧ (Char.ofNat b.toNat).toNat ≤ 57
          omega
        · exact hds c hc
      · rw [List.map_cons]
        congr 1
        apply UInt8.toNat_inj.1
        show b.toNat = (Char.ofNat b.toNat).toNat % 2 ^ 8
        omega

theorem keyOf_of_idOf {key : Bytes} {id : Nat} (h : idOf key = some id) : key = keyOf id := by
  unfold idOf at h
  split at h
  · cases h
  · rename_i hlen
    obtain ⟨ds, hds, rfl⟩ := digits_of_foldlM h
    rw [foldlM_digits hds, Option.some_inj] at h
    rw [List.length_map] at hlen
    have hlen : ds.length = 16 := not_not.1 hlen
    have hvalue : value ds = id := h
    have hid : id < 10 ^ 16 := by
      rw [← hvalue, ← hlen]
      exact value_lt hds
    -- digits of one length are known by their number
    have hpad : (padded 16 id).length = ds.length := by
      rw [length_padded (by decide) hid, hlen]
    have hle := lt_iff_value_lt hpad (fun c => isDigit_of_mem_padded) hds
    have hge := lt_iff_value_lt hpad.symm hds (fun c => isDigit_of_mem_padded)
    rw [value_padded, hvalue] at hle hge
    have heq : padded 16 id = ds :=
      le_antisymm (not_lt.1 fun hlt => lt_irrefl id (hge.1 hlt))
        (not_lt.1 fun hlt => lt_irrefl id (hle.1 hlt))
    rw [keyOf_eq hid, heq]

theorem length_words (n : Nat) (r : Rng) : (ValueGen.words n r).length = 8 * n := by
  induction n generalizing r with
  | zero => rfl
  | succ n ih =>
    rw [ValueGen.words, List.length_append, length_putFixed, ih]
    omega

theorem equals_iff {p : ValueProfile} {seed id : UInt64} {w : UInt32} {data : Bytes} :
    ValueGen.equals p seed id w data = true ↔ data = ValueGen.make p seed id w := by
  unfold ValueGen.equals
  rw [decide_eq_true_eq]
  constructor
  · rintro ⟨-, h⟩
    exact h.symm
  · rintro rfl
    refine ⟨?_, rfl⟩
    rw [ValueGen.make, List.length_set, List.length_take, length_words]
    omega

/-! ## What a state shows -/

/-- The value that the versions give an id. -/
def Model.shown (m : Model) (id : Nat) : Option Bytes :=
  (m.ver[id]?).bind fun w =>
    if isLive w then some (ValueGen.make m.profile m.seed (.ofNat id) w) else none

/-- The entries with these values, among `n` ids from `a` on. -/
def listing (g : Nat → Option Bytes) (a n : Nat) : List (Bytes × Bytes) :=
  (List.range' a n).filterMap fun id => (g id).map fun v => (keyOf id, v)

/-- The database that holds the versions of the model. -/
def Model.contents (m : Model) : List (Bytes × Bytes) := listing m.shown 0 m.ver.length

theorem matches_iff {m : Model} {id : Nat} {w : UInt32} {x : Option Bytes} :
    m.matches id w x = true ↔
      x = if isLive w then some (ValueGen.make m.profile m.seed (.ofNat id) w) else none := by
  unfold Model.matches
  split
  · cases x with
    | none => exact iff_of_false nofun nofun
    | some v =>
      rw [Option.any_some, equals_iff, Option.some_inj]
  · rw [Option.isNone_iff_eq_none]

theorem shown_patch {m : Model} {f : Nat → Option UInt32} {id : Nat} (hid : id < m.ver.length) :
    (m.patch f).shown id =
      if isLive ((f id).getD (m.ver[id]?.getD 0)) then
        some (ValueGen.make m.profile m.seed (.ofNat id) ((f id).getD (m.ver[id]?.getD 0)))
      else none := by
  unfold Model.shown Model.patch
  rw [List.getElem?_mapIdx, List.getElem?_eq_getElem hid]
  rfl

theorem shown_patch_of_none {m : Model} {f : Nat → Option UInt32} {id : Nat} (hf : f id = none) :
    (m.patch f).shown id = m.shown id := by
  unfold Model.shown Model.patch
  rw [List.getElem?_mapIdx]
  cases m.ver[id]? with
  | none => rfl
  | some w =>
    rw [Option.map_some, Option.bind_some, Option.bind_some, hf]
    rfl

/-! ## One id -/

/-- An id that shows the state before, and the state after, or not. -/
def settle (oldOk newOk : Bool) (st : InFlightState) : Option InFlightState :=
  match oldOk, newOk with
  | true, true => some st
  | true, false => if st = .new then none else some .old
  | false, true => if st = .old then none else some .new
  | false, false => none

/-- What the id shows is what the versions with these changes show. -/
def Model.showsAt (m : Model) (f : Nat → Option UInt32) (id : Nat) (x : Option Bytes) : Bool :=
  x = (m.patch f).shown id

variable {m : Model} {fl : InFlight}

/-- **One id**: whichever branch checks it, what counts is what it shows. -/
def Model.settleAt (m : Model) (fl : InFlight) (id : Nat) (x : Option Bytes) (st : InFlightState) :
    Option InFlightState :=
  settle (m.showsAt fl.before id x) (m.showsAt fl.after id x) st

theorem decide_ok {id : Nat} (hid : id < m.ver.length) {old new : UInt32}
    (hfind : fl.find id = some (old, new)) {x : Option Bytes} {st st' : InFlightState} :
    m.decide id old new x st = .ok st' ↔ m.settleAt fl id x st = some st' := by
  obtain ⟨b, hb, ha⟩ := Option.bind_eq_some_iff.1 hfind
  obtain ⟨a, ha, hab⟩ := Option.map_eq_some_iff.1 ha
  cases hab
  have hold : m.matches id old x = m.showsAt fl.before id x := by
    rw [Bool.eq_iff_iff, matches_iff, Model.showsAt, decide_eq_true_eq, shown_patch hid, hb]
    rfl
  have hnew : m.matches id new x = m.showsAt fl.after id x := by
    rw [Bool.eq_iff_iff, matches_iff, Model.showsAt, decide_eq_true_eq, shown_patch hid, ha]
    rfl
  unfold Model.decide Model.settleAt
  rw [hold, hnew]
  cases m.showsAt fl.before id x <;> cases m.showsAt fl.after id x <;> cases st <;> simp [settle]

theorem find_none (fl : InFlight) {id : Nat} (h : fl.find id = none) :
    fl.before id = none ∧ fl.after id = none := by
  have hsame := fl.same id
  unfold InFlight.find at h
  cases hb : fl.before id with
  | none =>
    rw [hb] at hsame
    exact ⟨rfl, Option.isNone_iff_eq_none.1 (by simpa using hsame.symm)⟩
  | some b =>
    rw [hb, Option.bind_some] at h
    rw [hb] at hsame
    rw [Option.map_eq_none_iff.1 h] at hsame
    cases hsame

/-- An id that is not of the batch shows the same in both states. -/
theorem settleAt_of_find_none {id : Nat} (hfind : fl.find id = none) {x : Option Bytes}
    {st st' : InFlightState} : m.settleAt fl id x st = some st' ↔ x = m.shown id ∧ st = st' := by
  obtain ⟨hb, ha⟩ := find_none fl hfind
  unfold Model.settleAt Model.showsAt
  rw [shown_patch_of_none hb, shown_patch_of_none ha]
  by_cases hx : x = m.shown id
  · simp [hx, settle]
  · simp [hx, settle]

theorem live_iff {id : Nat} (hid : id < m.ver.length) :
    m.live id = isLive (m.ver[id]?.getD 0) := by
  rw [Model.live, List.getElem?_eq_getElem hid]
  rfl

theorem shown_eq {id : Nat} (hid : id < m.ver.length) :
    m.shown id = if m.live id then
      some (ValueGen.make m.profile m.seed (.ofNat id) (m.ver[id]?.getD 0)) else none := by
  rw [live_iff hid, Model.shown, List.getElem?_eq_getElem hid]
  rfl

theorem absent_ok {id : Nat} (hid : id < m.ver.length) {what : String} {st st' : InFlightState} :
    m.absent fl what id st = .ok st' ↔ m.settleAt fl id none st = some st' := by
  unfold Model.absent
  cases hfind : fl.find id with
  | some x => exact decide_ok hid hfind
  | none =>
    rw [settleAt_of_find_none hfind, shown_eq hid]
    cases m.live id <;> simp

theorem present_ok {id : Nat} (hid : id < m.ver.length) {v : Bytes} {st st' : InFlightState} :
    m.present fl id v st = .ok st' ↔ m.settleAt fl id (some v) st = some st' := by
  unfold Model.present
  cases hfind : fl.find id with
  | some x => exact decide_ok hid hfind
  | none =>
    rw [settleAt_of_find_none hfind, shown_eq hid]
    dsimp only
    by_cases hlive : m.live id
    · rw [if_pos hlive, if_pos hlive, Option.some_inj]
      by_cases heq : ValueGen.equals m.profile m.seed (.ofNat id) (m.ver[id]?.getD 0) v
      · rw [if_pos heq]
        simp [equals_iff.1 heq]
      · rw [if_neg heq]
        rw [equals_iff] at heq
        simp [heq]
    · rw [if_neg hlive, if_neg hlive]
      simp

/-! ## The pass -/

/-- All the ids, where each shows what `g` says. -/
def Model.settleAll (m : Model) (fl : InFlight) (g : Nat → Option Bytes) (ids : List Nat)
    (st : InFlightState) : Option InFlightState :=
  ids.foldlM (fun st id => m.settleAt fl id (g id) st) st

theorem settleAll_cons (g : Nat → Option Bytes) (id : Nat) (ids : List Nat) (st : InFlightState) :
    m.settleAll fl g (id :: ids) st =
      (m.settleAt fl id (g id) st).bind fun st => m.settleAll fl g ids st := rfl

theorem settleAll_congr {g g' : Nat → Option Bytes} {ids : List Nat} (h : ∀ id ∈ ids, g id = g' id)
    (st : InFlightState) : m.settleAll fl g ids st = m.settleAll fl g' ids st := by
  induction ids generalizing st with
  | nil => rfl
  | cons id ids ih =>
    rw [settleAll_cons, settleAll_cons, h id List.mem_cons_self]
    exact congrArg _ (funext fun st => ih (fun i hi => h i (List.mem_cons_of_mem id hi)) st)

theorem absentFrom_ok {what : String} {n expect : Nat} (hle : expect + n ≤ m.ver.length)
    {st st' : InFlightState} : m.absentFrom fl what n expect st = .ok st' ↔
      m.settleAll fl (fun _ => none) (List.range' expect n) st = some st' := by
  induction n generalizing expect st with
  | zero =>
    rw [Model.absentFrom]
    exact ⟨fun h => congrArg some (Except.ok.inj h), fun h => congrArg Except.ok (Option.some.inj h)⟩
  | succ n ih =>
    rw [Model.absentFrom, Coding.bind_eq_ok, Model.settleAll, List.range'_succ, List.foldlM_cons,
      Option.bind_eq_bind, Option.bind_eq_some_iff]
    refine exists_congr fun mid => ?_
    rw [absent_ok (by omega), ih (by omega)]
    rfl

theorem range'_split {a id n : Nat} (h1 : a ≤ id) (h2 : id < n) :
    List.range' a (n - a) =
      List.range' a (id - a) ++ id :: List.range' (id + 1) (n - (id + 1)) := by
  have hlen : n - a = (id - a) + ((n - (id + 1)) + 1) := by omega
  rw [hlen, ← List.range'_append_1, List.range'_succ, Nat.add_sub_cancel' h1]

/-- Nothing before the id, `v` at it, and `g` after it. -/
def firstAt (id : Nat) (v : Bytes) (g : Nat → Option Bytes) : Nat → Option Bytes := fun i =>
  if i < id then none else if i = id then some v else g i

theorem firstAt_of_lt {id i : Nat} {v : Bytes} {g : Nat → Option Bytes} (h : i < id) :
    firstAt id v g i = none := if_pos h

theorem firstAt_self {id : Nat} {v : Bytes} {g : Nat → Option Bytes} :
    firstAt id v g id = some v := by
  rw [firstAt, if_neg (lt_irrefl id), if_pos rfl]

theorem firstAt_of_gt {id i : Nat} {v : Bytes} {g : Nat → Option Bytes} (h : id < i) :
    firstAt id v g i = g i := by
  rw [firstAt, if_neg (by omega), if_neg (by omega)]

theorem listing_firstAt {a id n : Nat} (h1 : a ≤ id) (h2 : id < n) (v : Bytes)
    (g : Nat → Option Bytes) : listing (firstAt id v g) a (n - a) =
      (keyOf id, v) :: listing g (id + 1) (n - (id + 1)) := by
  have hbefore : (List.range' a (id - a)).filterMap (fun i =>
      (firstAt id v g i).map fun v => (keyOf i, v)) = [] := by
    rw [List.filterMap_eq_nil_iff]
    intro i hi
    rw [List.mem_range'_1] at hi
    rw [firstAt_of_lt (by omega)]
    rfl
  unfold listing
  rw [range'_split h1 h2, List.filterMap_append, hbefore, List.nil_append, List.filterMap_cons,
    firstAt_self]
  refine congrArg (List.cons _) (List.filterMap_congr fun i hi => ?_)
  rw [List.mem_range'_1] at hi
  rw [firstAt_of_gt (by omega)]

theorem settleAll_firstAt {a id n : Nat} (h1 : a ≤ id) (h2 : id < n) {v : Bytes}
    {g : Nat → Option Bytes} {st st1 st2 st' : InFlightState}
    (hbefore : m.settleAll fl (fun _ => none) (List.range' a (id - a)) st = some st1)
    (hat : m.settleAt fl id (some v) st1 = some st2)
    (hafter : m.settleAll fl g (List.range' (id + 1) (n - (id + 1))) st2 = some st') :
    m.settleAll fl (firstAt id v g) (List.range' a (n - a)) st = some st' := by
  rw [← settleAll_congr (g := firstAt id v g)] at hbefore hafter
  · unfold Model.settleAll at hbefore hafter ⊢
    rw [range'_split h1 h2, List.foldlM_append, hbefore, Option.bind_eq_bind, Option.bind_some,
      List.foldlM_cons, firstAt_self, hat]
    exact hafter
  · intro i hi
    rw [List.mem_range'_1] at hi
    exact firstAt_of_gt (by omega)
  · intro i hi
    rw [List.mem_range'_1] at hi
    exact firstAt_of_lt (by omega)

/-- **The pass over the scan** goes through when the scan lists values that settle all ids. -/
theorem scanLoop_ok (hn : m.ver.length ≤ 10 ^ 16) {scan : List (Bytes × Bytes)} {expect : Nat}
    (hle : expect ≤ m.ver.length) {st st' : InFlightState} :
    m.scanLoop fl (.ok ()) scan expect st = .ok st' ↔
      ∃ g, scan = listing g expect (m.ver.length - expect) ∧
        m.settleAll fl g (List.range' expect (m.ver.length - expect)) st = some st' := by
  induction scan generalizing expect st with
  | nil =>
    rw [Model.scanLoop, absentFrom_ok (by omega)]
    constructor
    · intro h
      refine ⟨fun _ => none, ?_, h⟩
      exact (List.filterMap_eq_nil_iff.2 fun _ _ => rfl).symm
    · rintro ⟨g, hscan, h⟩
      rw [← h]
      refine settleAll_congr (fun id hid => ?_) st
      have hnone := List.filterMap_eq_nil_iff.1 hscan.symm id hid
      exact (Option.map_eq_none_iff.1 hnone).symm
  | cons entry scan ih =>
    obtain ⟨k, v⟩ := entry
    constructor
    · intro h
      rw [Model.scanLoop] at h
      split at h
      · cases h
      · rename_i id hid
        split at h
        · cases h
        · rename_i hin
          split at h
          · cases h
          · rename_i hge
            rw [Nat.not_le] at hin
            rw [Nat.not_lt] at hge
            obtain ⟨st1, h1, h⟩ := Coding.bind_eq_ok.1 h
            obtain ⟨st2, h2, h⟩ := Coding.bind_eq_ok.1 h
            rw [absentFrom_ok (by omega)] at h1
            rw [present_ok hin] at h2
            obtain ⟨g, rfl, h3⟩ := (ih hin).1 h
            refine ⟨firstAt id v g, ?_, settleAll_firstAt hge hin h1 h2 h3⟩
            rw [listing_firstAt hge hin, keyOf_of_idOf hid]
    · rintro ⟨g, hscan, h⟩
      obtain ⟨front, id, back, hids, hnone, hid, hback⟩ := List.filterMap_eq_cons_iff.1 hscan.symm
      obtain ⟨v', hg, hkv⟩ := Option.map_eq_some_iff.1 hid
      cases hkv
      -- where the first entry is
      obtain ⟨i, hi, rfl, hrest⟩ := List.range'_eq_append_iff.1 hids
      obtain ⟨hat, hpos, rfl⟩ := List.range'_eq_cons_iff.1 hrest.symm
      rw [Nat.mul_one] at hat
      have hin : id < m.ver.length := by omega
      have hge : expect ≤ id := by omega
      have hfront : i = id - expect := by omega
      have hlast : m.ver.length - expect - i - 1 = m.ver.length - (id + 1) := by omega
      subst hfront
      rw [hlast] at hback hids
      unfold Model.settleAll at h
      rw [hids, List.foldlM_append] at h
      obtain ⟨st1, h1, h⟩ := Option.bind_eq_some_iff.1 h
      rw [List.foldlM_cons] at h
      obtain ⟨st2, h2, h⟩ := Option.bind_eq_some_iff.1 h
      rw [Model.scanLoop, idOf_keyOf (by omega)]
      dsimp only
      rw [if_neg (by omega), if_neg (by omega), Coding.bind_eq_ok]
      refine ⟨st1, ?_, Coding.bind_eq_ok.2 ⟨st2, ?_, (ih hin).2 ⟨g, hback.symm, h⟩⟩⟩
      · rw [absentFrom_ok (by omega), ← h1]
        refine settleAll_congr (fun j hj => ?_) st
        exact (Option.map_eq_none_iff.1 (hnone j hj)).symm
      · rw [present_ok hin, ← hg]
        exact h2

/-! ## Two worlds -/

/-- All the ids show what the versions with these changes show. -/
def Model.ShowsAll (m : Model) (f : Nat → Option UInt32) (g : Nat → Option Bytes) (ids : List Nat) :
    Prop := ∀ id ∈ ids, m.showsAt f id (g id) = true

theorem showsAll_cons {f : Nat → Option UInt32} {g : Nat → Option Bytes} {id : Nat}
    {ids : List Nat} :
    m.ShowsAll f g (id :: ids) ↔ m.showsAt f id (g id) = true ∧ m.ShowsAll f g ids :=
  List.forall_mem_cons

/-- Once a key has told which state it is, all must show that one. -/
theorem settleAll_settled {f : Nat → Option UInt32} {st st' : InFlightState}
    {g : Nat → Option Bytes} {ids : List Nat}
    (hst : ∀ id x, m.settleAt fl id x st = if m.showsAt f id x = true then some st else none) :
    m.settleAll fl g ids st = some st' ↔ st' = st ∧ m.ShowsAll f g ids := by
  induction ids with
  | nil =>
    constructor
    · intro h
      exact ⟨(Option.some.inj h).symm, nofun⟩
    · rintro ⟨rfl, -⟩
      rfl
  | cons id ids ih =>
    rw [settleAll_cons, showsAll_cons, hst]
    by_cases hshows : m.showsAt f id (g id) = true
    · simpa [hshows] using ih
    · simp [hshows]

theorem settleAll_old {g : Nat → Option Bytes} {ids : List Nat} {st' : InFlightState} :
    m.settleAll fl g ids .old = some st' ↔ st' = .old ∧ m.ShowsAll fl.before g ids := by
  apply settleAll_settled
  intro id x
  unfold Model.settleAt
  cases m.showsAt fl.before id x <;> cases m.showsAt fl.after id x <;> rfl

theorem settleAll_new {g : Nat → Option Bytes} {ids : List Nat} {st' : InFlightState} :
    m.settleAll fl g ids .new = some st' ↔ st' = .new ∧ m.ShowsAll fl.after g ids := by
  apply settleAll_settled
  intro id x
  unfold Model.settleAt
  cases m.showsAt fl.before id x <;> cases m.showsAt fl.after id x <;> rfl

/-- **The lazy decision**: no key tells the states apart and all show both; or all show the state
before, and one tells; or all show the state after, and one tells. -/
theorem settleAll_unknown {g : Nat → Option Bytes} {ids : List Nat} {st' : InFlightState} :
    m.settleAll fl g ids .unknown = some st' ↔
      (st' = .unknown ∧ m.ShowsAll fl.before g ids ∧ m.ShowsAll fl.after g ids) ∨
      (st' = .old ∧ m.ShowsAll fl.before g ids ∧ ¬ m.ShowsAll fl.after g ids) ∨
      (st' = .new ∧ m.ShowsAll fl.after g ids ∧ ¬ m.ShowsAll fl.before g ids) := by
  induction ids with
  | nil =>
    have hnil (f : Nat → Option UInt32) : m.ShowsAll f g [] := nofun
    constructor
    · intro h
      exact .inl ⟨(Option.some.inj h).symm, hnil _, hnil _⟩
    · rintro (⟨rfl, -⟩ | ⟨-, -, h⟩ | ⟨-, -, h⟩)
      · rfl
      · exact absurd (hnil _) h
      · exact absurd (hnil _) h
  | cons id ids ih =>
    rw [settleAll_cons, showsAll_cons, showsAll_cons, Model.settleAt]
    cases hb : m.showsAt fl.before id (g id) with
    | true =>
      cases ha : m.showsAt fl.after id (g id) with
      | true => simpa [settle] using ih
      | false =>
        have h := @settleAll_old m fl g ids st'
        simpa [settle] using h
    | false =>
      cases ha : m.showsAt fl.after id (g id) with
      | true =>
        have h := @settleAll_new m fl g ids st'
        simpa [settle] using h
      | false => simp [settle]

/-! ## The verdict -/

theorem mem_listing {g : Nat → Option Bytes} {n id : Nat} (hn : n ≤ 10 ^ 16) (hid : id < n)
    {v : Bytes} : (keyOf id, v) ∈ listing g 0 n ↔ g id = some v := by
  unfold listing
  rw [List.mem_filterMap]
  constructor
  · rintro ⟨i, hi, h⟩
    obtain ⟨v', hg, hkv⟩ := Option.map_eq_some_iff.1 h
    obtain ⟨hkey, rfl⟩ := Prod.mk.inj hkv
    rw [List.mem_range'_1] at hi
    -- the key tells the id
    have heq := congrArg idOf hkey
    rw [idOf_keyOf (by omega), idOf_keyOf (by omega), Option.some_inj] at heq
    rwa [heq] at hg
  · intro hg
    exact ⟨id, List.mem_range'_1.2 (by omega), by rw [hg]; rfl⟩

theorem listing_inj {g g' : Nat → Option Bytes} {n : Nat} (hn : n ≤ 10 ^ 16) :
    listing g 0 n = listing g' 0 n ↔ ∀ id < n, g id = g' id := by
  constructor
  · intro h id hid
    apply Option.ext
    intro v
    rw [← mem_listing hn hid, ← mem_listing hn hid, h]
  · intro h
    refine List.filterMap_congr fun id hid => ?_
    rw [List.mem_range'_1] at hid
    rw [h id (by omega)]

@[simp] theorem length_patch (m : Model) (f : Nat → Option UInt32) :
    (m.patch f).ver.length = m.ver.length := List.length_mapIdx

theorem showsAll_iff {f : Nat → Option UInt32} {g : Nat → Option Bytes}
    (hn : m.ver.length ≤ 10 ^ 16) : m.ShowsAll f g (List.range' 0 m.ver.length) ↔
      listing g 0 m.ver.length = (m.patch f).contents := by
  rw [Model.contents, length_patch, listing_inj hn, Model.ShowsAll]
  refine forall_congr' fun id => ?_
  rw [List.mem_range'_1, Model.showsAt, decide_eq_true_eq]
  exact ⟨fun h hid => h (by omega), fun h hid => h (by omega)⟩

/-- **The verdict**: the pass goes through just when the scan is exactly one of the two states, and
tells which one. -/
theorem scanLoop_verdict (hn : m.ver.length ≤ 10 ^ 16) {scan : List (Bytes × Bytes)}
    {st' : InFlightState} : m.scanLoop fl (.ok ()) scan 0 .unknown = .ok st' ↔
      (st' = .unknown ∧ scan = (m.patch fl.before).contents ∧ scan = (m.patch fl.after).contents) ∨
      (st' = .old ∧ scan = (m.patch fl.before).contents ∧ scan ≠ (m.patch fl.after).contents) ∨
      (st' = .new ∧ scan = (m.patch fl.after).contents ∧ scan ≠ (m.patch fl.before).contents) := by
  rw [scanLoop_ok hn (Nat.zero_le _), Nat.sub_zero]
  constructor
  · rintro ⟨g, rfl, h⟩
    rwa [settleAll_unknown, showsAll_iff hn, showsAll_iff hn] at h
  · intro h
    obtain ⟨g, rfl⟩ : ∃ g, scan = listing g 0 m.ver.length := by
      obtain ⟨-, hscan, -⟩ | ⟨-, hscan, -⟩ | ⟨-, hscan, -⟩ := h
      · exact ⟨_, by rw [hscan, Model.contents, length_patch]⟩
      · exact ⟨_, by rw [hscan, Model.contents, length_patch]⟩
      · exact ⟨_, by rw [hscan, Model.contents, length_patch]⟩
    refine ⟨g, rfl, ?_⟩
    rwa [settleAll_unknown, showsAll_iff hn, showsAll_iff hn]

/-- **The full check is sound and complete**: it goes through just when the scan is exactly the state
before the batch or exactly the state after it, says applied only in the second case and not applied
only in the first. A mixture of versions that differs from both states, such as that of a batch
applied to some of its keys only, is always reported. -/
theorem verifyScan_spec {m : Model} (fl : InFlight) (hn : m.ver.length ≤ 10 ^ 16)
    (scan : List (Bytes × Bytes)) :
    ((∃ r, m.verifyScan fl scan (.ok ()) = .ok r) ↔
      scan = (m.patch fl.before).contents ∨ scan = (m.patch fl.after).contents) ∧
    (∀ applied m', m.verifyScan fl scan (.ok ()) = .ok (applied, m') →
      if applied then scan = (m.patch fl.after).contents
      else scan = (m.patch fl.before).contents) ∧
    ∀ mixed : Nat → Option UInt32,
      (∃ id < m.ver.length, (m.patch mixed).shown id ≠ (m.patch fl.before).shown id) →
      (∃ id < m.ver.length, (m.patch mixed).shown id ≠ (m.patch fl.after).shown id) →
      scan = (m.patch mixed).contents → ∃ e, m.verifyScan fl scan (.ok ()) = .error e := by
  have hverify : ∀ r, m.verifyScan fl scan (.ok ()) = .ok r ↔
      ∃ st', m.scanLoop fl (.ok ()) scan 0 .unknown = .ok st' ∧
        (decide (st' = .new), if st' = .new then m.patch fl.after else m) = r := by
    intro r
    unfold Model.verifyScan
    cases m.scanLoop fl (.ok ()) scan 0 .unknown with
    | error e => exact iff_of_false nofun fun ⟨_, h, _⟩ => nomatch h
    | ok st =>
      constructor
      · intro h
        exact ⟨st, rfl, Except.ok.inj h⟩
      · rintro ⟨_, hst, rfl⟩
        cases hst
        rfl
  have hiff : (∃ r, m.verifyScan fl scan (.ok ()) = .ok r) ↔
      scan = (m.patch fl.before).contents ∨ scan = (m.patch fl.after).contents := by
    constructor
    · rintro ⟨r, hr⟩
      obtain ⟨st', hloop, -⟩ := (hverify r).1 hr
      obtain ⟨-, h, -⟩ | ⟨-, h, -⟩ | ⟨-, h, -⟩ := (scanLoop_verdict hn).1 hloop
      · exact .inl h
      · exact .inl h
      · exact .inr h
    · intro h
      by_cases hb : scan = (m.patch fl.before).contents
      · by_cases ha : scan = (m.patch fl.after).contents
        · exact ⟨_, (hverify _).2 ⟨.unknown, (scanLoop_verdict hn).2 (.inl ⟨rfl, hb, ha⟩), rfl⟩⟩
        · exact ⟨_, (hverify _).2 ⟨.old, (scanLoop_verdict hn).2 (.inr (.inl ⟨rfl, hb, ha⟩)), rfl⟩⟩
      · have ha := h.resolve_left hb
        exact ⟨_, (hverify _).2 ⟨.new, (scanLoop_verdict hn).2 (.inr (.inr ⟨rfl, ha, hb⟩)), rfl⟩⟩
  refine ⟨hiff, fun applied m' hr => ?_, fun mixed hb ha hscan => ?_⟩
  · obtain ⟨st', hloop, heq⟩ := (hverify _).1 hr
    obtain ⟨happlied, -⟩ := Prod.mk.inj heq
    subst happlied
    obtain ⟨rfl, h, -⟩ | ⟨rfl, h, -⟩ | ⟨rfl, h, -⟩ := (scanLoop_verdict hn).1 hloop
    · exact h
    · exact h
    · exact h
  · cases hr : m.verifyScan fl scan (.ok ()) with
    | error e => exact ⟨e, rfl⟩
    | ok r =>
      have hne : ∀ f : Nat → Option UInt32,
          (∃ id < m.ver.length, (m.patch mixed).shown id ≠ (m.patch f).shown id) →
          (m.patch mixed).contents ≠ (m.patch f).contents := by
        rintro f ⟨id, hid, hdiff⟩ heq
        unfold Model.contents at heq
        rw [length_patch, length_patch, listing_inj hn] at heq
        exact hdiff (heq id hid)
      rw [hscan] at hiff
      rcases hiff.1 ⟨r, hscan ▸ hr⟩ with h | h
      · exact absurd h (hne _ hb)
      · exact absurd h (hne _ ha)

/-! ## The maps of `Check` -/

theorem beforeOps_eq {m : Model} {ops : List Op} {f : Nat → Option UInt32} {id : Nat} {w : UInt32}
    (hf : ∀ w, f id = some w → w = m.ver[id]?.getD 0)
    (h : InFlight.beforeOps m ops f id = some w) : w = m.ver[id]?.getD 0 := by
  induction ops generalizing f with
  | nil => exact hf w h
  | cons op ops ih =>
    rw [InFlight.beforeOps] at h
    refine ih (fun w' hw' => ?_) h
    split at hw'
    · exact hf w' hw'
    · rw [Function.update_apply] at hw'
      split at hw'
      · rename_i hid
        rw [hid]
        exact (Option.some.inj hw').symm
      · exact hf w' hw'

/-- The state before the batch that `Check` sets aside is that of the model. -/
theorem patch_before_ofBatch (m : Model) (ops : List Op) :
    m.patch (InFlight.ofBatch m ops).before = m := by
  have hver : (m.patch (InFlight.ofBatch m ops).before).ver = m.ver := by
    apply List.ext_getElem?
    intro id
    unfold Model.patch
    rw [List.getElem?_mapIdx]
    cases hid : m.ver[id]? with
    | none => rfl
    | some v =>
      rw [Option.map_some]
      congr 1
      cases hw : (InFlight.ofBatch m ops).before id with
      | none => rfl
      | some w =>
        have hnone : ∀ w, (fun _ => none : Nat → Option UInt32) id = some w →
            w = m.ver[id]?.getD 0 := by
          intro w h
          cases h
        have hw : w = m.ver[id]?.getD 0 := beforeOps_eq hnone hw
        rw [hw, hid]
        rfl
  show { m with ver := (m.patch (InFlight.ofBatch m ops).before).ver } = m
  rw [hver]

/-- Of three ids the first is live; the batch deletes it, puts the second and deletes the third, which
was never there. -/
def sampleModel : Model := { profile := ⟨1, 3⟩, seed := 7, ver := [1, 0, 0], wseq := 1 }

def sampleInFlight : InFlight := .ofBatch sampleModel [⟨true, 0⟩, ⟨false, 1⟩, ⟨true, 2⟩]

/-- The scan after the batch passes, an empty one does not: the first key was deleted and the second
not put. -/
theorem verifyScan_spec_sampleModel :
    (∃ r, sampleModel.verifyScan sampleInFlight (sampleModel.patch sampleInFlight.after).contents
      (.ok ()) = .ok r) ∧
    ¬ ∃ r, sampleModel.verifyScan sampleInFlight [] (.ok ()) = .ok r := by
  constructor
  · exact (verifyScan_spec sampleInFlight (by decide) _).1.2 (.inr rfl)
  · rw [(verifyScan_spec sampleInFlight (by decide) []).1]
    decide

end LevelDb.Bench
