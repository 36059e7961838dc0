import Mathlib.Data.List.Basic
import Mathlib.Tactic.Ring

/-!
# Binary codes

Numbers and byte strings in a byte string: varints of seven bits a byte, numbers of fixed width with
the low byte first, strings after their length. A reader takes what it reads from the front;
`Reads r bs a` says that it reads `bs` as `a`, whatever comes after. Readers in sequence read codes in
sequence (`Reads.bind`, `Reads.many`). `Reader.Parses` says of a relation between byte strings and
values that the reader takes just these codes. A reader is `Local` when what comes after does not
change what it takes; such a reader refuses a code that is cut short (`Reads.none_of_cut`).
-/

namespace Coding

universe u v

abbrev Bytes := List UInt8

abbrev Reader (α : Type u) := Bytes → Option (α × Bytes)

variable {α : Type u} {β : Type v}

namespace Reader

def pure (a : α) : Reader α := fun bs => some (a, bs)

def bind (r : Reader α) (f : α → Reader β) : Reader β := fun bs =>
  match r bs with
  | some (a, bs) => f a bs
  | none => none

/-- The same reader so many times. -/
def many (r : Reader α) : Nat → Reader (List α)
  | 0 => pure []
  | n + 1 => r.bind fun a => (many r n).bind fun as => pure (a :: as)

end Reader

/-- The reader takes these bytes from the front and gives `a`. -/
def Reads (r : Reader α) (bs : Bytes) (a : α) : Prop := ∀ rest, r (bs ++ rest) = some (a, rest)

theorem Reads.pure (a : α) : Reads (Reader.pure a) [] a := fun _ => rfl

theorem Reads.bind {r : Reader α} {f : α → Reader β} {bs bs' : Bytes} {a : α} {b : β}
    (h : Reads r bs a) (h' : Reads (f a) bs' b) : Reads (r.bind f) (bs ++ bs') b := by
  intro rest
  rw [List.append_assoc, Reader.bind, h]
  exact h' rest

/-- The last of readers in sequence. -/
theorem Reads.bind_pure {r : Reader α} {bs : Bytes} {a : α} (h : Reads r bs a) (f : α → β) :
    Reads (r.bind fun a => .pure (f a)) bs (f a) := by
  have hlast := h.bind (f := fun a => Reader.pure (f a)) (Reads.pure (f a))
  rwa [List.append_nil] at hlast

theorem Reads.many {r : Reader β} {put : α → Bytes} {get : α → β} {as : List α}
    (h : ∀ a ∈ as, Reads r (put a) (get a)) :
    Reads (r.many as.length) (as.flatMap put) (as.map get) := by
  induction as with
  | nil => exact Reads.pure []
  | cons a as ih =>
    have htail := ih fun a' ha' => h a' (List.mem_cons_of_mem a ha')
    exact (h a List.mem_cons_self).bind (htail.bind_pure _)

/-- What a reader reads when nothing comes after. -/
theorem Reads.eq {r : Reader α} {bs : Bytes} {a : α} (h : Reads r bs a) : r bs = some (a, []) := by
  have heq := h []
  rwa [List.append_nil] at heq

/-! ## Codes -/

/-- What the reader takes from the front is a code of the value it gives, and it takes every code. -/
def Reader.Parses (r : Reader α) (code : Bytes → α → Prop) : Prop :=
  ∀ input a rest, r input = some (a, rest) ↔ ∃ bs, input = bs ++ rest ∧ code bs a

namespace Reader.Parses

variable {r : Reader α} {code : Bytes → α → Prop}

theorem reads (h : r.Parses code) {bs : Bytes} {a : α} (hcode : code bs a) : Reads r bs a :=
  fun rest => (h _ a rest).2 ⟨bs, rfl, hcode⟩

theorem of_reads (h : r.Parses code) {bs : Bytes} {a : α} (hr : Reads r bs a) : code bs a := by
  obtain ⟨bs', heq, hcode⟩ := (h _ _ _).1 (hr [])
  rwa [List.append_cancel_right heq]

theorem pure (a : α) : (Reader.pure a).Parses fun bs b => bs = [] ∧ b = a := by
  intro input b rest
  unfold Reader.pure
  rw [Option.some_inj, Prod.mk.injEq]
  constructor
  · rintro ⟨rfl, rfl⟩
    exact ⟨[], rfl, rfl, rfl⟩
  · rintro ⟨bs, rfl, rfl, rfl⟩
    exact ⟨rfl, rfl⟩

theorem bind {f : α → Reader β} {code' : α → Bytes → β → Prop} (h : r.Parses code)
    (h' : ∀ a, (f a).Parses (code' a)) :
    (r.bind f).Parses fun bs b => ∃ front a back, bs = front ++ back ∧ code front a ∧ code' a back b := by
  intro input b rest
  constructor
  · intro hr
    unfold Reader.bind at hr
    split at hr
    · rename_i a mid ha
      obtain ⟨front, rfl, hfront⟩ := (h _ _ _).1 ha
      obtain ⟨back, rfl, hback⟩ := (h' a _ _ _).1 hr
      exact ⟨front ++ back, (List.append_assoc _ _ _).symm, front, a, back, rfl, hfront, hback⟩
    · cases hr
  · rintro ⟨_, rfl, front, a, back, rfl, hfront, hback⟩
    exact ((h.reads hfront).bind ((h' a).reads hback)) rest

theorem congr {code' : Bytes → α → Prop} (h : r.Parses code)
    (heq : ∀ bs a, code bs a ↔ code' bs a) : r.Parses code' := by
  intro input a rest
  simp only [h input a rest, heq]

end Reader.Parses

/-! ## Codes that are cut short -/

/-- What comes after what the reader takes does not change what it takes. -/
def Reader.Local (r : Reader α) : Prop :=
  ∀ ⦃bs a rest⦄, r bs = some (a, rest) → ∀ more, r (bs ++ more) = some (a, rest ++ more)

namespace Reader

theorem Parses.local {r : Reader α} {code : Bytes → α → Prop} (h : r.Parses code) : r.Local := by
  intro input a rest hr more
  obtain ⟨bs, rfl, hcode⟩ := (h _ _ _).1 hr
  rw [List.append_assoc]
  exact h.reads hcode (rest ++ more)

theorem Local.pure (a : α) : (Reader.pure a).Local := by
  intro bs b rest h more
  cases h
  rfl

theorem Local.bind {r : Reader α} {f : α → Reader β} (h : r.Local) (h' : ∀ a, (f a).Local) :
    (r.bind f).Local := by
  intro bs b rest hr more
  unfold Reader.bind at hr
  split at hr
  · rename_i a mid ha
    rw [Reader.bind, h ha more]
    exact h' a hr more
  · cases hr

theorem Local.many {r : Reader α} (h : r.Local) (n : Nat) : (r.many n).Local := by
  induction n with
  | zero => exact Local.pure []
  | succ n ih => exact h.bind fun a => ih.bind fun as => Local.pure _

end Reader

/-- A code is refused when the end of it is missing. -/
theorem Reads.none_of_cut {r : Reader α} {front back : Bytes} {a : α} (h : Reads r (front ++ back) a)
    (hlocal : r.Local) (hback : back ≠ []) : r front = none := by
  cases hr : r front with
  | none => rfl
  | some x =>
    obtain ⟨b, rest⟩ := x
    -- the cut code read as `b` would be read so with its end too, and that end is left
    have hlong := hlocal hr back
    rw [h.eq, Option.some_inj, Prod.mk.injEq] at hlong
    exact absurd hlong.2.symm (List.append_ne_nil_of_right_ne_nil rest hback)

/-! ## Varints -/

/-- At most `n` bytes, seven bits in each, the low ones first. -/
def putVarint : Nat → Nat → Bytes
  | 0, _ => []
  | n + 1, v =>
    if v < 128 then [UInt8.ofNat v]
    else UInt8.ofNat (v % 128 + 128) :: putVarint n (v / 128)

/-- The loop over the bytes; a result of more than `bits` bits is cut off. -/
def getVarintLoop (bits : Nat) : Nat → Nat → Nat → Reader Nat
  | 0, _, _, _ => none
  | _ + 1, _, _, [] => none
  | n + 1, shift, result, byte :: bs =>
    if 128 ≤ byte.toNat then
      getVarintLoop bits n (shift + 7) (result + (byte.toNat - 128) * 2 ^ shift) bs
    else some ((result + byte.toNat * 2 ^ shift) % 2 ^ bits, bs)

def putVarint32 (v : Nat) : Bytes := putVarint 5 v
def putVarint64 (v : Nat) : Bytes := putVarint 10 v

def getVarint32 : Reader Nat := getVarintLoop 32 5 0 0
def getVarint64 : Reader Nat := getVarintLoop 64 10 0 0

theorem toNat_ofNat {n : Nat} (h : n < 256) : (UInt8.ofNat n).toNat = n := by
  rw [UInt8.toNat_ofNat']
  exact Nat.mod_eq_of_lt h

theorem reads_getVarintLoop {bits n v shift result : Nat} (hn : 0 < n) (hv : v < 2 ^ (7 * n)) :
    Reads (getVarintLoop bits n shift result) (putVarint n v)
      ((result + v * 2 ^ shift) % 2 ^ bits) := by
  induction n generalizing v shift result with
  | zero => cases hn
  | succ n ih =>
    intro rest
    rw [putVarint]
    split
    · rename_i hsmall
      rw [List.singleton_append, getVarintLoop, toNat_ofNat (by omega), if_neg (by omega)]
    · rename_i hbig
      have hpos : 0 < n := by
        apply Nat.pos_of_ne_zero
        rintro rfl
        omega
      have hpow : 2 ^ (7 * (n + 1)) = 2 ^ (7 * n) * 128 := by
        rw [Nat.mul_add, Nat.pow_add]
      have hdiv : v / 128 < 2 ^ (7 * n) := by
        rw [Nat.div_lt_iff_lt_mul (by decide), ← hpow]
        exact hv
      -- what is read so far and what is left make the number
      have hsum : result + (v % 128 + 128 - 128) * 2 ^ shift + v / 128 * 2 ^ (shift + 7) =
          result + v * 2 ^ shift := by
        rw [Nat.add_sub_cancel, Nat.pow_add, Nat.add_assoc]
        congr 1
        calc v % 128 * 2 ^ shift + v / 128 * (2 ^ shift * 2 ^ 7)
            = (v % 128 + 128 * (v / 128)) * 2 ^ shift := by ring
          _ = v * 2 ^ shift := by rw [Nat.mod_add_div]
      rw [List.cons_append, getVarintLoop, toNat_ofNat (by omega), if_pos (by omega),
        ih hpos hdiv, hsum]

theorem reads_getVarint32 {v : Nat} (hv : v < 2 ^ 32) : Reads getVarint32 (putVarint32 v) v := by
  have h := @reads_getVarintLoop 32 5 v 0 0 (by decide) (by omega)
  rwa [Nat.pow_zero, Nat.mul_one, Nat.zero_add, Nat.mod_eq_of_lt hv] at h

theorem reads_getVarint64 {v : Nat} (hv : v < 2 ^ 64) : Reads getVarint64 (putVarint64 v) v := by
  have h := @reads_getVarintLoop 64 10 v 0 0 (by decide) (by omega)
  rwa [Nat.pow_zero, Nat.mul_one, Nat.zero_add, Nat.mod_eq_of_lt hv] at h

theorem length_putVarint_le {n v : Nat} : (putVarint n v).length ≤ n := by
  induction n generalizing v with
  | zero => exact le_rfl
  | succ n ih =>
    rw [putVarint]
    split
    · exact Nat.succ_le_succ (Nat.zero_le n)
    · exact Nat.succ_le_succ ih

/-- Seven bits a byte, the low ones first, in at most `n` bytes: all but the last have their high bit
set. The last may be 0. -/
inductive Varint : Nat → Bytes → Nat → Prop
  | last {n : Nat} {byte : UInt8} : byte.toNat < 128 → Varint (n + 1) [byte] byte.toNat
  | more {n : Nat} {byte : UInt8} {bs : Bytes} {v : Nat} : 128 ≤ byte.toNat → Varint n bs v →
      Varint (n + 1) (byte :: bs) (byte.toNat - 128 + 128 * v)

/-- A varint of at most five bytes; what is above 32 bits is cut off. -/
def Varint32 (bs : Bytes) (v : Nat) : Prop := ∃ w, Varint 5 bs w ∧ v = w % 2 ^ 32

theorem Varint.length_pos {n v : Nat} {bs : Bytes} (h : Varint n bs v) : 0 < bs.length := by
  cases h <;> simp

theorem parses_getVarintLoop {bits n shift result : Nat} :
    (getVarintLoop bits n shift result).Parses fun bs a =>
      ∃ v, Varint n bs v ∧ a = (result + v * 2 ^ shift) % 2 ^ bits := by
  induction n generalizing shift result with
  | zero =>
    intro input a rest
    constructor
    · intro h
      cases h
    · rintro ⟨bs, -, v, hv, -⟩
      cases hv
  | succ n ih =>
    intro input a rest
    have hstep (byte v : Nat) : result + (byte - 128 + 128 * v) * 2 ^ shift =
        result + (byte - 128) * 2 ^ shift + v * 2 ^ (shift + 7) := by
      rw [Nat.pow_add]
      ring
    constructor
    · intro h
      cases input with
      | nil => cases h
      | cons byte input =>
        unfold getVarintLoop at h
        split at h
        · rename_i hbyte
          obtain ⟨bs, rfl, v, hv, rfl⟩ := (ih _ _ _).1 h
          exact ⟨byte :: bs, rfl, _, .more hbyte hv, by rw [hstep]⟩
        · rename_i hbyte
          rw [Option.some_inj, Prod.mk.injEq] at h
          obtain ⟨rfl, rfl⟩ := h
          exact ⟨[byte], rfl, _, .last (by omega), rfl⟩
    · rintro ⟨bs, rfl, v, hv, rfl⟩
      cases hv with
      | last hbyte =>
        rw [List.singleton_append, getVarintLoop, if_neg (by omega)]
      | @more _ byte bs v hbyte hv =>
        rw [List.cons_append, getVarintLoop, if_pos hbyte, hstep]
        exact (ih _ _ _).2 ⟨bs, rfl, v, hv, rfl⟩

theorem parses_getVarint32 : getVarint32.Parses Varint32 :=
  parses_getVarintLoop.congr fun bs a => by
    simp only [Varint32, Nat.pow_zero, Nat.mul_one, Nat.zero_add]

theorem parses_getVarint64 : getVarint64.Parses fun bs a => ∃ v, Varint 10 bs v ∧ a = v % 2 ^ 64 :=
  parses_getVarintLoop.congr fun bs a => by
    simp only [Nat.pow_zero, Nat.mul_one, Nat.zero_add]

/-! ## Strings after their length -/

def putLengthPrefixed (s : Bytes) : Bytes := putVarint32 (s.length % 2 ^ 32) ++ s

def getLengthPrefixed : Reader Bytes :=
  getVarint32.bind fun len bs => if len ≤ bs.length then some (bs.take len, bs.drop len) else none

theorem reads_getLengthPrefixed {s : Bytes} (hs : s.length < 2 ^ 32) :
    Reads getLengthPrefixed (putLengthPrefixed s) s := by
  rw [putLengthPrefixed, Nat.mod_eq_of_lt hs]
  refine (reads_getVarint32 hs).bind fun rest => ?_
  rw [if_pos (by rw [List.length_append]; omega), List.take_left, List.drop_left]

/-- A string after a code of its length. -/
def VarString (bs s : Bytes) : Prop := ∃ len, Varint32 len s.length ∧ bs = len ++ s

theorem parses_getLengthPrefixed : getLengthPrefixed.Parses VarString := by
  intro input s rest
  constructor
  · intro h
    unfold getLengthPrefixed Reader.bind at h
    split at h
    · rename_i n mid hn
      obtain ⟨len, rfl, hlen⟩ := (parses_getVarint32 _ _ _).1 hn
      dsimp only at h
      split at h
      · rename_i hle
        rw [Option.some_inj, Prod.mk.injEq] at h
        obtain ⟨rfl, rfl⟩ := h
        refine ⟨len ++ mid.take n, ?_, len, ?_, rfl⟩
        · rw [List.append_assoc, List.take_append_drop]
        · rwa [List.length_take_of_le hle]
      · cases h
    · cases h
  · rintro ⟨_, rfl, len, hlen, rfl⟩
    rw [List.append_assoc, getLengthPrefixed, Reader.bind, parses_getVarint32.reads hlen]
    simp

/-! ## Fixed width -/

/-- `n` bytes, the low one first. -/
def putFixed : Nat → Nat → Bytes
  | 0, _ => []
  | n + 1, v => UInt8.ofNat v :: putFixed n (v / 256)

def getFixed : Nat → Bytes → Nat
  | 0, _ => 0
  | _ + 1, [] => 0
  | n + 1, byte :: bs => byte.toNat + 256 * getFixed n bs

@[simp] theorem length_putFixed {n v : Nat} : (putFixed n v).length = n := by
  induction n generalizing v with
  | zero => rfl
  | succ n ih => rw [putFixed, List.length_cons, ih]

theorem putFixed_mod {n v : Nat} : putFixed n (v % 256 ^ n) = putFixed n v := by
  induction n generalizing v with
  | zero => rfl
  | succ n ih =>
    have hlow : UInt8.ofNat (v % 256 ^ (n + 1)) = UInt8.ofNat v := by
      rw [← UInt8.toNat_inj, UInt8.toNat_ofNat', UInt8.toNat_ofNat']
      exact Nat.mod_mod_of_dvd v (Dvd.intro_left _ (Nat.pow_succ ..).symm)
    have hhigh : v % 256 ^ (n + 1) / 256 = v / 256 % 256 ^ n := by
      rw [Nat.pow_succ, Nat.mul_comm, Nat.mod_mul_right_div_self]
    rw [putFixed, putFixed, hlow, hhigh, ih]

theorem getFixed_putFixed {n v : Nat} (hv : v < 256 ^ n) (rest : Bytes) :
    getFixed n (putFixed n v ++ rest) = v := by
  induction n generalizing v with
  | zero =>
    rw [Nat.pow_zero] at hv
    rw [getFixed]
    omega
  | succ n ih =>
    have hdiv : v / 256 < 256 ^ n := by
      rw [Nat.div_lt_iff_lt_mul (by decide)]
      exact hv
    rw [putFixed, List.cons_append, getFixed, ih hdiv, UInt8.toNat_ofNat']
    exact Nat.mod_add_div v 256

/-- The low 32 bits as an `int`. -/
def asInt (n : Nat) : Int := (n : Int).bmod (2 ^ 32)

theorem asInt_add (n k : Nat) : (asInt n + k).bmod (2 ^ 32) = asInt (n + k) := by
  unfold asInt
  rw [Int.bmod_add_bmod, Nat.cast_add]

theorem asInt_of_lt {n : Nat} (h : n < 2 ^ 31) : asInt n = n := by
  unfold asInt
  rw [Int.bmod_def]
  omega

/-! ## Readers that give a reason -/

theorem bind_eq_ok {ε α β : Type} {x : Except ε α} {f : α → Except ε β} {b : β} :
    x.bind f = .ok b ↔ ∃ a, x = .ok a ∧ f a = .ok b := by
  cases x <;> simp [Except.bind]

end Coding
