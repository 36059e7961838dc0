import LevelDb.Lib.Numerals
import LevelDb.Lib.Transition
import Mathlib.Data.List.DropRight
import Mathlib.Data.List.Infix

/-!
# Scenarios in processes (`tests/verify.py`, `bench/conftest.cc`)

`Verifier.run_scenarios` cuts the seeds into chunks, a `conftest` process for each, and counts from
what a process has printed how many scenarios passed. A process can come to its end at any step:
what it has printed by then is what went through the pipe. `stdout` holds text back until it is
flushed, but may let some of a long text through before. Texts are those Python decodes the bytes to;
numerals in digits of other scripts are left out.
-/

namespace LevelDb.Verifier

open Numerals

/-! ## Texts in Python -/

/-- Where `splitlines` ends a line. -/
def isLineBreak (c : Char) : Bool :=
  c ∈ ['\n', '\r', '\x0b', '\x0c', '\x1c', '\x1d', '\x1e', '\x85', '\u2028', '\u2029']

def splitlines : Text → List Text
  | [] => []
  | '\r' :: '\n' :: cs => [] :: splitlines cs
  | c :: cs =>
    if isLineBreak c then [] :: splitlines cs
    else match splitlines cs with
      | [] => [[c]]
      | line :: lines => (c :: line) :: lines

/-- `str.isspace`, of one character. -/
def isBlank (c : Char) : Bool :=
  isLineBreak c || c ∈ ['\t', '\x1f', ' ', '\xa0', '\u1680', '\u202f', '\u205f', '\u3000'] ||
    ('\u2000' ≤ c && c ≤ '\u200a')

/-- `str.split()`. -/
def split (s : Text) : List Text := (s.splitOnP isBlank).filter fun word => word ≠ []

/-- The number of digits, between which single underscores may stand. -/
def digits (s : Text) : Option Nat :=
  if (s.splitOn '_').all fun group => group ≠ [] ∧ group.all Char.isDigit then
    some (value (s.filter fun c => c ≠ '_'))
  else none

/-- `int(s)`; `none` where it raises `ValueError`. -/
def int (s : Text) : Option Int :=
  match (s.dropWhile isBlank).rdropWhile isBlank with
  | '-' :: t => (digits t).map fun n => -(n : Int)
  | '+' :: t => (digits t).map fun n => (n : Int)
  | t => (digits t).map fun n => (n : Int)

/-! ## `Verifier.run_scenarios` -/

/-- The chunks of the seeds from `lo` to `hi`. -/
def chunks (lo hi jobs : Nat) : List (Nat × Nat) :=
  let step := (hi - lo + jobs - 1) / jobs
  (List.range jobs).filterMap fun i =>
    let a := lo + i * step
    let b := min hi (lo + (i + 1) * step)
    if b ≤ a then none else some (a, b)

/-- `--from`, `--to` and `--quiet`. -/
structure Command where
  fromSeed : Text
  toSeed : Text
  quiet : Bool

/-- What a chunk's process is started with. -/
def command (chunk : Nat × Nat) : Command := ⟨padded 1 chunk.1, padded 1 chunk.2, true⟩

/-- `int(line.split()[1].split("/")[0])`; `none` where it raises. -/
def passedOf (line : Text) : Option Int :=
  (split line)[1]?.bind fun word => (word.splitOn '/').head?.bind int

def startsWith (front line : Text) : Bool := front.isPrefixOf line

def endsWith (back line : Text) : Bool := back.isSuffixOf line

/-- What is added to `passed` for a process that has printed `out`. -/
def credit (out : Text) : Option Int :=
  let lines := splitlines out
  match (lines.filter (startsWith "PASSED ".toList)).getLast? with
  | some line => passedOf line
  | none =>
    -- the chunk died: count what finished before
    let done := lines.filter (startsWith "SCENARIO ".toList)
    some (done.filter (endsWith " ok".toList)).length

/-! ## `conftest scenarios` -/

/-- What `RunScenario` returns. -/
inductive Outcome
  | passed
  | failed (err : Text)

/-- How far the process is with the scenario of its seed, or with its totals. -/
inductive Phase
  | start
  | returned (o : Outcome)
  | printed (o : Outcome)
  | flushed
  | totals
  | done

structure Process where
  toSeed : Nat
  quiet : Bool
  seed : Nat
  passed : Nat
  total : Nat
  phase : Phase
  /-- What `stdout` holds back. -/
  buffer : Text
  /-- What went through the pipe. -/
  out : Text
  /-- The seeds `RunScenario` was called with. -/
  ran : List Nat
  /-- How often it returned true. -/
  returned : Nat

/-- A text that fills the buffer goes through in part before it is flushed. -/
def kStdioBuffer : Nat := 4096

/-- `%s`: up to the first byte 0. -/
def cString (s : Text) : Text := s.takeWhile fun c => c ≠ '\x00'

/-- `"SCENARIO %" PRIu64 " ok\n"`. -/
def okLine (seed : Nat) : Text := "SCENARIO ".toList ++ (padded 1 seed ++ " ok".toList)

/-- `"SCENARIO %" PRIu64 " FAIL %s\n"`. -/
def failLine (seed : Nat) (err : Text) : Text :=
  "SCENARIO ".toList ++ (padded 1 seed ++ (" FAIL ".toList ++ cString err))

/-- `"PASSED %" PRIu64 "/%" PRIu64 "\n"`. -/
def totalsLine (passed total : Nat) : Text :=
  "PASSED ".toList ++ (padded 1 passed ++ '/' :: padded 1 total)

inductive Action
  /-- `RunScenario` returns. -/
  | run (o : Outcome)
  | print
  | flush
  /-- `DestroyScenarioDir`. -/
  | destroy
  /-- `stdout` lets so much through. -/
  | spill (n : Nat)

namespace Process

def new (c : Command) : Process :=
  ⟨(strtoull c.toSeed).1.toNat, c.quiet, (strtoull c.fromSeed).1.toNat, 0, 0, .start, [], [], [], 0⟩

def printf (s : Process) (line : Text) : Process := { s with buffer := s.buffer ++ (line ++ ['\n']) }

def fflush (s : Process) : Process := { s with buffer := [], out := s.out ++ s.buffer }

def step (s : Process) : Action → Option Process
  | .run o =>
    match s.phase with
    | .start =>
      if s.seed < s.toSeed then
        some { s with
          total := s.total + 1
          phase := .returned o
          ran := s.ran ++ [s.seed]
          returned := match o with
            | .passed => s.returned + 1
            | .failed _ => s.returned }
      else none
    | _ => none
  | .print =>
    match s.phase with
    | .returned .passed =>
      let s := { s with passed := s.passed + 1, phase := .printed .passed }
      some (if s.quiet then s else s.printf (okLine s.seed))
    | .returned (.failed err) =>
      some ({ s with phase := .printed (.failed err) }.printf (failLine s.seed err))
    | .start =>
      if s.seed < s.toSeed then none
      else some ({ s with phase := .totals }.printf (totalsLine s.passed s.total))
    | _ => none
  | .flush =>
    match s.phase with
    | .printed _ => some { s.fflush with phase := .flushed }
    | .totals => some { s.fflush with phase := .done }
    | _ => none
  | .destroy =>
    match s.phase with
    | .flushed => some { s with phase := .start, seed := s.seed + 1 }
    | _ => none
  | .spill n =>
    if kStdioBuffer ≤ s.buffer.length then
      some { s with buffer := s.buffer.drop n, out := s.out ++ s.buffer.take n }
    else none

end Process

/-- The text of a failure does not look like a result: it has no line break and no `" ok"`. -/
def Plain (err : Text) : Prop :=
  (∀ c ∈ err, isLineBreak c = false) ∧ ¬ " ok".toList <:+: ' ' :: err

instance (err : Text) : Decidable (Plain err) :=
  @instDecidableAnd _ _ (List.decidableBAll (isLineBreak · = false) err)
    (inferInstanceAs (Decidable (¬ " ok".toList <:+: ' ' :: err)))

/-- No failure looks like a result. -/
def Process.FailsPlainly (_ : Process) : Action → Prop
  | .run (.failed err) => Plain err
  | _ => True

instance (s : Process) : ∀ a, Decidable (s.FailsPlainly a)
  | .run (.failed err) => inferInstanceAs (Decidable (Plain err))
  | .run .passed | .print | .flush | .destroy | .spill _ => .isTrue trivial

/-- All the runs of a process. -/
def conftest (c : Command) : Transition.System Process Action where
  init s := s = .new c
  step := Process.step

end LevelDb.Verifier
