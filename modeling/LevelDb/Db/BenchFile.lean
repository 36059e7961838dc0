import LevelDb.Lib.Coding
import LevelDb.Lib.Transition

/-!
# The files of the harness (`bench/bench_env.h`)

`BenchWritableFile` keeps what is appended in a buffer, and gives it to `write(2)` when the buffer is
full and on `Flush`, `Sync` and `Close`. What `write(2)` answers is a parameter of a step: it takes
some of the bytes, is interrupted, or fails. The crash injector may kill the process before or after
the call. The counters are those of the kind of the file.
-/

namespace LevelDb.BenchEnv

open Coding

inductive FileKind
  | log
  | table
  | manifest
  | other
  deriving DecidableEq

/-! ## `CrashInjector` -/

inductive CrashEvent
  | none
  | logAppend
  | tableCreate
  | tableAppend
  | tableSync
  | tableClose
  | manifestAppend
  | manifestSync
  | removeFile
  | rename
  | op
  deriving DecidableEq

structure CrashInjector where
  event : CrashEvent
  n : Nat
  after_ : Bool
  armed : Bool
  count : Nat

namespace CrashInjector

/-- `Before`, and whether the process dies. -/
def before (c : CrashInjector) (e : CrashEvent) : CrashInjector × Bool :=
  if e = .none ∨ e ≠ c.event ∨ c.armed = false then (c, false)
  else ({ c with count := c.count + 1 }, !c.after_ && c.count + 1 == c.n)

/-- `After`: whether the process dies. -/
def after (c : CrashInjector) (e : CrashEvent) : Bool :=
  if e ≠ c.event ∨ c.after_ = false ∨ c.armed = false then false else c.count == c.n

end CrashInjector

/-! ## `BenchWritableFile` -/

def kBufferSize : Nat := 65536

/-- What `write(2)` returns. -/
inductive Answer
  | count (w : Nat)
  | interrupted
  | error
  deriving DecidableEq

def memcpy (dst : Bytes) (offset : Nat) (src : Bytes) : Bytes :=
  dst.take offset ++ (src ++ dst.drop (offset + src.length))

structure BenchWritableFile where
  kind : FileKind
  buf : Bytes
  pos : Nat
  /-- The bytes `write(2)` has taken. -/
  written : Bytes

namespace BenchWritableFile

/-- `WriteAll`: whether all went well, and the answers that are left; `none` while the answers do
not see it to its end. -/
def writeAll : List Answer → Bytes → BenchWritableFile →
    Option (Bool × List Answer × BenchWritableFile)
  | [], p, f => if p = [] then some (true, [], f) else none
  | a :: answers, p, f =>
    if p = [] then some (true, a :: answers, f)
    else match a with
      | .interrupted => writeAll answers p f
      | .error => some (false, answers, f)
      | .count w => writeAll answers (p.drop w) { f with written := f.written ++ p.take w }

def flushBuffer (answers : List Answer) (f : BenchWritableFile) :
    Option (Bool × List Answer × BenchWritableFile) :=
  (writeAll answers (f.buf.take f.pos) f).map fun r => (r.1, r.2.1, { r.2.2 with pos := 0 })

/-- `Append`, without the crash injector. -/
def append (answers : List Answer) (data : Bytes) (f : BenchWritableFile) :
    Option (Bool × List Answer × BenchWritableFile) :=
  let copy := min data.length (kBufferSize - f.pos)
  let f := { f with buf := memcpy f.buf f.pos (data.take copy), pos := f.pos + copy }
  let p := data.drop copy
  if 0 < p.length then
    (f.flushBuffer answers).bind fun r =>
      if r.1 then
        if p.length < kBufferSize then
          some (true, r.2.1, { r.2.2 with buf := memcpy r.2.2.buf 0 p, pos := p.length })
        else r.2.2.writeAll r.2.1 p
      else some r
  else some (true, answers, f)

def appendEvent (f : BenchWritableFile) : CrashEvent :=
  match f.kind with
  | .log => .logAppend
  | .table => .tableAppend
  | .manifest => .manifestAppend
  | .other => .none

def syncEvent (f : BenchWritableFile) : CrashEvent :=
  match f.kind with
  | .table => .tableSync
  | .manifest => .manifestSync
  | .log | .other => .none

def closeEvent (f : BenchWritableFile) : CrashEvent :=
  match f.kind with
  | .table => .tableClose
  | .log | .manifest | .other => .none

/-- What is in the buffer. -/
def buffered (f : BenchWritableFile) : Bytes := f.buf.take f.pos

end BenchWritableFile

/-! ## The calls -/

structure State where
  file : BenchWritableFile
  crash : CrashInjector
  written : Nat
  syncs : Nat
  /-- The file has not been closed. -/
  isOpen : Bool
  /-- The process has not been killed. -/
  alive : Bool
  /-- The last call returned OK. -/
  ok : Bool
  /-- What was given to `Append`. -/
  appended : Bytes

inductive Action
  | append (data : Bytes) (answers : List Answer)
  | flush (answers : List Answer)
  | sync (answers : List Answer)
  /-- With whether `close(2)` succeeds. -/
  | close (answers : List Answer) (closed : Bool)

def Action.answers : Action → List Answer
  | .append _ answers | .flush answers | .sync answers | .close answers _ => answers

/-- What is appended. -/
def Action.data : Action → Bytes
  | .append data _ => data
  | .flush _ | .sync _ | .close .. => []

def Action.isAppend : Action → Bool
  | .append .. => true
  | .flush _ | .sync _ | .close .. => false

namespace State

/-- A new file; nothing has been written to its buffer. -/
def new (kind : FileKind) (buf : Bytes) (crash : CrashInjector) : State :=
  ⟨⟨kind, buf, 0, []⟩, crash, 0, 0, true, true, true, []⟩

/-- A call between `Before` and `After`. -/
def during (s : State) (e : CrashEvent) (call : State → Option State) : Option State :=
  match s.crash.before e with
  | (crash, true) => some { s with crash, alive := false }
  | (crash, false) => (call { s with crash }).map fun s => { s with alive := !s.crash.after e }

def append (answers : List Answer) (data : Bytes) (s : State) : Option State :=
  (s.file.append answers data).map fun r =>
    { s with
      file := r.2.2
      written := s.written + data.length
      ok := r.1
      appended := s.appended ++ data }

def flush (answers : List Answer) (s : State) : Option State :=
  (s.file.flushBuffer answers).map fun r => { s with file := r.2.2, ok := r.1 }

def sync (answers : List Answer) (s : State) : Option State :=
  { s with syncs := s.syncs + 1 }.flush answers

def close (answers : List Answer) (closed : Bool) (s : State) : Option State :=
  (s.flush answers).map fun s => { s with ok := s.ok && closed, isOpen := false }

def step (s : State) (a : Action) : Option State :=
  if s.alive && s.isOpen then
    match a with
    | .append data answers => s.during s.file.appendEvent (append answers data)
    | .flush answers => s.flush answers
    | .sync answers => s.during s.file.syncEvent (sync answers)
    | .close answers closed => s.during s.file.closeEvent (close answers closed)
  else none

/-- `write(2)` does not fail. -/
def NoErrors (_ : State) (a : Action) : Prop := .error ∉ a.answers

instance (s : State) (a : Action) : Decidable (s.NoErrors a) :=
  inferInstanceAs (Decidable (.error ∉ a.answers))

end State

/-- All the runs from a new file of any kind. -/
def system : Transition.System State Action where
  init s := ∃ kind buf crash, buf.length = kBufferSize ∧ s = .new kind buf crash
  step := State.step

end LevelDb.BenchEnv
