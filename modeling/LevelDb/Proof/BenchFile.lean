import LevelDb.Db.BenchFile

/-!
# The files of the harness lose nothing

`WriteAll` writes all it is given, however little `write(2)` takes at a time (`writeAll_spec`). What
was written and what is in the buffer is what was appended (`Whole`): a large append flushes the
buffer before it goes around it (`Whole.append`). So after `Flush`, `Sync` and `Close` all is written
(`written_eq`).
-/

namespace LevelDb.BenchEnv

open Coding Transition

variable {answers : List Answer} {data p : Bytes} {f : BenchWritableFile} {s s' : State}

/-! ## The buffer -/

theorem length_memcpy {dst src : Bytes} {offset : Nat} (h : offset + src.length ≤ dst.length) :
    (memcpy dst offset src).length = dst.length := by
  simp only [memcpy, List.length_append, List.length_take, List.length_drop]
  omega

theorem take_memcpy {dst src : Bytes} {offset : Nat} (h : offset ≤ dst.length) :
    (memcpy dst offset src).take (offset + src.length) = dst.take offset ++ src := by
  have hlen : (dst.take offset).length = offset := by
    rw [List.length_take]
    omega
  rw [memcpy, List.take_append, hlen, List.take_of_length_le (by omega), Nat.add_sub_cancel_left,
    List.take_left]

/-! ## What `write(2)` takes -/

namespace BenchWritableFile

/-- **`WriteAll` writes everything**, unless `write(2)` fails. -/
theorem writeAll_spec {r : Bool × List Answer × BenchWritableFile} (hnone : .error ∉ answers)
    (h : writeAll answers p f = some r) :
    r.1 = true ∧ .error ∉ r.2.1 ∧ r.2.2 = { f with written := f.written ++ p } := by
  induction answers generalizing p f with
  | nil =>
    rw [writeAll] at h
    split at h
    · rename_i hp
      cases h
      simp [hp]
    · cases h
  | cons a answers ih =>
    obtain ⟨ha, hanswers⟩ := not_or.1 (List.mem_cons.not.1 hnone)
    unfold writeAll at h
    split at h
    · rename_i hp
      cases h
      exact ⟨rfl, hnone, by simp [hp]⟩
    · cases a with
      | interrupted => exact ih hanswers h
      | error => exact absurd rfl ha
      | count w =>
        obtain ⟨hok, hrest, hfile⟩ := ih hanswers h
        refine ⟨hok, hrest, hfile.trans ?_⟩
        rw [List.append_assoc, List.take_append_drop]

theorem flushBuffer_spec {r : Bool × List Answer × BenchWritableFile} (hnone : .error ∉ answers)
    (h : f.flushBuffer answers = some r) :
    r.1 = true ∧ .error ∉ r.2.1 ∧
      r.2.2 = { f with written := f.written ++ f.buffered, pos := 0 } := by
  obtain ⟨r', hr, rfl⟩ := Option.map_eq_some_iff.1 h
  obtain ⟨hok, hrest, hfile⟩ := writeAll_spec hnone hr
  exact ⟨hok, hrest, by rw [hfile, buffered]⟩

end BenchWritableFile

/-! ## What is written and what is buffered -/

/-- The file and its buffer hold `data`. -/
structure Whole (f : BenchWritableFile) (data : Bytes) : Prop where
  length : f.buf.length = kBufferSize
  pos : f.pos ≤ kBufferSize
  whole : f.written ++ f.buffered = data

namespace Whole

open BenchWritableFile

theorem flushBuffer {r : Bool × List Answer × BenchWritableFile} (h : Whole f data)
    (hnone : .error ∉ answers) (hflush : f.flushBuffer answers = some r) :
    r.1 = true ∧ .error ∉ r.2.1 ∧ Whole r.2.2 data ∧ r.2.2.pos = 0 ∧ r.2.2.written = data := by
  obtain ⟨hok, hrest, hfile⟩ := flushBuffer_spec hnone hflush
  have hwritten : r.2.2.written = data := by rw [hfile]; exact h.whole
  refine ⟨hok, hrest, ⟨by rw [hfile]; exact h.length, by rw [hfile]; exact Nat.zero_le _, ?_⟩,
    by rw [hfile], hwritten⟩
  rw [hwritten, hfile]
  exact List.append_nil _

/-- What fits goes to the buffer. -/
theorem copy (h : Whole f data) (hfits : f.pos + p.length ≤ kBufferSize) :
    Whole { f with buf := memcpy f.buf f.pos p, pos := f.pos + p.length } (data ++ p) := by
  have hlength := h.length
  refine ⟨?_, hfits, ?_⟩
  · exact (length_memcpy (by omega)).trans hlength
  · show f.written ++ (memcpy f.buf f.pos p).take (f.pos + p.length) = data ++ p
    rw [take_memcpy (by omega), ← List.append_assoc, ← h.whole, buffered]

/-- **`Append`** keeps the order: what is in the buffer is written before what goes around it. -/
theorem append {new : Bytes} {r : Bool × List Answer × BenchWritableFile} (h : Whole f data)
    (hnone : .error ∉ answers) (happend : f.append answers new = some r) :
    r.1 = true ∧ Whole r.2.2 (data ++ new) := by
  have hpos := h.pos
  unfold BenchWritableFile.append at happend
  generalize hcopy : min new.length (kBufferSize - f.pos) = copy at happend
  have htake : (new.take copy).length = copy := by
    rw [List.length_take]
    omega
  have hfill := h.copy (p := new.take copy) (by omega)
  rw [htake] at hfill
  dsimp only at happend
  split at happend
  · -- the buffer is full
    obtain ⟨r1, hflush, hrest⟩ := Option.bind_eq_some_iff.1 happend
    obtain ⟨hok, hnone1, hwhole, hzero, hwritten⟩ := hfill.flushBuffer hnone hflush
    rw [if_pos hok] at hrest
    split at hrest
    · rename_i hsmall
      cases hrest
      have hlast := hwhole.copy (p := new.drop copy) (by omega)
      rw [hzero, Nat.zero_add, List.append_assoc, List.take_append_drop] at hlast
      exact ⟨rfl, hlast⟩
    · obtain ⟨hok', -, hfile⟩ := writeAll_spec hnone1 hrest
      refine ⟨hok', ?_⟩
      rw [hfile]
      refine ⟨hwhole.length, hwhole.pos, ?_⟩
      show r1.2.2.written ++ new.drop copy ++ r1.2.2.buf.take r1.2.2.pos = data ++ new
      rw [hzero, hwritten, List.take_zero, List.append_nil, List.append_assoc,
        List.take_append_drop]
  · rename_i hall
    cases happend
    rw [List.take_of_length_le (by simpa using hall)] at hfill ⊢
    exact ⟨rfl, hfill⟩

end Whole

/-! ## Runs -/

theorem during_some {e : CrashEvent} {call : State → Option State}
    (h : s.during e call = some s') :
    (∃ crash, s' = { s with crash, alive := false }) ∨
      ∃ crash s1 alive, call { s with crash } = some s1 ∧ s' = { s1 with alive } := by
  unfold State.during at h
  split at h
  · rename_i crash _
    cases h
    exact .inl ⟨crash, rfl⟩
  · rename_i crash _
    obtain ⟨s1, hcall, rfl⟩ := Option.map_eq_some_iff.1 h
    exact .inr ⟨crash, s1, _, hcall, rfl⟩

/-- What holds of the file between calls. -/
structure Sound (s : State) : Prop where
  whole : Whole s.file s.appended
  written : s.written = s.appended.length
  ok : s.isOpen = true → s.ok = true

theorem Sound.flush (h : Sound s) (hnone : .error ∉ answers) (hflush : s.flush answers = some s') :
    Sound s' ∧ s'.file.written = s'.appended := by
  obtain ⟨r, hr, rfl⟩ := Option.map_eq_some_iff.1 hflush
  obtain ⟨hok, -, hwhole, -, hwritten⟩ := h.whole.flushBuffer hnone hr
  exact ⟨⟨hwhole, h.written, fun _ => hok⟩, hwritten⟩

/-- **One call**: the file keeps what it was given, and all is written unless it is an append. -/
theorem Sound.step (h : Sound s) {a : Action} (hnone : s.NoErrors a) (hstep : s.step a = some s') :
    Sound s' ∧ (a.isAppend = false → s'.alive = true → s'.file.written = s'.appended) := by
  unfold State.step at hstep
  split at hstep
  swap
  · cases hstep
  cases a with
  | append data answers =>
    refine ⟨?_, nofun⟩
    rcases during_some hstep with ⟨crash, rfl⟩ | ⟨crash, s1, alive, hcall, rfl⟩
    · exact ⟨h.whole, h.written, h.ok⟩
    · obtain ⟨r, hr, rfl⟩ := Option.map_eq_some_iff.1 hcall
      obtain ⟨hok, hwhole⟩ := h.whole.append hnone hr
      refine ⟨hwhole, ?_, fun _ => hok⟩
      show s.written + data.length = (s.appended ++ data).length
      rw [List.length_append, h.written]
  | flush answers =>
    obtain ⟨hsound, hwritten⟩ := h.flush hnone hstep
    exact ⟨hsound, fun _ _ => hwritten⟩
  | sync answers =>
    rcases during_some hstep with ⟨crash, rfl⟩ | ⟨crash, s1, alive, hcall, rfl⟩
    · exact ⟨⟨h.whole, h.written, h.ok⟩, fun _ => nofun⟩
    · have hsound : Sound { s with crash, syncs := s.syncs + 1 } := ⟨h.whole, h.written, h.ok⟩
      obtain ⟨hsound1, hwritten⟩ := hsound.flush hnone hcall
      exact ⟨⟨hsound1.whole, hsound1.written, hsound1.ok⟩, fun _ _ => hwritten⟩
  | close answers closed =>
    rcases during_some hstep with ⟨crash, rfl⟩ | ⟨crash, s1, alive, hcall, rfl⟩
    · exact ⟨⟨h.whole, h.written, h.ok⟩, fun _ => nofun⟩
    · obtain ⟨s2, hflush, rfl⟩ := Option.map_eq_some_iff.1 hcall
      have hsound : Sound { s with crash } := ⟨h.whole, h.written, h.ok⟩
      obtain ⟨hsound2, hwritten⟩ := hsound.flush hnone hflush
      exact ⟨⟨hsound2.whole, hsound2.written, nofun⟩, fun _ _ => hwritten⟩

theorem sound_reachable (h : system.ReachableBy State.NoErrors s) : Sound s := by
  refine h.invariant (P := Sound) ?_ fun s a s' hs hnone hstep => (hs.step hnone hstep).1
  rintro _ ⟨kind, buf, crash, hlength, rfl⟩
  exact ⟨⟨hlength, Nat.zero_le _, rfl⟩, rfl, fun _ => rfl⟩

/-! ## The calls return -/

/-- How often `write(2)` takes something. -/
def progress (answers : List Answer) : Nat :=
  (answers.filter fun a => a ≠ .interrupted ∧ a ≠ .count 0).length

namespace BenchWritableFile

/-- `WriteAll` ends where `write(2)` takes something as often as there are bytes. -/
theorem exists_writeAll (f : BenchWritableFile) (hcount : p.length ≤ progress answers) :
    ∃ r, writeAll answers p f = some r ∧
      (.error ∉ answers → progress answers ≤ progress r.2.1 + p.length) := by
  induction answers generalizing p f with
  | nil =>
    have hp : p = [] := List.eq_nil_of_length_eq_zero (by simpa [progress] using hcount)
    exact ⟨_, by rw [writeAll, if_pos hp], fun _ => Nat.le_add_right _ _⟩
  | cons a answers ih =>
    unfold writeAll
    split
    · exact ⟨_, rfl, fun _ => Nat.le_add_right _ _⟩
    · rename_i hp
      cases a with
      | interrupted =>
        obtain ⟨r, hr, hrest⟩ := ih f (by simpa [progress] using hcount)
        refine ⟨r, hr, fun hnone => ?_⟩
        have hle := hrest fun hmem => hnone (List.mem_cons_of_mem _ hmem)
        simpa [progress] using hle
      | error => exact ⟨_, rfl, fun hnone => absurd List.mem_cons_self hnone⟩
      | count w =>
        have hmore : progress (.count w :: answers) = progress answers + if w = 0 then 0 else 1 := by
          by_cases hw : w = 0 <;> simp [progress, hw]
        have hpos := List.length_pos_iff.2 hp
        obtain ⟨r, hr, hrest⟩ := @ih (p.drop w) { f with written := f.written ++ p.take w } (by
          rw [List.length_drop]
          split at hmore <;> omega)
        refine ⟨r, hr, fun hnone => ?_⟩
        have hle := hrest fun hmem => hnone (List.mem_cons_of_mem _ hmem)
        rw [List.length_drop] at hle
        split at hmore <;> omega

theorem exists_flushBuffer (f : BenchWritableFile) (hpos : f.pos ≤ progress answers) :
    ∃ r, f.flushBuffer answers = some r ∧
      (.error ∉ answers → progress answers ≤ progress r.2.1 + f.pos) := by
  have hlength : (f.buf.take f.pos).length ≤ f.pos := by
    rw [List.length_take]
    omega
  obtain ⟨r, hr, hrest⟩ := @exists_writeAll answers (f.buf.take f.pos) f (by omega)
  refine ⟨_, Option.map_eq_some_iff.2 ⟨r, hr, rfl⟩, fun hnone => ?_⟩
  have hle := hrest hnone
  show progress answers ≤ progress r.2.1 + f.pos
  omega

theorem exists_append {new : Bytes} (hpos : f.pos ≤ kBufferSize) (hnone : .error ∉ answers)
    (hcount : kBufferSize + new.length ≤ progress answers) :
    ∃ r, f.append answers new = some r := by
  unfold BenchWritableFile.append
  generalize hcopy : min new.length (kBufferSize - f.pos) = copy
  dsimp only
  split
  · obtain ⟨r, hr, hrest⟩ := @exists_flushBuffer answers
      { f with buf := memcpy f.buf f.pos (new.take copy), pos := f.pos + copy }
      (show f.pos + copy ≤ _ by omega)
    have hle : progress answers ≤ progress r.2.1 + (f.pos + copy) := hrest hnone
    rw [hr, Option.bind_some, if_pos (flushBuffer_spec hnone hr).1]
    split
    · exact ⟨_, rfl⟩
    · obtain ⟨r', hr', -⟩ := @exists_writeAll r.2.1 (new.drop copy) r.2.2 (by
        rw [List.length_drop]
        omega)
      exact ⟨r', hr'⟩
  · exact ⟨_, rfl⟩

end BenchWritableFile

theorem exists_during {e : CrashEvent} {call : State → Option State}
    (h : ∀ crash, ∃ s1, call { s with crash } = some s1) : ∃ s', s.during e call = some s' := by
  unfold State.during
  split
  · exact ⟨_, rfl⟩
  · rename_i crash _
    obtain ⟨s1, hs1⟩ := h crash
    exact ⟨_, Option.map_eq_some_iff.2 ⟨s1, hs1, rfl⟩⟩

theorem exists_flush (h : s.file.pos ≤ progress answers) : ∃ s', s.flush answers = some s' := by
  obtain ⟨r, hr, -⟩ := s.file.exists_flushBuffer h
  exact ⟨_, Option.map_eq_some_iff.2 ⟨r, hr, rfl⟩⟩

/-- **Every call returns**, once `write(2)` has taken something often enough. -/
theorem exists_step (h : Sound s) (halive : s.alive = true)
    (hopen : s.isOpen = true) {a : Action} (hnone : s.NoErrors a)
    (hcount : kBufferSize + a.data.length ≤ progress a.answers) :
    ∃ s', s.step a = some s' := by
  have hpos := h.whole.pos
  have hflush : s.file.pos ≤ progress a.answers := by omega
  have hcalled : (s.alive && s.isOpen) = true := by rw [halive, hopen, Bool.and_self]
  unfold State.step
  rw [if_pos hcalled]
  cases a with
  | append data answers =>
    refine exists_during fun crash => ?_
    obtain ⟨r, hr⟩ := BenchWritableFile.exists_append hpos hnone hcount
    exact ⟨_, Option.map_eq_some_iff.2 ⟨r, hr, rfl⟩⟩
  | flush answers => exact exists_flush hflush
  | sync answers => exact exists_during fun crash => exists_flush hflush
  | close answers closed =>
    refine exists_during fun crash => ?_
    obtain ⟨s1, hs1⟩ := @exists_flush answers { s with crash } hflush
    exact ⟨_, Option.map_eq_some_iff.2 ⟨s1, hs1, rfl⟩⟩

/-! ## The file layer writes what it is given -/

/-- What an append is given is behind what was given before. -/
theorem step_appended {a : Action} (hstep : s.step a = some s') (halive : s'.alive = true) :
    s'.appended = s.appended ++ a.data := by
  unfold State.step at hstep
  split at hstep
  swap
  · cases hstep
  have hflush : ∀ {answers : List Answer} {s s' : State}, s.flush answers = some s' →
      s'.appended = s.appended ++ [] := by
    intro answers s s' hflush
    obtain ⟨r, -, rfl⟩ := Option.map_eq_some_iff.1 hflush
    exact (List.append_nil _).symm
  cases a with
  | append data answers =>
    rcases during_some hstep with ⟨crash, rfl⟩ | ⟨crash, s1, alive, hcall, rfl⟩
    · cases halive
    · obtain ⟨r, -, rfl⟩ := Option.map_eq_some_iff.1 hcall
      rfl
  | flush answers => exact hflush hstep
  | sync answers =>
    rcases during_some hstep with ⟨crash, rfl⟩ | ⟨crash, s1, alive, hcall, rfl⟩
    · cases halive
    · have happended := hflush hcall
      exact happended
  | close answers closed =>
    rcases during_some hstep with ⟨crash, rfl⟩ | ⟨crash, s1, alive, hcall, rfl⟩
    · cases halive
    · obtain ⟨s2, hclose, rfl⟩ := Option.map_eq_some_iff.1 hcall
      have happended := hflush hclose
      exact happended

/-- **The file layer writes what it is given**: in order, the buffer last. Every call returns, once
`write(2)` has taken something often enough, and after `Flush`, `Sync` and `Close` all is written. -/
theorem written_eq (h : system.ReachableBy State.NoErrors s) :
    s.file.pos ≤ kBufferSize ∧ s.file.written ++ s.file.buffered = s.appended ∧
      ∀ a, s.NoErrors a → s.alive = true → s.isOpen = true →
        (kBufferSize + a.data.length ≤ progress a.answers → ∃ s', s.step a = some s') ∧
        ∀ s', s.step a = some s' → s'.alive = true →
          s'.file.pos ≤ kBufferSize ∧
          s'.file.written ++ s'.file.buffered = s.appended ++ a.data ∧
          (a.isAppend = false → s'.file.written = s.appended ++ a.data) := by
  have hs := sound_reachable h
  refine ⟨hs.whole.pos, hs.whole.whole, fun a hnone halive hopen =>
    ⟨exists_step hs halive hopen hnone, fun s' hstep halive' => ?_⟩⟩
  obtain ⟨hs', hwritten⟩ := hs.step hnone hstep
  rw [← step_appended hstep halive']
  exact ⟨hs'.whole.pos, hs'.whole.whole, fun hflush => hwritten hflush halive'⟩

/-- An injector that is not armed does not kill the process. -/
theorem append_unarmed {data : Bytes} (harmed : s.crash.armed = false)
    (hstep : s.step (.append data answers) = some s') :
    s'.alive = true ∧ s'.isOpen = true ∧ s'.crash.armed = false := by
  unfold State.step at hstep
  split at hstep
  swap
  · cases hstep
  rename_i hcalled
  obtain ⟨-, hopen⟩ := Bool.and_eq_true_iff.1 hcalled
  have hbefore : s.crash.before s.file.appendEvent = (s.crash, false) := by
    simp [CrashInjector.before, harmed]
  simp only [State.during, hbefore] at hstep
  obtain ⟨s1, hcall, rfl⟩ := Option.map_eq_some_iff.1 hstep
  obtain ⟨r, -, rfl⟩ := Option.map_eq_some_iff.1 hcall
  exact ⟨by simp [CrashInjector.after, harmed], hopen, harmed⟩

/-- `write(2)` takes all that is there, this many times. -/
def takesAll (n : Nat) : List Answer := List.replicate n (.count kBufferSize)

theorem progress_takesAll (n : Nat) : progress (takesAll n) = n := by
  simp [progress, takesAll, kBufferSize]

theorem error_not_mem_takesAll (n : Nat) : .error ∉ takesAll n := by
  simp [takesAll, List.mem_replicate]

/-- All but one byte of the buffer, -/
def almostFull : Bytes := List.replicate 65535 1

/-- and more than a buffer on top: one byte fills it, the rest goes around it. -/
def overfull : Bytes := List.replicate 65541 2

theorem written_eq_overfull : ∃ s s' s'', system.ReachableBy State.NoErrors s ∧
    s.appended = almostFull ∧ s.step (.append overfull (takesAll (2 ^ 18))) = some s' ∧
    s'.file.written ++ s'.file.buffered = almostFull ++ overfull ∧
    s'.step (.flush (takesAll (2 ^ 18))) = some s'' ∧
    s''.alive = true ∧ s''.file.written = almostFull ++ overfull := by
  have hnone : ∀ (s : State) (a : Action), a.answers = takesAll (2 ^ 18) → s.NoErrors a := by
    intro s a ha
    rw [State.NoErrors, ha]
    exact error_not_mem_takesAll _
  have henough : ∀ a : Action, a.answers = takesAll (2 ^ 18) → a.data.length ≤ 65541 →
      kBufferSize + a.data.length ≤ progress a.answers := by
    intro a ha hlength
    rw [ha, progress_takesAll]
    unfold kBufferSize
    omega
  have hnew : system.ReachableBy State.NoErrors
      (.new .log (List.replicate kBufferSize 0) ⟨.none, 0, false, false, 0⟩) :=
    .init ⟨_, _, _, List.length_replicate, rfl⟩
  have hnext : ∀ {s s' : State} {a : Action}, system.ReachableBy State.NoErrors s → s.NoErrors a →
      s.step a = some s' → system.ReachableBy State.NoErrors s' := fun h hnone hstep =>
    h.step _ hnone hstep
  have hfill : (Action.append almostFull (takesAll (2 ^ 18))).data.length ≤ 65541 :=
    List.length_replicate.trans_le (by omega)
  have hover : (Action.append overfull (takesAll (2 ^ 18))).data.length ≤ 65541 :=
    List.length_replicate.le
  obtain ⟨s, hs⟩ := ((written_eq hnew).2.2 (.append almostFull (takesAll (2 ^ 18)))
    (hnone _ _ rfl) rfl rfl).1 (henough _ rfl hfill)
  obtain ⟨halive, hopen, harmed⟩ := append_unarmed rfl hs
  have hreach := hnext hnew (hnone _ _ rfl) hs
  have happended : s.appended = almostFull := step_appended hs halive
  obtain ⟨hreturns, hwhole⟩ := (written_eq hreach).2.2 (.append overfull (takesAll (2 ^ 18)))
    (hnone _ _ rfl) halive hopen
  obtain ⟨s', hs'⟩ := hreturns (henough _ rfl hover)
  obtain ⟨halive', hopen', -⟩ := append_unarmed harmed hs'
  have hreach' := hnext hreach (hnone _ _ rfl) hs'
  have happended' : s'.appended = almostFull ++ overfull :=
    (step_appended hs' halive').trans (congrArg (· ++ overfull) happended)
  obtain ⟨hreturns', hwhole'⟩ := (written_eq hreach').2.2 (.flush (takesAll (2 ^ 18)))
    (hnone _ _ rfl) halive' hopen'
  obtain ⟨s'', hs''⟩ := hreturns' (henough _ rfl (Nat.zero_le _))
  have halive'' : s''.alive = true := by
    have hflush : s'.flush (takesAll (2 ^ 18)) = some s'' := by
      rw [← hs'', State.step, halive', hopen']
      rfl
    obtain ⟨r, -, rfl⟩ := Option.map_eq_some_iff.1 hflush
    exact halive'
  obtain ⟨-, -, hall⟩ := hwhole' s'' hs'' halive''
  refine ⟨s, s', s'', hreach, happended, hs', ?_, hs'', halive'', ?_⟩
  · rw [(hwhole s' hs' halive').2.1, happended]
    rfl
  · rw [hall rfl, happended']
    exact List.append_nil _

end LevelDb.BenchEnv
