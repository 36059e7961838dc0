import LevelDb.Db.RunScenarios
import LevelDb.Lib.Lines

/-!
# What the verifier counts

The chunks are the seeds, each once and in order (`flatMap_chunks`). What a process has printed is
lines and perhaps a part of one (`Told`); the verifier reads its totals once they are there, and
counts the lines that end in `ok` before (`Told.credit`). But a process told to be quiet writes no
such line, so of a chunk that dies nothing is counted (`credit_iff`).
-/

namespace LevelDb.Verifier

open Numerals Lines Transition

/-! ## Chunks -/

/-- The first chunks are the first seeds. -/
theorem flatMap_firstChunks (lo hi step n : Nat) :
    (((List.range n).filterMap fun i =>
      if min hi (lo + (i + 1) * step) ≤ lo + i * step then none
      else some (lo + i * step, min hi (lo + (i + 1) * step))).flatMap fun c =>
        List.range' c.1 (c.2 - c.1)) = List.range' lo (min (hi - lo) (n * step)) := by
  induction n with
  | zero => simp
  | succ n ih =>
    have hstep : (n + 1) * step = n * step + step := Nat.succ_mul n step
    rw [List.range_succ, List.filterMap_append, List.flatMap_append, ih, List.filterMap_cons,
      List.filterMap_nil]
    split
    · rename_i hnone
      have hnone : min hi (lo + (n + 1) * step) ≤ lo + n * step := by
        by_contra hlt
        rw [if_neg hlt] at hnone
        cases hnone
      rw [List.flatMap_nil, List.append_nil]
      congr 1
      omega
    · rename_i c hsome
      split at hsome
      · cases hsome
      · rename_i hlt
        cases hsome
        rw [List.flatMap_cons, List.flatMap_nil, List.append_nil,
          show min (hi - lo) (n * step) = n * step by omega,
          show List.range' (lo + n * step) (min hi (lo + (n + 1) * step) - (lo + n * step)) =
            List.range' (lo + 1 * (n * step)) (min hi (lo + (n + 1) * step) - (lo + n * step)) by
              rw [Nat.one_mul], List.range'_append]
        congr 1
        omega

/-- **Every seed is in one chunk**, and once. -/
theorem flatMap_chunks {lo hi jobs : Nat} (hjobs : 0 < jobs) :
    ((chunks lo hi jobs).flatMap fun c => List.range' c.1 (c.2 - c.1)) =
      List.range' lo (hi - lo) := by
  have hfirst := flatMap_firstChunks lo hi ((hi - lo + jobs - 1) / jobs) jobs
  have hmod := Nat.div_add_mod (hi - lo + jobs - 1) jobs
  have hlt := Nat.mod_lt (hi - lo + jobs - 1) hjobs
  have hall : hi - lo ≤ jobs * ((hi - lo + jobs - 1) / jobs) := by omega
  rw [Nat.min_eq_left hall] at hfirst
  exact hfirst

theorem mem_chunks {lo hi jobs : Nat} {c : Nat × Nat} (h : c ∈ chunks lo hi jobs) :
    c.1 < c.2 ∧ c.2 ≤ hi := by
  obtain ⟨i, -, hi⟩ := List.mem_filterMap.1 h
  dsimp only at hi
  split at hi
  · cases hi
  · rename_i hlt
    cases hi
    exact ⟨Nat.not_le.1 hlt, Nat.min_le_left _ _⟩

/-! ## Lines -/

/-- A line of the output is ended by nothing before its end. -/
def Unbroken (line : Text) : Prop := ∀ c ∈ line, isLineBreak c = false

instance (line : Text) : Decidable (Unbroken line) :=
  List.decidableBAll (isLineBreak · = false) line

theorem Unbroken.append {front back : Text} (h : Unbroken front) (h' : Unbroken back) :
    Unbroken (front ++ back) := fun c hc =>
  (List.mem_append.1 hc).elim (h c) (h' c)

theorem Unbroken.of_prefix {front line : Text} (h : Unbroken line) (hp : front <+: line) :
    Unbroken front := fun c hc => h c (hp.subset hc)

theorem isLineBreak_of_isDigit {c : Char} (h : c.isDigit = true) : isLineBreak c = false := by
  apply Bool.eq_false_iff.2
  intro hbreak
  have hmem := of_decide_eq_true hbreak
  simp only [List.mem_cons, List.not_mem_nil, or_false] at hmem
  rcases hmem with rfl | rfl | rfl | rfl | rfl | rfl | rfl | rfl | rfl | rfl <;> cases h

theorem unbroken_padded (width n : Nat) : Unbroken (padded width n) := fun _ hc =>
  isLineBreak_of_isDigit (isDigit_of_mem_padded hc)

theorem splitlines_cons {c : Char} (hc : isLineBreak c = false) (cs : Text) :
    splitlines (c :: cs) = match splitlines cs with
      | [] => [[c]]
      | line :: lines => (c :: line) :: lines := by
  rw [splitlines.eq_def]
  split
  · rename_i heq
    cases heq
  · rename_i heq
    obtain ⟨rfl, -⟩ := List.cons.inj heq
    cases hc
  · rename_i heq
    obtain ⟨rfl, rfl⟩ := List.cons.inj heq
    rw [hc]
    rfl

theorem splitlines_line {line : Text} (h : Unbroken line) (cs : Text) :
    splitlines (line ++ '\n' :: cs) = line :: splitlines cs := by
  induction line with
  | nil => rfl
  | cons c line ih =>
    rw [List.cons_append, splitlines_cons (h c List.mem_cons_self),
      ih fun d hd => h d (List.mem_cons_of_mem c hd)]

theorem splitlines_unlines {ls : List Text} (h : ∀ line ∈ ls, Unbroken line) (cs : Text) :
    splitlines (unlines '\n' ls ++ cs) = ls ++ splitlines cs := by
  induction ls with
  | nil => rfl
  | cons line ls ih =>
    obtain ⟨hline, hls⟩ := List.forall_mem_cons.1 h
    rw [unlines, List.flatMap_cons, List.append_assoc, List.append_assoc, List.singleton_append,
      splitlines_line hline]
    exact congrArg _ (ih hls)

/-- A line that has no end yet. -/
theorem splitlines_part {part : Text} (h : Unbroken part) :
    splitlines part = if part = [] then [] else [part] := by
  induction part with
  | nil => rfl
  | cons c part ih =>
    rw [splitlines_cons (h c List.mem_cons_self), ih fun d hd => h d (List.mem_cons_of_mem c hd)]
    cases part <;> rfl

/-! ## What the lines say -/

/-- A line that is no totals, and says that nothing passed. -/
def Silent (line : Text) : Prop :=
  startsWith "PASSED ".toList line = false ∧ endsWith " ok".toList line = false

/-- A blank comes after a word. -/
theorem infix_word (word : Text) {front cs : Text} (hword : ' ' ∉ word)
    (h : ' ' :: front <:+: word ++ cs) : ' ' :: front <:+: cs := by
  induction word with
  | nil => exact h
  | cons c word ih =>
    obtain ⟨hc, hrest⟩ := not_or.1 (List.mem_cons.not.1 hword)
    rw [List.cons_append] at h
    rcases List.infix_cons_iff.1 h with hp | hin
    · exact absurd (List.cons_prefix_cons.1 hp).1 hc
    · exact ih hrest hin

theorem infix_blank {front cs : Text} (hne : ¬ front <+: cs) (h : ' ' :: front <:+: ' ' :: cs) :
    ' ' :: front <:+: cs := by
  rcases List.infix_cons_iff.1 h with hp | hin
  · exact absurd (List.cons_prefix_cons.1 hp).2 hne
  · exact hin

theorem blank_not_mem_padded (width n : Nat) : ' ' ∉ padded width n := fun hin => by
  have hdigit := isDigit_of_mem_padded hin
  cases hdigit

theorem cString_isPrefix (s : Text) : cString s <+: s := List.takeWhile_prefix _

theorem unbroken_failLine (seed : Nat) {err : Text} (h : Plain err) : Unbroken (failLine seed err) := by
  refine .append (by decide) (.append (unbroken_padded 1 seed) (.append (by decide) ?_))
  exact Unbroken.of_prefix h.1 (cString_isPrefix err)

theorem unbroken_okLine (seed : Nat) : Unbroken (okLine seed) :=
  .append (by decide) (.append (unbroken_padded 1 seed) (by decide))

theorem unbroken_totalsLine (passed total : Nat) : Unbroken (totalsLine passed total) := by
  refine .append (by decide) (.append (unbroken_padded 1 passed) ?_)
  have hslash : Unbroken ['/'] := by decide
  exact hslash.append (unbroken_padded 1 total)

/-- **A failure does not look like a result**, and no part of it does. -/
theorem silent_failLine (seed : Nat) {err part : Text} (h : Plain err)
    (hp : part <+: failLine seed err) : Silent part := by
  constructor
  · apply Bool.eq_false_iff.2
    intro hstarts
    have hfront := (List.isPrefixOf_iff_prefix.1 hstarts).trans hp
    exact absurd (List.cons_prefix_cons.1 hfront).1 (by decide)
  · apply Bool.eq_false_iff.2
    intro hends
    have hin := (List.isSuffixOf_iff_suffix.1 hends).isInfix.trans hp.isInfix
    -- past one word after the other
    have hseed := infix_word "SCENARIO".toList (by decide) hin
    obtain ⟨d, ds, hds⟩ := List.exists_cons_of_ne_nil (padded_ne_nil 1 seed)
    have hd : d.isDigit = true := isDigit_of_mem_padded (hds ▸ List.mem_cons_self)
    have hdigit := infix_blank (fun hok => by
      rw [hds] at hok
      obtain rfl := (List.cons_prefix_cons.1 hok).1
      cases hd) hseed
    have hfail := infix_word _ (blank_not_mem_padded 1 seed) hdigit
    have hword := infix_blank (fun hok => absurd (List.cons_prefix_cons.1 hok).1 (by decide)) hfail
    have herr := infix_word "FAIL".toList (by decide) hword
    exact h.2 (herr.trans ((List.prefix_cons_inj ' ').2 (cString_isPrefix err)).isInfix)

/-- The lines that the verifier counts. -/
def oks (lines : List Text) : Nat :=
  ((lines.filter (startsWith "SCENARIO ".toList)).filter (endsWith " ok".toList)).length

theorem oks_append (ls ls' : List Text) : oks (ls ++ ls') = oks ls + oks ls' := by
  simp [oks]

theorem oks_silent {line : Text} (h : Silent line) : oks [line] = 0 := by
  have hends := h.2
  rw [oks, List.length_eq_zero_iff, List.filter_eq_nil_iff]
  intro l hl
  rw [List.mem_singleton.1 (List.mem_of_mem_filter hl), hends]
  exact Bool.false_ne_true

theorem oks_okLine (seed : Nat) : oks [okLine seed] = 1 := by
  have hstarts : startsWith "SCENARIO ".toList (okLine seed) = true :=
    List.isPrefixOf_iff_prefix.2 (List.prefix_append _ _)
  have hends : endsWith " ok".toList (okLine seed) = true :=
    List.isSuffixOf_iff_suffix.2 ((List.suffix_append _ _).trans (List.suffix_append _ _))
  rw [oks, List.filter_cons_of_pos hstarts, List.filter_nil, List.filter_cons_of_pos hends]
  rfl

theorem okLine_starts (seed : Nat) : startsWith "PASSED ".toList (okLine seed) = false := by
  apply Bool.eq_false_iff.2
  intro hstarts
  exact absurd (List.cons_prefix_cons.1 (List.isPrefixOf_iff_prefix.1 hstarts)).1 (by decide)

/-! ## The totals -/

theorem isBlank_of_isDigit {c : Char} (h : c.isDigit = true) : isBlank c = false := by
  apply Bool.eq_false_iff.2
  intro hblank
  simp only [isBlank, isLineBreak_of_isDigit h, Bool.false_or, Bool.or_eq_true, Bool.and_eq_true,
    decide_eq_true_eq, List.mem_cons, List.not_mem_nil, or_false] at hblank
  rcases hblank with (rfl | rfl | rfl | rfl | rfl | rfl | rfl | rfl) | ⟨hge, -⟩
  iterate 8 cases h
  have hle := (toNat_of_isDigit h).2
  have hge : 8192 ≤ c.toNat := hge
  omega

/-- A numeral is one group of digits. -/
theorem digits_padded (n : Nat) : digits (padded 1 n) = some n := by
  have hnone : '_' ∉ padded 1 n := fun hin => by cases isDigit_of_mem_padded hin
  have hgroup : (padded 1 n).splitOn '_' = [padded 1 n] := List.splitOn_eq_singleton hnone
  have hfilter : (padded 1 n).filter (fun c => c ≠ '_') = padded 1 n := by
    refine List.filter_eq_self.2 fun c hc => decide_eq_true ?_
    rintro rfl
    exact hnone hc
  rw [digits, hgroup, hfilter, value_padded, if_pos]
  rw [List.all_eq_true]
  intro group hmem
  rw [List.mem_singleton.1 hmem]
  have hall : (padded 1 n).all Char.isDigit = true :=
    List.all_eq_true.2 fun _ hc => isDigit_of_mem_padded hc
  exact decide_eq_true ⟨padded_ne_nil 1 n, hall⟩

theorem blank_padded (n : Nat) : ∀ c ∈ padded 1 n, isBlank c = false := fun _ hc =>
  isBlank_of_isDigit (isDigit_of_mem_padded hc)

theorem int_padded (n : Nat) : int (padded 1 n) = some (n : Int) := by
  obtain ⟨d, ds, hds⟩ := List.exists_cons_of_ne_nil (padded_ne_nil 1 n)
  have hd : d.isDigit = true := isDigit_of_mem_padded (hds ▸ List.mem_cons_self)
  have hstrip : ((padded 1 n).dropWhile isBlank).rdropWhile isBlank = padded 1 n := by
    have hfront : (padded 1 n).dropWhile isBlank = padded 1 n := by
      rw [hds, List.dropWhile_cons_of_neg]
      rw [isBlank_of_isDigit hd]
      exact Bool.false_ne_true
    rw [hfront, List.rdropWhile_eq_self_iff]
    intro hne
    rw [blank_padded n _ (List.getLast_mem hne)]
    exact Bool.false_ne_true
  rw [int, hstrip]
  have hread := digits_padded n
  rw [hds] at hread ⊢
  split
  · rename_i heq
    obtain ⟨rfl, -⟩ := List.cons.inj heq
    cases hd
  · rename_i heq
    obtain ⟨rfl, -⟩ := List.cons.inj heq
    cases hd
  · rw [hread]
    rfl

theorem passedOf_totalsLine (passed total : Nat) :
    passedOf (totalsLine passed total) = some (passed : Int) := by
  have hcount : ∀ c ∈ padded 1 passed ++ '/' :: padded 1 total, isBlank c = false := by
    intro c hc
    rcases List.mem_append.1 hc with hc | hc
    · exact blank_padded passed c hc
    · rcases List.mem_cons.1 hc with rfl | hc
      · decide
      · exact blank_padded total c hc
  have hwords : split (totalsLine passed total) =
      ["PASSED".toList, padded 1 passed ++ '/' :: padded 1 total] := by
    have hcut : (totalsLine passed total).splitOnP isBlank =
        "PASSED".toList :: [padded 1 passed ++ '/' :: padded 1 total] := by
      rw [← List.splitOnP_eq_singleton hcount]
      have hfirst : ∀ c ∈ "PASSED".toList, isBlank c = false := by
        have hall : "PASSED".toList.all (fun c => !isBlank c) = true := by decide
        simpa using hall
      exact List.splitOnP_append_cons_of_forall_mem hfirst ' ' (by decide) _
    rw [split, hcut]
    simp
  have hslash : '/' ∉ padded 1 passed := fun hin => by cases isDigit_of_mem_padded hin
  rw [passedOf, hwords]
  show ((padded 1 passed ++ '/' :: padded 1 total).splitOn '/').head?.bind int = _
  rw [List.splitOn_append_cons_self_of_not_mem hslash]
  exact int_padded passed

/-- A line of a numeral or two is shorter than the buffer. -/
theorem length_padded_le {n : Nat} (hn : n < 2 ^ 64) : (padded 1 n).length ≤ 20 := by
  have hdigits := (Nat.length_toDigits_le_iff (b := 10) (k := 20) (by decide) (by decide)).2
    (show n < 10 ^ 20 by omega)
  rw [padded, List.length_append, List.length_replicate]
  omega

theorem length_okLine {seed : Nat} (h : seed < 2 ^ 64) :
    (okLine seed ++ ['\n']).length < kStdioBuffer := by
  have hlen := length_padded_le h
  have hfront : "SCENARIO ".toList.length = 9 := by decide
  have hback : " ok".toList.length = 3 := by decide
  unfold okLine kStdioBuffer
  rw [List.length_append, List.length_append, List.length_append, List.length_singleton, hfront,
    hback]
  generalize (padded 1 seed).length = k at hlen ⊢
  omega

theorem length_totalsLine {passed total : Nat} (hpassed : passed < 2 ^ 64) (htotal : total < 2 ^ 64) :
    (totalsLine passed total ++ ['\n']).length < kStdioBuffer := by
  have h1 := length_padded_le hpassed
  have h2 := length_padded_le htotal
  have hfront : "PASSED ".toList.length = 7 := by decide
  unfold totalsLine kStdioBuffer
  rw [List.length_append, List.length_append, List.length_append, List.length_cons,
    List.length_singleton, hfront]
  generalize (padded 1 passed).length = k at h1 ⊢
  generalize (padded 1 total).length = l at h2 ⊢
  omega

/-! ## Steps -/

/-- What a process can do. -/
inductive Stepped (s : Process) : Action → Process → Prop
  | runPassed : s.phase = .start → s.seed < s.toSeed →
      Stepped s (.run .passed) { s with
        total := s.total + 1, phase := .returned .passed, ran := s.ran ++ [s.seed]
        returned := s.returned + 1 }
  | runFailed {err : Text} : s.phase = .start → s.seed < s.toSeed →
      Stepped s (.run (.failed err)) { s with
        total := s.total + 1, phase := .returned (.failed err), ran := s.ran ++ [s.seed] }
  | printPassed : s.phase = .returned .passed →
      Stepped s .print { s with
        passed := s.passed + 1, phase := .printed .passed
        buffer := s.buffer ++ if s.quiet then [] else okLine s.seed ++ ['\n'] }
  | printFailed {err : Text} : s.phase = .returned (.failed err) →
      Stepped s .print { s with
        phase := .printed (.failed err), buffer := s.buffer ++ (failLine s.seed err ++ ['\n']) }
  | printTotals : s.phase = .start → s.toSeed ≤ s.seed →
      Stepped s .print { s with
        phase := .totals, buffer := s.buffer ++ (totalsLine s.passed s.total ++ ['\n']) }
  | flushLine {o : Outcome} : s.phase = .printed o →
      Stepped s .flush { s with buffer := [], out := s.out ++ s.buffer, phase := .flushed }
  | flushTotals : s.phase = .totals →
      Stepped s .flush { s with buffer := [], out := s.out ++ s.buffer, phase := .done }
  | destroy : s.phase = .flushed →
      Stepped s .destroy { s with phase := .start, seed := s.seed + 1 }
  | spill {n : Nat} : kStdioBuffer ≤ s.buffer.length →
      Stepped s (.spill n) { s with buffer := s.buffer.drop n, out := s.out ++ s.buffer.take n }

variable {s s' : Process} {a b : Nat} {ls : List Text} {part : Text}

theorem stepped_of_step {act : Action} (h : s.step act = some s') : Stepped s act s' := by
  cases act with
  | run o =>
    simp only [Process.step] at h
    split at h
    · rename_i hphase
      split at h
      · rename_i hlt
        cases h
        cases o with
        | passed => exact .runPassed hphase hlt
        | failed err => exact .runFailed hphase hlt
      · cases h
    · cases h
  | print =>
    simp only [Process.step] at h
    split at h
    · rename_i hphase
      cases h
      have hstep := Stepped.printPassed hphase
      cases hquiet : s.quiet with
      | true =>
        rw [hquiet, if_pos rfl, List.append_nil] at hstep
        exact hstep
      | false =>
        rw [hquiet, if_neg Bool.false_ne_true] at hstep
        exact hstep
    · rename_i hphase
      cases h
      exact .printFailed hphase
    · rename_i hphase
      split at h
      · cases h
      · rename_i hge
        cases h
        exact .printTotals hphase (Nat.not_lt.1 hge)
    · cases h
  | flush =>
    simp only [Process.step] at h
    split at h
    · rename_i hphase
      cases h
      exact .flushLine hphase
    · rename_i hphase
      cases h
      exact .flushTotals hphase
    · cases h
  | destroy =>
    simp only [Process.step] at h
    split at h
    · rename_i hphase
      cases h
      exact .destroy hphase
    · cases h
  | spill n =>
    simp only [Process.step] at h
    split at h
    · rename_i hfull
      cases h
      exact .spill hfull
    · cases h

/-! ## The counters -/

/-- A scenario of the seed has been started. -/
def Process.current (s : Process) : Nat :=
  match s.phase with
  | .start | .totals | .done => 0
  | .returned _ | .printed _ | .flushed => 1

/-- The seeds that have been run, from `a` on, and how many passed. -/
structure Counted (a : Nat) (s : Process) : Prop where
  ran : s.ran = List.range' a (s.seed + s.current - a)
  le : a ≤ s.seed
  seed : s.seed + s.current ≤ s.toSeed
  total : s.total = s.ran.length
  returned : s.returned ≤ s.total
  passed : match s.phase with
    | .returned .passed => s.passed + 1 = s.returned
    | .printed .passed => s.passed = s.returned ∧ 0 < s.returned
    | .totals | .done => s.passed = s.returned ∧ s.seed = s.toSeed
    | _ => s.passed = s.returned

theorem Counted.step (h : Counted a s) {act : Action} (hstep : Stepped s act s') : Counted a s' := by
  obtain ⟨hran, hle, hseed, htotal, hreturned, hpassed⟩ := h
  have hmore : List.range' a (s.seed - a) ++ [s.seed] = List.range' a (s.seed + 1 - a) := by
    rw [show s.seed + 1 - a = s.seed - a + 1 by omega, List.range'_concat, Nat.one_mul,
      Nat.add_sub_cancel' hle]
  cases hstep with
  | runPassed hphase hlt =>
    simp only [hphase, Process.current] at hran hpassed hseed
    refine ⟨?_, hle, hlt, ?_, ?_, ?_⟩
    · show s.ran ++ [s.seed] = List.range' a (s.seed + 1 - a)
      rw [hran]
      exact hmore
    · show s.total + 1 = (s.ran ++ [s.seed]).length
      rw [List.length_append, htotal]
      rfl
    · exact Nat.succ_le_succ hreturned
    · exact congrArg (· + 1) hpassed
  | runFailed hphase hlt =>
    simp only [hphase, Process.current] at hran hpassed hseed
    refine ⟨?_, hle, hlt, ?_, Nat.le_succ_of_le hreturned, hpassed⟩
    · show s.ran ++ [s.seed] = List.range' a (s.seed + 1 - a)
      rw [hran]
      exact hmore
    · show s.total + 1 = (s.ran ++ [s.seed]).length
      rw [List.length_append, htotal]
      rfl
  | printPassed hphase =>
    simp only [hphase, Process.current] at hran hpassed hseed
    have hpos : 0 < s.returned := by omega
    exact ⟨hran, hle, hseed, htotal, hreturned, hpassed, hpos⟩
  | printFailed hphase =>
    simp only [hphase, Process.current] at hran hpassed hseed
    exact ⟨hran, hle, hseed, htotal, hreturned, hpassed⟩
  | printTotals hphase hge =>
    simp only [hphase, Process.current] at hran hpassed hseed
    have hend : s.seed = s.toSeed := by omega
    exact ⟨hran, hle, hseed, htotal, hreturned, hpassed, hend⟩
  | @flushLine o hphase =>
    have hsame : s.passed = s.returned := by
      cases o <;> simp only [hphase] at hpassed
      · exact hpassed.1
      · exact hpassed
    simp only [hphase, Process.current] at hran hseed
    exact ⟨hran, hle, hseed, htotal, hreturned, hsame⟩
  | flushTotals hphase =>
    simp only [hphase, Process.current] at hran hpassed hseed
    exact ⟨hran, hle, hseed, htotal, hreturned, hpassed⟩
  | destroy hphase =>
    simp only [hphase, Process.current] at hran hpassed hseed
    exact ⟨hran, Nat.le_succ_of_le hle, hseed, htotal, hreturned, hpassed⟩
  | spill => exact ⟨hran, hle, hseed, htotal, hreturned, hpassed⟩

/-! ## The output -/

/-- The scenarios that passed and whose lines have gone out. -/
def Process.settled (s : Process) : Nat :=
  match s.phase with
  | .returned .passed | .printed .passed => s.returned - 1
  | _ => s.returned

/-- What has gone out of the line that is being printed, and what `stdout` holds back. -/
def Pending (s : Process) (part : Text) : Prop :=
  match s.phase with
  | .returned (.failed err) => Plain err ∧ part = [] ∧ s.buffer = []
  | .printed .passed => part = [] ∧ s.buffer = if s.quiet then [] else okLine s.seed ++ ['\n']
  | .printed (.failed err) => Plain err ∧ part ++ s.buffer = failLine s.seed err ++ ['\n']
  | .totals => part = [] ∧ s.buffer = totalsLine s.passed s.total ++ ['\n']
  | .done => part = totalsLine s.passed s.total ++ ['\n'] ∧ s.buffer = []
  | _ => part = [] ∧ s.buffer = []

/-- The output: full lines, none of them the totals, and a part of one. -/
structure Told (s : Process) (ls : List Text) (part : Text) : Prop where
  out : s.out = unlines '\n' ls ++ part
  lines : ∀ line ∈ ls, Unbroken line ∧ startsWith "PASSED ".toList line = false
  count : oks ls = if s.quiet then 0 else s.settled
  pending : Pending s part

theorem Counted.bounds (h : Counted a s) (hto : s.toSeed < 2 ^ 64) :
    s.seed < 2 ^ 64 ∧ s.returned < 2 ^ 64 ∧ s.total < 2 ^ 64 := by
  have hlen : s.ran.length = s.seed + s.current - a := by rw [h.ran, List.length_range']
  have hseed := h.seed
  have htotal := h.total
  have hreturned := h.returned
  omega

/-- Only a failure's text can fill the buffer of `stdout`. -/
theorem Pending.spill (hcount : Counted a s) (hto : s.toSeed < 2 ^ 64) (h : Pending s part)
    (hfull : kStdioBuffer ≤ s.buffer.length) (n : Nat) :
    Pending { s with buffer := s.buffer.drop n, out := s.out ++ s.buffer.take n }
      (part ++ s.buffer.take n) := by
  obtain ⟨hseed, hreturned, htotal⟩ := hcount.bounds hto
  have hempty : s.buffer ≠ [] := by
    rintro hnil
    rw [hnil] at hfull
    cases hfull
  unfold Pending at h ⊢
  dsimp only
  split
  · rename_i hphase
    simp only [hphase] at h
    exact absurd h.2.2 hempty
  · rename_i hphase
    simp only [hphase] at h
    have hshort := length_okLine hseed
    obtain ⟨-, hbuffer⟩ := h
    rw [hbuffer] at hfull hempty
    split at hfull
    · rename_i hquiet
      exact absurd (if_pos hquiet) hempty
    · exact absurd hfull (Nat.not_le.2 hshort)
  · rename_i hphase
    simp only [hphase] at h
    refine ⟨h.1, ?_⟩
    rw [List.append_assoc, List.take_append_drop]
    exact h.2
  · rename_i hphase
    simp only [hphase] at h
    have hpassed := hcount.passed
    simp only [hphase] at hpassed
    rw [h.2] at hfull
    exact absurd hfull (Nat.not_le.2 (length_totalsLine (by omega) htotal))
  · rename_i hphase
    simp only [hphase] at h
    exact absurd h.2 hempty
  · rename_i hreturned hpassed hfailed htotals hdone
    split at h
    · rename_i err hphase
      exact absurd hphase (hreturned err)
    · rename_i hphase
      exact absurd hphase hpassed
    · rename_i err hphase
      exact absurd hphase (hfailed err)
    · rename_i hphase
      exact absurd hphase htotals
    · rename_i hphase
      exact absurd hphase hdone
    · exact absurd h.2 hempty

theorem unlines_concat (ls : List Text) (line : Text) :
    unlines '\n' (ls ++ [line]) = unlines '\n' ls ++ (line ++ ['\n']) := by
  simp [unlines]

/-- **One step** adds a line at most. -/
theorem Told.step (hcount : Counted a s) (hto : s.toSeed < 2 ^ 64) (h : Told s ls part) {act : Action}
    (hplain : s.FailsPlainly act) (hstep : Stepped s act s') :
    ∃ ls' part', Told s' ls' part' := by
  obtain ⟨hout, hlines, hoks, hpending⟩ := h
  cases hstep with
  | runPassed hphase =>
    simp only [Pending, Process.settled, hphase] at hpending hoks
    exact ⟨ls, part, hout, hlines, hoks, hpending⟩
  | runFailed hphase =>
    simp only [Pending, Process.settled, hphase] at hpending hoks
    exact ⟨ls, part, hout, hlines, hoks, hplain, hpending⟩
  | printPassed hphase =>
    simp only [Pending, Process.settled, hphase] at hpending hoks
    refine ⟨ls, part, hout, hlines, hoks, hpending.1, ?_⟩
    show s.buffer ++ _ = _
    rw [hpending.2, List.nil_append]
  | printFailed hphase =>
    simp only [Pending, Process.settled, hphase] at hpending hoks
    obtain ⟨herr, hpart, hbuffer⟩ := hpending
    refine ⟨ls, part, hout, hlines, hoks, herr, ?_⟩
    show part ++ (s.buffer ++ _) = _
    rw [hpart, hbuffer, List.nil_append, List.nil_append]
  | printTotals hphase =>
    simp only [Pending, Process.settled, hphase] at hpending hoks
    refine ⟨ls, part, hout, hlines, hoks, hpending.1, ?_⟩
    show s.buffer ++ _ = _
    rw [hpending.2, List.nil_append]
  | @flushLine o hphase =>
    cases o with
    | passed =>
      have hpassed := hcount.passed
      simp only [Pending, Process.settled, hphase] at hpending hoks hpassed
      cases hquiet : s.quiet with
      | true =>
        rw [hquiet, if_pos rfl] at hpending hoks
        refine ⟨ls, part, ?_, hlines, ?_, hpending.1, rfl⟩
        · show s.out ++ s.buffer = _
          rw [hpending.2, List.append_nil, hout]
        · exact hoks.trans (if_pos rfl).symm
      | false =>
        rw [hquiet, if_neg Bool.false_ne_true] at hpending hoks
        refine ⟨ls ++ [okLine s.seed], [], ?_, ?_, ?_, rfl, rfl⟩
        · show s.out ++ s.buffer = _
          rw [hpending.2, hout, hpending.1, unlines_concat, List.append_nil, List.append_nil]
        · exact List.forall_mem_append.2 ⟨hlines, List.forall_mem_singleton.2
            ⟨unbroken_okLine _, okLine_starts _⟩⟩
        · show oks (ls ++ _) = if false = true then 0 else s.returned
          rw [if_neg Bool.false_ne_true, oks_append, hoks, oks_okLine]
          omega
    | failed err =>
      simp only [Pending, Process.settled, hphase] at hpending hoks
      obtain ⟨herr, htext⟩ := hpending
      have hsilent := silent_failLine s.seed herr (List.prefix_refl _)
      refine ⟨ls ++ [failLine s.seed err], [], ?_, ?_, ?_, rfl, rfl⟩
      · show s.out ++ s.buffer = _
        rw [hout, List.append_assoc, htext, unlines_concat, List.append_nil]
      · exact List.forall_mem_append.2 ⟨hlines, List.forall_mem_singleton.2
          ⟨unbroken_failLine _ herr, hsilent.1⟩⟩
      · show oks (ls ++ _) = _
        rw [oks_append, hoks, oks_silent hsilent, Nat.add_zero]
        rfl
  | flushTotals hphase =>
    simp only [Pending, Process.settled, hphase] at hpending hoks
    refine ⟨ls, totalsLine s.passed s.total ++ ['\n'], ?_, hlines, hoks, rfl, rfl⟩
    show s.out ++ s.buffer = _
    rw [hout, hpending.1, hpending.2, List.append_nil]
  | destroy hphase =>
    simp only [Pending, Process.settled, hphase] at hpending hoks
    exact ⟨ls, part, hout, hlines, hoks, hpending⟩
  | @spill n hfull =>
    refine ⟨ls, part ++ s.buffer.take n, ?_, hlines, hoks, ?_⟩
    · show s.out ++ s.buffer.take n = _
      rw [hout, List.append_assoc]
    · exact Pending.spill hcount hto hpending hfull n

/-! ## The count -/

theorem startsWith_of_mem {ls : List Text}
    (h : ∀ line ∈ ls, startsWith "PASSED ".toList line = false) :
    ls.filter (startsWith "PASSED ".toList) = [] :=
  List.filter_eq_nil_iff.2 fun line hline => by
    rw [h line hline]
    exact Bool.false_ne_true

/-- Without totals, the verifier counts lines. -/
theorem credit_of_lines {out : Text}
    (h : ∀ line ∈ splitlines out, startsWith "PASSED ".toList line = false) :
    credit out = some (oks (splitlines out) : Int) := by
  unfold credit
  dsimp only
  rw [startsWith_of_mem h]
  rfl

/-- What is out of a failure's line. -/
theorem splitlines_failLine {seed : Nat} {err rest : Text} (herr : Plain err)
    (h : part ++ rest = failLine seed err ++ ['\n']) :
    ∀ line ∈ splitlines part, Silent line := by
  have hwhole := unbroken_failLine seed herr
  rcases List.prefix_concat_iff.1 (h ▸ List.prefix_append part rest) with hall | hp
  · rw [hall, splitlines_line hwhole []]
    intro line hline
    rw [List.mem_singleton.1 hline]
    exact silent_failLine seed herr (List.prefix_refl _)
  · rw [splitlines_part (hwhole.of_prefix hp)]
    intro line hline
    split at hline
    · cases hline
    · rw [List.mem_singleton.1 hline]
      exact silent_failLine seed herr hp

theorem oks_of_silent {ls : List Text} (h : ∀ line ∈ ls, Silent line) : oks ls = 0 := by
  rw [oks, List.length_eq_zero_iff, List.filter_eq_nil_iff]
  intro line hline
  rw [(h line (List.mem_of_mem_filter hline)).2]
  exact Bool.false_ne_true

/-- **Before the totals are out**, the verifier counts the lines of the scenarios that passed. -/
theorem Told.credit (h : Told s ls part) (hphase : s.phase ≠ .done) :
    credit s.out = some ((if s.quiet then 0 else s.settled : Nat) : Int) := by
  have hpart : ∀ line ∈ splitlines part, Silent line := by
    have hpending := h.pending
    unfold Pending at hpending
    split at hpending
    · rw [hpending.2.1]
      exact fun _ hline => nomatch hline
    · rw [hpending.1]
      exact fun _ hline => nomatch hline
    · exact splitlines_failLine hpending.1 hpending.2
    · rw [hpending.1]
      exact fun _ hline => nomatch hline
    · rename_i hdone
      exact absurd hdone hphase
    · rw [hpending.1]
      exact fun _ hline => nomatch hline
  have hlines : splitlines s.out = ls ++ splitlines part := by
    rw [h.out, splitlines_unlines fun line hline => (h.lines line hline).1]
  have hnone : ∀ line ∈ splitlines s.out, startsWith "PASSED ".toList line = false := by
    rw [hlines]
    exact List.forall_mem_append.2 ⟨fun line hline => (h.lines line hline).2,
      fun line hline => (hpart line hline).1⟩
  rw [credit_of_lines hnone, hlines, oks_append, h.count, oks_of_silent hpart, Nat.add_zero]

/-- **Once the totals are out**, the verifier reads them. -/
theorem Told.credit_of_done (hcount : Counted a s) (h : Told s ls part) (hphase : s.phase = .done) :
    Verifier.credit s.out = some (s.returned : Int) := by
  have hpending := h.pending
  have hpassed := hcount.passed
  simp only [Pending, hphase] at hpending hpassed
  have hlines : splitlines s.out = ls ++ [totalsLine s.passed s.total] := by
    rw [h.out, splitlines_unlines fun line hline => (h.lines line hline).1, hpending.1,
      splitlines_line (unbroken_totalsLine _ _) []]
    rfl
  have hstarts : startsWith "PASSED ".toList (totalsLine s.passed s.total) = true :=
    List.isPrefixOf_iff_prefix.2 (List.prefix_append _ _)
  unfold Verifier.credit
  dsimp only
  rw [hlines, List.filter_append, startsWith_of_mem fun line hline => (h.lines line hline).2,
    List.filter_cons_of_pos hstarts, List.filter_nil]
  show passedOf (totalsLine s.passed s.total) = _
  rw [passedOf_totalsLine, hpassed.1]

/-! ## Runs -/

/-- Every process counts, and says what is told. -/
theorem told_reachable {quiet : Bool} (hab : a ≤ b) (hb : b < 2 ^ 64)
    (h : (conftest ⟨padded 1 a, padded 1 b, quiet⟩).ReachableBy Process.FailsPlainly s) :
    s.toSeed = b ∧ s.quiet = quiet ∧ Counted a s ∧ ∃ ls part, Told s ls part := by
  refine h.invariant (P := fun s => s.toSeed = b ∧ s.quiet = quiet ∧ Counted a s ∧
    ∃ ls part, Told s ls part) ?_ ?_
  · rintro _ rfl
    have hread {n : Nat} (hn : n < 2 ^ 64) : (strtoull (padded 1 n)).1.toNat = n := by
      have hnum := @strtoull_padded 1 n hn [] nofun
      rw [List.append_nil] at hnum
      rw [hnum, UInt64.toNat_ofNat']
      exact Nat.mod_eq_of_lt hn
    have hto : (Process.new ⟨padded 1 a, padded 1 b, quiet⟩).toSeed = b := hread hb
    have hseed : (Process.new ⟨padded 1 a, padded 1 b, quiet⟩).seed = a := hread (by omega)
    refine ⟨hto, rfl, ⟨?_, hseed.ge, ?_, rfl, Nat.le_refl _, rfl⟩, [], [], rfl, nofun, ?_, rfl, rfl⟩
    · rw [hseed]
      show [] = List.range' a (a + 0 - a)
      rw [Nat.add_zero, Nat.sub_self, List.range'_zero]
    · rw [hseed, hto]
      exact hab
    · exact (ite_self 0).symm
  · rintro s act s' ⟨hto, hquiet, hcount, ls, part, htold⟩ hplain hstep
    have hstepped := stepped_of_step hstep
    have hsame : s'.toSeed = s.toSeed ∧ s'.quiet = s.quiet := by
      cases hstepped <;> exact ⟨rfl, rfl⟩
    refine ⟨hsame.1.trans hto, hsame.2.trans hquiet, hcount.step hstepped, ?_⟩
    exact htold.step hcount (by omega) hplain hstepped

/-- **A quiet process** is given nothing before its totals are out. -/
theorem credit_iff (hab : a ≤ b) (hb : b < 2 ^ 64)
    (h : (conftest ⟨padded 1 a, padded 1 b, true⟩).ReachableBy Process.FailsPlainly s) :
    credit s.out = some (s.returned : Int) ↔ s.phase = .done ∨ s.returned = 0 := by
  obtain ⟨-, hquiet, hcount, ls, part, htold⟩ := told_reachable hab hb h
  by_cases hphase : s.phase = .done
  · exact iff_of_true (htold.credit_of_done hcount hphase) (.inl hphase)
  · rw [htold.credit hphase, hquiet, if_pos rfl]
    constructor
    · intro heq
      have hzero := Option.some_inj.1 heq
      omega
    · rintro (hdone | hzero)
      · exact absurd hdone hphase
      · rw [hzero]

/-- **What `run_scenarios` counts**: each seed is in one chunk, whose process runs the chunk's seeds
in order, all of them if it comes to its end; and what is added for it is right when it printed its
totals, or when nothing had passed. -/
theorem credited_iff {lo hi jobs : Nat} (hhi : hi < 2 ^ 64) (hjobs : 0 < jobs) :
    ((chunks lo hi jobs).flatMap fun c => List.range' c.1 (c.2 - c.1)) = List.range' lo (hi - lo) ∧
      ∀ c ∈ chunks lo hi jobs, ∀ s, (conftest (command c)).ReachableBy Process.FailsPlainly s →
        (credit s.out = some (s.returned : Int) ↔ s.phase = .done ∨ s.returned = 0) ∧
          s.ran <+: List.range' c.1 (c.2 - c.1) ∧
            (s.phase = .done → s.ran = List.range' c.1 (c.2 - c.1)) := by
  refine ⟨flatMap_chunks hjobs, fun c hc s hs => ?_⟩
  obtain ⟨hlt, hle⟩ := mem_chunks hc
  have hb : c.2 < 2 ^ 64 := by omega
  obtain ⟨hto, -, hcount, -⟩ := told_reachable hlt.le hb hs
  have hseed := hcount.seed
  have hran := hcount.ran
  refine ⟨credit_iff hlt.le hb hs, ?_, fun hphase => ?_⟩
  · rw [hran]
    exact ⟨List.range' (c.1 + 1 * (s.seed + s.current - c.1)) (c.2 - (s.seed + s.current)), by
      have hle := hcount.le
      rw [List.range'_append]
      congr 1
      omega⟩
  · have hpassed := hcount.passed
    simp only [hphase] at hpassed
    rw [hran, hpassed.2, hto, show s.current = 0 by simp only [Process.current, hphase], Nat.add_zero]

/-- The first of two scenarios passes; the process dies in the second, or fails it and ends. -/
theorem credited_iff_twoSeeds : ∃ s,
    (conftest (command (3, 5))).runBy Process.FailsPlainly (.new (command (3, 5)))
      [.run .passed, .print, .flush, .destroy, .run (.failed ['x']), .print, .flush, .destroy, .print,
        .flush] = some s ∧
    (3, 5) ∈ chunks 3 5 1 ∧
    (credit s.out = some (s.returned : Int) ↔ s.phase = .done ∨ s.returned = 0) := by
  have hrun : ((conftest (command (3, 5))).runBy Process.FailsPlainly (.new (command (3, 5)))
      [.run .passed, .print, .flush, .destroy, .run (.failed ['x']), .print, .flush, .destroy, .print,
        .flush]).isSome = true := by decide +kernel
  obtain ⟨s, hs⟩ := Option.isSome_iff_exists.1 hrun
  have hmem : (3, 5) ∈ chunks 3 5 1 := by decide
  have hinit : (conftest (command (3, 5))).ReachableBy Process.FailsPlainly (.new (command (3, 5))) :=
    .init rfl
  exact ⟨s, hs, hmem, ((credited_iff (by decide) (by decide)).2 _ hmem s (hinit.runBy hs)).1⟩

/-- **Nothing is counted** for a process that dies after its first scenario has passed. -/
theorem not_credited : ¬ ∀ lo hi jobs, 0 < jobs → ∀ c ∈ chunks lo hi jobs, ∀ s,
    (conftest (command c)).Reachable s → credit s.out = some (s.returned : Int) := by
  intro hall
  have hrun : ((conftest (command (3, 5))).run (.new (command (3, 5)))
      [.run .passed, .print, .flush, .destroy]).any (fun s =>
        credit s.out == some 0 && s.returned == 1) = true := by decide +kernel
  obtain ⟨s, hs, hend⟩ := (Option.any_eq_true ..).1 hrun
  rw [Bool.and_eq_true, beq_iff_eq, beq_iff_eq] at hend
  have hinit : (conftest (command (3, 5))).Reachable (.new (command (3, 5))) := .init rfl
  have hcredit := hall 3 5 1 (by decide) (3, 5) (by decide) s (hinit.run hs)
  rw [hend.1, hend.2] at hcredit
  cases hcredit

end LevelDb.Verifier
