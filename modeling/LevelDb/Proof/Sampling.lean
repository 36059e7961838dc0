import LevelDb.Db.Counter
import LevelDb.Db.Sampling

/-!
# What a read is charged to

The loop that samples ends (`bytesRead_le_sampleLoop`), and the entries parsed are those between
where the internal iterator was and where it stops (`findNextUserEntry_stops`,
`findPrevLoop_stops`). All samples are charged to the default family; so the reads of a family are
charged to its own files, and to no other family's, if it is the default family or nothing is there
to be charged (`framed_run`).
-/

namespace LevelDb.Sampling

open Transition

/-! ## The loop -/

/-- No two periods in a row are zero. -/
theorem period_next_pos {r : Random} (h : Sampler.period r = 0) : 0 < Sampler.period r.next := by
  have hpos := r.pos
  have hlt := r.lt
  unfold Sampler.period kReadBytesPeriod at h ⊢
  obtain ⟨a, ha⟩ := Nat.dvd_of_mod_eq_zero h
  -- 2^31 is 1 modulo 2^31 - 1, so the quotient takes the low bits
  have hdiv : r.seed * 16807 / 2 ^ 31 = a * 16807 / 1024 := by omega
  have hmod : r.seed * 16807 % 2 ^ 31 = 2097152 * (a * 16807 % 1024) := by omega
  have hlow : 0 < a * 16807 / 1024 ∧ a * 16807 / 1024 < 2097152 := by omega
  have hhigh : a * 16807 % 1024 < 1024 := Nat.mod_lt _ (by decide)
  show 0 < Random.nextSeed r.seed % (2 * 1048576)
  unfold Random.nextSeed
  dsimp only
  rw [hdiv, hmod]
  generalize a * 16807 / 1024 = low at hlow
  generalize a * 16807 % 1024 = high at hhigh
  split <;> omega

/-- **The loop ends**: two rounds count one byte at least. -/
theorem bytesRead_le_sampleLoop (bytesRead fuel : Nat) (s : Sampler) (n : Nat)
    (hfuel : 2 * (bytesRead - s.bytesUntilReadSampling) ≤ fuel) :
    bytesRead ≤ (Sampler.sampleLoop bytesRead fuel s n).1.bytesUntilReadSampling := by
  induction fuel using Nat.strong_induction_on generalizing s n with
  | _ fuel ih =>
    match fuel with
    | 0 =>
      show bytesRead ≤ s.bytesUntilReadSampling
      omega
    | 1 =>
      have hle : bytesRead ≤ s.bytesUntilReadSampling := by omega
      unfold Sampler.sampleLoop
      rw [if_neg (by omega)]
      exact hle
    | fuel + 2 =>
      unfold Sampler.sampleLoop
      split
      · unfold Sampler.sampleLoop
        dsimp only
        split
        · apply ih fuel (by omega)
          by_cases hzero : Sampler.period s.rnd.next = 0
          · have := period_next_pos hzero
            dsimp only
            omega
          · dsimp only
            omega
        · dsimp only
          omega
      · dsimp only
        omega

end LevelDb.Sampling

namespace LevelDb.DBIter

variable {K V : Type} [LinearOrder K] [Inhabited K] [Inhabited V] (src : DBIterSource K V)

/-! ## The entries parsed -/

/-- What was parsed of `l` when the internal iterator stops there: all up to its place, and with
it. -/
def Stops (l parsed : List (Entry K V)) : Option (Entry K V × List (Entry K V)) → Prop
  | none => parsed = l
  | some (here, rest) => ∃ front, parsed = front ++ [here] ∧ l = front ++ here :: rest

omit [LinearOrder K] [Inhabited K] [Inhabited V] in
theorem Stops.cons {l parsed : List (Entry K V)} {o : Option (Entry K V × List (Entry K V))}
    (h : Stops l parsed o) (e : Entry K V) : Stops (e :: l) (e :: parsed) o := by
  cases o with
  | none => exact congrArg (e :: ·) h
  | some c =>
    obtain ⟨front, hparsed, hl⟩ := h
    exact ⟨e :: front, congrArg (e :: ·) hparsed, congrArg (e :: ·) hl⟩

omit [Inhabited K] [Inhabited V] in
theorem mergeLoop_stops (userKey : K) (operands : List V) (base : Option V) (settled : Bool)
    (before l : List (Entry K V)) :
    Stops l (parsedMerge userKey l)
      ((mergeLoop src userKey operands base settled before l).2.2.map fun c => (c.here, c.after)) := by
  induction l generalizing operands base settled before with
  | nil => rfl
  | cons e l ih =>
    unfold mergeLoop parsedMerge
    split
    · exact ⟨[], rfl, rfl⟩
    · split
      · exact (ih ..).cons e
      · split <;> exact (ih ..).cons e

omit [Inhabited K] [Inhabited V] in
theorem fullMerge_iter (it : DBIter K V) (base : Option V) (operands : List V) :
    (fullMerge src it base operands).iter = it.iter := by
  unfold fullMerge
  generalize (if it.direction = .forward then it.mergedKey else it.savedKey) = key
  dsimp only
  split
  · rfl
  · split <;> rfl

omit [Inhabited V] in
theorem findNextUserEntry_stops (it : DBIter K V) (skipping : Bool) (before l : List (Entry K V)) :
    Stops l (parsedNext src skipping it.savedKey l)
      ((findNextUserEntry src it skipping before l).iter.map fun c => (c.here, c.after)) := by
  induction l generalizing it skipping before with
  | nil => rfl
  | cons e l ih =>
    unfold findNextUserEntry parsedNext
    split
    · cases htype : effectiveType src e with
      | deletion => exact (ih { it with savedKey := e.key.userKey } true (e :: before)).cons e
      | rangeDeletion => exact (ih it skipping (e :: before)).cons e
      | value | merge =>
        dsimp only
        split
        · exact (ih it skipping (e :: before)).cons e
        · split
          · unfold mergeForward
            dsimp only
            rw [fullMerge_iter]
            exact (mergeLoop_stops src _ _ _ _ _ l).cons e
          · exact ⟨[], rfl, rfl⟩
    · exact (ih it skipping (e :: before)).cons e

theorem findPrevLoop_stops (s : Found K V) (after l : List (Entry K V)) :
    Stops l (parsedPrev src s l)
      ((findPrevLoop src s after l).2.map fun c => (c.here, c.before)) := by
  induction l generalizing s after with
  | nil => rfl
  | cons e l ih =>
    unfold findPrevLoop parsedPrev
    split
    · split
      · exact ⟨[], rfl, rfl⟩
      · exact (ih _ _).cons e
    · exact (ih _ _).cons e

end LevelDb.DBIter

namespace LevelDb.Sampling

variable {K V : Type} [LinearOrder K]

/-! ## Charges -/

theorem forEach_match (cs : List (Nat × FileMetaData K V)) :
    Version.forEach match_ cs (0, none) = (min cs.length 2, cs.head?) := by
  match cs with
  | [] => rfl
  | [c] => rfl
  | c :: c' :: cs =>
    simp only [Version.forEach, match_, List.length_cons, List.head?_cons]
    rw [Nat.min_eq_right (by omega)]
    rfl

/-- A sample is charged to the first of two files or more. -/
theorem readSample_eq (v : Version K V) (key : InternalKey K) :
    readSample v key = if 2 ≤ (v.overlapping key.userKey key).length then
      (v.overlapping key.userKey key).head? else none := by
  unfold readSample
  rw [forEach_match]
  dsimp only
  by_cases h : 2 ≤ (v.overlapping key.userKey key).length
  · rw [if_pos h, if_pos (by omega)]
  · rw [if_neg h, if_neg (by omega)]

theorem readSample_eq_none_iff {v : Version K V} {key : InternalKey K} :
    readSample v key = none ↔ (v.overlapping key.userKey key).length < 2 := by
  rw [readSample_eq]
  split
  · rename_i h
    refine iff_of_false ?_ (by omega)
    rw [List.head?_eq_none_iff]
    intro hnil
    rw [hnil, List.length_nil] at h
    omega
  · rename_i h
    exact iff_of_true rfl (by omega)

namespace ColumnFamily

/-- The family after the samples were charged to its files. -/
def recordAll (cf : ColumnFamily K V) (keys : List (InternalKey K)) : ColumnFamily K V :=
  keys.foldl (fun cf key => (cf.recordReadSample key).1) cf

theorem updateStats_current (cf : ColumnFamily K V) (stats : Option (Nat × FileMetaData K V)) :
    (cf.updateStats stats).1.current = cf.current ∧ (cf.updateStats stats).1.id = cf.id := by
  unfold updateStats
  split
  · exact ⟨rfl, rfl⟩
  · dsimp only
    split <;> exact ⟨rfl, rfl⟩

theorem updateStats_allowedSeeks (cf : ColumnFamily K V) (level : Nat) (f : FileMetaData K V) :
    (cf.updateStats (some (level, f))).1.allowedSeeks =
      Function.update cf.allowedSeeks f.number (cf.allowedSeeks f.number - 1) := by
  unfold updateStats
  dsimp only
  split <;> rfl

/-- A charge is to this file. -/
def charged (v : Version K V) (number : Nat) (key : InternalKey K) : Bool :=
  (readSample v key).any fun c => c.2.number == number

/-- **The seeks that are left**: one less for each sample charged. -/
theorem recordAll_allowedSeeks (cf : ColumnFamily K V) (keys : List (InternalKey K))
    (number : Nat) : (cf.recordAll keys).allowedSeeks number =
      cf.allowedSeeks number - keys.countP (charged cf.current number) := by
  induction keys generalizing cf with
  | nil => exact (Int.sub_zero _).symm
  | cons key keys ih =>
    have hcurrent := (updateStats_current cf (readSample cf.current key)).1
    show ((cf.recordReadSample key).1.recordAll keys).allowedSeeks number = _
    rw [ih, show (cf.recordReadSample key).1.current = cf.current from hcurrent, List.countP_cons]
    unfold recordReadSample charged
    cases hsample : readSample cf.current key with
    | none => simp [updateStats]
    | some c =>
      obtain ⟨level, f⟩ := c
      rw [updateStats_allowedSeeks]
      by_cases hnumber : f.number = number
      · subst hnumber
        simp
        omega
      · rw [Function.update_of_ne (Ne.symm hnumber)]
        simp [hnumber]

/-- Samples that match no two files change nothing. -/
theorem recordAll_eq_self {cf : ColumnFamily K V} {keys : List (InternalKey K)}
    (h : ∀ key ∈ keys, readSample cf.current key = none) : cf.recordAll keys = cf := by
  induction keys with
  | nil => rfl
  | cons key keys ih =>
    show (cf.recordReadSample key).1.recordAll keys = cf
    have hone : cf.recordReadSample key = (cf, false) := by
      unfold recordReadSample
      rw [h key List.mem_cons_self]
      rfl
    rw [hone]
    exact ih fun k hk => h k (List.mem_cons_of_mem key hk)

/-- Another sample is seen in what is left. -/
theorem allowedSeeks_recordAll_ne {cf : ColumnFamily K V} {keys : List (InternalKey K)}
    {key : InternalKey K} (hkey : key ∈ keys) (h : readSample cf.current key ≠ none) :
    (cf.recordAll keys).allowedSeeks ≠ cf.allowedSeeks := by
  intro heq
  obtain ⟨c, hc⟩ := Option.ne_none_iff_exists'.1 h
  have hcount := recordAll_allowedSeeks cf keys c.2.number
  rw [heq] at hcount
  have hpos : 0 < keys.countP (charged cf.current c.2.number) := by
    refine List.countP_pos_iff.2 ⟨key, hkey, ?_⟩
    unfold charged
    rw [hc]
    exact beq_self_eq_true _
  omega

end ColumnFamily

/-! ## The database -/

variable {db db' : DBImpl K V} {keys : List (InternalKey K)}

/-- **Reading one family leaves the others alone**: their seeks, their seek compactions and their work
are as they were, and the samples have been charged to the files of the family itself. -/
structure Framed (id : Nat) (keys : List (InternalKey K)) (db db' : DBImpl K V) : Prop where
  allowedSeeks : ∀ g ≠ id, (db'.find g).map (·.allowedSeeks) = (db.find g).map (·.allowedSeeks)
  fileToCompact : ∀ g ≠ id,
    (db'.find g).map (·.fileToCompact) = (db.find g).map (·.fileToCompact)
  work : ∀ g ≠ id, (db'.find g).map (·.work) = (db.find g).map (·.work)
  own : db'.find id = (db.find id).map (·.recordAll keys)

theorem find_maybeScheduleCompaction (db : DBImpl K V) (g : Nat) :
    db.maybeScheduleCompaction.find g = db.find g := by
  unfold DBImpl.maybeScheduleCompaction
  repeat' split
  all_goals rfl

theorem find?_replace {cf : ColumnFamily K V} (hid : cf.id = 0) (cfs : List (ColumnFamily K V))
    (g : Nat) : (cfs.map fun c => if c.id = 0 then cf else c).find? (fun c => c.id = g) =
      if g = 0 then (cfs.find? fun c => c.id = 0).map fun _ => cf
      else cfs.find? fun c => c.id = g := by
  induction cfs with
  | nil => split <;> rfl
  | cons c cfs ih =>
    rw [List.map_cons]
    by_cases hc : c.id = 0
    · rw [if_pos hc]
      by_cases hg : g = 0
      · rw [if_pos hg, List.find?_cons_of_pos (by simp [hid, hg]),
          List.find?_cons_of_pos (by simp [hc])]
        rfl
      · rw [if_neg hg] at ih ⊢
        rw [List.find?_cons_of_neg (by simp [hid, Ne.symm hg]),
          List.find?_cons_of_neg (by simp [hc, Ne.symm hg]), ih]
    · rw [if_neg hc]
      by_cases hg : g = 0
      · rw [if_pos hg] at ih ⊢
        rw [List.find?_cons_of_neg (by simp [hc, hg]), List.find?_cons_of_neg (by simp [hc]), ih]
      · rw [if_neg hg] at ih ⊢
        by_cases hcg : c.id = g
        · rw [List.find?_cons_of_pos (by simp [hcg]), List.find?_cons_of_pos (by simp [hcg])]
        · rw [List.find?_cons_of_neg (by simp [hcg]), List.find?_cons_of_neg (by simp [hcg]), ih]

/-- One sample. -/
theorem find_recordReadSample (db : DBImpl K V) (key : InternalKey K) (g : Nat) :
    (db.recordReadSample key).find g =
      if g = 0 then (db.find 0).map fun cf => (cf.recordReadSample key).1 else db.find g := by
  unfold DBImpl.recordReadSample
  cases hfind : db.find 0 with
  | none =>
    show db.find g = _
    split
    · rename_i hg
      rw [hg, hfind]
      rfl
    · rfl
  | some cf =>
    have hid : cf.id = 0 := by
      have := List.find?_some hfind
      simpa using this
    have hid' : (cf.recordReadSample key).1.id = 0 :=
      (ColumnFamily.updateStats_current cf _).2.trans hid
    have hreplace := find?_replace hid' db.cfs g
    rw [show db.cfs.find? (fun c => c.id = 0) = some cf from hfind] at hreplace
    dsimp only
    split
    · rw [find_maybeScheduleCompaction]
      exact hreplace
    · exact hreplace

/-- **All samples are the default family's.** -/
theorem find_foldl_recordReadSample (db : DBImpl K V) (keys : List (InternalKey K)) (g : Nat) :
    (keys.foldl DBImpl.recordReadSample db).find g =
      if g = 0 then (db.find 0).map (·.recordAll keys) else db.find g := by
  induction keys generalizing db with
  | nil =>
    show db.find g = _
    split
    · rename_i hg
      rw [hg]
      exact Option.map_id'.symm
    · rfl
  | cons key keys ih =>
    rw [List.foldl_cons, ih, find_recordReadSample, find_recordReadSample]
    split
    · rw [if_pos rfl, Option.map_map]
      rfl
    · rfl

/-- **What a family's reads are charged to.** -/
theorem framed_foldl_iff {id : Nat} {cf0 cf : ColumnFamily K V} (h0 : db.find 0 = some cf0)
    (hcf : db.find id = some cf) :
    Framed id keys db (keys.foldl DBImpl.recordReadSample db) ↔
      id = 0 ∨ ∀ key ∈ keys, readSample cf0.current key = none ∧
        readSample cf.current key = none := by
  constructor
  · intro h
    refine or_iff_not_imp_left.2 fun hid key hkey => ⟨?_, ?_⟩
    · by_contra hsample
      have hseeks := h.allowedSeeks 0 (Ne.symm hid)
      rw [find_foldl_recordReadSample, if_pos rfl, h0] at hseeks
      exact ColumnFamily.allowedSeeks_recordAll_ne hkey hsample (Option.some.inj hseeks)
    · by_contra hsample
      have hown := h.own
      rw [find_foldl_recordReadSample, if_neg hid, hcf] at hown
      have hown : cf = cf.recordAll keys := Option.some.inj hown
      exact ColumnFamily.allowedSeeks_recordAll_ne hkey hsample
        (congrArg ColumnFamily.allowedSeeks hown.symm)
  · rintro (rfl | hnone)
    · have hother (g : Nat) (hg : g ≠ 0) :
          (keys.foldl DBImpl.recordReadSample db).find g = db.find g := by
        rw [find_foldl_recordReadSample, if_neg hg]
      refine ⟨?_, ?_, ?_, ?_⟩
      · intro g hg
        rw [hother g hg]
      · intro g hg
        rw [hother g hg]
      · intro g hg
        rw [hother g hg]
      · rw [find_foldl_recordReadSample, if_pos rfl]
    · have hall (g : Nat) : (keys.foldl DBImpl.recordReadSample db).find g = db.find g := by
        rw [find_foldl_recordReadSample]
        split
        · rename_i hg
          rw [hg, h0]
          exact congrArg some (ColumnFamily.recordAll_eq_self fun key hkey => (hnone key hkey).1)
        · rfl
      refine ⟨?_, ?_, ?_, ?_⟩
      · intro g _
        rw [hall]
      · intro g _
        rw [hall]
      · intro g _
        rw [hall]
      · rw [hall, hcf]
        exact congrArg some
          (ColumnFamily.recordAll_eq_self fun key hkey => (hnone key hkey).2).symm

/-! ## Runs -/

variable [Inhabited K] [Inhabited V] (src : DBIterSource K V) (bytes : Entry K V → Nat)

/-- The keys that the calls sample. -/
def State.samplesOf (s : State K V) : List (IterCall K) → List (InternalKey K)
  | [] => []
  | call :: calls =>
    s.samples src bytes call ++
      (((system src bytes).step s call).elim [] fun s => s.samplesOf calls)

theorem db_run {s s' : State K V} {calls : List (IterCall K)}
    (hrun : (system src bytes).run s calls = some s') :
    s'.db = (s.samplesOf src bytes calls).foldl DBImpl.recordReadSample s.db := by
  induction calls generalizing s with
  | nil =>
    cases hrun
    rfl
  | cons call calls ih =>
    have hrun : ((system src bytes).step s call).bind
        (fun s => (system src bytes).run s calls) = some s' := by
      simpa [Transition.System.run, Transition.System.runBy] using hrun
    obtain ⟨s1, hstep, hrest⟩ := Option.bind_eq_some_iff.1 hrun
    rw [ih hrest, State.samplesOf, hstep, Option.elim_some, List.foldl_append]
    obtain ⟨it, -, rfl⟩ := Option.map_eq_some_iff.1 hstep
    rfl

/-- **What the reads of a family are charged to**: each loop that samples ends, and the calls on an
iterator of a family leave the other families alone and are charged to its own files exactly if it is
the default family, or no key they sample is in two files of the default family or of its own. -/
theorem framed_run {s s' : State K V} {calls : List (IterCall K)}
    (hrun : (system src bytes).run s calls = some s') {id : Nat} {cf0 cf : ColumnFamily K V}
    (h0 : s.db.find 0 = some cf0) (hcf : s.db.find id = some cf) :
    (∀ (sampler : Sampler) (bytesRead : Nat), bytesRead ≤
      (Sampler.sampleLoop bytesRead (2 * bytesRead) sampler 0).1.bytesUntilReadSampling) ∧
    (Framed id (s.samplesOf src bytes calls) s.db s'.db ↔
      id = 0 ∨ ∀ key ∈ s.samplesOf src bytes calls,
        (cf0.current.overlapping key.userKey key).length < 2 ∧
        (cf.current.overlapping key.userKey key).length < 2) := by
  refine ⟨fun sampler bytesRead => bytesRead_le_sampleLoop bytesRead _ sampler 0 (by omega), ?_⟩
  rw [db_run src bytes hrun, framed_foldl_iff h0 hcf]
  simp only [readSample_eq_none_iff]

/-- A family with these files in level 0. -/
def familyOf (id : Nat) (files : List (FileMetaData (Fin 3) Nat)) : ColumnFamily (Fin 3) Nat where
  id
  dropped := false
  hasImm := false
  hasManual := false
  current := ⟨fun level => if level = 0 then files else []⟩
  allowedSeeks _ := 100
  fileToCompact := none
  oversized := false
  compactionLevel := 0
  rdFileToCompact := none

/-- A table of one entry of the key 1. -/
def sampleFile (number : Nat) : FileMetaData (Fin 3) Nat where
  number
  fileSize := 0
  smallest := ⟨1, 1, .value⟩
  largest := ⟨1, 1, .value⟩
  table := ⟨[⟨⟨1, 1, .value⟩, 0⟩], List.pairwise_singleton _ _, by decide⟩
  tombstones := []
  ranges := by decide
  bounds := rfl

/-- One entry of the family 1, of the key 1, is read. -/
def sampleSource : DBIterSource (Fin 3) Nat where
  internal := ⟨[⟨⟨1, 2, .value⟩, 0⟩], List.pairwise_singleton _ _, by decide⟩
  sequence := 2
  mergeOp := none
  rangeDels := none

/-- With these files in the default family; one byte is left before the first sample. -/
def sampleState (files : List (FileMetaData (Fin 3) Nat)) : State (Fin 3) Nat where
  db := ⟨[familyOf 0 files, familyOf 1 []], false, false, false⟩
  iter := .new
  sampler := .new 1407677000

theorem framed_run_sampleState : ∃ s',
    (system sampleSource fun _ => 20).run (sampleState [sampleFile 1]) [.seekToFirst] = some s' ∧
    (sampleState [sampleFile 1]).samplesOf sampleSource (fun _ => 20) [.seekToFirst] =
      [⟨1, 2, .value⟩] ∧
    Framed 1 [⟨1, 2, .value⟩] (sampleState [sampleFile 1]).db s'.db := by
  have hsamples : (sampleState [sampleFile 1]).samplesOf sampleSource (fun _ => 20)
      [.seekToFirst] = [⟨1, 2, .value⟩] := by decide +kernel
  obtain ⟨s', hs'⟩ := Option.isSome_iff_exists.1 (show ((system sampleSource fun _ => 20).run
    (sampleState [sampleFile 1]) [.seekToFirst]).isSome = true by decide +kernel)
  have h0 : (sampleState [sampleFile 1]).db.find 0 = some (familyOf 0 [sampleFile 1]) := rfl
  have h1 : (sampleState [sampleFile 1]).db.find 1 = some (familyOf 1 []) := rfl
  obtain ⟨-, h⟩ := framed_run sampleSource (fun _ => 20) hs' h0 h1
  rw [hsamples] at h
  exact ⟨s', hs', hsamples, h.2 (.inr (by decide +kernel))⟩

/-- **A read of one family is charged to another**: the key is in two files of the default family. -/
theorem not_framed_run : ∃ s',
    (system sampleSource fun _ => 20).run (sampleState [sampleFile 1, sampleFile 2])
      [.seekToFirst] = some s' ∧
    (s'.db.find 0).map (·.allowedSeeks 2) = some 99 ∧
    ¬ Framed 1 ((sampleState [sampleFile 1, sampleFile 2]).samplesOf sampleSource (fun _ => 20)
      [.seekToFirst]) (sampleState [sampleFile 1, sampleFile 2]).db s'.db := by
  have hrun : ((system sampleSource fun _ => 20).run (sampleState [sampleFile 1, sampleFile 2])
      [.seekToFirst]).any (fun s' => (s'.db.find 0).map (·.allowedSeeks 2) = some 99) = true := by
    decide +kernel
  obtain ⟨s', hs', hseeks⟩ := (Option.any_eq_true _ _).1 hrun
  rw [decide_eq_true_eq] at hseeks
  refine ⟨s', hs', hseeks, ?_⟩
  intro h
  have h0 := congrArg (Option.map fun seeks => seeks 2) (h.allowedSeeks 0 (by decide))
  rw [Option.map_map, Option.map_map] at h0
  exact absurd (hseeks.symm.trans h0) (by decide +kernel)

end LevelDb.Sampling
