import LevelDb.Db.Database
import LevelDb.Lib.Journal

/-!
# What the disk keeps

The batches appended to the shared log are a journal, the logs its segments. For each family that
FAMILIES names, the tables of its manifest hold the records of the segments before the manifest's
log number, and the logs from there on that have records of it are there (`Stored`). Each durable
step keeps this; and replaying the logs into a family gives what its tables lack
(`recoverLogFiles_spec`).
-/

namespace LevelDb.Database

open Journal

variable {K V : Type} [LinearOrder K]

/-- The records of a family in these batches, oldest first. -/
def recordsIn (family : Nat) (bs : List (Batch K V)) : List (Nat × Record K V) :=
  bs.flatMap (Batch.recordsOf family)

section
variable {f : Nat} {bs bs' : List (Batch K V)}

@[simp] theorem recordsIn_nil : recordsIn f ([] : List (Batch K V)) = [] := rfl

@[simp] theorem recordsIn_append : recordsIn f (bs ++ bs') = recordsIn f bs ++ recordsIn f bs' :=
  List.flatMap_append

@[simp] theorem recordsIn_singleton {b : Batch K V} : recordsIn f [b] = b.recordsOf f :=
  List.flatMap_singleton _ _

theorem recordsIn_eq_nil : recordsIn f bs = [] ↔ ∀ b ∈ bs, b.recordsOf f = [] :=
  List.flatMap_eq_nil_iff

/-- Where no batch of a journal has records of a family, no part of it has. -/
theorem recordsIn_unused {appended : List (Nat × Batch K V)} (p : Nat × Batch K V → Bool)
    (h : ∀ e ∈ appended, e.2.recordsOf f = []) : recordsIn f ((appended.filter p).map (·.2)) = [] := by
  rw [recordsIn_eq_nil]
  intro b hb
  obtain ⟨e, he, rfl⟩ := List.mem_map.1 hb
  exact h e (List.mem_of_mem_filter he)

/-- A batch has records only of the families it names. -/
theorem recordsOf_eq_nil {b : Batch K V} (h : ∀ r ∈ b.records, r.1 ≠ f) : b.recordsOf f = [] := by
  rw [Batch.recordsOf, List.filterMap_eq_nil_iff]
  intro ⟨⟨g, record⟩, seq⟩ hr
  have hg : g ≠ f := h (g, record) (List.fst_mem_of_mem_zipIdx hr)
  simp only [hg, false_and, if_false]

end

/-! ## The disk -/

def Disk.ids (disk : Disk K V) : List Nat := 0 :: disk.families.map (·.1)

/-- The tables of this manifest hold the family's records from before its log number, and the logs
hold the rest. -/
structure Kept (appended : List (Nat × Batch K V)) (logs : List (LogFile K V)) (f : Nat)
    (v : VersionSet K V) : Prop where
  tables : v.tables.flatten = recordsIn f (below v.logNumber appended)
  needed : ∀ e ∈ appended, v.logNumber ≤ e.1 → e.2.recordsOf f ≠ [] → ∃ l ∈ logs, l.number = e.1
  reached : v.logNumber = 0 ∨ ∃ l ∈ logs, v.logNumber ≤ l.number

/-- What the disk keeps in any state, up or down. -/
structure Stored (appended : List (Nat × Batch K V)) (disk : Disk K V) : Prop where
  sorted : Sorted appended
  logs : disk.logs.Pairwise fun a b => a.number < b.number
  batches : ∀ l ∈ disk.logs, l.batches = segment l.number appended
  covered : ∀ e ∈ appended, ∃ l ∈ disk.logs, e.1 ≤ l.number
  nodup : disk.ids.Nodup
  lt_next : ∀ f ∈ disk.ids, f < disk.nextFamilyId
  known : ∀ e ∈ appended, ∀ r ∈ e.2.records, r.1 < disk.nextFamilyId
  kept : ∀ f ∈ disk.ids, Kept appended disk.logs f (disk.manifests f)

section
variable {appended : List (Nat × Batch K V)} {disk : Disk K V} {logs : List (LogFile K V)} {f n : Nat}
  {v : VersionSet K V}

theorem stored_empty : Stored [] (State.empty : State K V).disk := by
  refine ⟨.nil, .nil, nofun, nofun, List.nodup_singleton 0, fun f hf => ?_, nofun, fun f _ => ?_⟩
  · rw [List.mem_singleton.1 hf]
    exact Nat.zero_lt_one
  · exact ⟨rfl, nofun, .inl rfl⟩

/-- Only the log number and the tables matter. -/
theorem Kept.congr {v' : VersionSet K V} (h : Kept appended logs f v)
    (hlog : v'.logNumber = v.logNumber) (htables : v'.tables = v.tables) :
    Kept appended logs f v' := by
  refine ⟨?_, ?_, ?_⟩
  · rw [hlog, htables]
    exact h.tables
  · rw [hlog]
    exact h.needed
  · rw [hlog]
    exact h.reached

/-- A family no record is of, with no tables. -/
theorem kept_of_fresh (htables : v.tables = []) (hnone : ∀ e ∈ appended, e.2.recordsOf f = [])
    (hreached : v.logNumber = 0 ∨ ∃ l ∈ logs, v.logNumber ≤ l.number) :
    Kept appended logs f v := by
  refine ⟨?_, fun e he _ hne => absurd (hnone e he) hne, hreached⟩
  rw [htables, List.flatten_nil]
  exact (recordsIn_unused _ hnone).symm

/-- A manifest edit. -/
theorem Stored.setManifest (h : Stored appended disk)
    (hv : f ∈ disk.ids → Kept appended disk.logs f v) :
    Stored appended { disk with manifests := Function.update disk.manifests f v } := by
  refine ⟨h.sorted, h.logs, h.batches, h.covered, h.nodup, h.lt_next, h.known, fun g hg => ?_⟩
  by_cases heq : g = f
  · subst heq
    simp only [Function.update_self]
    exact hv hg
  · simp only [Function.update_of_ne heq]
    exact h.kept g hg

/-- `WriteFamilies`. -/
theorem Stored.setFamilies (h : Stored appended disk) {families : List (Nat × String)} {next : Nat}
    (hnodup : (0 :: families.map (·.1)).Nodup) (hnext : disk.nextFamilyId ≤ next)
    (hlt : ∀ g ∈ families.map (·.1), g < next)
    (hkept : ∀ g ∈ families.map (·.1), Kept appended disk.logs g (disk.manifests g)) :
    Stored appended { disk with families, nextFamilyId := next } := by
  refine ⟨h.sorted, h.logs, h.batches, h.covered, hnodup, fun g hg => ?_,
    fun e he r hr => (h.known e he r hr).trans_le hnext, fun g hg => ?_⟩
  · rcases List.mem_cons.1 hg with rfl | hg
    · exact (h.lt_next 0 List.mem_cons_self).trans_le hnext
    · exact hlt g hg
  · rcases List.mem_cons.1 hg with rfl | hg
    · exact h.kept 0 List.mem_cons_self
    · exact hkept g hg

/-- `SwitchLog`. -/
theorem Stored.addLog (h : Stored appended disk) (hlogs : ∀ l ∈ disk.logs, l.number < n) :
    Stored appended { disk with logs := disk.logs ++ [⟨n, []⟩] } := by
  have hlast : ∀ e ∈ appended, e.1 < n := fun e he => by
    obtain ⟨l, hl, hle⟩ := h.covered e he
    exact hle.trans_lt (hlogs l hl)
  have hold : ∀ l ∈ disk.logs, l ∈ disk.logs ++ [⟨n, []⟩] := fun l hl => List.mem_append_left _ hl
  refine ⟨h.sorted, ?_, fun l hl => ?_, fun e he => ?_, h.nodup, h.lt_next, h.known, fun g hg => ?_⟩
  · refine List.pairwise_append.2 ⟨h.logs, List.pairwise_singleton _ _, fun a ha b hb => ?_⟩
    rw [List.mem_singleton.1 hb]
    exact hlogs a ha
  · rcases List.mem_append.1 hl with hl | hl
    · exact h.batches l hl
    · rw [List.mem_singleton.1 hl]
      refine (List.eq_nil_iff_forall_not_mem.2 fun b hb => ?_).symm
      exact absurd (hlast (n, b) (mem_segment.1 hb)) (Nat.lt_irrefl n)
  · obtain ⟨l, hl, hle⟩ := h.covered e he
    exact ⟨l, hold l hl, hle⟩
  · obtain ⟨htables, hneeded, hreached⟩ := h.kept g hg
    refine ⟨htables, fun e he hle hne => ?_, hreached.imp_right fun ⟨l, hl, hle⟩ => ⟨l, hold l hl, hle⟩⟩
    obtain ⟨l, hl, heq⟩ := hneeded e he hle hne
    exact ⟨l, hold l hl, heq⟩

/-- A log is removed that no family needs. -/
theorem Stored.removeLog (h : Stored appended disk) (hlater : ∃ l ∈ disk.logs, n < l.number)
    (hnone : ∀ g ∈ disk.ids, (disk.manifests g).logNumber ≤ n →
      recordsIn g (segment n appended) = []) :
    Stored appended { disk with logs := disk.logs.filter fun l => l.number ≠ n } := by
  obtain ⟨later, hlater, hlt⟩ := hlater
  have hkeep : ∀ l ∈ disk.logs, ∀ k, k ≤ l.number →
      ∃ l' ∈ disk.logs.filter fun l => l.number ≠ n, k ≤ l'.number := by
    intro l hl k hk
    by_cases heq : l.number = n
    · exact ⟨later, List.mem_filter.2 ⟨hlater, decide_eq_true (by omega)⟩, by omega⟩
    · exact ⟨l, List.mem_filter.2 ⟨hl, decide_eq_true heq⟩, hk⟩
  refine ⟨h.sorted, h.logs.filter _, fun l hl => h.batches l (List.mem_of_mem_filter hl),
    fun e he => ?_, h.nodup, h.lt_next, h.known, fun g hg => ?_⟩
  · obtain ⟨l, hl, hle⟩ := h.covered e he
    exact hkeep l hl e.1 hle
  · obtain ⟨htables, hneeded, hreached⟩ := h.kept g hg
    refine ⟨htables, fun e he hle hne => ?_, hreached.imp_right fun ⟨l, hl, hle⟩ => hkeep l hl _ hle⟩
    obtain ⟨l, hl, heq⟩ := hneeded e he hle hne
    refine ⟨l, List.mem_filter.2 ⟨hl, decide_eq_true fun hn => hne ?_⟩, heq⟩
    have hin : e.2 ∈ segment n appended := mem_segment.2 (by rw [← hn, heq]; exact he)
    exact recordsIn_eq_nil.1 (hnone g hg (hle.trans_eq (heq.symm.trans hn))) e.2 hin

/-- The leader appends a batch to the newest log. -/
theorem Stored.addRecord (h : Stored appended disk) {b : Batch K V}
    (hpresent : ∃ l ∈ disk.logs, l.number = n) (hlast : ∀ e ∈ appended, e.1 ≤ n)
    (hlog : ∀ g ∈ disk.ids, (disk.manifests g).logNumber ≤ n)
    (hknown : ∀ r ∈ b.records, r.1 < disk.nextFamilyId) :
    Stored (appended ++ [(n, b)]) { disk with
      logs := disk.logs.map fun l =>
        if some l.number = some n then { l with batches := l.batches ++ [b] } else l } := by
  have hnumber : ∀ l : LogFile K V,
      (if some l.number = some n then { l with batches := l.batches ++ [b] } else l).number =
        l.number := by
    intro l
    split <;> rfl
  have hmap : ∀ l ∈ disk.logs, ∃ l' ∈ disk.logs.map fun l =>
      if some l.number = some n then { l with batches := l.batches ++ [b] } else l,
        l'.number = l.number := fun l hl => ⟨_, List.mem_map_of_mem hl, hnumber l⟩
  refine ⟨h.sorted.concat hlast, ?_, fun l hl => ?_, fun e he => ?_, h.nodup, h.lt_next,
    fun e he => ?_, fun g hg => ?_⟩
  · refine List.pairwise_map.2 (h.logs.imp fun {a c} hac => ?_)
    rw [hnumber, hnumber]
    exact hac
  · obtain ⟨l0, hl0, rfl⟩ := List.mem_map.1 hl
    rw [hnumber]
    by_cases heq : l0.number = n
    · rw [if_pos (by rw [heq]), heq, segment_concat_self, ← heq, h.batches l0 hl0]
    · rw [if_neg (by simpa using heq), segment_concat_ne (Ne.symm heq), h.batches l0 hl0]
  · rcases List.mem_append.1 he with he | he
    · obtain ⟨l, hl, hle⟩ := h.covered e he
      obtain ⟨l', hl', heq⟩ := hmap l hl
      exact ⟨l', hl', by omega⟩
    · rw [List.mem_singleton.1 he]
      obtain ⟨l, hl, heq⟩ := hpresent
      obtain ⟨l', hl', heq'⟩ := hmap l hl
      exact ⟨l', hl', by omega⟩
  · rcases List.mem_append.1 he with he | he
    · exact h.known e he
    · rw [List.mem_singleton.1 he]
      exact hknown
  · obtain ⟨htables, hneeded, hreached⟩ := h.kept g hg
    refine ⟨by rw [below_concat (hlog g hg)]; exact htables, fun e he hle hne => ?_,
      hreached.imp_right fun ⟨l, hl, hle⟩ => ?_⟩
    · rcases List.mem_append.1 he with he | he
      · obtain ⟨l, hl, heq⟩ := hneeded e he hle hne
        obtain ⟨l', hl', heq'⟩ := hmap l hl
        exact ⟨l', hl', heq'.trans heq⟩
      · rw [List.mem_singleton.1 he]
        obtain ⟨l, hl, heq⟩ := hpresent
        obtain ⟨l', hl', heq'⟩ := hmap l hl
        exact ⟨l', hl', heq'.trans heq⟩
    · obtain ⟨l', hl', heq⟩ := hmap l hl
      exact ⟨l', hl', hle.trans heq.ge⟩

end

/-! ## One log -/

/-- The records in the tables of an edit. -/
def editRecords (edit : Option (List (List (Nat × Record K V)))) : List (Nat × Record K V) :=
  (edit.getD []).flatten

namespace DBImpl

omit [LinearOrder K] in
theorem writeLevel0Table_flatten (tables : List (List (Nat × Record K V)))
    (mem : List (Nat × Record K V)) :
    (writeLevel0Table tables mem).flatten = tables.flatten ++ mem := by
  rw [writeLevel0Table]
  split
  · rename_i hempty
    rw [List.isEmpty_iff.1 hempty, List.append_nil]
  · simp

namespace Replay

variable {full : Nat → List (Nat × Record K V) → Bool} {replaying : List Nat} {f : Nat}

/-- What a replay has so far for a family. -/
def records (r : Replay K V) (f : Nat) : List (Nat × Record K V) :=
  editRecords (r.edits f) ++ (r.mems f).getD []

theorem records_addRecord (r : Replay K V) (b : Batch K V) (hf : f ∈ replaying) :
    (r.addRecord full replaying b).records f = r.records f ++ b.recordsOf f := by
  simp only [records, addRecord, hf, if_true]
  by_cases hfull : full f ((r.mems f).getD [] ++ b.recordsOf f) = true
  · simp [Option.filter, hfull, editRecords, writeLevel0Table_flatten]
  · simp [Option.filter, hfull]

theorem addRecord_other (r : Replay K V) (b : Batch K V) (hf : f ∉ replaying) :
    (r.addRecord full replaying b).mems f = none ∧
      (r.addRecord full replaying b).edits f = r.edits f := by
  simp [addRecord, hf]

theorem records_foldl (r : Replay K V) (bs : List (Batch K V)) (hf : f ∈ replaying) :
    (bs.foldl (addRecord full replaying) r).records f = r.records f ++ recordsIn f bs := by
  induction bs generalizing r with
  | nil => simp
  | cons b bs ih =>
    rw [List.foldl_cons, ih, records_addRecord r b hf, List.append_assoc]
    rfl

theorem foldl_other (r : Replay K V) (bs : List (Batch K V)) (hf : f ∉ replaying)
    (hmem : r.mems f = none) :
    (bs.foldl (addRecord full replaying) r).mems f = none ∧
      (bs.foldl (addRecord full replaying) r).edits f = r.edits f := by
  induction bs generalizing r with
  | nil => exact ⟨hmem, rfl⟩
  | cons b bs ih =>
    obtain ⟨h1, h2⟩ : (r.addRecord full replaying b).mems f = none ∧
        (r.addRecord full replaying b).edits f = r.edits f := addRecord_other r b hf
    rw [List.foldl_cons, ← h2]
    exact ih _ h1

theorem compactions_le (r : Replay K V) (bs : List (Batch K V)) :
    r.compactions ≤ (bs.foldl (addRecord full replaying) r).compactions := by
  induction bs generalizing r with
  | nil => exact le_rfl
  | cons b bs ih => exact (Nat.le_add_right _ _).trans (ih (r.addRecord full replaying b))

/-- Without a full memtable, no edit gets a table. -/
theorem edits_foldl (r : Replay K V) (bs : List (Batch K V))
    (hzero : (bs.foldl (addRecord full replaying) r).compactions = 0) :
    (bs.foldl (addRecord full replaying) r).edits f = r.edits f := by
  induction bs generalizing r with
  | nil => rfl
  | cons b bs ih =>
    rw [List.foldl_cons, ih _ hzero]
    by_cases hf : f ∈ replaying
    · have hle : (r.addRecord full replaying b).compactions ≤
          (bs.foldl (addRecord full replaying) (r.addRecord full replaying b)).compactions :=
        compactions_le _ bs
      rw [List.foldl_cons] at hzero
      have hnone : (r.addRecord full replaying b).compactions = 0 := by omega
      simp only [addRecord, Nat.add_eq_zero_iff, List.length_eq_zero_iff, List.filter_eq_nil_iff]
        at hnone
      have hquiet := hnone.2 f hf
      simp only [hf, if_true, Option.any_some] at hquiet
      simp [addRecord, hf, Option.filter, hquiet]
    · exact (addRecord_other r b hf).2

omit [LinearOrder K] in
theorem editRecords_finish (r : Replay K V) : editRecords (r.finish.edits f) = r.records f := by
  simp only [finish, records]
  cases r.mems f with
  | none => simp
  | some m => simp [editRecords, writeLevel0Table_flatten]

end Replay
/-- The records of a family that a replay of these logs gives it. -/
def readOf (f logNumber : Nat) (logs : List (LogFile K V)) : List (Nat × Record K V) :=
  (logs.filter fun l => logNumber ≤ l.number).flatMap fun l => recordsIn f l.batches

theorem readOf_append (f logNumber : Nat) (logs logs' : List (LogFile K V)) :
    readOf f logNumber (logs ++ logs') = readOf f logNumber logs ++ readOf f logNumber logs' := by
  simp only [readOf, List.filter_append, List.flatMap_append]

theorem readOf_singleton {f logNumber : Nat} {log : LogFile K V} :
    readOf f logNumber [log] = if logNumber ≤ log.number then recordsIn f log.batches else [] := by
  by_cases h : logNumber ≤ log.number <;> simp [readOf, h]

omit [LinearOrder K] in
theorem eq_of_id {cfs : List (ColumnFamily K V)} (hids : (cfs.map (·.id)).Nodup)
    {cf cf' : ColumnFamily K V} (hcf : cf ∈ cfs) (hcf' : cf' ∈ cfs) (heq : cf.id = cf'.id) :
    cf = cf' := List.inj_on_of_nodup_map hids hcf hcf' heq

variable {db : DBImpl K V} (reuseLogs : Bool) (full : Nat → List (Nat × Record K V) → Bool)

/-- **`RecoverLogFile`**: each family gets in its edit what the log has for it; or the log is
reused, and the default family, alone, gets it in its memtable. -/
theorem recoverLogFile_spec (last : Bool) (hids : (db.cfs.map (·.id)).Nodup)
    (hlive : ∀ cf ∈ db.cfs, cf.dropped = false) (log : LogFile K V) :
    ((recoverLogFile reuseLogs full last db log).log = db.log ∧
        (∃ written, (recoverLogFile reuseLogs full last db log).cfs =
          db.cfs.map (takeNumbers written)) ∧
        ∀ cf ∈ db.cfs,
          editRecords ((recoverLogFile reuseLogs full last db log).recoveryEdits cf.id) =
            editRecords (db.recoveryEdits cf.id) ++
              readOf cf.id cf.versions.logNumber [log]) ∨
      last = true ∧ (recoverLogFile reuseLogs full last db log).log = some log.number ∧
        ∃ cf, db.cfs = [cf] ∧ cf.mem = none ∧
          (recoverLogFile reuseLogs full last db log).cfs = [{ cf with
            mem := some (readOf cf.id cf.versions.logNumber [log]), memLogNumber := log.number }] ∧
          (recoverLogFile reuseLogs full last db log).recoveryEdits cf.id =
            db.recoveryEdits cf.id := by
  have hreplaying : ∀ cf ∈ db.cfs, cf.id ∈ (db.cfs.filter fun cf =>
      cf.dropped = false ∧ cf.versions.logNumber ≤ log.number).map (·.id) ↔
        cf.versions.logNumber ≤ log.number := by
    intro cf hcf
    simp only [List.mem_map, List.mem_filter, decide_eq_true_eq]
    constructor
    · rintro ⟨cf', ⟨hcf', -, hle⟩, heq⟩
      rwa [eq_of_id hids hcf' hcf heq] at hle
    · exact fun hle => ⟨cf, ⟨hcf, hlive cf hcf, hle⟩, rfl⟩
  rw [recoverLogFile]
  generalize (db.cfs.filter fun cf =>
    cf.dropped = false ∧ cf.versions.logNumber ≤ log.number).map (·.id) = replaying at hreplaying
  generalize hr0 : (⟨fun _ => none, db.recoveryEdits, fun _ => 0, 0, db.lastSequence⟩ :
    Replay K V) = r0
  have hstart : ∀ f, r0.records f = editRecords (db.recoveryEdits f) := fun f => by
    simp [← hr0, Replay.records]
  have hnone : ∀ f, r0.mems f = none := fun f => by rw [← hr0]
  -- what the replay has for a family at the end of the log
  have hread : ∀ cf ∈ db.cfs, (log.batches.foldl (Replay.addRecord full replaying) r0).records cf.id =
      editRecords (db.recoveryEdits cf.id) ++ readOf cf.id cf.versions.logNumber [log] := by
    intro cf hcf
    rw [readOf_singleton]
    by_cases hle : cf.versions.logNumber ≤ log.number
    · rw [Replay.records_foldl r0 _ ((hreplaying cf hcf).2 hle), hstart, if_pos hle]
    · obtain ⟨h1, h2⟩ := Replay.foldl_other r0 log.batches
        (fun hin => hle ((hreplaying cf hcf).1 hin)) (hnone cf.id)
      rw [Replay.records, h1, h2, if_neg hle, ← hr0]
      rfl
  split
  · rename_i cf hreused
    right
    simp only [Option.ite_none_right_eq_some, Bool.and_eq_true, beq_iff_eq,
      Option.filter_eq_some_iff, Option.isNone_iff_eq_none] at hreused
    obtain ⟨⟨⟨⟨-, hlast⟩, hzero⟩, hlength⟩, hfind, hmem⟩ := hreused
    obtain ⟨cf', hcfs⟩ := List.length_eq_one_iff.1 hlength
    have hid : cf.id = 0 := by simpa using List.find?_some hfind
    have hin : cf ∈ db.cfs := List.mem_of_find?_eq_some hfind
    have hone : db.cfs = [cf] := by
      rw [hcfs, List.mem_singleton] at hin
      rw [hcfs, hin]
    have hedits : ∀ f, (log.batches.foldl (Replay.addRecord full replaying) r0).edits f =
        db.recoveryEdits f := fun f => by rw [Replay.edits_foldl r0 _ hzero, ← hr0]
    have hmems : ((log.batches.foldl (Replay.addRecord full replaying) r0).mems 0).getD [] =
        readOf cf.id cf.versions.logNumber [log] := by
      have := hread cf hin
      rw [Replay.records, hedits, hid, List.append_right_inj] at this
      rw [this, hid]
    refine ⟨hlast, rfl, cf, hone, hmem, ?_, hedits cf.id⟩
    simp only [DBImpl.set, hone, List.map_cons, List.map_nil, hid, if_true, hmems]
  · left
    refine ⟨rfl, ⟨_, rfl⟩, fun cf hcf => ?_⟩
    show editRecords (Replay.finish _ |>.edits cf.id) = _
    rw [Replay.editRecords_finish, hread cf hcf]

/-! ## All logs -/

/-- What a replay does not change of a family, but for its memtable. -/
structure Same (cf cf' : ColumnFamily K V) : Prop where
  id : cf'.id = cf.id
  name : cf'.name = cf.name
  dropped : cf'.dropped = cf.dropped
  imm : cf'.imm = cf.imm
  logNumber : cf'.versions.logNumber = cf.versions.logNumber
  tables : cf'.versions.tables = cf.versions.tables
  next : cf.versions.nextFileNumber ≤ cf'.versions.nextFileNumber

omit [LinearOrder K] in
theorem Same.trans {a b c : ColumnFamily K V} (h : Same a b) (h' : Same b c) : Same a c :=
  ⟨h'.id.trans h.id, h'.name.trans h.name, h'.dropped.trans h.dropped, h'.imm.trans h.imm,
    h'.logNumber.trans h.logNumber, h'.tables.trans h.tables, h.next.trans h'.next⟩

omit [LinearOrder K] in
theorem same_takeNumbers (written : Nat → Nat) (cf : ColumnFamily K V) :
    Same cf (takeNumbers written cf) :=
  ⟨rfl, rfl, rfl, rfl, rfl, rfl, Nat.le_add_right _ _⟩

omit [LinearOrder K] in
theorem same_markFileNumberUsed (n : Nat) (cf : ColumnFamily K V) :
    Same cf (markFileNumberUsed n cf) :=
  ⟨rfl, rfl, rfl, rfl, rfl, rfl, Nat.le_max_left _ _⟩

/-- What a family has after the logs were read: its memtable is as before and the records of the
logs are in its edit, or those of the last log, which is open again, are in its memtable. -/
def Fed (logs : List (LogFile K V)) (log : Option Nat)
    (edit : Option (List (List (Nat × Record K V)))) (cf cf' : ColumnFamily K V) : Prop :=
  log = none ∧ cf'.mem = cf.mem ∧ cf'.memLogNumber = cf.memLogNumber ∧
      editRecords edit = readOf cf.id cf.versions.logNumber logs ∨
    ∃ before l, logs = before ++ [l] ∧ log = some l.number ∧ cf.mem = none ∧
      cf'.mem = some (readOf cf.id cf.versions.logNumber [l]) ∧ cf'.memLogNumber = l.number ∧
      editRecords edit = readOf cf.id cf.versions.logNumber before

/-- **The loop of `Recover`**: each family is fed what the logs have for it. -/
theorem recoverLogFiles_spec (hids : (db.cfs.map (·.id)).Nodup)
    (hlive : ∀ cf ∈ db.cfs, cf.dropped = false) (hlog : db.log = none)
    {before : List (LogFile K V)}
    (hread : ∀ cf ∈ db.cfs, editRecords (db.recoveryEdits cf.id) =
      readOf cf.id cf.versions.logNumber before) (logs : List (LogFile K V)) :
    ∃ g : ColumnFamily K V → ColumnFamily K V,
      (recoverLogFiles reuseLogs full db logs).cfs = db.cfs.map g ∧
      ∀ cf ∈ db.cfs, Same cf (g cf) ∧
        (∀ l ∈ logs, l.number < (g cf).versions.nextFileNumber) ∧
        Fed (before ++ logs) (recoverLogFiles reuseLogs full db logs).log
          ((recoverLogFiles reuseLogs full db logs).recoveryEdits cf.id) cf (g cf) := by
  induction logs generalizing db before with
  | nil =>
    refine ⟨id, (List.map_id _).symm, fun cf hcf => ⟨⟨rfl, rfl, rfl, rfl, rfl, rfl, le_rfl⟩, nofun,
      .inl ⟨hlog, rfl, rfl, ?_⟩⟩⟩
    rw [List.append_nil]
    exact hread cf hcf
  | cons log logs ih =>
    rw [recoverLogFiles]
    have hmarked : ∀ cf : ColumnFamily K V,
        log.number < (markFileNumberUsed log.number cf).versions.nextFileNumber := fun cf =>
      (Nat.lt_succ_self _).trans_le (Nat.le_max_right _ _)
    rcases recoverLogFile_spec reuseLogs full logs.isEmpty hids hlive log with
      ⟨hlog', ⟨written, hcfs⟩, hedits⟩ | ⟨hlast, hlog', cf, hone, hmem, hcfs, hedits⟩
    · have hmap : (recoverLogFile reuseLogs full logs.isEmpty db log).cfs.map
          (markFileNumberUsed log.number) =
          db.cfs.map fun cf => markFileNumberUsed log.number (takeNumbers written cf) := by
        rw [hcfs, List.map_map]
        rfl
      have hread' : ∀ cf ∈ db.cfs, editRecords ((recoverLogFile reuseLogs full logs.isEmpty db
          log).recoveryEdits cf.id) = readOf cf.id cf.versions.logNumber (before ++ [log]) := by
        intro cf hcf
        rw [hedits cf hcf, hread cf hcf, readOf_append]
      generalize hnext : { recoverLogFile reuseLogs full logs.isEmpty db log with
        cfs := (recoverLogFile reuseLogs full logs.isEmpty db log).cfs.map
          (markFileNumberUsed log.number)
        saveManifest := true } = db'
      have hcfs' : db'.cfs =
          db.cfs.map fun cf => markFileNumberUsed log.number (takeNumbers written cf) := by
        rw [← hnext, ← hmap]
      have hfrom : ∀ cf' ∈ db'.cfs, ∃ cf ∈ db.cfs,
          markFileNumberUsed log.number (takeNumbers written cf) = cf' := fun cf' hcf' =>
        List.mem_map.1 (hcfs' ▸ hcf')
      obtain ⟨g, hg, hall⟩ := @ih db' (by rw [hcfs', List.map_map]; exact hids)
        (fun cf' hcf' => by obtain ⟨cf, hcf, rfl⟩ := hfrom cf' hcf'; exact hlive cf hcf)
        (by rw [← hnext]; exact hlog'.trans hlog) (before ++ [log])
        (fun cf' hcf' => by
          obtain ⟨cf, hcf, rfl⟩ := hfrom cf' hcf'
          rw [← hnext]
          exact hread' cf hcf)
      refine ⟨fun cf => g (markFileNumberUsed log.number (takeNumbers written cf)), ?_,
        fun cf hcf => ?_⟩
      · rw [hg, hcfs', List.map_map]
        rfl
      · obtain ⟨hsame, hnumbers, hfed⟩ := hall (markFileNumberUsed log.number
          (takeNumbers written cf)) (by rw [hcfs']; exact List.mem_map_of_mem hcf)
        refine ⟨((same_takeNumbers written cf).trans (same_markFileNumberUsed _ _)).trans hsame,
          fun l hl => ?_, ?_⟩
        · rcases List.mem_cons.1 hl with rfl | hl
          · exact (hmarked _).trans_le hsame.next
          · exact hnumbers l hl
        · rw [List.append_assoc] at hfed
          exact hfed
    · -- the last log is open again
      have hnil : logs = [] := List.isEmpty_iff.1 hlast
      subst hnil
      refine ⟨fun c => markFileNumberUsed log.number { c with
        mem := some (readOf cf.id cf.versions.logNumber [log]), memLogNumber := log.number },
        ?_, fun c hc => ?_⟩
      · rw [recoverLogFiles]
        simp only [hcfs, hone, List.map_cons, List.map_nil]
      · rw [hone, List.mem_singleton] at hc
        subst hc
        refine ⟨⟨rfl, rfl, rfl, rfl, rfl, rfl, Nat.le_max_left _ _⟩, fun l hl => ?_, .inr
          ⟨before, log, rfl, hlog', hmem, rfl, rfl, ?_⟩⟩
        · rw [List.mem_singleton.1 hl]
          exact hmarked _
        · show editRecords ((recoverLogFile reuseLogs full _ db log).recoveryEdits c.id) = _
          rw [hedits, hread c (by rw [hone]; exact List.mem_singleton_self c)]

/-- What the replay does not touch. -/
theorem recoverLogFiles_frame (logs : List (LogFile K V)) :
    (recoverLogFiles reuseLogs full db logs).creating = db.creating ∧
      (recoverLogFiles reuseLogs full db logs).nextFamilyId = db.nextFamilyId ∧
      (recoverLogFiles reuseLogs full db logs).writing = db.writing ∧
      (recoverLogFiles reuseLogs full db logs).obsolete = db.obsolete := by
  induction logs generalizing db with
  | nil => exact ⟨rfl, rfl, rfl, rfl⟩
  | cons log logs ih =>
    have hone : (recoverLogFile reuseLogs full logs.isEmpty db log).creating = db.creating ∧
        (recoverLogFile reuseLogs full logs.isEmpty db log).nextFamilyId = db.nextFamilyId ∧
        (recoverLogFile reuseLogs full logs.isEmpty db log).writing = db.writing ∧
        (recoverLogFile reuseLogs full logs.isEmpty db log).obsolete = db.obsolete := by
      rw [recoverLogFile]
      split <;> exact ⟨rfl, rfl, rfl, rfl⟩
    obtain ⟨h1, h2, h3, h4⟩ := hone
    rw [recoverLogFiles, ← h1, ← h2, ← h3, ← h4]
    exact ih

end DBImpl

/-! ## The logs and the journal -/

section
variable {appended : List (Nat × Batch K V)} {disk : Disk K V} {f m : Nat} {v : VersionSet K V}

/-- **Replaying the logs** gives a family the records from its log number on. -/
theorem readOf_logs (h : Stored appended disk) (hv : Kept appended disk.logs f v)
    (hm : m ≤ v.logNumber) :
    DBImpl.readOf f v.logNumber (disk.logs.filter fun l => m ≤ l.number) =
      recordsIn f (since v.logNumber appended) := by
  have hfilter : ((disk.logs.filter fun l => m ≤ l.number).filter fun l =>
      v.logNumber ≤ l.number) = disk.logs.filter fun l => v.logNumber ≤ l.number := by
    rw [List.filter_filter]
    refine List.filter_congr fun l _ => ?_
    rw [← Bool.decide_and, decide_eq_decide]
    omega
  have hsorted : ((disk.logs.filter fun l => v.logNumber ≤ l.number).map (·.number)).Pairwise
      (· < ·) := List.pairwise_map.2 (h.logs.filter _)
  rw [DBImpl.readOf, hfilter, recordsIn, ← flatMap_segments h.sorted _ hsorted ?_ ?_,
    List.flatMap_map]
  · refine List.flatMap_congr fun l hl => ?_
    rw [h.batches l (List.mem_of_mem_filter hl)]
    rfl
  · intro k hk
    obtain ⟨l, hl, rfl⟩ := List.mem_map.1 hk
    exact of_decide_eq_true (List.mem_filter.1 hl).2
  · intro e he hle hne
    obtain ⟨l, hl, heq⟩ := hv.needed e he hle hne
    exact List.mem_map.2 ⟨l, List.mem_filter.2 ⟨hl, decide_eq_true (by omega)⟩, heq⟩

/-- Where the last log is open again, its records stay out of the tables. -/
theorem readOf_reused (h : Stored appended disk) (hv : Kept appended disk.logs f v)
    (hm : m ≤ v.logNumber) {before : List (LogFile K V)} {l : LogFile K V}
    (hlogs : (disk.logs.filter fun l => m ≤ l.number) = before ++ [l])
    (hle : v.logNumber ≤ l.number) (hlast : ∀ e ∈ appended, e.1 ≤ l.number) :
    DBImpl.readOf f v.logNumber before =
        recordsIn f (between v.logNumber l.number appended) ∧
      DBImpl.readOf f v.logNumber [l] = recordsIn f (since l.number appended) := by
  have hl : l ∈ disk.logs := List.mem_of_mem_filter (hlogs ▸ List.mem_append_right _
    (List.mem_singleton_self l))
  have hone : DBImpl.readOf f v.logNumber [l] = recordsIn f (since l.number appended) := by
    rw [DBImpl.readOf_singleton, if_pos hle, h.batches l hl]
    congr 1
    rw [Journal.segment, since]
    congr 1
    refine List.filter_congr fun e he => ?_
    have := hlast e he
    simp only [decide_eq_decide]
    omega
  refine ⟨?_, hone⟩
  have hall := readOf_logs h hv hm
  rw [hlogs, DBImpl.readOf_append, hone, ← between_append_since h.sorted hle, recordsIn_append] at hall
  exact List.append_cancel_right hall

end

end LevelDb.Database
