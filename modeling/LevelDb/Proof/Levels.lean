import LevelDb.Db.Levels
import LevelDb.Proof.Compaction

/-!
# What the steps do to the levels

The facts about the steps of `Family.step` that the invariants of the levels rest on: what an
edit leaves in a version (`Version.mem_apply`), what a memtable of records holds
(`seqsAt_ofRecords`), where a flush puts its table (`writeLevel0Table_cases`,
`overlapInLevel_of_le_pickLevel`), and that the files of a compaction's outputs hold, at each key,
only what the inputs hold there, and are apart (`seqsAt_outputFiles`, `outputFiles_before`).
-/

namespace LevelDb

variable {K V : Type} [LinearOrder K]

/-! ## The keys of a layer -/

/-- The user keys a layer holds something of: an entry, or a tombstone that covers it. -/
def Layer.keys (l : Layer K V) : Set K := {k | ∃ s, s ∈ l.seqsAt k}

/-- Layers with no key in common are newer than each other. -/
theorem Layer.newerThan_of_disjoint {a b : Layer K V} (h : Disjoint a.keys b.keys) :
    a.NewerThan b := by
  intro k s hs t ht
  exact absurd ⟨t, ht⟩ (Set.disjoint_left.1 h (show k ∈ a.keys from ⟨s, hs⟩))

/-- All keys of `a` are below all keys of `b`. -/
def Layer.Before (a b : Layer K V) : Prop := ∀ k ∈ a.keys, ∀ k' ∈ b.keys, k < k'

theorem Layer.Before.disjoint {a b : Layer K V} (h : a.Before b) : Disjoint a.keys b.keys :=
  Set.disjoint_left.2 fun k hk hk' => lt_irrefl k (h k hk k hk')

/-- A file's keys are between its bounds' user keys. -/
theorem FileMetaData.userKey_mem {f : FileMetaData K V} {k : K} (hk : k ∈ f.layer.keys) :
    f.smallest.userKey ≤ k ∧ k ≤ f.largest.userKey := by
  obtain ⟨s, hs⟩ := hk
  rcases Layer.mem_seqsAt.1 hs with ⟨e, he, rfl, -⟩ | ⟨t, ht, hc, -⟩
  · obtain ⟨h1, h2⟩ := f.bounded.entries_le e he
    exact ⟨userKey_le h1, userKey_le h2⟩
  · obtain ⟨h1, h2⟩ := f.bounded.tombstones_le t ht
    exact ⟨(userKey_le h1).trans hc.1, hc.2.le.trans (userKey_le h2)⟩

theorem FileMetaData.disjoint_of_not_overlaps {f g : FileMetaData K V}
    (h : ¬ g.Overlaps f.smallest.userKey f.largest.userKey) :
    Disjoint f.layer.keys g.layer.keys := by
  refine Set.disjoint_left.2 fun k hf hg => h ?_
  obtain ⟨h1, h2⟩ := userKey_mem hf
  obtain ⟨h3, h4⟩ := userKey_mem hg
  exact ⟨h1.trans h4, h3.trans h2⟩

/-! ## Edits -/

theorem bySmallest_total : Std.Total (Version.bySmallest (K := K) (V := V)) :=
  ⟨fun f g => by
    rcases lt_trichotomy f.smallest g.smallest with h | h | h
    · exact .inl (.inl h)
    · rcases Nat.le_total f.number g.number with h' | h'
      · exact .inl (.inr ⟨h, h'⟩)
      · exact .inr (.inr ⟨h.symm, h'⟩)
    · exact .inr (.inl h)⟩

theorem bySmallest_trans : IsTrans (FileMetaData K V) Version.bySmallest :=
  ⟨fun f g h hfg hgh => by
    rcases hfg with h1 | ⟨h1, h1'⟩ <;> rcases hgh with h2 | ⟨h2, h2'⟩
    · exact .inl (h1.trans h2)
    · exact .inl (h2 ▸ h1)
    · exact .inl (h1 ▸ h2)
    · exact .inr ⟨h1.trans h2, h1'.trans h2'⟩⟩

namespace Version

variable {v : Version K V} {edit : VersionEdit K V} {level : Nat} {f : FileMetaData K V}

/-- **An edit** keeps the files it does not delete and adds its own. -/
theorem mem_apply : f ∈ (v.apply edit).files level ↔
    f ∈ v.files level ∧ (level, f.number) ∉ edit.deletedFiles ∨ (level, f) ∈ edit.newFiles := by
  simp only [apply, List.mem_insertionSort, List.mem_append, List.mem_filter, List.mem_map,
    decide_eq_true_iff]
  refine or_congr_right ⟨?_, fun h => ⟨_, ⟨h, rfl⟩, rfl⟩⟩
  rintro ⟨n, ⟨hn, rfl⟩, rfl⟩
  exact hn

theorem nodup_apply (hv : (v.files level).Nodup) (hnew : edit.newFiles.Nodup)
    (hdisj : ∀ f, (level, f) ∈ edit.newFiles → f ∈ v.files level →
      (level, f.number) ∈ edit.deletedFiles) :
    ((v.apply edit).files level).Nodup := by
  refine (List.perm_insertionSort _ _).nodup_iff.2 (List.nodup_append.2 ⟨hv.filter _, ?_, ?_⟩)
  · refine List.Nodup.map_on ?_ (hnew.filter _)
    rintro ⟨l, f⟩ hf ⟨l', g⟩ hg h
    rw [List.mem_filter, decide_eq_true_iff] at hf hg
    exact Prod.ext (hf.2.trans hg.2.symm) h
  · rintro f hf g hg rfl
    obtain ⟨⟨l, f'⟩, hn, rfl⟩ := List.mem_map.1 hg
    rw [List.mem_filter, decide_eq_true_iff] at hn hf
    obtain ⟨hn, rfl⟩ := hn
    exact hf.2 (hdisj _ hn hf.1)

/-- Each level is sorted by smallest key. -/
theorem sorted_apply : ((v.apply edit).files level).Pairwise bySmallest := by
  have := bySmallest_total (K := K) (V := V)
  have := bySmallest_trans (K := K) (V := V)
  exact List.pairwise_insertionSort _ _

theorem mem_pick {numbers : List Nat} :
    f ∈ v.pick level numbers ↔ f ∈ v.files level ∧ f.number ∈ numbers := by
  simp [pick]

/-- A flush goes below level 0 only past levels that it does not overlap. -/
theorem overlapInLevel_of_le_pickLevel {opts : Options K V} {lo hi : K}
    (hpos : 0 < v.pickLevelForMemTableOutput opts lo hi)
    (hle : level ≤ v.pickLevelForMemTableOutput opts lo hi) : v.overlapInLevel level lo hi = false := by
  unfold pickLevelForMemTableOutput at hpos hle
  split at hpos
  · omega
  · rename_i h0
    rw [if_neg h0] at hle
    cases level with
    | zero => simpa using h0
    | succ level =>
      have hmem : level ∈ (List.range kMaxMemCompactLevel).takeWhile fun level =>
          !v.overlapInLevel (level + 1) lo hi && decide (totalFileSize
            (v.getOverlappingInputs (level + 2) lo hi) ≤ opts.maxGrandParentOverlapBytes) := by
        refine List.mem_iff_getElem.2 ⟨level, hle, ?_⟩
        rw [(List.takeWhile_prefix _).getElem, List.getElem_range]
      have := List.mem_takeWhile_imp hmem
      simp only [Bool.and_eq_true, Bool.not_eq_true'] at this
      exact this.1

theorem pickLevel_le (opts : Options K V) (lo hi : K) :
    v.pickLevelForMemTableOutput opts lo hi ≤ kMaxMemCompactLevel := by
  unfold pickLevelForMemTableOutput
  split
  · exact Nat.zero_le _
  · exact (List.takeWhile_prefix _).length_le.trans_eq List.length_range

end Version

/-! ## Memtables of records -/

/-- The record says something of the key. -/
def Record.Touches (k : K) : Record K V → Prop
  | .put k' _ | .delete k' | .merge k' _ => k' = k
  | .deleteRange b e => b ≤ k ∧ k < e

theorem seqsAt_add {m : MemTable K V} {e : Entry K V} {he : e.key.type ≠ .rangeDeletion} {k : K}
    {s : Nat} : s ∈ (m.add e he).layer.seqsAt k ↔
      s ∈ m.layer.seqsAt k ∨ e.key.userKey = k ∧ e.key.sequence = s := by
  simp only [Layer.mem_seqsAt, MemTable.layer_entries, MemTable.layer_tombstones, MemTable.add,
    Table.mem_insert]
  constructor
  · rintro (⟨a, rfl | ha, h⟩ | h)
    · exact .inr h
    · exact .inl (.inl ⟨a, ha, h⟩)
    · exact .inl (.inr h)
  · rintro ((⟨a, ha, h⟩ | h) | h)
    · exact .inl ⟨a, .inr ha, h⟩
    · exact .inr h
    · exact .inl ⟨e, .inl rfl, h⟩

theorem seqsAt_addRange {m : MemTable K V} {b e k : K} {seq s : Nat} :
    s ∈ (m.addRange b e seq).layer.seqsAt k ↔
      s ∈ m.layer.seqsAt k ∨ (b ≤ k ∧ k < e) ∧ seq = s := by
  unfold MemTable.addRange
  split
  · rename_i h
    refine ⟨.inl, ?_⟩
    rintro (hs | ⟨⟨h1, h2⟩, -⟩)
    · exact hs
    · exact absurd (h1.trans_lt h2) (not_lt.2 h)
  · simp only [Layer.mem_seqsAt, MemTable.layer_entries, MemTable.layer_tombstones,
      List.mem_append, List.mem_singleton, RangeTombstone.Covers]
    constructor
    · rintro (h | ⟨t, ht | rfl, h⟩)
      · exact .inl (.inl h)
      · exact .inl (.inr ⟨t, ht, h⟩)
      · exact .inr h
    · rintro ((h | ⟨t, ht, h⟩) | h)
      · exact .inl h
      · exact .inr ⟨t, .inl ht, h⟩
      · exact .inr ⟨_, .inr rfl, h⟩

section
variable [Inhabited V]

theorem seqsAt_addRecord {m : MemTable K V} {r : Record K V} {k : K} {seq s : Nat} :
    s ∈ (m.addRecord seq r).layer.seqsAt k ↔ s ∈ m.layer.seqsAt k ∨ r.Touches k ∧ seq = s := by
  cases r with
  | put k' v => exact seqsAt_add
  | delete k' => exact seqsAt_add
  | merge k' v => exact seqsAt_add
  | deleteRange b e => exact seqsAt_addRange

/-- **A memtable of records** holds at a key the sequence numbers of the records that touch it. -/
theorem seqsAt_ofRecords {records : List (Nat × Record K V)} {k : K} {s : Nat} :
    s ∈ (MemTable.ofRecords records).layer.seqsAt k ↔
      ∃ r ∈ records, r.2.Touches k ∧ r.1 = s := by
  have hfold : ∀ m : MemTable K V,
      s ∈ (records.foldl (fun m r => m.addRecord r.1 r.2) m).layer.seqsAt k ↔
        s ∈ m.layer.seqsAt k ∨ ∃ r ∈ records, r.2.Touches k ∧ r.1 = s := by
    induction records with
    | nil => simp
    | cons r records ih =>
      intro m
      rw [List.foldl_cons, ih, seqsAt_addRecord, or_assoc]
      simp
  rw [MemTable.ofRecords, hfold]
  simp [MemTable.empty, Table.empty, Layer.mem_seqsAt]

end

/-! ## Flushes -/

/-- **A flush** adds no file or one, that holds what the memtable holds, at the level picked. -/
theorem writeLevel0Table_cases (opts : Options K V) (number fileSize : Nat) (m : MemTable K V)
    (base : Option (Version K V)) :
    writeLevel0Table opts number fileSize m base = {} ∨
      ∃ f : FileMetaData K V, f.number = number ∧ f.layer = m.layer ∧
        writeLevel0Table opts number fileSize m base =
          { newFiles := [(base.elim 0 fun v => v.pickLevelForMemTableOutput opts
              f.smallest.userKey f.largest.userKey, f)] } := by
  unfold writeLevel0Table
  split
  · exact .inl rfl
  · rename_i f hf
    obtain ⟨h1, -, h3, h4⟩ := FileMetaData.build_eq_some hf
    refine .inr ⟨f, h1, ?_, rfl⟩
    rw [FileMetaData.layer, h3, h4, MemTable.layer]

/-! ## The outputs of a compaction -/

theorem Compaction.Output.toFile_spec {o : Compaction.Output K V} {number fileSize : Nat}
    {f : FileMetaData K V} (h : o.toFile number fileSize = some f) :
    f.number = number ∧ f.layer = o.layer := by
  unfold toFile at h
  split at h
  · obtain ⟨h1, -, h3, h4⟩ := FileMetaData.build_eq_some h
    refine ⟨h1, ?_⟩
    rw [FileMetaData.layer, h3, h4, Output.layer]
  · cases h

/-- The files are those of the outputs, numbered on. -/
theorem outputFiles_spec {sizes : Nat → Nat} {number : Nat} {outputs : List (Compaction.Output K V)}
    {files : List (FileMetaData K V)} (h : outputFiles sizes number outputs = some files) :
    files.map (·.layer) = outputs.map (·.layer) ∧
      files.map (·.number) = List.range' number files.length := by
  induction outputs generalizing number files with
  | nil =>
    cases h
    exact ⟨rfl, rfl⟩
  | cons o os ih =>
    obtain ⟨f, hf, h⟩ := Option.bind_eq_some_iff.1 h
    obtain ⟨fs, hfs, rfl⟩ := Option.map_eq_some_iff.1 h
    obtain ⟨h1, h2⟩ := Compaction.Output.toFile_spec hf
    obtain ⟨h3, h4⟩ := ih hfs
    refine ⟨by simp [h2, h3], ?_⟩
    rw [List.map_cons, h1, h4, List.length_cons, List.range'_succ]

section
variable {c : Compaction K V} {sizes : Nat → Nat} {number : Nat} {files : List (FileMetaData K V)}
  (h : outputFiles sizes number c.doCompactionWork = some files)
include h

/-- What an output file holds at a key, an input file holds there. -/
theorem seqsAt_outputFiles {f : FileMetaData K V} (hf : f ∈ files) {k : K} {s : Nat}
    (hs : s ∈ f.layer.seqsAt k) : ∃ g ∈ c.inputs, s ∈ g.layer.seqsAt k := by
  have hmem : f.layer ∈ c.doCompactionWork.map (·.layer) := by
    rw [← (outputFiles_spec h).1]
    exact List.mem_map_of_mem hf
  have hin := Compaction.seqsAt_outputLayer (Layer.seqsAt_concat.2 ⟨_, hmem, hs⟩)
  obtain ⟨_, hl, hs⟩ := Layer.seqsAt_concat.1 hin
  obtain ⟨g, hg, rfl⟩ := List.mem_map.1 hl
  exact ⟨g, hg, hs⟩

/-- The output files are in order, each before the next. -/
theorem outputFiles_before : files.Pairwise fun f g => f.layer.Before g.layer := by
  have hkeys : ∀ (o : Compaction.Output K V) (k : K), k ∈ o.layer.keys →
      (∃ e ∈ o.entries, e.key.userKey = k) ∨ ∃ t ∈ o.tombstones, t.Covers k := by
    rintro o k ⟨s, hs⟩
    rcases Layer.mem_seqsAt.1 hs with ⟨e, he, hk, -⟩ | ⟨t, ht, hc, -⟩
    · exact .inl ⟨e, he, hk⟩
    · exact .inr ⟨t, ht, hc⟩
  have hapart : (c.doCompactionWork.map (·.layer)).Pairwise Layer.Before := by
    refine List.pairwise_map.2 (c.doCompactionWork_written.2.1.apart.imp ?_)
    rintro o p ⟨u, hbelow, habove⟩ k hk k' hk'
    have hlt : k < u := by
      rcases hkeys o k hk with ⟨e, he, rfl⟩ | ⟨t, ht, hc⟩
      · exact hbelow.1 e he
      · exact hc.2.trans_le (hbelow.2 t ht)
    have hle : u ≤ k' := by
      rcases hkeys p k' hk' with ⟨e, he, rfl⟩ | ⟨t, ht, hc⟩
      · exact habove.1 e he
      · exact (habove.2 t ht).trans hc.1
    exact hlt.trans_le hle
  rw [← (outputFiles_spec h).1] at hapart
  exact List.pairwise_map.1 hapart

end
end LevelDb
