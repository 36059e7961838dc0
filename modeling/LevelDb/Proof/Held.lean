import LevelDb.Proof.Ages
import LevelDb.Proof.Versions

/-!
# What a family holds, step by step

`Family.held` is what the records that are not in tables and the files of a family hold, in no order.
Reads see nothing else (`contents_alike`). A write adds its record (`held_write`); switches, flushes,
trivial moves and recoveries keep all there is (`held_flush`, `held_trivialMove`, `held_replay`); an
installed compaction puts its outputs in the place of its inputs, with the rest of the family around
them (`held_install`).
-/

namespace LevelDb

variable {K V : Type} [LinearOrder K]

/-! ## Layers put together -/

namespace Layer

variable {a b l l' : Layer K V} {ls ls' : List (Layer K V)}

theorem Alike.refl (l : Layer K V) : l.Alike l := ⟨.refl _, fun _ _ => Iff.rfl⟩

theorem alike_concat (h : ls.Perm ls') : (concat ls).Alike (concat ls') := by
  refine ⟨h.flatMap_right _, fun k s => ?_⟩
  simp only [tombSeqs_concat, h.mem_iff]

theorem Alike.cons (h : a.Alike b) (hs : (concat ls).Alike (concat ls')) :
    (concat (a :: ls)).Alike (concat (b :: ls')) := by
  refine ⟨h.entries.append hs.entries, fun k s => ?_⟩
  have hiff := hs.tombSeqs k s
  simp only [tombSeqs_concat, List.exists_mem_cons_iff, h.tombSeqs k s] at hiff ⊢
  rw [hiff]

/-- Layers of different ages have no entry of a key at one number. -/
theorem distinct_concat (h : ∀ l ∈ ls, l.Distinct) (hages : ls.Pairwise NewerThan) :
    (concat ls).Distinct := by
  refine List.pairwise_flatMap.2 ⟨h, hages.imp fun hnew x hx y hy hk hs => ?_⟩
  have := hnew y.key.userKey x.key.sequence (hk ▸ seqsAt_of_entry hx) y.key.sequence
    (seqsAt_of_entry hy)
  omega

omit [LinearOrder K] in
theorem Distinct.of_mem (h : (concat ls).Distinct) (hl : l ∈ ls) : l.Distinct :=
  (List.pairwise_flatMap.1 h).1 l hl

end Layer

/-! ## The files of a version -/

namespace Version

variable {v : Version K V}

/-- The files with their levels. -/
def leveled (v : Version K V) : List (Nat × FileMetaData K V) :=
  (List.range kNumLevels).flatMap fun level => (v.files level).map (level, ·)

theorem mem_leveled {n : Nat × FileMetaData K V} :
    n ∈ v.leveled ↔ n.1 < kNumLevels ∧ n.2 ∈ v.files n.1 := by
  obtain ⟨level, f⟩ := n
  simp only [leveled, List.mem_flatMap, List.mem_range, List.mem_map, Prod.mk.injEq]
  constructor
  · rintro ⟨l, hl, g, hg, rfl, rfl⟩
    exact ⟨hl, hg⟩
  · rintro ⟨hl, hf⟩
    exact ⟨level, hl, f, hf, rfl, rfl⟩

theorem nodup_leveled (h : ∀ level, (v.files level).Nodup) : v.leveled.Nodup := by
  refine List.nodup_flatMap.2 ⟨fun level _ => ?_, List.nodup_range.imp fun hne n hn hn' => ?_⟩
  · exact (h level).map fun f g hfg => (Prod.mk.inj hfg).2
  · obtain ⟨f, -, rfl⟩ := List.mem_map.1 hn
    obtain ⟨g, -, heq⟩ := List.mem_map.1 hn'
    exact hne (Prod.mk.inj heq).1.symm

/-- The layers of a version are its files' in another order. -/
theorem layers_flatMap_perm {α : Type} (g : FileMetaData K V → List α) :
    (v.newestFirst.flatMap g ++ (List.range' 1 (kNumLevels - 1)).flatMap fun level =>
      (v.files level).flatMap g).Perm (v.leveled.flatMap fun n => g n.2) := by
  have hrange : List.range kNumLevels = 0 :: List.range' 1 (kNumLevels - 1) := by decide
  rw [leveled, hrange, List.flatMap_cons, List.flatMap_append, List.flatMap_assoc]
  simp only [List.flatMap_map]
  exact ((List.perm_insertionSort _ _).flatMap_right g).append_right _

theorem layers_alike (v : Version K V) :
    (Layer.concat v.layers).Alike (.concat (v.leveled.map (·.2.layer))) := by
  have hentries := layers_flatMap_perm (v := v) fun f => f.table.entries
  have htombs := layers_flatMap_perm (v := v) fun f => f.tombstones
  refine ⟨?_, fun k s => ?_⟩
  · simpa [Layer.concat, layers, List.flatMap_map] using hentries
  · have hiff : ∀ t, t ∈ (Layer.concat v.layers).tombstones ↔
        t ∈ (Layer.concat (v.leveled.map (·.2.layer))).tombstones := by
      intro t
      simpa [Layer.concat, layers, List.flatMap_map] using htombs.mem_iff (a := t)
    simp only [Layer.mem_tombSeqs, hiff]

/-- A new file lands on one level. -/
theorem flatMap_single {levels : List Nat} (hnodup : levels.Nodup) {n : Nat × FileMetaData K V}
    (hn : n.1 ∈ levels) :
    levels.flatMap (fun level => if n.1 = level then [n] else []) = [n] := by
  induction levels with
  | nil => cases hn
  | cons level levels ih =>
    rw [List.nodup_cons] at hnodup
    rw [List.flatMap_cons]
    rcases List.mem_cons.1 hn with heq | hn
    · have hnil : levels.flatMap (fun l => if n.1 = l then [n] else []) = [] := by
        refine List.flatMap_eq_nil_iff.2 fun l hl => if_neg fun hnl => hnodup.1 ?_
        rw [← heq, hnl]
        exact hl
      rw [if_pos heq, hnil, List.append_nil]
    · have hne : n.1 ≠ level := fun heq => hnodup.1 (heq ▸ hn)
      rw [if_neg hne, List.nil_append, ih hnodup.2 hn]

theorem flatMap_filter_perm {levels : List Nat} (hnodup : levels.Nodup)
    (new : List (Nat × FileMetaData K V)) (hnew : ∀ n ∈ new, n.1 ∈ levels) :
    (levels.flatMap fun level => new.filter fun n => n.1 = level).Perm new := by
  induction new with
  | nil => simp
  | cons n new ih =>
    have hsplit : ∀ level, ((n :: new).filter fun n => decide (n.1 = level)) =
        (if n.1 = level then [n] else []) ++ new.filter fun n => n.1 = level := by
      intro level
      by_cases h : n.1 = level <;> simp [h]
    simp only [hsplit]
    refine (List.flatMap_append_perm _ _ _).symm.trans ?_
    rw [flatMap_single hnodup (hnew n List.mem_cons_self)]
    exact (ih fun m hm => hnew m (List.mem_cons_of_mem _ hm)).cons n

/-- **An edit** takes its deleted files away and adds its own. -/
theorem leveled_apply (v : Version K V) (edit : VersionEdit K V)
    (hnew : ∀ n ∈ edit.newFiles, n.1 < kNumLevels) :
    (v.apply edit).leveled.Perm
      ((v.leveled.filter fun n => (n.1, n.2.number) ∉ edit.deletedFiles) ++ edit.newFiles) := by
  have hlevel : ∀ level, (((v.apply edit).files level).map (level, ·)).Perm
      ((((v.files level).map (level, ·)).filter fun n => (n.1, n.2.number) ∉ edit.deletedFiles) ++
        edit.newFiles.filter fun n => n.1 = level) := by
    intro level
    refine ((List.perm_insertionSort _ _).map _).trans (.of_eq ?_)
    rw [List.map_append, List.filter_map, List.map_map]
    refine congrArg₂ (· ++ ·) rfl ?_
    conv_rhs => rw [← List.map_id (edit.newFiles.filter fun n => n.1 = level)]
    refine List.map_congr_left fun n hn => ?_
    rw [List.mem_filter, decide_eq_true_iff] at hn
    simp [← hn.2]
  rw [leveled, leveled, List.filter_flatMap]
  refine (List.Perm.flatMap_left _ fun level _ => hlevel level).trans
    ((List.flatMap_append_perm _ _ _).symm.trans (List.Perm.append_left _ ?_))
  exact flatMap_filter_perm List.nodup_range edit.newFiles fun n hn => List.mem_range.2 (hnew n hn)

end Version

/-! ## The family -/

section
variable [Inhabited V]

/-- What these records and files hold. -/
def holding (records : List (Nat × Record K V)) (files : List (Nat × FileMetaData K V)) : Layer K V :=
  .concat (.ofRecords records :: files.map (·.2.layer))

theorem holding_perm (records : List (Nat × Record K V)) {files files' : List (Nat × FileMetaData K V)}
    (h : files.Perm files') : (holding records files).Alike (holding records files') :=
  Layer.alike_concat ((h.map _).cons _)

theorem ofRecords_append (old rest : List (Nat × Record K V)) :
    (Layer.ofRecords (old ++ rest)).Alike (.concat [.ofRecords old, .ofRecords rest]) := by
  refine ⟨.of_eq (by simp [Layer.ofRecords, Layer.concat]), fun k s => ?_⟩
  have hmem : ∀ t, t ∈ (Layer.ofRecords (old ++ rest)).tombstones ↔
      t ∈ (Layer.concat [Layer.ofRecords old, Layer.ofRecords rest]).tombstones := by
    intro t
    simp [Layer.ofRecords, Layer.concat]
  simp only [Layer.mem_tombSeqs, hmem]

/-- Records that move into a file. -/
theorem holding_flush (old rest : List (Nat × Record K V)) {n : Nat × FileMetaData K V}
    (hn : n.2.layer.Alike (.ofRecords old)) (files : List (Nat × FileMetaData K V)) :
    (holding (old ++ rest) files).Alike (holding rest (files ++ [n])) := by
  have hsplit : (holding (old ++ rest) files).Alike
      (.concat (.ofRecords old :: .ofRecords rest :: files.map (·.2.layer))) := by
    refine ((ofRecords_append old rest).cons (.refl _)).trans ⟨.of_eq ?_, fun k s => ?_⟩
    · simp [Layer.concat]
    · simp [Layer.tombSeqs_concat, or_assoc]
  refine hsplit.trans ((hn.symm.cons (.refl _)).trans (Layer.alike_concat ?_))
  rw [List.map_append]
  exact (List.perm_append_singleton n.2.layer (.ofRecords rest :: files.map (·.2.layer))).symm

namespace Family

variable {opts : Options K V} {s s' : Family K V}

/-- What the family holds. -/
def held (s : Family K V) : Layer K V := holding s.records s.current.leveled

/-- **Reads see what the family holds**, and nothing else. -/
theorem contents_alike (opts : Options K V) (s : Family K V) :
    (s.columnFamily opts).contents.Alike s.held := by
  have himm : ((s.columnFamily opts).imm.elim ⟨[], []⟩ (·.layer)).Alike
      (.ofRecords (s.imm.getD [])) := by
    cases h : s.imm with
    | none =>
      simp only [columnFamily, h]
      exact .refl _
    | some imm =>
      simp only [columnFamily, h]
      exact ofRecords_alike imm
  have hmem : (s.columnFamily opts).mem.layer.Alike (.ofRecords s.mem) := ofRecords_alike s.mem
  have hrecords : (Layer.concat [Layer.ofRecords s.mem, .ofRecords (s.imm.getD [])]).Alike
      (.ofRecords s.records) :=
    (Layer.alike_concat (.swap _ _ _)).trans (ofRecords_append (s.imm.getD []) s.mem).symm
  have hparts : (s.columnFamily opts).contents.Alike (.concat (.ofRecords s.mem ::
      .ofRecords (s.imm.getD []) :: s.current.leveled.map (·.2.layer))) :=
    hmem.cons (himm.cons s.current.layers_alike)
  refine hparts.trans (.trans ?_ (hrecords.cons (.refl _)))
  refine ⟨.of_eq (by simp [Layer.concat]), fun k t => ?_⟩
  simp [Layer.tombSeqs_concat, or_assoc]

/-! ### Writes and flushes -/

theorem held_congr (hrecords : s'.records = s.records) (hcurrent : s'.current = s.current) :
    s'.held = s.held := by
  rw [held, held, hrecords, hcurrent]

theorem held_write {seq : Nat} {record : Record K V} (hrecords : s'.records = s.records ++ [(seq, record)])
    (hcurrent : s'.current = s.current) : s'.held.Alike (s.held.add seq record) := by
  rw [held, held, hrecords, hcurrent]
  refine ((ofRecords_append s.records [(seq, record)]).cons (.refl _)).trans ⟨?_, fun k t => ?_⟩
  · have hone : (Layer.ofRecords [(seq, record)]).entries = (record.entry seq).toList := by
      cases h : record.entry seq <;> simp [Layer.ofRecords, h]
    simp only [Layer.concat, Layer.add, holding, List.flatMap_cons, List.flatMap_nil,
      List.append_nil, hone]
    rw [← List.append_assoc]
    exact List.perm_append_comm.append_right _
  · have hone : (Layer.ofRecords [(seq, record)]).tombstones = (record.tombstone seq).toList := by
      cases h : record.tombstone seq <;> simp [Layer.ofRecords, h]
    simp only [Layer.mem_tombSeqs, Layer.concat, Layer.add, holding, List.flatMap_cons,
      List.flatMap_nil, List.append_nil, hone, List.mem_append]
    refine exists_congr fun u => and_congr_left fun _ => ?_
    rw [or_right_comm, or_comm]

/-- All that the family holds was written. -/
theorem Inv.seqsAt_held_le (h : s.Inv) {k : K} {q : Nat} (hq : q ∈ s.held.seqsAt k) :
    q ≤ s.lastSequence := by
  obtain ⟨l, hl, hq⟩ := Layer.seqsAt_concat.1 hq
  rcases List.mem_cons.1 hl with rfl | hl
  · obtain ⟨other, hr, -, rfl⟩ := seqsAt_ofRecords.1 (((ofRecords_alike _).seqsAt k q).2 hq)
    exact h.recorded other hr
  · obtain ⟨n, hn, rfl⟩ := List.mem_map.1 hl
    exact (h.stored n.1 n.2 (Version.mem_leveled.1 hn).2 k q hq).1

theorem Inv.distinct_add (h : s.Inv) (hdistinct : s.held.Distinct) {seq : Nat}
    (hlt : s.lastSequence < seq) (record : Record K V) : (s.held.add seq record).Distinct := by
  refine List.pairwise_append.2 ⟨?_, hdistinct, fun a ha b hb _ heq => ?_⟩
  · cases record.entry seq <;> simp
  · have hseq := Record.entry_sequence (Option.mem_toList.1 ha)
    have hle := h.seqsAt_held_le (Layer.seqsAt_of_entry hb)
    omega

omit [Inhabited V] in
/-- Only a memtable with nothing in it makes no table. -/
theorem layer_of_no_table {number fileSize : Nat} {m : MemTable K V} {base : Option (Version K V)}
    (h : writeLevel0Table opts number fileSize m base = {}) : m.layer = ⟨[], []⟩ := by
  unfold writeLevel0Table at h
  split at h
  · rename_i hnone
    obtain ⟨h1, h2⟩ := FileMetaData.build_eq_none hnone
    rw [MemTable.layer, h1, h2]
  · simp at h

/-- **A flush** of the oldest records not in tables keeps all there is. -/
theorem held_flush (old rest : List (Nat × Record K V)) {number fileSize : Nat}
    {base : Option (Version K V)} (hold : s.records = old ++ rest) (hrecords : s'.records = rest)
    (hcurrent : s'.current = s.current.apply
      (writeLevel0Table opts number fileSize (.ofRecords old) base)) :
    s.held.Alike s'.held := by
  rw [held, held, hold, hrecords, hcurrent]
  rcases writeLevel0Table_cases opts number fileSize (.ofRecords old) base with
    hnone | ⟨f, -, hlayer, hfile⟩
  · -- nothing to write
    have hempty : (Layer.ofRecords old).Alike ⟨[], []⟩ :=
      layer_of_no_table hnone ▸ (ofRecords_alike old).symm
    have hfiles := s.current.leveled_apply {} (by simp)
    rw [hnone]
    refine .trans ?_ (holding_perm rest hfiles.symm)
    simp only [List.not_mem_nil, not_false_eq_true, decide_true, List.filter_true, List.append_nil]
    refine ((ofRecords_append old rest).cons (.refl _)).trans ⟨?_, fun k t => ?_⟩
    · have hnil : (Layer.ofRecords old).entries = [] := List.perm_nil.1 hempty.entries
      exact .of_eq (by simp [Layer.concat, holding, hnil])
    · have hnil := hempty.tombSeqs k t
      simp only [Layer.tombSeqs_concat, holding, List.exists_mem_cons_iff, hnil]
      simp [Layer.tombSeqs]
  · have hlevel : (base.elim 0 fun v => v.pickLevelForMemTableOutput opts f.smallest.userKey
        f.largest.userKey) < kNumLevels := by
      cases base with
      | none => exact (by decide : 0 < kNumLevels)
      | some v => exact (Version.pickLevel_le _ _ _).trans_lt (by decide)
    have hfiles := s.current.leveled_apply { newFiles := [(_, f)] }
      (by simpa using hlevel)
    rw [hfile]
    refine .trans ?_ (holding_perm rest hfiles.symm)
    simp only [List.not_mem_nil, not_false_eq_true, decide_true, List.filter_true]
    exact holding_flush old rest (hlayer ▸ ofRecords_alike old) _

theorem held_replay (himm : s.imm = none) (tables : List (Nat × Nat)) :
    s.held.Alike (replay opts tables s).held := by
  induction tables generalizing s with
  | nil => exact .refl _
  | cons t tables ih =>
    obtain ⟨n, fileSize⟩ := t
    refine .trans ?_ (ih himm)
    refine held_flush (s.mem.take n) (s.mem.drop n) ?_ ?_ rfl
    · simp [records, himm]
    · simp [records, himm]

/-! ### Files that change place -/

theorem held_trivialMove (h : s.Inv) {level number : Nat} {f : FileMetaData K V}
    (hlevel : level + 1 < kNumLevels) (hpick : s.current.pick level [number] = [f])
    (hrecords : s'.records = s.records)
    (hcurrent : s'.current = s.current.apply ⟨[(level, number)], [(level + 1, f)]⟩) :
    s.held.Alike s'.held := by
  have hf : f ∈ s.current.pick level [number] := by simp [hpick]
  obtain ⟨hmem, hnumber⟩ := Version.mem_pick.1 hf
  rw [List.mem_singleton] at hnumber
  subst hnumber
  have hfiles := s.current.leveled_apply
    ⟨[(level, f.number)], [(level + 1, f)]⟩ (by simpa using hlevel)
  -- the one file that is taken away
  have hgone : (s.current.leveled.filter fun n => (n.1, n.2.number) = (level, f.number)).Perm
      [(level, f)] := by
    refine (List.perm_ext_iff_of_nodup ((Version.nodup_leveled h.ordered.nodup).filter _)
      (List.nodup_singleton _)).2 fun n => ?_
    rw [List.mem_filter, Version.mem_leveled, decide_eq_true_iff, List.mem_singleton]
    constructor
    · intro hn
      obtain ⟨⟨-, hn⟩, heq⟩ := hn
      obtain ⟨h1, h2⟩ := Prod.mk.inj heq
      exact Prod.ext h1 (h.ordered.unique _ _ _ _ hn hmem h2).2
    · intro hn
      subst hn
      exact ⟨⟨by omega, hmem⟩, rfl⟩
  have hsplit := List.filter_append_perm (fun n : Nat × FileMetaData K V =>
    decide ((n.1, n.2.number) = (level, f.number))) s.current.leveled
  rw [held, held, hrecords, hcurrent]
  refine (holding_perm s.records (hsplit.symm.trans (hgone.append_right _))).trans
    (.trans ?_ (holding_perm s.records hfiles.symm))
  refine Layer.alike_concat (.cons _ ?_)
  rw [List.map_append, List.map_append]
  refine List.perm_append_comm.trans (.of_eq ?_)
  simp

end Family
end

/-! ## Compactions -/

namespace Family

/-- What a running compaction knows of the family: its inputs are of the version it was picked from,
and what came since is newer than all of that version. -/
structure Base (r : Running K V) (s : Family K V) : Prop where
  nodup0 : r.inputs0.Nodup
  nodup1 : r.inputs1.Nodup
  mem0 : ∀ f ∈ r.inputs0, f ∈ r.inputVersion.files r.level
  mem1 : ∀ f ∈ r.inputs1, f ∈ r.inputVersion.files (r.level + 1)
  stored : ∀ l, ∀ f ∈ r.inputVersion.files l, ∀ k, ∀ q ∈ f.layer.seqsAt k,
    q ≤ r.lastSequence ∧ ∀ record ∈ s.records, q < record.1
  since : ∀ l, ∀ f ∈ s.current.files l, f ∈ r.inputVersion.files l ∨
    ∀ l', ∀ g ∈ r.inputVersion.files l', f.layer.NewerThan g.layer
  last_le : r.lastSequence ≤ s.lastSequence

/-- The files of the version the compaction was picked from that lie below its outputs. -/
def Below (r : Running K V) (n : Nat × FileMetaData K V) : Prop :=
  r.level + 2 ≤ n.1 ∧ n.2 ∈ r.inputVersion.files n.1

section
variable {s : Family K V} {r : Running K V}

/-- The inputs with their levels. -/
def leveledInputs (r : Running K V) : List (Nat × FileMetaData K V) :=
  r.inputs0.map (r.level, ·) ++ r.inputs1.map (r.level + 1, ·)

theorem mem_leveledInputs {n : Nat × FileMetaData K V} : n ∈ leveledInputs r ↔
    n.1 = r.level ∧ n.2 ∈ r.inputs0 ∨ n.1 = r.level + 1 ∧ n.2 ∈ r.inputs1 := by
  obtain ⟨l, f⟩ := n
  simp only [leveledInputs, List.mem_append, List.mem_map, Prod.mk.injEq]
  refine or_congr ⟨?_, ?_⟩ ⟨?_, ?_⟩
  all_goals intro h
  · obtain ⟨g, hg, rfl, rfl⟩ := h
    exact ⟨rfl, hg⟩
  · exact ⟨f, h.2, h.1.symm, rfl⟩
  · obtain ⟨g, hg, rfl, rfl⟩ := h
    exact ⟨rfl, hg⟩
  · exact ⟨f, h.2, h.1.symm, rfl⟩

/-- The files an install takes away are the inputs. -/
theorem deleted_iff (h : s.Inv) (hr : r.Valid s.current) (outputs : List (FileMetaData K V))
    {n : Nat × FileMetaData K V} (hn : n ∈ s.current.leveled) :
    (n.1, n.2.number) ∈ (r.installEdit outputs).deletedFiles ↔ n ∈ leveledInputs r := by
  have hin := (Version.mem_leveled.1 hn).2
  rw [mem_leveledInputs]
  simp only [Running.installEdit, List.mem_append, List.mem_map, Prod.mk.injEq]
  refine or_congr ⟨?_, ?_⟩ ⟨?_, ?_⟩
  all_goals intro hd
  · obtain ⟨f, hf, hl, hnum⟩ := hd
    exact ⟨hl.symm, (h.ordered.unique _ _ _ _ (hr.mem0 f hf) hin hnum).2 ▸ hf⟩
  · exact ⟨n.2, hd.2, hd.1.symm, rfl⟩
  · obtain ⟨f, hf, hl, hnum⟩ := hd
    exact ⟨hl.symm, (h.ordered.unique _ _ _ _ (hr.mem1 f hf) hin hnum).2 ▸ hf⟩
  · exact ⟨n.2, hd.2, hd.1.symm, rfl⟩

theorem leveled_inputs_perm (h : s.Inv) (hr : r.Valid s.current) (hb : Base r s)
    (outputs : List (FileMetaData K V)) :
    (s.current.leveled.filter fun n =>
      (n.1, n.2.number) ∈ (r.installEdit outputs).deletedFiles).Perm (leveledInputs r) := by
  have hnodup : (leveledInputs r).Nodup := by
    refine List.nodup_append.2 ⟨hb.nodup0.map fun f g hfg => (Prod.mk.inj hfg).2,
      hb.nodup1.map fun f g hfg => (Prod.mk.inj hfg).2, fun a ha b hb heq => ?_⟩
    obtain ⟨f, -, rfl⟩ := List.mem_map.1 ha
    obtain ⟨g, -, rfl⟩ := List.mem_map.1 hb
    have := (Prod.mk.inj heq).1
    omega
  refine (List.perm_ext_iff_of_nodup ((Version.nodup_leveled h.ordered.nodup).filter _)
    hnodup).2 fun n => ?_
  rw [List.mem_filter, decide_eq_true_iff]
  constructor
  · intro hn
    exact (deleted_iff h hr outputs hn.1).1 hn.2
  · intro hn
    have hin : n ∈ s.current.leveled := by
      have hlevel := hr.level_lt
      rw [Version.mem_leveled]
      rcases mem_leveledInputs.1 hn with ⟨hl, hf⟩ | ⟨hl, hf⟩
      · exact ⟨by omega, hl ▸ hr.mem0 _ hf⟩
      · exact ⟨by omega, hl ▸ hr.mem1 _ hf⟩
    exact ⟨hin, (deleted_iff h hr outputs hin).2 hn⟩

/-- A file that stays is newer than the inputs, or lies below the outputs. -/
theorem stays_newer (h : s.Inv) (hr : r.Valid s.current) (hb : Base r s)
    {n : Nat × FileMetaData K V} (hn : n ∈ s.current.leveled) (hnot : n ∉ leveledInputs r)
    (hbelow : ¬ Below r n) : ∀ g ∈ r.inputs, n.2.layer.NewerThan g.layer := by
  have hin := (Version.mem_leveled.1 hn).2
  rw [mem_leveledInputs, not_or, not_and, not_and] at hnot
  intro g hg
  rcases hb.since n.1 n.2 hin with hold | hnew
  · rcases lt_trichotomy n.1 (r.level + 1) with hl | hl | hl
    · rcases List.mem_append.1 hg with hg | hg
      · rcases Nat.lt_or_ge n.1 r.level with hlt | hge
        · exact h.ordered.newer _ _ _ _ hin (hr.mem0 g hg) (.inl hlt)
        · have heq : n.1 = r.level := by omega
          exact hr.left0 n.2 (heq ▸ hin) (hnot.1 heq) g hg
      · exact h.ordered.newer _ _ _ _ hin (hr.mem1 g hg) (.inl hl)
    · apply Layer.newerThan_of_disjoint
      rcases List.mem_append.1 hg with hg | hg
      · exact hr.left1 n.2 (hl ▸ hin) (hnot.2 hl) g hg
      · refine h.ordered.apart _ _ _ (by omega) hin (hl ▸ hr.mem1 g hg) fun heq => ?_
        exact hnot.2 hl (heq ▸ hg)
    · exact absurd ⟨hl, hold⟩ hbelow
  · rcases List.mem_append.1 hg with hg | hg
    · exact hnew _ g (hb.mem0 g hg)
    · exact hnew _ g (hb.mem1 g hg)

/-- A file that is not below the outputs is newer than those that are. -/
theorem newer_below (h : s.Inv) (hb : Base r s) {n m : Nat × FileMetaData K V}
    (hn : n ∈ s.current.leveled) (hm : m ∈ s.current.leveled) (hbelow : ¬ Below r n)
    (hbelow' : Below r m) : n.2.layer.NewerThan m.2.layer := by
  have hin := (Version.mem_leveled.1 hn).2
  rcases hb.since n.1 n.2 hin with hold | hnew
  · have hl : n.1 < r.level + 2 := Nat.lt_of_not_le fun hle => hbelow ⟨hle, hold⟩
    exact h.ordered.newer _ _ _ _ hin (Version.mem_leveled.1 hm).2 (.inl (hl.trans_le hbelow'.1))
  · exact hnew _ _ hbelow'.2

/-! ### The files around a compaction -/

section
open scoped Classical

/-- The files that stay, and are not below the outputs. -/
noncomputable def above (s : Family K V) (r : Running K V) : List (Nat × FileMetaData K V) :=
  s.current.leveled.filter fun n => n ∉ leveledInputs r ∧ ¬ Below r n

/-- The files that stay below the outputs. -/
noncomputable def under (s : Family K V) (r : Running K V) : List (Nat × FileMetaData K V) :=
  s.current.leveled.filter fun n => n ∉ leveledInputs r ∧ Below r n

theorem mem_above {n : Nat × FileMetaData K V} :
    n ∈ s.above r ↔ n ∈ s.current.leveled ∧ n ∉ leveledInputs r ∧ ¬ Below r n := by
  rw [above, List.mem_filter, decide_eq_true_iff]

theorem mem_under {n : Nat × FileMetaData K V} :
    n ∈ s.under r ↔ n ∈ s.current.leveled ∧ n ∉ leveledInputs r ∧ Below r n := by
  rw [under, List.mem_filter, decide_eq_true_iff]

theorem stays_perm (s : Family K V) (r : Running K V) :
    (s.current.leveled.filter fun n => n ∉ leveledInputs r).Perm (s.above r ++ s.under r) := by
  have hsplit := (List.filter_append_perm (fun n => decide (Below r n))
    (s.current.leveled.filter fun n => n ∉ leveledInputs r)).symm.trans List.perm_append_comm
  refine hsplit.trans (.of_eq ?_)
  rw [List.filter_filter, List.filter_filter, above, under]
  refine congrArg₂ (· ++ ·) (List.filter_congr fun n _ => ?_) (List.filter_congr fun n _ => ?_)
  · rw [← decide_not, ← Bool.decide_and, decide_eq_decide]
    exact and_comm
  · rw [← Bool.decide_and, decide_eq_decide]
    exact and_comm

/-- The files are those that stay, and the inputs. -/
theorem leveled_perm (h : s.Inv) (hr : r.Valid s.current) (hb : Base r s) :
    s.current.leveled.Perm
      ((s.current.leveled.filter fun n => n ∉ leveledInputs r) ++ leveledInputs r) := by
  have hall := List.filter_append_perm (fun n => decide (n ∉ leveledInputs r)) s.current.leveled
  have hdel := leveled_inputs_perm h hr hb []
  have heq : (s.current.leveled.filter fun n => !decide (n ∉ leveledInputs r)) =
      s.current.leveled.filter fun n => (n.1, n.2.number) ∈ (r.installEdit []).deletedFiles := by
    refine List.filter_congr fun n hn => ?_
    rw [Bool.eq_iff_iff, decide_eq_true_iff, deleted_iff h hr [] hn]
    simp
  rw [heq] at hall
  exact hall.symm.trans (hdel.append_left _)

/-- After the install they are those that stay, and the outputs. -/
theorem leveled_install (h : s.Inv) (hr : r.Valid s.current) (outputs : List (FileMetaData K V)) :
    (s.current.apply (r.installEdit outputs)).leveled.Perm
      ((s.current.leveled.filter fun n => n ∉ leveledInputs r) ++
        (r.installEdit outputs).newFiles) := by
  have hfiles := s.current.leveled_apply (r.installEdit outputs) (by
    intro n hn
    obtain ⟨f, -, rfl⟩ := List.mem_map.1 hn
    exact hr.level_lt)
  have heq : (s.current.leveled.filter fun n =>
      (n.1, n.2.number) ∉ (r.installEdit outputs).deletedFiles) =
      s.current.leveled.filter fun n => n ∉ leveledInputs r := by
    refine List.filter_congr fun n hn => ?_
    rw [Bool.eq_iff_iff, decide_eq_true_iff, decide_eq_true_iff, deleted_iff h hr outputs hn]
  rwa [heq] at hfiles

theorem exists_input (hr : r.Valid s.current) {g : FileMetaData K V} (hg : g ∈ r.inputs) :
    ∃ l, g ∈ s.current.files l ∧ l ≤ r.level + 1 := by
  rcases List.mem_append.1 hg with hg | hg
  · exact ⟨_, hr.mem0 g hg, Nat.le_succ _⟩
  · exact ⟨_, hr.mem1 g hg, le_rfl⟩

variable [Inhabited V]

/-- The files in the order of their ages, with any others in the middle. -/
theorem holding_around (s : Family K V) (r : Running K V) {files middle : List (Nat × FileMetaData K V)}
    (hfiles : files.Perm ((s.current.leveled.filter fun n => n ∉ leveledInputs r) ++ middle)) :
    (holding s.records files).Alike (.concat
      [holding s.records (s.above r), .concat (middle.map (·.2.layer)),
        .concat ((s.under r).map (·.2.layer))]) := by
  have hperm : files.Perm (s.above r ++ middle ++ s.under r) := by
    refine hfiles.trans (((stays_perm s r).append_right _).trans ?_)
    rw [List.append_assoc, List.append_assoc]
    exact List.perm_append_comm.append_left _
  refine (holding_perm s.records hperm).trans ⟨.of_eq ?_, fun k t => ?_⟩
  · simp [holding, Layer.concat, List.flatMap_map]
  · simp only [holding, Layer.tombSeqs_concat, List.map_append, List.exists_mem_cons_iff,
      List.mem_append, or_and_right, exists_or, or_assoc, List.not_mem_nil, false_and,
      exists_false, or_false]

/-- A number in the records or in the files is that of a record, or in one of the files. -/
theorem seqsAt_holding {files : List (Nat × FileMetaData K V)} {k : K} {q : Nat}
    (hq : q ∈ (holding s.records files).seqsAt k) :
    (∃ record ∈ s.records, record.1 = q) ∨ ∃ n ∈ files, q ∈ n.2.layer.seqsAt k := by
  obtain ⟨l, hl, hq⟩ := Layer.seqsAt_concat.1 hq
  rcases List.mem_cons.1 hl with rfl | hl
  · obtain ⟨record, hin, -, heq⟩ := seqsAt_ofRecords.1 (((ofRecords_alike s.records).seqsAt k q).2 hq)
    exact .inl ⟨record, hin, heq⟩
  · obtain ⟨n, hn, rfl⟩ := List.mem_map.1 hl
    exact .inr ⟨n, hn, hq⟩

/-- The records, and the files above, are newer than the inputs, -/
theorem above_newer (h : s.Inv) (hr : r.Valid s.current) (hb : Base r s) :
    (holding s.records (s.above r)).NewerThan (.concat (r.inputs.map (·.layer))) := by
  intro k q hq t ht
  obtain ⟨_, hl, ht⟩ := Layer.seqsAt_concat.1 ht
  obtain ⟨g, hg, rfl⟩ := List.mem_map.1 hl
  rcases seqsAt_holding hq with ⟨record, hrec, rfl⟩ | ⟨n, hn, hq⟩
  · obtain ⟨l, hgl, -⟩ := exists_input hr hg
    exact (h.stored l g hgl k t ht).2 record hrec
  · obtain ⟨hn, hnot, hbelow⟩ := mem_above.1 hn
    exact stays_newer h hr hb hn hnot hbelow g hg k q hq t ht

/-- and newer than the files below; -/
theorem above_newer_under (h : s.Inv) (hb : Base r s) :
    (holding s.records (s.above r)).NewerThan (.concat ((s.under r).map (·.2.layer))) := by
  intro k q hq t ht
  obtain ⟨_, hl, ht⟩ := Layer.seqsAt_concat.1 ht
  obtain ⟨m, hm, rfl⟩ := List.mem_map.1 hl
  obtain ⟨hm, -, hbelow'⟩ := mem_under.1 hm
  rcases seqsAt_holding hq with ⟨record, hrec, rfl⟩ | ⟨n, hn, hq⟩
  · exact (h.stored m.1 m.2 (Version.mem_leveled.1 hm).2 k t ht).2 record hrec
  · obtain ⟨hn, -, hbelow⟩ := mem_above.1 hn
    exact newer_below h hb hn hm hbelow hbelow' k q hq t ht

omit [Inhabited V] in
/-- so are the inputs. -/
theorem inputs_newer_under (h : s.Inv) (hr : r.Valid s.current) :
    (Layer.concat (r.inputs.map (·.layer))).NewerThan (.concat ((s.under r).map (·.2.layer))) := by
  intro k q hq t ht
  obtain ⟨_, hl, hq⟩ := Layer.seqsAt_concat.1 hq
  obtain ⟨g, hg, rfl⟩ := List.mem_map.1 hl
  obtain ⟨_, hl, ht⟩ := Layer.seqsAt_concat.1 ht
  obtain ⟨m, hm, rfl⟩ := List.mem_map.1 hl
  obtain ⟨hm, -, hbelow⟩ := mem_under.1 hm
  obtain ⟨l, hgl, hle⟩ := exists_input hr hg
  have hlt : l < m.1 := by
    have := hbelow.1
    omega
  exact h.ordered.newer l m.1 g m.2 hgl (Version.mem_leveled.1 hm).2 (.inl hlt) k q hq t ht

/-- **An install** puts the outputs in the place of the inputs: what lies around them is newer than
the inputs, or in files below the outputs. -/
theorem held_install (h : s.Inv) (hr : r.Valid s.current) (hb : Base r s) :
    ∃ newer older : Layer K V,
      [newer, .concat (r.inputs.map (·.layer)), older].Pairwise Layer.NewerThan ∧
      (∀ e ∈ older.entries, ∃ n, Below r n ∧ n.1 < kNumLevels ∧ e ∈ n.2.table.entries) ∧
      s.held.Alike (.concat [newer, .concat (r.inputs.map (·.layer)), older]) ∧
      ∀ outputs : List (FileMetaData K V),
        (holding s.records (s.current.apply (r.installEdit outputs)).leveled).Alike
          (.concat [newer, .concat (outputs.map (·.layer)), older]) := by
  have hinputs : (leveledInputs r).map (·.2.layer) = r.inputs.map (·.layer) := by
    simp only [leveledInputs, Running.inputs, List.map_append, List.map_map]
    rfl
  refine ⟨holding s.records (s.above r), .concat ((s.under r).map (·.2.layer)), ?_, ?_, ?_,
    fun outputs => ?_⟩
  · simp only [List.pairwise_cons, List.mem_cons, List.not_mem_nil, or_false, forall_eq_or_imp,
      forall_eq, List.Pairwise.nil, and_true, IsEmpty.forall_iff, implies_true]
    exact ⟨⟨above_newer h hr hb, above_newer_under h hb⟩, inputs_newer_under h hr⟩
  · intro e he
    obtain ⟨_, hl, he⟩ := List.mem_flatMap.1 he
    obtain ⟨n, hn, rfl⟩ := List.mem_map.1 hl
    obtain ⟨hn, -, hbelow⟩ := mem_under.1 hn
    exact ⟨n, hbelow, (Version.mem_leveled.1 hn).1, he⟩
  · rw [← hinputs]
    exact holding_around s r (leveled_perm h hr hb)
  · have hnew : (r.installEdit outputs).newFiles.map (·.2.layer) = outputs.map (·.layer) := by
      simp [Running.installEdit]
    rw [← hnew]
    exact holding_around s r (leveled_install h hr outputs)

end
end
end Family
end LevelDb
