import LevelDb.Db.Catalog
import Mathlib.Data.List.Perm.Basic

/-!
# FAMILIES reads back

A number is read as it was written, and so is a line, if its id is one of a family; the file is,
exactly if no name has a newline (`readFamilies_writeFamilies`). In the runs that create no such
family, and do not use up the ids, FAMILIES names the families that were created and not dropped, in
the order of their ids, and its next id is larger than all of theirs (`recorded_reachable`).
-/

namespace LevelDb.Catalog

open Lines Transition

/-! ## Numbers -/

theorem isDigit_of_mem_decimal {n : Nat} {c : Char} (h : c ∈ decimal n) : c.isDigit = true :=
  Nat.isDigit_of_mem_toDigits (by decide) (by decide) h

theorem decimal_ne_nil (n : Nat) : decimal n ≠ [] := Nat.toDigits_ne_nil

theorem not_mem_decimal {c : Char} (h : c.isDigit = false) (n : Nat) : c ∉ decimal n := fun hin =>
  Bool.false_ne_true (h.symm.trans (isDigit_of_mem_decimal hin))

/-- A number is read up to what follows it. -/
theorem strtoul_decimal {n : Nat} (hn : n < 2 ^ 64) {rest : Bytes}
    (hrest : ∀ c ∈ rest.head?, c.isDigit = false) : strtoul (decimal n ++ rest) = n := by
  have hread := Numerals.strtoull_padded 1 hn hrest
  rw [Numerals.padded_one] at hread
  rw [strtoul, decimal, hread]
  exact Nat.mod_eq_of_lt hn

theorem uint32_strtoul {n : Nat} (hn : n < 2 ^ 32) {rest : Bytes}
    (hrest : ∀ c ∈ rest.head?, c.isDigit = false) : uint32 (strtoul (decimal n ++ rest)) = n := by
  rw [strtoul_decimal (by omega) hrest]
  exact Nat.mod_eq_of_lt hn

/-! ## Lines -/

/-- A line is read as it was written. -/
theorem readLine_familyLine {f : Nat × Bytes} (hpos : 0 < f.1) (hlt : f.1 < 2 ^ 32) :
    readLine (familyLine f) = .ok f := by
  have hspace : (familyLine f).findIdx? (· = ' ') = some (decimal f.1).length := by
    have hnone : (decimal f.1).findIdx? (· = ' ') = none := by
      refine List.findIdx?_eq_none_iff.2 fun c hc => decide_eq_false fun heq => ?_
      exact not_mem_decimal rfl f.1 (heq ▸ hc)
    rw [familyLine, List.findIdx?_append, hnone, List.findIdx?_cons]
    exact congrArg some (Nat.zero_add _)
  have hid : uint32 (strtoul (familyLine f)) = f.1 := by
    refine uint32_strtoul hlt fun c hc => ?_
    rw [List.head?_cons, Option.mem_some_iff] at hc
    rw [← hc]
    rfl
  simp only [readLine, hspace, hid]
  rw [if_neg hpos.ne', familyLine, ← List.drop_drop, List.drop_left]
  rfl

theorem not_mem_familyLine {f : Nat × Bytes} : '\n' ∉ familyLine f ↔ '\n' ∉ f.2 := by
  rw [familyLine, List.mem_append, List.mem_cons]
  have hdecimal := @not_mem_decimal '\n' rfl f.1
  have hne : '\n' ≠ ' ' := by decide
  tauto

theorem mapM_readLine {families : List (Nat × Bytes)}
    (hids : ∀ f ∈ families, 0 < f.1 ∧ f.1 < 2 ^ 32) :
    (families.map familyLine).mapM readLine = .ok families := by
  induction families with
  | nil => rfl
  | cons f families ih =>
    obtain ⟨hpos, hlt⟩ := hids f List.mem_cons_self
    rw [List.map_cons, List.mapM_cons, readLine_familyLine hpos hlt,
      ih fun g hg => hids g (List.mem_cons_of_mem f hg)]
    rfl

/-- What is read of the lines is read of one of them. -/
theorem mem_of_mapM_readLine {ls : List Bytes} {families : List (Nat × Bytes)}
    (h : ls.mapM readLine = .ok families) {f : Nat × Bytes} (hf : f ∈ families) :
    ∃ line ∈ ls, readLine line = .ok f := by
  induction ls generalizing families with
  | nil =>
    cases h
    cases hf
  | cons line ls ih =>
    rw [List.mapM_cons] at h
    cases hline : readLine line with
    | error e =>
      rw [hline] at h
      cases h
    | ok g =>
      cases hrest : ls.mapM readLine with
      | error e =>
        rw [hline, hrest] at h
        cases h
      | ok gs =>
        rw [hline, hrest] at h
        cases h
        rcases List.mem_cons.1 hf with rfl | hf
        · exact ⟨line, List.mem_cons_self, hline⟩
        · obtain ⟨l, hl, hread⟩ := ih hrest hf
          exact ⟨l, List.mem_cons_of_mem line hl, hread⟩

/-- No name that is read has a newline. -/
theorem not_mem_of_readFamilies {contents : Bytes} {families : List (Nat × Bytes)} {nextId : Nat}
    (h : readFamilies (some contents) = .ok (families, nextId)) : ∀ f ∈ families, '\n' ∉ f.2 := by
  intro f hf
  simp only [readFamilies] at h
  split at h
  · cases h
  · rename_i first rest hlines
    cases hrest : rest.mapM readLine with
    | error e =>
      rw [hrest] at h
      cases h
    | ok fs =>
      rw [hrest] at h
      cases h
      obtain ⟨line, hline, hread⟩ := mem_of_mapM_readLine hrest hf
      have hin : line ∈ lines '\n' contents :=
        List.mem_of_mem_filter (hlines ▸ List.mem_cons_of_mem first hline)
      rw [readLine] at hread
      split at hread
      · cases hread
      · simp only at hread
        split at hread
        · cases hread
        · cases hread
          exact fun hname => not_mem_of_mem_lines hin (List.mem_of_mem_drop hname)

/-- **The file is read back exactly if no name has a newline.** -/
theorem readFamilies_writeFamilies {families : List (Nat × Bytes)} {nextId : Nat}
    (hids : ∀ f ∈ families, 0 < f.1 ∧ f.1 < 2 ^ 32) (hnext : nextId < 2 ^ 32) :
    readFamilies (some (writeFamilies families nextId)) = .ok (families, nextId) ↔
      ∀ f ∈ families, '\n' ∉ f.2 := by
  refine ⟨not_mem_of_readFamilies, fun hplain => ?_⟩
  have hlines : (lines '\n' (writeFamilies families nextId)).filter (· ≠ []) =
      decimal nextId :: families.map familyLine := by
    rw [writeFamilies, lines_unlines, List.filter_eq_self]
    · intro line hline
      rcases List.mem_cons.1 hline with rfl | hline
      · exact decide_eq_true (decimal_ne_nil nextId)
      · obtain ⟨f, -, rfl⟩ := List.mem_map.1 hline
        exact decide_eq_true (List.append_ne_nil_of_right_ne_nil _ (List.cons_ne_nil _ _))
    · intro line hline
      rcases List.mem_cons.1 hline with rfl | hline
      · exact not_mem_decimal rfl nextId
      · obtain ⟨f, hf, rfl⟩ := List.mem_map.1 hline
        exact not_mem_familyLine.2 (hplain f hf)
  have hnextId : uint32 (strtoul (decimal nextId)) = nextId := by
    have := @uint32_strtoul nextId hnext [] nofun
    rwa [List.append_nil] at this
  simp only [readFamilies, hlines, mapM_readLine hids, hnextId]
  rfl

/-! ## The map of the families -/

section
variable {db : DBImpl} {cf : ColumnFamily} {cfs : List ColumnFamily}

theorem insert_eq (hnot : cf.id ∉ cfs.map (·.id)) :
    DBImpl.insert cf cfs = cfs.orderedInsert (fun a b => a.id ≤ b.id) cf := by
  rw [DBImpl.insert, List.filter_eq_self.2]
  exact fun c hc => decide_eq_true fun heq => hnot (heq ▸ List.mem_map_of_mem hc)

theorem mem_insert (hnot : cf.id ∉ cfs.map (·.id)) {c : ColumnFamily} :
    c ∈ DBImpl.insert cf cfs ↔ c = cf ∨ c ∈ cfs := by
  rw [insert_eq hnot]
  exact List.mem_orderedInsert _

theorem pairwise_insert (h : (cfs.map (·.id)).Pairwise (· < ·)) (hnot : cf.id ∉ cfs.map (·.id)) :
    ((DBImpl.insert cf cfs).map (·.id)).Pairwise (· < ·) := by
  rw [insert_eq hnot]
  induction cfs with
  | nil => exact List.pairwise_singleton _ _
  | cons c cfs ih =>
    rw [List.map_cons, List.pairwise_cons] at h
    rw [List.map_cons, List.mem_cons, not_or] at hnot
    rw [List.orderedInsert_cons]
    split
    · rename_i hle
      have hlt : cf.id < c.id := lt_of_le_of_ne hle hnot.1
      rw [List.map_cons, List.map_cons, List.pairwise_cons, List.pairwise_cons]
      refine ⟨fun id hid => ?_, h⟩
      rcases List.mem_cons.1 hid with rfl | hid
      · exact hlt
      · exact hlt.trans (h.1 id hid)
    · rename_i hnle
      rw [List.map_cons, List.pairwise_cons]
      refine ⟨fun id hid => ?_, ih h.2 hnot.2⟩
      obtain ⟨c', hc', rfl⟩ := List.mem_map.1 hid
      rcases (List.mem_orderedInsert _).1 hc' with rfl | hc'
      · exact not_le.1 hnle
      · exact h.1 _ (List.mem_map_of_mem hc')

/-- A family of a larger id goes to the end. -/
theorem insert_last (h : ∀ c ∈ cfs, c.id < cf.id) : DBImpl.insert cf cfs = cfs ++ [cf] := by
  rw [insert_eq]
  · induction cfs with
    | nil => rfl
    | cons c cfs ih =>
      rw [List.orderedInsert_cons, if_neg (not_le.2 (h c List.mem_cons_self)),
        ih fun c' hc' => h c' (List.mem_cons_of_mem c hc')]
      rfl
  · intro hin
    obtain ⟨c, hc, heq⟩ := List.mem_map.1 hin
    exact (h c hc).ne heq

/-- `DB::Open` finds the families in the order of their ids. -/
theorem foldl_insert {families : List (Nat × Bytes)}
    (h : (cfs.map (·.id) ++ families.map (·.1)).Pairwise (· < ·)) :
    families.foldl (fun cfs f => DBImpl.insert ⟨f.1, f.2, false⟩ cfs) cfs =
      cfs ++ families.map fun f => ⟨f.1, f.2, false⟩ := by
  induction families generalizing cfs with
  | nil => exact (List.append_nil _).symm
  | cons f families ih =>
    have hlast : ∀ c ∈ cfs, c.id < f.1 := fun c hc =>
      (List.pairwise_append.1 h).2.2 _ (List.mem_map_of_mem hc) _ List.mem_cons_self
    rw [List.foldl_cons, insert_last hlast, ih, List.append_assoc]
    · rfl
    · rw [List.map_append, List.append_assoc]
      exact h

theorem mem_onDisk {f : Nat × Bytes} :
    f ∈ db.onDisk ↔ ∃ cf ∈ db.cfs, cf.id ≠ 0 ∧ cf.dropped = false ∧ (cf.id, cf.name) = f := by
  simp only [DBImpl.onDisk, List.mem_map, List.mem_filter, decide_eq_true_eq, and_assoc]

theorem pairwise_onDisk (h : (db.cfs.map (·.id)).Pairwise (· < ·)) :
    (db.onDisk.map (·.1)).Pairwise (· < ·) := by
  rw [DBImpl.onDisk, List.map_map]
  exact h.sublist (List.filter_sublist.map _)

end

/-! ## The runs -/

/-- **What FAMILIES records**: the families that were created and not dropped, in the order of their
ids, which are never given out again. -/
structure Recorded (s : State) (families : List (Nat × Bytes)) (nextId : Nat) : Prop where
  read : readFamilies s.file = .ok (families, nextId)
  order : (families.map (·.1)).Pairwise (· < ·)
  mem : ∀ f, f ∈ families ↔ f ∈ s.created ∧ f.1 ∉ s.dropped
  next : ∀ f ∈ s.created, f.1 < nextId
  nodup : (s.created.map (·.1)).Nodup
  listed : listColumnFamilies s.file = .ok (kDefaultColumnFamilyName :: families.map (·.2))
  live : ∀ db, s.db = some db → db.onDisk = families

/-- The families of the process, those under creation, and the ids that are left. -/
structure Process (created : List (Nat × Bytes)) (nextId : Nat) (db : DBImpl) : Prop where
  order : (db.cfs.map (·.id)).Pairwise (· < ·)
  next : nextId ≤ db.nextFamilyId
  lt_max : db.nextFamilyId < 2 ^ 32
  lt : ∀ cf ∈ db.cfs, cf.id < db.nextFamilyId
  plain : ∀ cf ∈ db.cfs, '\n' ∉ cf.name
  creating : ∀ cf ∈ db.creating, 0 < cf.id ∧ cf.id < db.nextFamilyId ∧ '\n' ∉ cf.name ∧
    cf.dropped = false ∧ cf.id ∉ db.cfs.map (·.id) ∧ cf.id ∉ created.map (·.1)
  nodup : (db.creating.map (·.id)).Nodup

structure Inv (s : State) (families : List (Nat × Bytes)) (nextId : Nat) : Prop where
  recorded : Recorded s families nextId
  ids : ∀ f ∈ families, 0 < f.1 ∧ f.1 < nextId ∧ '\n' ∉ f.2
  next : 0 < nextId ∧ nextId < 2 ^ 32
  dropped : ∀ id ∈ s.dropped, id ∈ s.created.map (·.1)
  process : ∀ db, s.db = some db → Process s.created nextId db

section
variable {s s' : State} {db db' : DBImpl} {families : List (Nat × Bytes)} {nextId : Nat}

theorem listed_of_read {file : Option Bytes} (h : readFamilies file = .ok (families, nextId)) :
    listColumnFamilies file = .ok (kDefaultColumnFamilyName :: families.map (·.2)) := by
  rw [listColumnFamilies, h]
  rfl

/-- The process goes on, and FAMILIES stays. -/
theorem Inv.setDB (h : Inv s families nextId) (hdisk : db.onDisk = families)
    (hprocess : Process s.created nextId db) : Inv { s with db := some db } families nextId := by
  obtain ⟨⟨h1, h2, h3, h4, h5, h6, -⟩, h7, h8, h9, -⟩ := h
  refine ⟨⟨h1, h2, h3, h4, h5, h6, fun d hd => ?_⟩, h7, h8, h9, fun d hd => ?_⟩
  · cases hd
    exact hdisk
  · cases hd
    exact hprocess

/-- FAMILIES is written with the live families. -/
theorem inv_write {created : List (Nat × Bytes)} {dropped : List Nat}
    (hprocess : Process created db.nextFamilyId db)
    (hpos : 0 < db.nextFamilyId)
    (hmem : ∀ f, f ∈ db.onDisk ↔ f ∈ created ∧ f.1 ∉ dropped)
    (hnext : ∀ f ∈ created, f.1 < db.nextFamilyId) (hnodup : (created.map (·.1)).Nodup)
    (hdropped : ∀ id ∈ dropped, id ∈ created.map (·.1)) :
    Inv ⟨some db.write, some db, created, dropped⟩ db.onDisk db.nextFamilyId := by
  have hlt := hprocess.lt_max
  have hids : ∀ f ∈ db.onDisk, 0 < f.1 ∧ f.1 < db.nextFamilyId ∧ '\n' ∉ f.2 := fun f hf => by
    obtain ⟨cf, hcf, hne, -, rfl⟩ := mem_onDisk.1 hf
    exact ⟨Nat.pos_of_ne_zero hne, hprocess.lt cf hcf, hprocess.plain cf hcf⟩
  have hread : readFamilies (some db.write) = .ok (db.onDisk, db.nextFamilyId) :=
    (readFamilies_writeFamilies (fun f hf => ⟨(hids f hf).1, (hids f hf).2.1.trans hlt⟩) hlt).2
      fun f hf => (hids f hf).2.2
  refine ⟨⟨hread, pairwise_onDisk hprocess.order, hmem, hnext, hnodup, listed_of_read hread,
    fun d hd => ?_⟩, hids, ⟨hpos, hlt⟩, hdropped, fun d hd => ?_⟩
  · cases hd
    rfl
  · cases hd
    exact hprocess

/-- `DB::Open` finds what FAMILIES records. -/
theorem inv_openDB (h : Inv s families nextId) :
    Inv { s with db := some (State.openDB families nextId) } families nextId := by
  have hpairwise : (((0, kDefaultColumnFamilyName) :: families).map (·.1)).Pairwise (· < ·) := by
    refine List.pairwise_cons.2 ⟨fun id hid => ?_, h.recorded.order⟩
    obtain ⟨f, hf, rfl⟩ := List.mem_map.1 hid
    exact (h.ids f hf).1
  have hcfs : (State.openDB families nextId).cfs =
      ((0, kDefaultColumnFamilyName) :: families).map fun f => ⟨f.1, f.2, false⟩ :=
    foldl_insert hpairwise
  refine h.setDB ?_ ⟨?_, le_rfl, h.next.2, fun cf hcf => ?_, fun cf hcf => ?_, nofun, .nil⟩
  · rw [DBImpl.onDisk, hcfs, List.map_cons, List.filter_cons_of_neg (by simp),
      List.filter_eq_self.2, List.map_map]
    · exact List.map_id _
    · intro cf hcf
      obtain ⟨f, hf, rfl⟩ := List.mem_map.1 hcf
      exact decide_eq_true ⟨(h.ids f hf).1.ne', rfl⟩
  · rw [hcfs, List.map_map]
    exact hpairwise
  all_goals
    rw [hcfs] at hcf
    obtain ⟨f, hf, rfl⟩ := List.mem_map.1 hcf
    rcases List.mem_cons.1 hf with rfl | hf
  · exact h.next.1
  · exact (h.ids f hf).2.1
  · show '\n' ∉ kDefaultColumnFamilyName
    decide
  · exact (h.ids f hf).2.2

theorem inv_createColumnFamily (h : Inv s families nextId) (hdb : s.db = some db) {name : Bytes}
    (hplain : '\n' ∉ name) (hlt : db.nextFamilyId + 1 < 2 ^ 32)
    (hcreate : db.createColumnFamily name = some db') :
    Inv { s with db := some db' } families nextId := by
  have hp := h.process db hdb
  have hnext : uint32 (db.nextFamilyId + 1) = db.nextFamilyId + 1 := Nat.mod_eq_of_lt hlt
  rw [DBImpl.createColumnFamily] at hcreate
  split at hcreate
  swap
  · cases hcreate
  cases hcreate
  refine h.setDB (h.recorded.live db hdb) ⟨hp.order, ?_, ?_, fun cf hcf => ?_, hp.plain,
    fun cf hcf => ?_, ?_⟩
  · rw [hnext]
    exact hp.next.trans (Nat.le_succ _)
  · rw [hnext]
    exact hlt
  · rw [hnext]
    exact (hp.lt cf hcf).trans (Nat.lt_succ_self _)
  · rw [hnext]
    rcases List.mem_append.1 hcf with hcf | hcf
    · obtain ⟨c1, c2, c3⟩ := hp.creating cf hcf
      exact ⟨c1, c2.trans (Nat.lt_succ_self _), c3⟩
    · rw [List.mem_singleton.1 hcf]
      refine ⟨h.next.1.trans_le hp.next, Nat.lt_succ_self _, hplain, rfl, fun hin => ?_, fun hin => ?_⟩
      · obtain ⟨c, hc, heq⟩ := List.mem_map.1 hin
        exact (hp.lt c hc).ne heq
      · obtain ⟨f, hf, heq⟩ := List.mem_map.1 hin
        exact ((h.recorded.next f hf).trans_le hp.next).ne heq
  · rw [List.map_append, List.map_singleton, ← List.concat_eq_append]
    refine hp.nodup.concat fun hin => ?_
    obtain ⟨c, hc, heq⟩ := List.mem_map.1 hin
    exact (hp.creating c hc).2.1.ne heq

/-- A creation under way ends. -/
theorem Process.erase {created : List (Nat × Bytes)} (h : Process created nextId db) (i : Nat) :
    Process created nextId { db with creating := db.creating.eraseIdx i } :=
  ⟨h.order, h.next, h.lt_max, h.lt, h.plain, fun cf hcf => h.creating cf (List.mem_of_mem_eraseIdx hcf),
    h.nodup.sublist ((List.eraseIdx_sublist _ _).map _)⟩

theorem inv_commitColumnFamily (h : Inv s families nextId) (hdb : s.db = some db) {i : Nat}
    {cf : ColumnFamily} (hcf : db.creating[i]? = some cf) :
    ∃ families' nextId', Inv ⟨some (db.commitColumnFamily i cf).write,
      some (db.commitColumnFamily i cf), s.created ++ [(cf.id, cf.name)], s.dropped⟩
        families' nextId' := by
  have hp := h.process db hdb
  obtain ⟨hpos, hlt, hplain, hlive, hnot, hnew⟩ := hp.creating cf (List.mem_of_getElem? hcf)
  have hondisk := h.recorded.live db hdb
  have hmem := @mem_insert cf db.cfs hnot
  obtain ⟨hi, rfl⟩ := List.getElem?_eq_some_iff.1 hcf
  refine ⟨_, _, inv_write ⟨pairwise_insert hp.order hnot, le_rfl, hp.lt_max, fun c hc => ?_,
    fun c hc => ?_, fun c hc => ?_, (hp.erase i).nodup⟩ (h.next.1.trans_le hp.next) (fun f => ?_)
    (fun f hf => ?_) ?_ fun id hid => ?_⟩
  · rcases hmem.1 hc with rfl | hc
    · exact hlt
    · exact hp.lt c hc
  · rcases hmem.1 hc with rfl | hc
    · exact hplain
    · exact hp.plain c hc
  · obtain ⟨c1, c2, c3, c4, c5, c6⟩ := (hp.erase i).creating c hc
    -- the ids under creation are distinct
    have hne : c.id ≠ db.creating[i].id := by
      intro heq
      have hperm := (List.getElem_cons_eraseIdx_perm hi).map (·.id)
      rw [List.map_cons] at hperm
      exact (List.nodup_cons.1 (hperm.nodup_iff.2 hp.nodup)).1 (heq ▸ List.mem_map_of_mem hc)
    refine ⟨c1, c2, c3, c4, fun hin => ?_, fun hin => ?_⟩
    · obtain ⟨c', hc', heq⟩ := List.mem_map.1 hin
      rcases hmem.1 hc' with rfl | hc'
      · exact hne heq.symm
      · exact c5 (heq ▸ List.mem_map_of_mem hc')
    · rw [List.map_append, List.mem_append] at hin
      exact hin.elim c6 fun hin => hne (List.mem_singleton.1 hin)
  · rw [mem_onDisk, List.mem_append, List.mem_singleton]
    constructor
    · rintro ⟨c, hc, hne, hlive', rfl⟩
      rcases hmem.1 hc with rfl | hc
      · exact ⟨.inr rfl, fun hin => hnew (h.dropped _ hin)⟩
      · have hold := (h.recorded.mem (c.id, c.name)).1
          (hondisk ▸ mem_onDisk.2 ⟨c, hc, hne, hlive', rfl⟩)
        exact ⟨.inl hold.1, hold.2⟩
    · rintro ⟨hf | rfl, hnotin⟩
      · obtain ⟨c, hc, hrest⟩ := mem_onDisk.1 (hondisk.symm ▸ (h.recorded.mem f).2 ⟨hf, hnotin⟩)
        exact ⟨c, hmem.2 (.inr hc), hrest⟩
      · exact ⟨_, hmem.2 (.inl rfl), hpos.ne', hlive, rfl⟩
  · rcases List.mem_append.1 hf with hf | hf
    · exact (h.recorded.next f hf).trans_le hp.next
    · rw [List.mem_singleton.1 hf]
      exact hlt
  · rw [List.map_append, List.map_singleton, ← List.concat_eq_append]
    exact h.recorded.nodup.concat hnew
  · rw [List.map_append]
    exact List.mem_append_left _ (h.dropped id hid)

theorem mem_onDisk_dropColumnFamily {id : Nat} {f : Nat × Bytes} :
    f ∈ (db.dropColumnFamily id).onDisk ↔ f ∈ db.onDisk ∧ f.1 ≠ id := by
  rw [mem_onDisk, mem_onDisk]
  constructor
  · rintro ⟨c, hc, hne, hlive, rfl⟩
    obtain ⟨c0, hc0, rfl⟩ := List.mem_map.1 hc
    split at hne
    · rename_i heq
      rw [if_pos heq] at hlive
      cases hlive
    · rename_i heq
      rw [if_neg heq] at hlive ⊢
      exact ⟨⟨c0, hc0, hne, hlive, rfl⟩, heq⟩
  · rintro ⟨⟨c, hc, hne, hlive, rfl⟩, hid⟩
    exact ⟨c, List.mem_map.2 ⟨c, hc, if_neg hid⟩, hne, hlive, rfl⟩

theorem inv_dropColumnFamily (h : Inv s families nextId) (hdb : s.db = some db) {id : Nat}
    (hid : id ≠ 0) (hfind : ∃ cf ∈ db.cfs, cf.id = id ∧ cf.dropped = false) :
    ∃ families' nextId', Inv ⟨some (db.dropColumnFamily id).write,
      some (db.dropColumnFamily id), s.created, s.dropped ++ [id]⟩ families' nextId' := by
  have hp := h.process db hdb
  have hondisk := h.recorded.live db hdb
  have hmem : ∀ c ∈ (db.dropColumnFamily id).cfs, ∃ c0 ∈ db.cfs, c.id = c0.id ∧ c.name = c0.name := by
    intro c hc
    obtain ⟨c0, hc0, rfl⟩ := List.mem_map.1 hc
    split
    · exact ⟨c0, hc0, rfl, rfl⟩
    · exact ⟨c0, hc0, rfl, rfl⟩
  have hids : (db.dropColumnFamily id).cfs.map (·.id) = db.cfs.map (·.id) := by
    rw [DBImpl.dropColumnFamily, List.map_map]
    refine List.map_congr_left fun c _ => ?_
    rw [Function.comp_apply]
    split
    · rfl
    · rfl
  refine ⟨_, _, inv_write ⟨hids.symm ▸ hp.order, le_rfl, hp.lt_max, fun c hc => ?_,
    fun c hc => ?_, hids.symm ▸ hp.creating, hp.nodup⟩ (h.next.1.trans_le hp.next) (fun f => ?_)
    (fun f hf => (h.recorded.next f hf).trans_le hp.next) h.recorded.nodup fun id' hid' => ?_⟩
  · obtain ⟨c0, hc0, heq, -⟩ := hmem c hc
    rw [heq]
    exact hp.lt c0 hc0
  · obtain ⟨c0, hc0, -, heq⟩ := hmem c hc
    rw [heq]
    exact hp.plain c0 hc0
  · rw [mem_onDisk_dropColumnFamily, hondisk, h.recorded.mem, List.mem_append, List.mem_singleton,
      not_or, and_assoc]
  · rcases List.mem_append.1 hid' with hid' | hid'
    · exact h.dropped id' hid'
    · obtain ⟨cf, hcf, heq, hlive⟩ := hfind
      rw [List.mem_singleton.1 hid', ← heq]
      have hin : (cf.id, cf.name) ∈ families :=
        hondisk ▸ mem_onDisk.2 ⟨cf, hcf, heq.symm ▸ hid, hlive, rfl⟩
      exact List.mem_map_of_mem ((h.recorded.mem _).1 hin).1

/-- A dropped family leaves the map. -/
theorem inv_destroy (h : Inv s families nextId) (hdb : s.db = some db) (id : Nat) :
    Inv { s with db := some { db with
      cfs := db.cfs.filter fun cf => ¬ (cf.id = id ∧ cf.dropped = true) } } families nextId := by
  have hp := h.process db hdb
  have hsub : (db.cfs.filter fun cf => ¬ (cf.id = id ∧ cf.dropped = true)).Sublist db.cfs :=
    List.filter_sublist
  refine h.setDB ?_ ⟨hp.order.sublist (hsub.map _), hp.next, hp.lt_max,
    fun c hc => hp.lt c (hsub.subset hc), fun c hc => hp.plain c (hsub.subset hc), fun c hc => ?_,
    hp.nodup⟩
  · rw [← h.recorded.live db hdb, DBImpl.onDisk, DBImpl.onDisk, List.filter_filter]
    refine congrArg _ (List.filter_congr fun c _ => ?_)
    rw [Bool.and_eq_left_iff_imp]
    intro hlive
    refine decide_eq_true fun hdropped => ?_
    rw [(of_decide_eq_true hlive).2] at hdropped
    exact Bool.false_ne_true hdropped.2
  · obtain ⟨c1, c2, c3, c4, c5, c6⟩ := hp.creating c hc
    exact ⟨c1, c2, c3, c4, fun hin => c5 ((hsub.map _).subset hin), c6⟩

/-- Every step keeps it. -/
theorem inv_step (h : Inv s families nextId) {a : Action} (hok : s.Plain a)
    (hstep : system.step s a = some s') : ∃ families' nextId', Inv s' families' nextId' := by
  replace hstep : s.step a = some s' := hstep
  cases hdb : s.db with
  | none =>
    cases a with
    | openDB =>
      simp only [State.step, hdb, h.recorded.read, Option.some.injEq] at hstep
      subst hstep
      exact ⟨_, _, inv_openDB h⟩
    | _ => simp only [State.step, hdb, reduceCtorEq] at hstep
  | some db =>
    simp only [State.step, hdb] at hstep
    cases a with
    | openDB => cases hstep
    | createColumnFamily name =>
      obtain ⟨db', hcreate, rfl⟩ := Option.map_eq_some_iff.1 hstep
      exact ⟨_, _, inv_createColumnFamily h hdb hok.1 (hok.2 db hdb) hcreate⟩
    | failCreate i =>
      simp only [State.stepDB] at hstep
      split at hstep
      · cases hstep
        exact ⟨_, _, h.setDB (h.recorded.live db hdb) ((h.process db hdb).erase i)⟩
      · cases hstep
    | commitColumnFamily i =>
      obtain ⟨cf, hcf, rfl⟩ := Option.map_eq_some_iff.1 hstep
      exact inv_commitColumnFamily h hdb hcf
    | dropColumnFamily id =>
      simp only [State.stepDB] at hstep
      split at hstep
      · rename_i hid
        cases hstep
        exact inv_dropColumnFamily h hdb hid.1 hid.2
      · cases hstep
    | destroyColumnFamilyHandle id =>
      cases hstep
      exact ⟨_, _, inv_destroy h hdb id⟩
    | crash =>
      cases hstep
      obtain ⟨⟨h1, h2, h3, h4, h5, h6, -⟩, h7, h8, h9, -⟩ := h
      exact ⟨_, _, ⟨h1, h2, h3, h4, h5, h6, nofun⟩, h7, h8, h9, nofun⟩

/-- **FAMILIES always reads back**, in a run that creates families of names without a newline, and
not with the last id. -/
theorem recorded_reachable (h : system.ReachableBy State.Plain s) :
    ∃ families nextId, Recorded s families nextId := by
  have hinv : ∃ families nextId, Inv s families nextId := by
    refine h.invariant (P := fun s => ∃ families nextId, Inv s families nextId) (fun s hs => ?_)
      fun s a s' ⟨families, nextId, hs⟩ hok hstep => inv_step hs hok hstep
    rw [show s = _ from hs]
    exact ⟨[], 1, ⟨rfl, .nil, fun _ => ⟨nofun, nofun⟩, nofun, .nil, rfl, nofun⟩, nofun, by decide,
      nofun, nofun⟩
  obtain ⟨families, nextId, hinv⟩ := hinv
  exact ⟨families, nextId, hinv.recorded⟩

end

/-! ## Two runs -/

/-- Two creations at once, a drop, a crash, and another creation of a name that was there. -/
def familiesRun : List Action :=
  [.openDB, .createColumnFamily "a b".toList, .createColumnFamily [], .commitColumnFamily 1,
    .commitColumnFamily 0, .dropColumnFamily 1, .crash, .openDB, .createColumnFamily "a b".toList,
    .commitColumnFamily 0]

theorem recorded_familiesRun : ∃ s, system.runBy State.Plain ⟨none, none, [], []⟩ familiesRun = some s ∧
    readFamilies s.file = .ok ([(2, []), (3, "a b".toList)], 4) ∧
    ∃ families nextId, Recorded s families nextId := by
  have hrun : (system.runBy State.Plain ⟨none, none, [], []⟩ familiesRun).any (fun s =>
      readFamilies s.file = .ok ([(2, []), (3, "a b".toList)], 4)) = true := by decide +kernel
  obtain ⟨s, hs, hread⟩ := (Option.any_eq_true _ _).1 hrun
  have hinit : system.ReachableBy State.Plain ⟨none, none, [], []⟩ := .init rfl
  exact ⟨s, hs, of_decide_eq_true hread, recorded_reachable (hinit.runBy hs)⟩

/-- **A name with a newline** makes FAMILIES unreadable. -/
theorem not_recorded : ¬ ∀ s, system.Reachable s → ∃ families nextId, Recorded s families nextId := by
  intro hall
  have hrun : (system.run ⟨none, none, [], []⟩
      [.openDB, .createColumnFamily "a\nb".toList, .commitColumnFamily 0]).any (fun s =>
        readFamilies s.file = .error ("malformed FAMILIES line", "b".toList)) = true := by
    decide +kernel
  obtain ⟨s, hs, hread⟩ := (Option.any_eq_true _ _).1 hrun
  have hinit : system.Reachable ⟨none, none, [], []⟩ := .init rfl
  obtain ⟨families, nextId, hrecorded⟩ := hall s (hinit.run hs)
  rw [hrecorded.read] at hread
  cases of_decide_eq_true hread

end LevelDb.Catalog
