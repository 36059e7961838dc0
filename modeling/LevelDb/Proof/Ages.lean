import LevelDb.Proof.Levels

/-!
# Layers are ordered by age

`Family.layers_newerThan`: in every reachable state of a family, all that a newer layer holds at a
key is newer than all that an older layer holds there.

Of a version this says that of two files in different layers the one in the newer layer is newer
(`Version.Ordered.newer`), and it takes with it that the files of a deeper level have no key in
common (`apart`). While a compaction runs, the files of its level that are not among its inputs
are newer than those that are, and the files of the next level that are not among its inputs have
no key in common with what comes down to them (`Running.Valid`). A flush keeps both
(`Version.Ordered.add`, `Running.Valid.add`), and with both the outputs may take the inputs' place
(`Version.Ordered.replace`).
-/

namespace LevelDb

variable {K V : Type} [LinearOrder K]

/-- A file `f` on level `l` is in a newer layer than `g` on level `l'`. -/
def InNewerLayer (l : Nat) (f : FileMetaData K V) (l' : Nat) (g : FileMetaData K V) : Prop :=
  l < l' ∨ l = 0 ∧ l' = 0 ∧ g.number < f.number

/-- The files of a version are ordered by age. -/
structure Version.Ordered (v : Version K V) : Prop where
  nodup : ∀ l, (v.files l).Nodup
  unique : ∀ l l' f g, f ∈ v.files l → g ∈ v.files l' → f.number = g.number → l = l' ∧ f = g
  beyond : ∀ l f, f ∈ v.files l → l < kNumLevels
  newer : ∀ l l' f g, f ∈ v.files l → g ∈ v.files l' → InNewerLayer l f l' g →
    f.layer.NewerThan g.layer
  apart : ∀ l f g, 0 < l → f ∈ v.files l → g ∈ v.files l → f ≠ g →
    Disjoint f.layer.keys g.layer.keys

/-- The inputs of a compaction are in the version and may be replaced. -/
structure Running.Valid (r : Running K V) (v : Version K V) : Prop where
  level_lt : r.level + 1 < kNumLevels
  mem0 : ∀ f ∈ r.inputs0, f ∈ v.files r.level
  mem1 : ∀ f ∈ r.inputs1, f ∈ v.files (r.level + 1)
  left0 : ∀ g ∈ v.files r.level, g ∉ r.inputs0 → ∀ f ∈ r.inputs0, g.layer.NewerThan f.layer
  left1 : ∀ g ∈ v.files (r.level + 1), g ∉ r.inputs1 → ∀ f ∈ r.inputs0,
    Disjoint g.layer.keys f.layer.keys

/-- A version that lists the same files. -/
theorem Version.Ordered.congr {v v' : Version K V} (h : v.Ordered) (hnodup : ∀ l, (v'.files l).Nodup)
    (hfiles : ∀ l f, f ∈ v'.files l ↔ f ∈ v.files l) : v'.Ordered where
  nodup := hnodup
  unique l l' f g hf hg := h.unique l l' f g ((hfiles l f).1 hf) ((hfiles l' g).1 hg)
  beyond l f hf := h.beyond l f ((hfiles l f).1 hf)
  newer l l' f g hf hg := h.newer l l' f g ((hfiles l f).1 hf) ((hfiles l' g).1 hg)
  apart l f g hl hf hg := h.apart l f g hl ((hfiles l f).1 hf) ((hfiles l g).1 hg)

theorem Running.Valid.congr {v v' : Version K V} {r : Running K V} (h : r.Valid v)
    (hfiles : ∀ l f, f ∈ v'.files l ↔ f ∈ v.files l) : r.Valid v' where
  level_lt := h.level_lt
  mem0 f hf := (hfiles _ f).2 (h.mem0 f hf)
  mem1 f hf := (hfiles _ f).2 (h.mem1 f hf)
  left0 g hg := h.left0 g ((hfiles _ g).1 hg)
  left1 g hg := h.left1 g ((hfiles _ g).1 hg)

/-! ## Flushes -/

section
variable {v : Version K V} {f : FileMetaData K V} {p : Nat}
  (hfresh : ∀ l, ∀ g ∈ v.files l, g.number < f.number)
  (hnew : ∀ l, ∀ g ∈ v.files l, f.layer.NewerThan g.layer)
  (hapart : 0 < p → ∀ l ≤ p, ∀ g ∈ v.files l, Disjoint f.layer.keys g.layer.keys)
include hfresh hnew hapart

omit hfresh hnew hapart in
theorem Version.mem_add {l : Nat} {g : FileMetaData K V} :
    g ∈ (v.apply { newFiles := [(p, f)] }).files l ↔ g ∈ v.files l ∨ l = p ∧ g = f := by
  simp [Version.mem_apply]

/-- A new file that is newer than all others may go to any level down to which it has no key in
common with another. -/
theorem Version.Ordered.add (h : v.Ordered) (hp : p < kNumLevels) :
    (v.apply { newFiles := [(p, f)] }).Ordered where
  nodup l := by
    refine Version.nodup_apply (h.nodup l) (by simp) fun g hg hin => ?_
    simp only [List.mem_singleton, Prod.mk.injEq] at hg
    obtain ⟨-, rfl⟩ := hg
    exact absurd (hfresh l g hin) (Nat.lt_irrefl _)
  unique l l' a b ha hb hab := by
    rcases Version.mem_add.1 ha with hav | ⟨rfl, rfl⟩ <;>
      rcases Version.mem_add.1 hb with hbv | ⟨rfl, rfl⟩
    · exact h.unique l l' a b hav hbv hab
    · have := hfresh l a hav
      omega
    · have := hfresh l' b hbv
      omega
    · exact ⟨rfl, rfl⟩
  beyond l a ha := by
    rcases Version.mem_add.1 ha with hav | ⟨rfl, -⟩
    · exact h.beyond l a hav
    · exact hp
  newer l l' a b ha hb hab := by
    rcases Version.mem_add.1 ha with hav | ⟨rfl, rfl⟩ <;>
      rcases Version.mem_add.1 hb with hbv | ⟨rfl, rfl⟩
    · exact h.newer l l' a b hav hbv hab
    · rcases hab with hlt | ⟨-, -, hlt⟩
      · exact Layer.newerThan_of_disjoint (hapart (by omega) l hlt.le a hav).symm
      · have := hfresh l a hav
        omega
    · exact hnew l' b hbv
    · rcases hab with hlt | ⟨-, -, hlt⟩ <;> omega
  apart l a b hl ha hb hab := by
    rcases Version.mem_add.1 ha with hav | ⟨rfl, rfl⟩ <;>
      rcases Version.mem_add.1 hb with hbv | ⟨hlp, rfl⟩
    · exact h.apart l a b hl hav hbv hab
    · exact (hapart (by omega) l (by omega) a hav).symm
    · exact hapart hl l le_rfl b hbv
    · exact absurd rfl hab

theorem Running.Valid.add {r : Running K V} (h : r.Valid v) :
    r.Valid (v.apply { newFiles := [(p, f)] }) where
  level_lt := h.level_lt
  mem0 a ha := Version.mem_add.2 (.inl (h.mem0 a ha))
  mem1 a ha := Version.mem_add.2 (.inl (h.mem1 a ha))
  left0 a ha hin b hb := by
    rcases Version.mem_add.1 ha with ha | ⟨hp, rfl⟩
    · exact h.left0 a ha hin b hb
    · exact hnew r.level b (h.mem0 b hb)
  left1 a ha hin b hb := by
    rcases Version.mem_add.1 ha with ha | ⟨hp, rfl⟩
    · exact h.left1 a ha hin b hb
    · exact hapart (by omega) r.level (by omega) b (h.mem0 b hb)

end

/-! ## Compactions -/

/-- The inputs that are picked may be replaced. -/
theorem Version.Ordered.valid {v : Version K V} (h : v.Ordered) {level : Nat}
    {inputs0 inputs1 : List Nat} (hp : Picked v level inputs0 inputs1) {r : Running K V}
    (hlevel : r.level = level) (h0 : r.inputs0 = v.pick level inputs0)
    (h1 : r.inputs1 = v.pick (level + 1) inputs1) : r.Valid v := by
  subst hlevel
  -- what does not overlap the range of the inputs has no key in common with one
  have hdisj : ∀ g f, ¬ OverlapsHull (v.pick r.level inputs0) g → f ∈ v.pick r.level inputs0 →
      Disjoint g.layer.keys f.layer.keys := by
    intro g f hg hf
    refine (FileMetaData.disjoint_of_not_overlaps fun hover => hg ?_).symm
    exact ⟨⟨f, hf, hover.1⟩, f, hf, hover.2⟩
  refine ⟨hp.level_lt, ?_, ?_, ?_, ?_⟩
  · intro f hf
    rw [h0] at hf
    exact (Version.mem_pick.1 hf).1
  · intro f hf
    rw [h1] at hf
    exact (Version.mem_pick.1 hf).1
  · intro g hg hnot f hf
    rw [h0] at hnot hf
    apply Layer.newerThan_of_disjoint
    rcases Nat.eq_zero_or_pos r.level with hlevel | hlevel
    · refine hdisj g f (fun hover => hnot ?_) hf
      exact Version.mem_pick.2 ⟨hg, hp.overlapping0 hlevel g (hlevel ▸ hg) hover⟩
    · refine h.apart _ g f hlevel hg (Version.mem_pick.1 hf).1 ?_
      rintro rfl
      exact hnot hf
  · intro g hg hnot f hf
    rw [h1] at hnot
    rw [h0] at hf
    exact hdisj g f (fun hover => hnot (Version.mem_pick.2 ⟨hg, hp.overlapping1 g hg hover⟩)) hf

section
variable {v : Version K V} {r : Running K V} {outputs : List (FileMetaData K V)}

/-- What is left after the install, and what is new. -/
theorem Running.mem_install {l : Nat} {g : FileMetaData K V}
    (hg : g ∈ (v.apply (r.installEdit outputs)).files l) :
    (g ∈ v.files l ∧ (l = r.level → g ∉ r.inputs0) ∧ (l = r.level + 1 → g ∉ r.inputs1) ∧
        (l, g.number) ∉ (r.installEdit outputs).deletedFiles) ∨
      l = r.level + 1 ∧ g ∈ outputs := by
  rcases Version.mem_apply.1 hg with ⟨hg, hnot⟩ | hg
  · refine .inl ⟨hg, ?_, ?_, hnot⟩
    · rintro rfl hin
      exact hnot (List.mem_append_left _ (List.mem_map_of_mem hin))
    · rintro rfl hin
      exact hnot (List.mem_append_right _ (List.mem_map_of_mem hin))
  · obtain ⟨f, hf, heq⟩ := List.mem_map.1 hg
    simp only [Prod.mk.injEq] at heq
    obtain ⟨rfl, rfl⟩ := heq
    exact .inr ⟨rfl, hf⟩

variable (h : v.Ordered) (hr : r.Valid v)
  (hfrom : ∀ f ∈ outputs, ∀ k, ∀ s ∈ f.layer.seqsAt k, ∃ g ∈ r.inputs, s ∈ g.layer.seqsAt k)
include h hr hfrom

/-- What stays in a layer above the outputs is newer than they are. -/
theorem Version.Ordered.newerThan_output {l : Nat} {a b : FileMetaData K V} (hl : l < r.level + 1)
    (ha : a ∈ v.files l) (hnot : l = r.level → a ∉ r.inputs0) (hb : b ∈ outputs) :
    a.layer.NewerThan b.layer := by
  intro k s hs t ht
  obtain ⟨g, hg, ht⟩ := hfrom b hb k t ht
  rcases List.mem_append.1 hg with hg | hg
  · by_cases hlevel : l = r.level
    · subst hlevel
      exact hr.left0 a ha (hnot rfl) g hg k s hs t ht
    · exact h.newer l _ a g ha (hr.mem0 g hg) (.inl (by omega)) k s hs t ht
  · exact h.newer l _ a g ha (hr.mem1 g hg) (.inl hl) k s hs t ht

/-- They are newer than what is below. -/
theorem Version.Ordered.output_newerThan {l : Nat} {a b : FileMetaData K V} (hl : r.level + 1 < l)
    (ha : a ∈ outputs) (hb : b ∈ v.files l) : a.layer.NewerThan b.layer := by
  intro k s hs t ht
  obtain ⟨g, hg, hs⟩ := hfrom a ha k s hs
  rcases List.mem_append.1 hg with hg | hg
  · exact h.newer _ l g b (hr.mem0 g hg) hb (.inl (by omega)) k s hs t ht
  · exact h.newer _ l g b (hr.mem1 g hg) hb (.inl hl) k s hs t ht

/-- What stays beside the outputs has no key in common with them. -/
theorem Version.Ordered.disjoint_output {a b : FileMetaData K V} (ha : a ∈ v.files (r.level + 1))
    (hnot : a ∉ r.inputs1) (hb : b ∈ outputs) : Disjoint a.layer.keys b.layer.keys := by
  refine Set.disjoint_left.2 fun k hka hkb => ?_
  obtain ⟨s, hs⟩ := hkb
  obtain ⟨g, hg, hs⟩ := hfrom b hb k s hs
  have hkg : k ∈ g.layer.keys := ⟨s, hs⟩
  rcases List.mem_append.1 hg with hg | hg
  · exact Set.disjoint_left.1 (hr.left1 a ha hnot g hg) hka hkg
  · refine Set.disjoint_left.1 (h.apart _ a g (by omega) ha (hr.mem1 g hg) ?_) hka hkg
    rintro rfl
    exact hnot hg

/-- **Installing a compaction**: files that hold, at each key, only what the inputs hold there, and
that have no key in common, may take the inputs' place. -/
theorem Version.Ordered.replace
    (hapart : outputs.Pairwise fun f g => Disjoint f.layer.keys g.layer.keys)
    (hnumbers : (outputs.map (·.number)).Nodup)
    (hfresh : ∀ f ∈ outputs, ∀ l, ∀ g ∈ v.files l, g.number = f.number →
      (l, g.number) ∈ (r.installEdit outputs).deletedFiles) :
    (v.apply (r.installEdit outputs)).Ordered := by
  have hdistinct : ∀ a ∈ outputs, ∀ b ∈ outputs, a.number = b.number → a = b :=
    fun a ha b hb => List.inj_on_of_nodup_map hnumbers ha hb
  constructor
  · intro l
    refine Version.nodup_apply (h.nodup l) ?_ fun f hf hin => ?_
    · refine List.Nodup.map (fun a b hab => ?_) hnumbers.of_map
      exact (Prod.mk.inj hab).2
    · obtain ⟨a, ha, heq⟩ := List.mem_map.1 hf
      simp only [Prod.mk.injEq] at heq
      obtain ⟨-, rfl⟩ := heq
      exact hfresh a ha l a hin rfl
  · intro l l' a b ha hb hab
    rcases Running.mem_install ha with ⟨ha, -, -, hkept⟩ | ⟨rfl, hao⟩ <;>
      rcases Running.mem_install hb with ⟨hb, -, -, hkept'⟩ | ⟨rfl, hbo⟩
    · exact h.unique l l' a b ha hb hab
    · exact absurd (hfresh b hbo l a ha hab) hkept
    · exact absurd (hfresh a hao l' b hb hab.symm) hkept'
    · exact ⟨rfl, hdistinct a hao b hbo hab⟩
  · intro l a ha
    rcases Running.mem_install ha with ⟨ha, -⟩ | ⟨rfl, -⟩
    · exact h.beyond l a ha
    · exact hr.level_lt
  · intro l l' a b ha hb hab
    rcases Running.mem_install ha with ⟨ha, hnot, -⟩ | ⟨rfl, hao⟩ <;>
      rcases Running.mem_install hb with ⟨hb, -⟩ | ⟨rfl, hbo⟩
    · exact h.newer l l' a b ha hb hab
    · exact h.newerThan_output hr hfrom (by rcases hab with hlt | ⟨-, h0, -⟩ <;> omega) ha hnot hbo
    · exact h.output_newerThan hr hfrom (by rcases hab with hlt | ⟨h0, -, -⟩ <;> omega) hao hb
    · rcases hab with hlt | ⟨h0, -, -⟩ <;> omega
  · intro l a b hl ha hb hab
    rcases Running.mem_install ha with ⟨ha, -, hnot, -⟩ | ⟨rfl, hao⟩ <;>
      rcases Running.mem_install hb with ⟨hb, -, hnot', -⟩ | ⟨hl', hbo⟩
    · exact h.apart l a b hl ha hb hab
    · subst hl'
      exact h.disjoint_output hr hfrom ha (hnot rfl) hbo
    · exact (h.disjoint_output hr hfrom hb (hnot' rfl) hao).symm
    · have : Std.Symm fun f g : FileMetaData K V => Disjoint f.layer.keys g.layer.keys :=
        ⟨fun _ _ h => h.symm⟩
      exact hapart.forall hao hbo hab

end

/-! ## The family -/

namespace Family

variable {opts : Options K V} {s s' : Family K V}

/-- What the memtables and the files of a reachable state keep. -/
structure Inv (s : Family K V) : Prop where
  /-- The records not in tables are in the order of their sequence numbers, -/
  records : s.records.Pairwise fun a b => a.1 < b.1
  recorded : ∀ r ∈ s.records, r.1 ≤ s.lastSequence
  last_lt : s.lastSequence < kMaxSequenceNumber
  /-- and newer than what is. -/
  stored : ∀ l, ∀ f ∈ s.current.files l, ∀ k, ∀ q ∈ f.layer.seqsAt k,
    q ≤ s.lastSequence ∧ ∀ r ∈ s.records, q < r.1
  numbers : ∀ l, ∀ f ∈ s.current.files l, f.number < s.nextFileNumber
  ordered : s.current.Ordered
  running : ∀ r, s.running = some r → r.Valid s.current

theorem inv_empty : (empty : Family K V).Inv := by
  have hno : ∀ l f, f ∉ (empty : Family K V).current.files l := fun _ _ => List.not_mem_nil
  refine ⟨.nil, by simp [records, empty], (by decide : 0 < kMaxSequenceNumber),
    fun l f hf => absurd hf (hno l f), fun l f hf => absurd hf (hno l f), ?_,
    by simp [empty]⟩
  exact ⟨fun _ => .nil, fun l _ f _ hf => absurd hf (hno l f), fun l f hf => absurd hf (hno l f),
    fun l _ f _ hf => absurd hf (hno l f), fun l f _ _ hf => absurd hf (hno l f)⟩

/-- Steps that touch neither the records nor the files. -/
theorem Inv.congr (h : s.Inv) (hrecords : s'.records = s.records)
    (hlast : s'.lastSequence = s.lastSequence) (hcurrent : s'.current = s.current)
    (hnumbers : ∀ l, ∀ f ∈ s.current.files l, f.number < s'.nextFileNumber)
    (hrunning : ∀ r, s'.running = some r → r.Valid s.current) : s'.Inv := by
  constructor
  · rw [hrecords]
    exact h.records
  · rw [hrecords, hlast]
    exact h.recorded
  · rw [hlast]
    exact h.last_lt
  · rw [hrecords, hlast, hcurrent]
    exact h.stored
  · rw [hcurrent]
    exact hnumbers
  · rw [hcurrent]
    exact h.ordered
  · rw [hcurrent]
    exact hrunning

theorem Inv.write (h : s.Inv) {seq : Nat} {record : Record K V} (hlt : s.lastSequence < seq)
    (hmax : seq < kMaxSequenceNumber) :
    Inv { s with mem := s.mem ++ [(seq, record)], lastSequence := seq } := by
  have hrec : Family.records { s with mem := s.mem ++ [(seq, record)], lastSequence := seq } =
      s.records ++ [(seq, record)] := by simp [Family.records]
  constructor
  · rw [hrec]
    refine List.pairwise_append.2 ⟨h.records, List.pairwise_singleton _ _, fun a ha b hb => ?_⟩
    rw [List.mem_singleton] at hb
    subst hb
    exact (h.recorded a ha).trans_lt hlt
  · intro r hr
    rw [hrec] at hr
    rcases List.mem_append.1 hr with hr | hr
    · exact (h.recorded r hr).trans hlt.le
    · rw [List.mem_singleton] at hr
      rw [hr]
  · exact hmax
  · intro l f hf k q hq
    obtain ⟨h1, h2⟩ := h.stored l f hf k q hq
    refine ⟨h1.trans hlt.le, fun r hr => ?_⟩
    rw [hrec] at hr
    rcases List.mem_append.1 hr with hr | hr
    · exact h2 r hr
    · rw [List.mem_singleton] at hr
      rw [hr]
      exact h1.trans_lt hlt
  · exact h.numbers
  · exact h.ordered
  · exact h.running

/-- The oldest records have gone, and a file number is used up. -/
structure Flushed (s s' : Family K V) (old rest : List (Nat × Record K V)) : Prop where
  split : s.records = old ++ rest
  records : s'.records = rest
  lastSequence : s'.lastSequence = s.lastSequence
  nextFileNumber : s'.nextFileNumber = s.nextFileNumber + 1
  running : s'.running = s.running

/-- Nothing was to be written. -/
theorem Inv.flushNone (h : s.Inv) {old rest : List (Nat × Record K V)} (hf : Flushed s s' old rest)
    (hcurrent : s'.current = s.current.apply {}) : s'.Inv := by
  have hsplit := h.records
  rw [hf.split, List.pairwise_append] at hsplit
  have hrest : ∀ r ∈ rest, r ∈ s.records := fun r hr => hf.split ▸ List.mem_append_right _ hr
  have hmem : ∀ l f, f ∈ (s.current.apply {}).files l ↔ f ∈ s.current.files l := by
    intro l f
    rw [Version.mem_apply]
    simp
  constructor
  · rw [hf.records]
    exact hsplit.2.1
  · rw [hf.records, hf.lastSequence]
    exact fun r hr => h.recorded r (hrest r hr)
  · rw [hf.lastSequence]
    exact h.last_lt
  · rw [hf.records, hf.lastSequence, hcurrent]
    intro l f hin k q hq
    obtain ⟨h1, h2⟩ := h.stored l f ((hmem l f).1 hin) k q hq
    exact ⟨h1, fun r hr => h2 r (hrest r hr)⟩
  · rw [hcurrent, hf.nextFileNumber]
    exact fun l f hin => (h.numbers l f ((hmem l f).1 hin)).trans (Nat.lt_succ_self _)
  · rw [hcurrent]
    exact h.ordered.congr (fun l => Version.nodup_apply (h.ordered.nodup l) .nil nofun) hmem
  · rw [hcurrent, hf.running]
    exact fun r hr => (h.running r hr).congr hmem

/-- A file of the oldest records is newer than all others. -/
theorem Inv.flushFile (h : s.Inv) {old rest : List (Nat × Record K V)} (hf : Flushed s s' old rest)
    {f : FileMetaData K V} {p : Nat} (hnum : f.number = s.nextFileNumber)
    (hseqs : ∀ k, ∀ q ∈ f.layer.seqsAt k, ∃ r ∈ old, r.1 = q) (hlevel : p < kNumLevels)
    (hapart : 0 < p → ∀ l ≤ p, ∀ g ∈ s.current.files l, Disjoint f.layer.keys g.layer.keys)
    (hcurrent : s'.current = s.current.apply { newFiles := [(p, f)] }) : s'.Inv := by
  have hsplit := h.records
  rw [hf.split, List.pairwise_append] at hsplit
  have hrest : ∀ r ∈ rest, r ∈ s.records := fun r hr => hf.split ▸ List.mem_append_right _ hr
  have hold : ∀ r ∈ old, r ∈ s.records := fun r hr => hf.split ▸ List.mem_append_left _ hr
  have hfresh : ∀ l, ∀ g ∈ s.current.files l, g.number < f.number := fun l g hg =>
    hnum ▸ h.numbers l g hg
  have hnew : ∀ l, ∀ g ∈ s.current.files l, f.layer.NewerThan g.layer := by
    intro l g hg k q hq t ht
    obtain ⟨r, hr, rfl⟩ := hseqs k q hq
    exact (h.stored l g hg k t ht).2 r (hold r hr)
  constructor
  · rw [hf.records]
    exact hsplit.2.1
  · rw [hf.records, hf.lastSequence]
    exact fun r hr => h.recorded r (hrest r hr)
  · rw [hf.lastSequence]
    exact h.last_lt
  · rw [hf.records, hf.lastSequence, hcurrent]
    intro l g hg k q hq
    rcases Version.mem_add.1 hg with hg | ⟨-, rfl⟩
    · obtain ⟨h1, h2⟩ := h.stored l g hg k q hq
      exact ⟨h1, fun r hr => h2 r (hrest r hr)⟩
    · obtain ⟨r, hr, rfl⟩ := hseqs k q hq
      exact ⟨h.recorded r (hold r hr), fun r' hr' => hsplit.2.2 r hr r' hr'⟩
  · rw [hcurrent, hf.nextFileNumber]
    intro l g hg
    rcases Version.mem_add.1 hg with hg | ⟨-, rfl⟩
    · exact (h.numbers l g hg).trans (Nat.lt_succ_self _)
    · rw [hnum]
      exact Nat.lt_succ_self _
  · rw [hcurrent]
    exact h.ordered.add hfresh hnew hapart hlevel
  · rw [hcurrent, hf.running]
    exact fun r hr => (h.running r hr).add hfresh hnew hapart

section
variable [Inhabited V]

/-- **A flush** of the oldest records not in tables. -/
theorem Inv.flush (h : s.Inv) (old rest : List (Nat × Record K V)) {fileSize : Nat}
    {base : Option (Version K V)} (hold : s.records = old ++ rest)
    (hbase : base = none ∨ base = some s.current) (hrecords : s'.records = rest)
    (hlast : s'.lastSequence = s.lastSequence)
    (hcurrent : s'.current = s.current.apply
      (writeLevel0Table opts s.nextFileNumber fileSize (.ofRecords old) base))
    (hnumber : s'.nextFileNumber = s.nextFileNumber + 1) (hrunning : s'.running = s.running) :
    s'.Inv := by
  have hf : Flushed s s' old rest := ⟨hold, hrecords, hlast, hnumber, hrunning⟩
  rcases writeLevel0Table_cases opts s.nextFileNumber fileSize (.ofRecords old) base with
    hnone | ⟨f, hnum, hlayer, hfile⟩
  · rw [hnone] at hcurrent
    exact h.flushNone hf hcurrent
  · rw [hfile] at hcurrent
    refine h.flushFile hf hnum (fun k q hq => ?_) ?_ (fun hpos l hl g hg => ?_) hcurrent
    · rw [hlayer, seqsAt_ofRecords] at hq
      obtain ⟨r, hr, -, heq⟩ := hq
      exact ⟨r, hr, heq⟩
    · rcases hbase with rfl | rfl
      · exact (by decide : 0 < kNumLevels)
      · exact (Version.pickLevel_le _ _ _).trans_lt (by decide)
    · rcases hbase with rfl | rfl
      · exact absurd hpos (Nat.lt_irrefl 0)
      · -- no file of these levels overlaps
        have hno := Version.overlapInLevel_of_le_pickLevel hpos hl
        refine FileMetaData.disjoint_of_not_overlaps fun hover => ?_
        have := List.any_eq_false.1 hno g hg
        exact this (decide_eq_true hover)

theorem Inv.replay (h : s.Inv) (himm : s.imm = none) (tables : List (Nat × Nat)) :
    (replay opts tables s).Inv := by
  induction tables generalizing s with
  | nil => exact h
  | cons t tables ih =>
    obtain ⟨n, fileSize⟩ := t
    refine ih (h.flush (s.mem.take n) (s.mem.drop n) ?_ (.inl rfl) ?_ rfl rfl rfl
      rfl) himm
    · simp [Family.records, himm]
    · simp [Family.records, himm]

end

/-- **Replacing** the inputs of a compaction. -/
theorem Inv.replace (h : s.Inv) {r : Running K V} (hr : r.Valid s.current)
    {outputs : List (FileMetaData K V)}
    (hfrom : ∀ f ∈ outputs, ∀ k, ∀ s ∈ f.layer.seqsAt k, ∃ g ∈ r.inputs, s ∈ g.layer.seqsAt k)
    (hapart : outputs.Pairwise fun f g => Disjoint f.layer.keys g.layer.keys)
    (hdistinct : (outputs.map (·.number)).Nodup)
    (hfresh : ∀ f ∈ outputs, ∀ l, ∀ g ∈ s.current.files l, g.number = f.number →
      (l, g.number) ∈ (r.installEdit outputs).deletedFiles)
    (hle : s.nextFileNumber ≤ s'.nextFileNumber)
    (hnumbers : ∀ f ∈ outputs, f.number < s'.nextFileNumber) (hrecords : s'.records = s.records)
    (hlast : s'.lastSequence = s.lastSequence)
    (hcurrent : s'.current = s.current.apply (r.installEdit outputs)) (hrunning : s'.running = none) :
    s'.Inv := by
  constructor
  · rw [hrecords]
    exact h.records
  · rw [hrecords, hlast]
    exact h.recorded
  · rw [hlast]
    exact h.last_lt
  · rw [hrecords, hlast, hcurrent]
    intro l f hf k q hq
    rcases Running.mem_install hf with ⟨hf, -⟩ | ⟨-, hf⟩
    · exact h.stored l f hf k q hq
    · obtain ⟨g, hg, hq⟩ := hfrom f hf k q hq
      rcases List.mem_append.1 hg with hg | hg
      · exact h.stored _ g (hr.mem0 g hg) k q hq
      · exact h.stored _ g (hr.mem1 g hg) k q hq
  · rw [hcurrent]
    intro l f hf
    rcases Running.mem_install hf with ⟨hf, -⟩ | ⟨-, hf⟩
    · exact (h.numbers l f hf).trans_le hle
    · exact hnumbers f hf
  · rw [hcurrent]
    exact h.ordered.replace hr hfrom hapart hdistinct hfresh
  · rw [hrunning]
    exact nofun

theorem Inv.install (h : s.Inv) {r : Running K V} (hrun : s.running = some r)
    {shouldStopBefore : List (InternalKey K) → Bool} {fileFull : List (Entry K V) → Bool}
    {sizes : Nat → Nat} {outputs : List (FileMetaData K V)}
    (hout : outputFiles sizes s.nextFileNumber
      (r.compaction opts shouldStopBefore fileFull).doCompactionWork = some outputs) :
    Inv { s with
      current := s.current.apply (r.installEdit outputs)
      nextFileNumber := s.nextFileNumber + outputs.length
      running := none } := by
  have hnum := (outputFiles_spec hout).2
  have hrange : ∀ f ∈ outputs, s.nextFileNumber ≤ f.number ∧
      f.number < s.nextFileNumber + outputs.length := by
    intro f hf
    have : f.number ∈ outputs.map (·.number) := List.mem_map_of_mem hf
    rw [hnum, List.mem_range'_1] at this
    exact this
  refine h.replace (h.running r hrun) (fun f hf k q hq => seqsAt_outputFiles hout hf hq)
    ((outputFiles_before hout).imp fun h => h.disjoint) ?_ ?_ ?_ (fun f hf => (hrange f hf).2) rfl
    rfl rfl rfl
  · rw [hnum]
    exact List.nodup_range'
  · intro f hf l g hg heq
    have := h.numbers l g hg
    have := (hrange f hf).1
    omega
  · exact Nat.le_add_right _ _

/-- A file moved down is a compaction of it alone. -/
theorem Inv.trivialMove (h : s.Inv) {level number : Nat} {f : FileMetaData K V}
    (hpick : s.current.pick level [number] = [f]) (hp : Picked s.current level [number] [])
    (hrun : s.running = none) :
    Inv { s with current := s.current.apply ⟨[(level, number)], [(level + 1, f)]⟩ } := by
  have hf : f ∈ s.current.pick level [number] := by simp [hpick]
  obtain ⟨hmem, hnumber⟩ := Version.mem_pick.1 hf
  rw [List.mem_singleton] at hnumber
  subst hnumber
  have hr : Running.Valid ⟨level, [f], [], s.current, [], 0⟩ s.current :=
    h.ordered.valid hp rfl hpick.symm (by simp [Version.pick])
  have hfrom : ∀ g ∈ [f], ∀ k, ∀ q ∈ g.layer.seqsAt k,
      ∃ a ∈ (Running.inputs ⟨level, [f], [], s.current, [], 0⟩), q ∈ a.layer.seqsAt k :=
    fun g hg _ _ hq => ⟨g, List.mem_append_left _ hg, hq⟩
  refine h.replace hr hfrom (List.pairwise_singleton _ _) (by simp) ?_ le_rfl ?_ rfl rfl rfl hrun
  · intro g hg l a ha heq
    rw [List.mem_singleton] at hg
    subst hg
    obtain ⟨rfl, rfl⟩ := h.ordered.unique l level a g ha hmem heq
    simp [Running.installEdit]
  · intro g hg
    rw [List.mem_singleton] at hg
    subst hg
    exact h.numbers level g hmem

section
variable [Inhabited V]

theorem Inv.step {a : Action K V} (h : s.Inv) (hstep : step opts s a = some s') : s'.Inv := by
  cases a with
  | write seq record =>
    simp only [Family.step] at hstep
    split at hstep
    · rename_i hseq
      cases hstep
      exact h.write hseq.1 hseq.2
    · cases hstep
  | switchMemTable =>
    simp only [Family.step] at hstep
    split at hstep
    · rename_i himm
      cases hstep
      have himm : s.imm = none := by simpa using himm
      exact h.congr (by simp [Family.records, himm]) rfl rfl h.numbers h.running
    · cases hstep
  | compactMemTable fileSize =>
    obtain ⟨imm, himm, rfl⟩ := Option.map_eq_some_iff.1 hstep
    exact h.flush imm s.mem (by simp [Family.records, himm]) (.inr rfl)
      (by simp [Family.records]) rfl rfl rfl rfl
  | pick level inputs0 inputs1 snapshots =>
    simp only [Family.step] at hstep
    split at hstep
    · rename_i hp
      cases hstep
      refine h.congr rfl rfl rfl h.numbers fun r hr => ?_
      cases hr
      exact h.ordered.valid hp.2 rfl rfl rfl
    · cases hstep
  | install shouldStopBefore fileFull sizes =>
    obtain ⟨r, hrun, hstep⟩ := Option.bind_eq_some_iff.1 hstep
    obtain ⟨outputs, hout, rfl⟩ := Option.map_eq_some_iff.1 hstep
    exact h.install hrun hout
  | trivialMove level number =>
    simp only [Family.step] at hstep
    split at hstep
    · rename_i f hrun hpick
      split at hstep
      · rename_i hp
        cases hstep
        exact h.trivialMove hpick hp.1 hrun
      · cases hstep
    · cases hstep
  | recover tables nextFileNumber =>
    simp only [Family.step] at hstep
    split at hstep
    · rename_i hnum
      cases hstep
      have hstart : Inv { s with mem := s.records, imm := none, running := none, nextFileNumber } :=
        h.congr (by simp [Family.records]) rfl rfl
          (fun l f hf => hnum l (h.ordered.beyond l f hf) f hf) nofun
      exact hstart.replay rfl tables
    · cases hstep

theorem inv_of_reachable (h : (system opts).Reachable s) : s.Inv := by
  refine h.invariant ?_ fun _ _ _ h => h.step
  rintro s rfl
  exact inv_empty

end

/-! ## The layers -/

/-- What a layer of a version holds at a key, one of its files holds. -/
theorem mem_layers {v : Version K V} {l : Layer K V} (hl : l ∈ v.layers) {k : K} {q : Nat}
    (hq : q ∈ l.seqsAt k) : ∃ level, ∃ f ∈ v.files level, q ∈ f.layer.seqsAt k := by
  rcases List.mem_append.1 hl with hl | hl
  · obtain ⟨f, hf, rfl⟩ := List.mem_map.1 hl
    exact ⟨0, f, Version.mem_newestFirst.1 hf, hq⟩
  · obtain ⟨level, -, rfl⟩ := List.mem_map.1 hl
    obtain ⟨_, hin, hq⟩ := Layer.seqsAt_concat.1 hq
    obtain ⟨f, hf, rfl⟩ := List.mem_map.1 hin
    exact ⟨level, f, hf, hq⟩

theorem layers_newerThan_of_ordered {v : Version K V} (h : v.Ordered) :
    v.layers.Pairwise Layer.NewerThan := by
  refine List.pairwise_append.2 ⟨List.pairwise_map.2 ?_, List.pairwise_map.2 ?_, ?_⟩
  · have hnumbers : (v.files 0).Pairwise fun f g => f.number ≠ g.number :=
      (h.nodup 0).imp_of_mem fun hf hg hne heq => hne (h.unique 0 0 _ _ hf hg heq).2
    refine (Version.newestFirst_sorted hnumbers).imp_of_mem fun hf hg hlt => ?_
    exact h.newer 0 0 _ _ (Version.mem_newestFirst.1 hf) (Version.mem_newestFirst.1 hg)
      (.inr ⟨rfl, rfl, hlt⟩)
  · refine (List.pairwise_lt_range' _).imp fun {l l'} hlt k q hq t ht => ?_
    obtain ⟨_, hin, hq⟩ := Layer.seqsAt_concat.1 hq
    obtain ⟨f, hf, rfl⟩ := List.mem_map.1 hin
    obtain ⟨_, hin, ht⟩ := Layer.seqsAt_concat.1 ht
    obtain ⟨g, hg, rfl⟩ := List.mem_map.1 hin
    exact h.newer l l' f g hf hg (.inl hlt) k q hq t ht
  · intro a ha b hb k q hq t ht
    obtain ⟨f, hf, rfl⟩ := List.mem_map.1 ha
    obtain ⟨level, hlevel, rfl⟩ := List.mem_map.1 hb
    obtain ⟨_, hin, ht⟩ := Layer.seqsAt_concat.1 ht
    obtain ⟨g, hg, rfl⟩ := List.mem_map.1 hin
    have hpos := (List.mem_range'_1.1 hlevel).1
    exact h.newer 0 level f g (Version.mem_newestFirst.1 hf) hg (.inl (by omega)) k q hq t ht

section
variable [Inhabited V]

theorem Inv.newerThan_layers (h : s.Inv) :
    (s.columnFamily opts).layers.Pairwise Layer.NewerThan := by
  have hsplit := h.records
  rw [Family.records, List.pairwise_append] at hsplit
  have hfiles : ∀ records : List (Nat × Record K V), (∀ r ∈ records, r ∈ s.records) →
      ∀ l ∈ s.current.layers, (MemTable.ofRecords records).layer.NewerThan l := by
    intro records hsub l hl k q hq t ht
    obtain ⟨r, hr, -, rfl⟩ := seqsAt_ofRecords.1 hq
    obtain ⟨level, f, hf, ht⟩ := mem_layers hl ht
    exact (h.stored level f hf k t ht).2 r (hsub r hr)
  have hmem : ∀ r ∈ s.mem, r ∈ s.records := fun r hr => List.mem_append_right _ hr
  refine List.pairwise_cons.2 ⟨fun l hl => ?_, List.pairwise_cons.2 ⟨fun l hl => ?_,
    layers_newerThan_of_ordered h.ordered⟩⟩
  · rcases List.mem_cons.1 hl with rfl | hl
    · intro k q hq t ht
      obtain ⟨r, hr, -, rfl⟩ := seqsAt_ofRecords.1 hq
      cases himm : s.imm with
      | none => simp [columnFamily, himm, Layer.mem_seqsAt] at ht
      | some imm =>
        simp only [columnFamily, himm, Option.map_some, Option.elim_some] at ht
        obtain ⟨r', hr', -, rfl⟩ := seqsAt_ofRecords.1 ht
        exact hsplit.2.2 r' (by simpa [himm] using hr') r hr
    · exact hfiles s.mem hmem l hl
  · cases himm : s.imm with
    | none =>
      intro k q hq
      simp [columnFamily, himm, Layer.mem_seqsAt] at hq
    | some imm =>
      have hsub : ∀ r ∈ imm, r ∈ s.records := fun r hr => by simp [Family.records, himm, hr]
      simpa [columnFamily, himm] using hfiles imm hsub l hl

/-- **Layers are ordered by age** in every reachable state: what a newer layer holds at a key is
newer than what an older layer holds there. -/
theorem layers_newerThan (h : (system opts).Reachable s) :
    (s.columnFamily opts).layers.Pairwise Layer.NewerThan :=
  (inv_of_reachable h).newerThan_layers

end

/-- No merge operator, and files small enough for every level. -/
def sampleOptions : Options (Fin 3) Nat := ⟨none, 100⟩

/-- Two files on level 2 under two on level 1, a tombstone in the immutable memtable. -/
def sampleRun : List (Action (Fin 3) Nat) :=
  [.write 1 (.put 0 10), .switchMemTable, .compactMemTable 10,
    .write 3 (.merge 0 11), .switchMemTable, .compactMemTable 10,
    .pick 1 [3] [2] [2], .write 4 (.deleteRange 0 2), .switchMemTable,
    .install (fun _ => false) (fun _ => false) fun _ => 10, .write 5 (.put 1 12)]

theorem layers_newerThan_sampleRun : ∃ s, (system sampleOptions).run empty sampleRun = some s ∧
    (s.columnFamily sampleOptions).layers.Pairwise Layer.NewerThan := by
  have hrun : ((system sampleOptions).run empty sampleRun).isSome = true := by decide +kernel
  obtain ⟨s, hs⟩ := Option.isSome_iff_exists.1 hrun
  have hempty : (system sampleOptions).Reachable empty := .init rfl
  exact ⟨s, hs, layers_newerThan (hempty.run hs)⟩

end Family
end LevelDb
