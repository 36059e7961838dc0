import Mathlib.Data.List.SplitBy
import Mathlib.Order.Lattice

/-!
# Runs of equal keys

A list sorted by a key falls into runs of equal key (`runs`, `List.splitBy` on the key). Their
keys go up strictly (`runs_pairwise`), a run is all of the list with its key (`filter_eq_run`),
and a list built run by run has, at each key, what is built from that key's run
(`flatMap_runs_filter`).
-/

namespace Runs

universe u v w

variable {α : Type u} {κ : Type v} [LinearOrder κ] {f : α → κ} {l : List α}

/-- The runs of equal key of a list. -/
def runs (f : α → κ) (l : List α) : List (List α) := l.splitBy fun a b => f a == f b

theorem flatten_runs (f : α → κ) (l : List α) : (runs f l).flatten = l := List.flatten_splitBy _ _

theorem mem_of_mem_run {g : List α} (hg : g ∈ runs f l) {a : α} (ha : a ∈ g) : a ∈ l := by
  rw [← flatten_runs f l]
  exact List.mem_flatten_of_mem hg ha

theorem exists_run {a : α} (ha : a ∈ l) : ∃ g ∈ runs f l, a ∈ g := by
  rw [← flatten_runs f l] at ha
  exact List.mem_flatten.1 ha

theorem run_ne_nil {g : List α} (hg : g ∈ runs f l) : g ≠ [] := List.ne_nil_of_mem_splitBy hg

theorem eq_of_mem_run {g : List α} (hg : g ∈ runs f l) {a b : α} (ha : a ∈ g) (hb : b ∈ g) :
    f a = f b := by
  have hchain := List.isChain_of_mem_splitBy hg
  have hpair : g.Pairwise fun a b => f a = f b := by
    have : IsTrans α fun a b => f a = f b := ⟨fun _ _ _ h h' => h.trans h'⟩
    exact List.isChain_iff_pairwise.1 (hchain.imp fun _ _ h => by simpa using h)
  induction hpair with
  | nil => cases ha
  | @cons c g hc _ ih =>
    have key : ∀ x ∈ c :: g, f c = f x := by
      intro x hx
      rcases List.mem_cons.1 hx with rfl | hx
      · rfl
      · exact hc x hx
    exact (key a ha).symm.trans (key b hb)

/-- The keys of the runs go up. -/
theorem runs_pairwise (hl : l.Pairwise fun a b => f a ≤ f b) :
    (runs f l).Pairwise fun g h => ∀ a ∈ g, ∀ b ∈ h, f a < f b := by
  have hle : (runs f l).Pairwise fun g h => ∀ a ∈ g, ∀ b ∈ h, f a ≤ f b := by
    rw [← flatten_runs f l] at hl
    exact (List.pairwise_flatten.1 hl).2
  have htrans : IsTrans (List α) fun g h => (∀ a ∈ g, ∀ b ∈ h, f a < f b) ∧ h ≠ [] := by
    refine ⟨fun g h i hgh hhi => ⟨fun a ha c hc => ?_, hhi.2⟩⟩
    obtain ⟨b, hb⟩ := List.exists_mem_of_ne_nil h hgh.2
    exact (hgh.1 a ha b hb).trans (hhi.1 b hb c hc)
  have hchain : (runs f l).IsChain fun g h => (∀ a ∈ g, ∀ b ∈ h, f a < f b) ∧ h ≠ [] := by
    have hlast : (runs f l).IsChain fun g h => ∃ hg hh, (f (g.getLast hg) == f (h.head hh)) = false :=
      List.isChain_getLast_head_splitBy (fun a b => f a == f b) l
    have hle' := hle.isChain
    refine (List.isChain_iff_getElem.2 fun i hi => ?_)
    obtain ⟨hg, hh, hne⟩ := List.isChain_iff_getElem.1 hlast i hi
    have hle := List.isChain_iff_getElem.1 hle' i hi
    refine ⟨fun a ha b hb => ?_, hh⟩
    have h1 : f a = f ((runs f l)[i].getLast hg) :=
      eq_of_mem_run (List.getElem_mem (by omega)) ha (List.getLast_mem hg)
    have h2 : f b = f ((runs f l)[i + 1].head hh) :=
      eq_of_mem_run (List.getElem_mem hi) hb (List.head_mem hh)
    refine lt_of_le_of_ne (hle a ha b hb) fun heq => ?_
    rw [h1, h2] at heq
    have hne' : ¬ f ((runs f l)[i].getLast hg) = f ((runs f l)[i + 1].head hh) := by
      simpa using hne
    exact hne' heq
  exact (List.isChain_iff_pairwise.1 hchain).imp fun h => h.1

/-- A run is all of the list with its key. -/
theorem filter_eq_run (hl : l.Pairwise fun a b => f a ≤ f b) {g : List α} (hg : g ∈ runs f l)
    {a : α} (ha : a ∈ g) : l.filter (fun b => f b = f a) = g := by
  obtain ⟨pre, post, hsplit⟩ := List.append_of_mem hg
  have hpair := runs_pairwise hl
  rw [hsplit, List.pairwise_append] at hpair
  obtain ⟨-, hpost, hpre⟩ := hpair
  rw [List.pairwise_cons] at hpost
  have hl' : l = pre.flatten ++ (g ++ post.flatten) := by
    rw [← flatten_runs f l, hsplit, List.flatten_append, List.flatten_cons]
  rw [hl', List.filter_append, List.filter_append, List.filter_eq_nil_iff.2,
    List.filter_eq_self.2, List.filter_eq_nil_iff.2, List.append_nil, List.nil_append]
  · intro b hb heq
    obtain ⟨h, hh, hb⟩ := List.mem_flatten.1 hb
    exact (hpost.1 h hh a ha b hb).ne' (of_decide_eq_true heq)
  · intro b hb
    exact decide_eq_true (eq_of_mem_run hg hb ha)
  · intro b hb heq
    obtain ⟨h, hh, hb⟩ := List.mem_flatten.1 hb
    exact (hpre h hh g (by simp) b hb a ha).ne (of_decide_eq_true heq)

/-- **Building run by run**: at each key, the result is what is built from that key's run. -/
theorem flatMap_runs_filter {β : Type w} (hl : l.Pairwise fun a b => f a ≤ f b)
    {build : List α → List β} {f' : β → κ}
    (hbuild : ∀ g ∈ runs f l, ∀ o ∈ build g, ∀ a ∈ g, f' o = f a) (k : κ) :
    ((runs f l).flatMap build).filter (fun o => f' o = k) =
      if l.filter (fun a => f a = k) = [] then [] else build (l.filter fun a => f a = k) := by
  split
  · rename_i hnil
    refine List.filter_eq_nil_iff.2 fun o ho heq => ?_
    obtain ⟨g, hg, ho⟩ := List.mem_flatMap.1 ho
    obtain ⟨a, ha⟩ := List.exists_mem_of_ne_nil g (run_ne_nil hg)
    have hk := (hbuild g hg o ho a ha).symm.trans (of_decide_eq_true heq)
    exact List.filter_eq_nil_iff.1 hnil a (mem_of_mem_run hg ha) (decide_eq_true hk)
  · rename_i hne
    obtain ⟨a, ha⟩ := List.exists_mem_of_ne_nil _ hne
    rw [List.mem_filter, decide_eq_true_iff] at ha
    obtain ⟨ha, rfl⟩ := ha
    obtain ⟨g, hg, hag⟩ := exists_run (f := f) ha
    rw [filter_eq_run hl hg hag]
    obtain ⟨pre, post, hsplit⟩ := List.append_of_mem hg
    have hpair := runs_pairwise hl
    have hmem : ∀ h ∈ pre ++ g :: post, h ∈ runs f l := fun h hh => hsplit ▸ hh
    rw [hsplit, List.pairwise_append, List.pairwise_cons] at hpair
    obtain ⟨-, ⟨hpost, -⟩, hpre⟩ := hpair
    rw [hsplit, List.flatMap_append, List.flatMap_cons, List.filter_append, List.filter_append,
      List.filter_eq_nil_iff.2, List.filter_eq_self.2, List.filter_eq_nil_iff.2, List.append_nil,
      List.nil_append]
    · intro o ho heq
      obtain ⟨h, hh, ho⟩ := List.mem_flatMap.1 ho
      have hin := hmem h (by simp [hh])
      obtain ⟨b, hb⟩ := List.exists_mem_of_ne_nil h (run_ne_nil hin)
      have hkey := (hbuild h hin o ho b hb).symm.trans (of_decide_eq_true heq)
      exact (hpost h hh a hag b hb).ne' hkey
    · intro o ho
      exact decide_eq_true (hbuild g hg o ho a hag)
    · intro o ho heq
      obtain ⟨h, hh, ho⟩ := List.mem_flatMap.1 ho
      have hin := hmem h (by simp [hh])
      obtain ⟨b, hb⟩ := List.exists_mem_of_ne_nil h (run_ne_nil hin)
      have hkey := (hbuild h hin o ho b hb).symm.trans (of_decide_eq_true heq)
      exact (hpre h hh g (by simp) b hb a hag).ne hkey

end Runs
