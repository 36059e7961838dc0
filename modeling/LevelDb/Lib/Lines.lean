import Mathlib.Data.List.Basic

/-!
# Lines

A text is cut at a separator: a line ends at each, and one more at the end of the text, unless
nothing is left. Lines that are free of the separator come back from the text in which each is ended
by it (`lines_unlines`); a line that is read is free of it (`not_mem_of_mem_lines`).
-/

namespace Lines

universe u

variable {α : Type u} [DecidableEq α] {sep : α}

def lines (sep : α) : List α → List (List α)
  | [] => []
  | c :: cs =>
    if c = sep then [] :: lines sep cs
    else match lines sep cs with
      | [] => [[c]]
      | line :: rest => (c :: line) :: rest

omit [DecidableEq α] in
/-- Each line is ended by the separator. -/
def unlines (sep : α) (ls : List (List α)) : List α := ls.flatMap fun line => line ++ [sep]

@[simp] theorem lines_nil : lines sep [] = [] := rfl

@[simp] theorem lines_sep (cs : List α) : lines sep (sep :: cs) = [] :: lines sep cs := if_pos rfl

/-- The first line. -/
theorem lines_append {line : List α} (h : sep ∉ line) (cs : List α) :
    lines sep (line ++ sep :: cs) = line :: lines sep cs := by
  induction line with
  | nil => exact lines_sep cs
  | cons c line ih =>
    have hc : c ≠ sep := fun heq => h (heq ▸ List.mem_cons_self)
    rw [List.cons_append, lines, if_neg hc, ih fun hin => h (List.mem_cons_of_mem c hin)]

/-- **Lines are read back.** -/
theorem lines_unlines {ls : List (List α)} (h : ∀ line ∈ ls, sep ∉ line) :
    lines sep (unlines sep ls) = ls := by
  induction ls with
  | nil => rfl
  | cons line ls ih =>
    rw [unlines, List.flatMap_cons, List.append_assoc, List.singleton_append,
      lines_append (h line List.mem_cons_self)]
    exact congrArg _ (ih fun l hl => h l (List.mem_cons_of_mem line hl))

/-- No line has the separator. -/
theorem not_mem_of_mem_lines {cs line : List α} (h : line ∈ lines sep cs) : sep ∉ line := by
  induction cs generalizing line with
  | nil => cases h
  | cons c cs ih =>
    rw [lines] at h
    split at h
    · rcases List.mem_cons.1 h with rfl | h
      · exact List.not_mem_nil
      · exact ih h
    · rename_i hc
      have hcons : ∀ l : List α, sep ∉ l → sep ∉ c :: l := fun l hl hin =>
        (List.mem_cons.1 hin).elim (fun heq => hc heq.symm) hl
      split at h
      · rw [List.mem_singleton.1 h]
        exact hcons [] List.not_mem_nil
      · rename_i first rest heq
        rcases List.mem_cons.1 h with rfl | h
        · exact hcons first (ih (heq ▸ List.mem_cons_self))
        · exact ih (heq ▸ List.mem_cons_of_mem first h)

end Lines
