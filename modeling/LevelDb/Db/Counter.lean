import LevelDb.Db.LookupState
import LevelDb.Lib.Mvcc

/-!
# Counters

What the examples are about: a few keys, which count.
-/

namespace LevelDb

/-- The examples take their keys from `Fin 3`. -/
instance neZero_three : NeZero 3 := ⟨by decide⟩

namespace MergeOperator

/-- A counter: operands are added to the base, 0 when there is none. -/
def counter (K : Type) : MergeOperator K Nat where
  fullMerge _ base operands := some (operands.foldl (· + ·) (base.getD 0))
  partialMerge _ left right := some (left + right)

open Mvcc in
theorem counter_laws {K : Type} (k : K) :
    Laws ((counter K).fullMerge k) ((counter K).partialMerge k) where
  fold_append b xs ys _ _ := by simp [counter]
  fold_part b xs ys l r z h := by
    simp only [counter, Option.some.injEq] at h ⊢
    subst h
    simp [Nat.add_assoc]

end MergeOperator
end LevelDb
