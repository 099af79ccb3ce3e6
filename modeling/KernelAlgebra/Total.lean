/-!
# Sums of natural numbers
-/

namespace KernelAlgebra

def total (xs : List Nat) : Nat := xs.foldr (fun x n => x + n) 0

@[simp] theorem total_nil : total [] = 0 := rfl

@[simp] theorem total_cons (x : Nat) (xs : List Nat) : total (x :: xs) = x + total xs := rfl

@[simp] theorem total_append (xs ys : List Nat) : total (xs ++ ys) = total xs + total ys := by
  induction xs with
  | nil => simp
  | cons x xs ih => simp [ih, Nat.add_assoc]

end KernelAlgebra
