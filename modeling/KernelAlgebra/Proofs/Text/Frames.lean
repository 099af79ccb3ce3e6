import Mathlib.Data.List.Basic

/-!
# Texts around a number

A text with a number in it tells the number, as long as nothing around the number depends on it.
Two such texts differ for all numbers where neither front is a part of the other one.
-/

namespace KernelAlgebra.Text

/-- The text is the number between a front and a back that do not depend on it. -/
def Frames (front back : String) (text : Nat → String) : Prop :=
  ∀ n, text n = front ++ toString n ++ back

namespace Frames

variable {front back front' back' : String} {text text' : Nat → String}

theorem of_no_back (h : ∀ n, text n = front ++ toString n) : Frames front "" text := by
  intro n
  rw [h n, String.append_empty]

theorem injective (h : Frames front back text) {n m : Nat} (heq : text n = text m) : n = m := by
  rw [h n, h m] at heq
  have hdigits : (toString n).toList = (toString m).toList := by
    simpa using congrArg String.toList heq
  simpa [Nat.toString_eq_ofList_toDigits] using
    congrArg (fun ds => Nat.ofDigitChars 10 ds 0) hdigits

theorem front_prefix (h : Frames front back text) (n : Nat) :
    front.toList <+: (text n).toList := by
  rw [h n, String.append_assoc, String.toList_append]
  exact List.prefix_append _ _

theorem comparable (h : Frames front back text) (h' : Frames front' back' text') {n m : Nat}
    (heq : text n = text' m) :
    front.toList <+: front'.toList ∨ front'.toList <+: front.toList :=
  List.prefix_or_prefix_of_prefix (h.front_prefix n) (heq ▸ h'.front_prefix m)

end Frames

end KernelAlgebra.Text
