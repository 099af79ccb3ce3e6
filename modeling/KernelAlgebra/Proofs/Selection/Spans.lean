import KernelAlgebra.Selection.Manipulator
import Mathlib.Algebra.Order.Ring.Int
import Mathlib.Data.List.Range

/-!
# Positions and spans

An index that is moved names the position that far from its own, as far as a word reaches.  A
span whose ends lie in the list, or that ends just before it starts, covers the places between
its ends.  A span that reaches out of the list is refused unless it ends before it starts.
-/

namespace KernelAlgebra.Selection

/-! ## Words -/

def IsWord (n : Int) : Prop := -2 ^ 63 ≤ n ∧ n < 2 ^ 63

instance (n : Int) : Decidable (IsWord n) := inferInstanceAs (Decidable (_ ∧ _))

section Words

variable {a b n : Int}

theorem word_of_isWord (h : IsWord n) : word n = n :=
  Int.bmod_eq_of_le_mul_two (by have := h.1; simp; omega) (by have := h.2; simp; omega)

theorem word_of_le (hle : 2 ^ 63 ≤ n) (hlt : n < 2 ^ 64) : word n = n - 2 ^ 64 := by
  have hword : word (n - 2 ^ 64) = n - 2 ^ 64 := word_of_isWord ⟨by omega, by omega⟩
  rw [← hword]
  exact (Int.sub_bmod_right ..).symm

/-- Where sums wrap around does not matter for what is added later. -/
theorem word_add_word (d : Int) : word (a + word (b + d)) = word (word (a + b) + d) := by
  have hleft : word (word (a + b) + d) = word (a + b + d) := Int.bmod_add_bmod ..
  have hright : word (a + word (b + d)) = word (a + (b + d)) := Int.add_bmod_bmod ..
  rw [hleft, hright, Int.add_assoc]

end Words

/-! ## Positions -/

namespace Index

variable {vars : List Symbol} {k : Index} {p d : Int}

/-- Whether the index looks at nothing but the length of the list. -/
def isPositional (k : Index) : Bool :=
  match k.anchor with
  | .absolute _ | .first | .last => true
  | .named _ | .unknown _ => false

theorem position_fromStart : (fromStart d).position vars = .ok d := rfl

theorem position_fromEnd (h : IsWord (vars.length - 1 + d)) :
    (fromEnd d).position vars = .ok (vars.length - 1 + d) :=
  congrArg Except.ok (word_of_isWord h)

theorem position_add (h : k.position vars = .ok p) :
    (k.add d).position vars = .ok (word (p + d)) := by
  obtain ⟨anchor, offset⟩ := k
  cases anchor with
  | absolute q =>
      simp only [position, add] at h ⊢
      split at h
      · rename_i hq
        cases h
        rw [if_pos hq, word_add_word]
      · rename_i hq
        cases h
        rw [if_neg hq, word_add_word]
  | first =>
      cases h
      rfl
  | last =>
      cases h
      exact congrArg Except.ok (word_add_word d)
  | named name =>
      simp only [position, add] at h ⊢
      split at h
      · cases h
        exact congrArg Except.ok (word_add_word d)
      · cases h
  | unknown code => cases h

theorem position_congr {vars' : List Symbol} (hk : k.isPositional = true)
    (hlen : vars'.length = vars.length) : k.position vars' = k.position vars := by
  obtain ⟨anchor, offset⟩ := k
  cases anchor with
  | absolute q => simp only [position, hlen]
  | first => rfl
  | last => simp only [position, hlen]
  | named name => cases hk
  | unknown code => cases hk

end Index

/-! ## Spans -/

theorem IndexError.kind_toError (e : IndexError) : e.toError.kind = .range := by
  cases e <;> rfl

/-- The request is turned down as out of range. -/
def Refused {α : Type} (x : Except (Fault IndexError) α) : Prop :=
  ∃ e, x = .error (.error e) ∧ e.toError.kind = .range

namespace Span

variable {vars : List Symbol} {s : Span} {a b : Int}

theorem positions_eq (hfirst : s.first.position vars = .ok a)
    (hlast : s.last.position vars = .ok b) :
    s.positions vars =
      if b < a then .ok []
      else if a < 0 || (vars.length : Int) ≤ a then
        .error (.error (.outside s.first a vars.length))
      else if (vars.length : Int) ≤ b then .error (.error (.outside s.last b vars.length))
      else .ok (between a.toNat b.toNat) := by
  simp only [positions, hfirst, hlast]
  rfl

theorem positions_of_lt (hfirst : s.first.position vars = .ok a)
    (hlast : s.last.position vars = .ok b) (hlt : b < a) : s.positions vars = .ok [] := by
  rw [positions_eq hfirst hlast, if_pos hlt]

theorem positions_of_le {i j : Nat} (hfirst : s.first.position vars = .ok (i : Int))
    (hlast : s.last.position vars = .ok (j - 1 : Int)) (hle : i ≤ j) (hj : j ≤ vars.length) :
    s.positions vars = .ok (List.range' i (j - i)) := by
  rcases Nat.eq_or_lt_of_le hle with rfl | hlt
  · rw [positions_of_lt hfirst hlast (by omega), Nat.sub_self]
    rfl
  · have hlow : ¬ ((i : Int) < 0 || (vars.length : Int) ≤ i) = true := by
      simp
      omega
    rw [positions_eq hfirst hlast, if_neg (by omega), if_neg hlow, if_neg (by omega), between,
      ← List.range'_eq_map_range]
    congr 2
    omega

theorem refused_of_outside (hfirst : s.first.position vars = .ok a)
    (hlast : s.last.position vars = .ok b) (hle : a ≤ b) (hout : a < 0 ∨ vars.length ≤ b) :
    Refused (s.positions vars) := by
  rw [positions_eq hfirst hlast, if_neg (by omega)]
  split
  · exact ⟨_, rfl, IndexError.kind_toError _⟩
  · rename_i hlow
    rw [if_pos (by simp at hlow; omega)]
    exact ⟨_, rfl, IndexError.kind_toError _⟩

end Span

/-! ## Lists of spans -/

namespace Manipulator

variable {vars : List Symbol} {s : Span} {m : Manipulator} {places rest : List Nat}

theorem positions_nil : positions vars [] = .ok [] := rfl

theorem positions_cons (hs : s.positions vars = .ok places) (hm : positions vars m = .ok rest) :
    positions vars (s :: m) = .ok (places ++ rest) := by
  simp only [positions, Except.map] at hm ⊢
  rw [List.mapM_cons, hs]
  split at hm
  · cases hm
  · rename_i more hmore
    cases hm
    simp only [hmore]
    rfl

theorem refused_cons (hs : Refused (s.positions vars)) : Refused (positions vars (s :: m)) := by
  obtain ⟨e, he, hkind⟩ := hs
  refine ⟨e, ?_, hkind⟩
  simp only [positions, List.mapM_cons, he]
  rfl

theorem refused_of_rest (hs : s.positions vars = .ok places) (hm : Refused (positions vars m)) :
    Refused (positions vars (s :: m)) := by
  obtain ⟨e, he, hkind⟩ := hm
  refine ⟨e, ?_, hkind⟩
  simp only [positions, Except.map] at he ⊢
  rw [List.mapM_cons, hs]
  split at he
  · rename_i hmore
    cases he
    simp only [hmore]
    rfl
  · cases he

end Manipulator

end KernelAlgebra.Selection
