import KernelAlgebra.Proofs.Instruction
import KernelAlgebra.Proofs.Machine.Execution
import Mathlib.Data.List.Basic

/-!
# Reading and writing through views

A view without a selector shows a whole vector and overwrites all of it.  A view with one shows
the elements that it lists and overwrites these, one after the other.
-/

namespace KernelAlgebra.Machine

variable {u : Overrides}

def signed (neg : Bool) (x : Float) : Float := if neg then -x else x

theorem map_signed (neg : Bool) (xs : List Float) :
    xs.map (signed neg) = if neg then xs.map (- ·) else xs := by
  cases neg with
  | false => exact List.map_id' xs
  | true => rfl

theorem mapM_range_eq_some {α : Type} {f : Nat → Option α} {xs : List α}
    (h : ∀ i x, xs[i]? = some x → f i = some x) : (List.range xs.length).mapM f = some xs := by
  induction xs generalizing f with
  | nil => simp
  | cons x xs ih =>
      have htail := ih fun i y hy => h (i + 1) y hy
      rw [List.length_cons, List.range_succ_eq_map, List.mapM_cons, h 0 x rfl, List.mapM_map]
      simp only [Function.comp_def]
      rw [htail]
      rfl

/-! ## Without a selector -/

theorem read_plain {st : Store} {v : View} (hsized : st.Sized u) (hv : v.isAbsent = false)
    (hselector : v.selector = none) :
    read u st v = some ((st.get u v.sym).map (signed v.neg)) := by
  have hlen : ((st.get u v.sym).map (signed v.neg)).length = v.sym.size := by
    rw [List.length_map, hsized]
  unfold read View.elements
  rw [hv, hselector]
  simp only [Bool.false_eq_true, if_false, ← hlen, List.mapM_map]
  apply mapM_range_eq_some
  intro i x hx
  rw [List.getElem?_map, Option.map_eq_some_iff] at hx
  obtain ⟨y, hy, rfl⟩ := hx
  simp [element?, hy, signed]

theorem place_plain {v : View} {front old r : List Float} (hselector : v.selector = none)
    (h : old.length = r.length) :
    place v (front ++ old) front.length r = some (front ++ r) := by
  induction r generalizing front old with
  | nil =>
      rw [List.eq_nil_of_length_eq_zero h]
      rfl
  | cons x r ih =>
      cases old with
      | nil => cases h
      | cons y old =>
          have hrest : place v ((front ++ [x]) ++ old) (front ++ [x]).length r =
              some ((front ++ [x]) ++ r) := ih (by simpa using h)
          have hbounds : ¬ (((front.length : Int) < 0 ||
              ((front ++ y :: old).length : Int) ≤ front.length) = true) := by
            simp only [List.length_append, List.length_cons, Bool.or_eq_true, decide_eq_true_eq]
            omega
          simp only [place, View.index?, hselector]
          rw [if_neg hbounds, Int.toNat_natCast, List.set_append_right _ _ (Nat.le_refl _)]
          simpa using hrest

/-! ## With a selector -/

theorem mapM_map_signed (neg : Bool) (xs : List Float) (idx : List Int) :
    (idx.mapM fun k => (element? xs k).map (signed neg)) =
      (idx.mapM (element? xs)).map (List.map (signed neg)) := by
  induction idx with
  | nil => rfl
  | cons k rest ih =>
      rw [List.mapM_cons, List.mapM_cons, ih]
      cases element? xs k with
      | none => rfl
      | some x => cases rest.mapM (element? xs) <;> rfl

theorem read_picked {st : Store} {v : View} {idx : List Int} (hv : v.isAbsent = false)
    (hselector : v.selector = some idx) :
    read u st v = (idx.mapM (element? (st.get u v.sym))).map (List.map (signed v.neg)) := by
  rw [← mapM_map_signed]
  unfold read View.elements
  rw [hv, hselector]
  rfl

theorem mem_bounds_of_checkIndices {dst : Bool} {s : Symbol} {seen idx : List Int}
    (h : View.checkIndices dst s seen idx = .ok ()) : ∀ k ∈ idx, 0 ≤ k ∧ k < s.size := by
  induction idx generalizing seen with
  | nil => simp
  | cons k rest ih =>
      unfold View.checkIndices at h
      split at h
      · cases h
      · rename_i hbounds
        split at h
        · cases h
        · intro j hj
          rcases List.mem_cons.mp hj with rfl | hj
          · simp only [Bool.or_eq_true, decide_eq_true_eq] at hbounds
            omega
          · exact ih h j hj

theorem place_picked {v : View} {before after : List Int} {xs r : List Float}
    (hselector : v.selector = some (before ++ after)) (hr : r.length = after.length)
    (hbounds : ∀ k ∈ after, 0 ≤ k ∧ k < xs.length) :
    place v xs before.length r =
      some ((after.zip r).foldl (fun ys q => ys.set q.1.toNat q.2) xs) := by
  induction after generalizing before xs r with
  | nil =>
      rw [List.eq_nil_of_length_eq_zero hr]
      rfl
  | cons k after ih =>
      cases r with
      | nil => cases hr
      | cons x r =>
          obtain ⟨hlow, hhigh⟩ := hbounds k (by simp)
          have hindex : v.index? (before.length : Nat) = some k := by
            simp [View.index?, hselector]
          have hinside : ¬ ((k < 0 || (xs.length : Int) ≤ k) = true) := by
            simp only [Bool.or_eq_true, decide_eq_true_eq]
            omega
          have hrest := @ih (before ++ [k]) (xs.set k.toNat x) r (by simp [hselector])
            (by simpa using hr) fun j hj => by
              rw [List.length_set]
              exact hbounds j (by simp [hj])
          simp only [place, hindex]
          rw [if_neg hinside, List.zip_cons_cons, List.foldl_cons]
          simpa using hrest

/-! ## Results -/

theorem length_compute {st : Store} {i : Instruction} {srcs : List (List Float)}
    {r : List Float} (hcheck : i.check = .ok ()) (hread : readAll u st i.src = some srcs)
    (hr : compute i.op i.dst.size srcs = some r) : r.length = i.dst.size := by
  obtain ⟨_, _, _, _, hrule⟩ := Instruction.check_eq_ok_iff.mp hcheck
  unfold compute at hr
  unfold readAll at hread
  split at hr
  · simpa using length_of_mapM_eq_some hr
  · rename_i a b hdot
    obtain ⟨v, w, hsrc⟩ := List.length_eq_two.mp (length_of_mapM_eq_some hread).symm
    obtain ⟨x, _, rfl⟩ := Option.map_eq_some_iff.mp hr
    simp only [Instruction.checkRule, hdot, hsrc] at hrule
    split at hrule
    · cases hrule
    · rename_i hsize
      have : i.dst.size = 1 := by simpa using hsize
      simp [this]
  · rename_i hcross
    obtain ⟨v, w, hsrc⟩ := List.length_eq_two.mp (length_of_mapM_eq_some hread).symm
    cases hr
    simp only [Instruction.checkRule, hcross, hsrc] at hrule
    split at hrule
    · cases hrule
    · rename_i hsize
      simp only [Bool.or_eq_true, bne_iff_ne, ne_eq, not_or, Decidable.not_not] at hsize
      simp [hsize]
  · rename_i a hnorm
    obtain ⟨v, hsrc⟩ := List.length_eq_one_iff.mp (length_of_mapM_eq_some hread).symm
    obtain ⟨x, _, rfl⟩ := Option.map_eq_some_iff.mp hr
    simp only [hsrc, List.mapM_cons, List.mapM_nil, Option.pure_def, Option.bind_eq_bind,
      Option.bind_some, Option.bind_eq_some_iff, Option.some.injEq, List.cons.injEq,
      and_true] at hread
    obtain ⟨xs, hxs, rfl⟩ := hread
    simp only [Instruction.checkRule, hnorm, hsrc] at hrule
    split at hrule
    · cases hrule
    · rename_i hsize
      have : i.dst.size = v.size := by simpa using hsize
      simp [length_read hxs, this]
  · cases hr

end KernelAlgebra.Machine
