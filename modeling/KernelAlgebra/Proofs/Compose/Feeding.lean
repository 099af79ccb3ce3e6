import KernelAlgebra.Proofs.Compose.Channels

/-!
# The values of a connection

The inputs of connected programs are fed from one list of values.  The wires feed outputs of
the first program to inputs of the second one.
-/

namespace KernelAlgebra

open Machine

theorem mem_zip_swap {α β : Type} {xs : List α} {ys : List β} {x : α} {y : β}
    (h : (x, y) ∈ xs.zip ys) : (y, x) ∈ ys.zip xs := by
  induction xs generalizing ys with
  | nil => simp at h
  | cons a xs ih =>
      cases ys with
      | nil => simp at h
      | cons b ys =>
          rw [List.zip_cons_cons, List.mem_cons] at h ⊢
          rcases h with h | h
          · cases h
            exact .inl rfl
          · exact .inr (ih h)

theorem zip_take_take {α β : Type} (xs : List α) (ys : List β) :
    (xs.take ys.length).zip (ys.take xs.length) = xs.zip ys := by
  induction xs generalizing ys with
  | nil => simp
  | cons x xs ih => cases ys <;> simp [ih]

theorem zip_of_split {α β : Type} {xs : List α} {k : Nat} {ys zs : List β}
    (h : ys.length = (xs.take k).length) :
    xs.zip (ys ++ zs) = (xs.take k).zip ys ++ (xs.drop k).zip zs := by
  rw [← List.zip_append h.symm, List.take_append_drop]

/-- Values for the inputs of two programs, with those that the wires feed. -/
structure Feeding (a b : Program) (taken bound : Nat) (ca cb xa xb fed : List (List Float)) :
    Prop where
  ca : ca.length = (a.inputs.take taken).length
  cb : cb.length = (b.inputs.take bound).length
  xa : xa.length = (a.inputs.drop taken).length
  xb : xb.length = ((b.inputs.drop bound).drop a.outputs.length).length
  fed : fed.length = ((b.inputs.drop bound).take a.outputs.length).length

namespace Feeding

variable {a b : Program} {taken bound : Nat} {ca cb xa xb fed : List (List Float)}

theorem zip_first (h : Feeding a b taken bound ca cb xa xb fed) :
    a.inputs.zip (ca ++ xa) = (a.inputs.take taken).zip ca ++ (a.inputs.drop taken).zip xa :=
  zip_of_split h.ca

theorem zip_second (h : Feeding a b taken bound ca cb xa xb fed) :
    b.inputs.zip (cb ++ (fed ++ xb)) =
      (b.inputs.take bound).zip cb ++
        (((b.inputs.drop bound).take a.outputs.length).zip fed ++
          ((b.inputs.drop bound).drop a.outputs.length).zip xb) := by
  rw [zip_of_split h.cb, zip_of_split h.fed]

theorem zip_both (h : Feeding a b taken bound ca cb xa xb fed) :
    (Connection.inputs a b taken bound).zip (ca ++ cb ++ xa ++ xb) =
      (a.inputs.take taken).zip ca ++ (b.inputs.take bound).zip cb ++
        (a.inputs.drop taken).zip xa ++
        ((b.inputs.drop bound).drop a.outputs.length).zip xb := by
  unfold Connection.inputs
  rw [List.zip_append (by simp [h.ca, h.cb, h.xa]), List.zip_append (by simp [h.ca, h.cb]),
    List.zip_append h.ca.symm]

theorem mem_of_mem_first (h : Feeding a b taken bound ca cb xa xb fed) {s : Symbol}
    {xs : List Float} (hs : (s, xs) ∈ a.inputs.zip (ca ++ xa)) :
    (s, xs) ∈ (Connection.inputs a b taken bound).zip (ca ++ cb ++ xa ++ xb) := by
  rw [h.zip_first] at hs
  rw [h.zip_both]
  simp only [List.mem_append] at hs ⊢
  rcases hs with hs | hs
  · exact .inl (.inl (.inl hs))
  · exact .inl (.inr hs)

theorem mem_of_mem_second (h : Feeding a b taken bound ca cb xa xb fed) {ws : List Wire}
    {g g' : Supply} (hc : Connection a b bound ws g g') {s : Symbol} {xs : List Float}
    (hs : (s, xs) ∈ b.inputs.zip (cb ++ (fed ++ xb))) :
    (∃ w ∈ ws, s = w.input) ∨
      (s, xs) ∈ (Connection.inputs a b taken bound).zip (ca ++ cb ++ xa ++ xb) := by
  rw [h.zip_second] at hs
  rw [h.zip_both]
  simp only [List.mem_append] at hs ⊢
  rcases hs with hs | hs | hs
  · exact .inr (.inl (.inl (.inr hs)))
  · have hmem := (List.of_mem_zip hs).1
    rw [← hc.inputs_eq] at hmem
    obtain ⟨w, hw, rfl⟩ := List.mem_map.mp hmem
    exact .inl ⟨w, hw, rfl⟩
  · exact .inr (.inr hs)

theorem mem_cases (h : Feeding a b taken bound ca cb xa xb fed) {s : Symbol} {xs : List Float}
    (hs : (s, xs) ∈ (Connection.inputs a b taken bound).zip (ca ++ cb ++ xa ++ xb)) :
    (s, xs) ∈ a.inputs.zip (ca ++ xa) ∨ (s, xs) ∈ b.inputs.zip (cb ++ (fed ++ xb)) := by
  rw [h.zip_both] at hs
  rw [h.zip_first, h.zip_second]
  simp only [List.mem_append] at hs ⊢
  rcases hs with ((hs | hs) | hs) | hs
  · exact .inl (.inl hs)
  · exact .inr (.inl hs)
  · exact .inl (.inr hs)
  · exact .inr (.inr (.inr hs))

theorem mem_of_wire {ws : List Wire} {g g' : Supply} (hc : Connection a b bound ws g g')
    {value : Symbol → List Float}
    (h : Feeding a b taken bound ca cb xa xb
      ((a.outputs.map value).take (b.inputs.drop bound).length))
    {w : Wire} (hw : w ∈ ws) :
    (w.input, value w.output) ∈ b.inputs.zip
      (cb ++ ((a.outputs.map value).take (b.inputs.drop bound).length ++ xb)) := by
  have hends : (w.output, w.input) ∈ a.outputs.zip (b.inputs.drop bound) := by
    rw [← hc.drawn.ends]
    exact List.mem_map.mpr ⟨w, hw, rfl⟩
  have hfed : (w.input, value w.output) ∈ (b.inputs.drop bound).zip (a.outputs.map value) := by
    rw [List.zip_map_right]
    exact List.mem_map.mpr ⟨(w.input, w.output), mem_zip_swap hends, rfl⟩
  rw [← zip_take_take, List.length_map] at hfed
  rw [h.zip_second]
  exact List.mem_append.mpr (.inr (List.mem_append.mpr (.inl hfed)))

end Feeding

end KernelAlgebra
