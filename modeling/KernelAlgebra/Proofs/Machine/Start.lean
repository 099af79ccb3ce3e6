import KernelAlgebra.Proofs.Machine.Execution
import Mathlib.Data.List.Forall2

/-!
# The start of a run

A run starts when there is a vector of the right length for every input.  Each input then holds
its vector, and every other symbol holds what it starts with.
-/

namespace KernelAlgebra.Machine

variable {u : Overrides} {inputs : List Symbol} {values : List (List Float)} {st st' : Store}

theorem map_eq_map_iff_zip {α β γ : Type} {f : α → γ} {g : β → γ} {xs : List α} {ys : List β} :
    xs.map f = ys.map g ↔ xs.length = ys.length ∧ ∀ q ∈ xs.zip ys, f q.1 = g q.2 := by
  rw [← List.forall₂_eq_eq_eq, List.forall₂_map_left_iff, List.forall₂_map_right_iff,
    List.forall₂_iff_zip, Prod.forall]

theorem load_eq_ok_iff :
    (∃ st', load inputs values st = .ok st') ↔
      ∀ s xs, (s, xs) ∈ inputs.zip values → s.isHole = false ∧ xs.length = s.size := by
  induction inputs generalizing values st with
  | nil => simp [load]
  | cons s rest ih =>
      cases values with
      | nil => simp [load]
      | cons xs more =>
          simp only [load, List.zip_cons_cons, List.mem_cons, Prod.mk.injEq]
          split
          · rename_i hhole
            constructor
            · rintro ⟨st', h⟩
              cases h
            · intro h
              rw [(h s xs (.inl ⟨rfl, rfl⟩)).1] at hhole
              cases hhole
          · rename_i hhole
            split
            · rename_i hlen
              constructor
              · rintro ⟨st', h⟩
                cases h
              · intro h
                simp [(h s xs (.inl ⟨rfl, rfl⟩)).2] at hlen
            · rename_i hlen
              rw [ih]
              constructor
              · rintro h t ys (⟨rfl, rfl⟩ | hmem)
                · exact ⟨by simpa using hhole, by simpa using hlen⟩
                · exact h t ys hmem
              · exact fun h t ys hmem => h t ys (.inr hmem)

theorem get_load_of_not_mem {s : Symbol} (h : load inputs values st = .ok st')
    (hs : s ∉ inputs) : st'.get u s = st.get u s := by
  induction inputs generalizing values st with
  | nil =>
      simp only [load, Except.ok.injEq] at h
      rw [h]
  | cons t rest ih =>
      cases values with
      | nil =>
          simp only [load, Except.ok.injEq] at h
          rw [h]
      | cons xs more =>
          simp only [load] at h
          split at h
          · cases h
          · split at h
            · cases h
            · rw [ih h fun hmem => hs (by simp [hmem]), Store.get_set,
                if_neg fun heq => hs (by simp [heq])]

theorem get_load_of_mem {s : Symbol} {xs : List Float} (hnodup : inputs.Nodup)
    (h : load inputs values st = .ok st') (hmem : (s, xs) ∈ inputs.zip values) :
    st'.get u s = xs := by
  induction inputs generalizing values st with
  | nil => simp at hmem
  | cons t rest ih =>
      obtain ⟨ht, hrest⟩ := List.nodup_cons.mp hnodup
      cases values with
      | nil => simp at hmem
      | cons ys more =>
          simp only [load] at h
          split at h
          · cases h
          · split at h
            · cases h
            · rcases List.mem_cons.mp hmem with heq | hmem
              · cases heq
                rw [get_load_of_not_mem h ht, Store.get_set, if_pos rfl]
              · exact ih hrest h hmem

theorem startValue_of_isLocal {s : Symbol} (h : s.isLocal = true) :
    startValue u s = padded s.size s.value := by
  unfold startValue
  split
  · rename_i hrole _
    simp [Symbol.isLocal, hrole, Role.isLocal] at h
  · rfl

/-! ## Interfaces -/

theorem start_eq_ok_iff {i : Interface} :
    (∃ st, start i values = .ok st) ↔ values.length = i.inputs.length ∧
      ∀ s xs, (s, xs) ∈ i.inputs.zip values → s.isHole = false ∧ xs.length = s.size := by
  unfold start
  split
  · rename_i hlen
    simp only [bne_iff_ne, ne_eq] at hlen
    simp [hlen]
  · rename_i hlen
    simp only [bne_iff_ne, ne_eq, Decidable.not_not] at hlen
    simp only [hlen, true_and]
    exact load_eq_ok_iff

theorem start_iff_sizes {i : Interface} (hsolid : ∀ s ∈ i.inputs, s.isHole = false) :
    (∃ st, start i values = .ok st) ↔ values.map List.length = i.inputs.map Symbol.size := by
  rw [start_eq_ok_iff, eq_comm, eq_comm (a := values.map List.length), map_eq_map_iff_zip,
    Prod.forall]
  refine and_congr_right fun _ => ⟨fun h s xs hmem => (h s xs hmem).2.symm, fun h s xs hmem => ?_⟩
  exact ⟨hsolid s (List.of_mem_zip hmem).1, (h s xs hmem).symm⟩

theorem load_of_start {i : Interface} (h : start i values = .ok st) :
    load i.inputs values [] = .ok st := by
  unfold start at h
  split at h
  · cases h
  · exact h

theorem get_start_of_mem {i : Interface} {s : Symbol} {xs : List Float}
    (hnodup : i.inputs.Nodup) (h : start i values = .ok st)
    (hmem : (s, xs) ∈ i.inputs.zip values) : st.get u s = xs :=
  get_load_of_mem hnodup (load_of_start h) hmem

theorem get_start_of_not_mem {i : Interface} {s : Symbol} (h : start i values = .ok st)
    (hs : s ∉ i.inputs) : st.get u s = startValue u s :=
  get_load_of_not_mem (load_of_start h) hs

theorem exists_value_of_mem {i : Interface} {s : Symbol} (h : start i values = .ok st)
    (hs : s ∈ i.inputs) : ∃ xs, (s, xs) ∈ i.inputs.zip values := by
  have hlen := (start_eq_ok_iff.mp ⟨st, h⟩).1
  obtain ⟨j, hj, rfl⟩ := List.getElem_of_mem hs
  have hj' : j < values.length := by omega
  refine ⟨values[j], List.mem_iff_getElem.mpr ⟨j, by simp; omega, ?_⟩⟩
  simp

theorem get_start_eq {i j : Interface} {values' : List (List Float)} {s : Symbol}
    (hi : i.inputs.Nodup) (hj : j.inputs.Nodup) (h : start i values = .ok st)
    (h' : start j values' = .ok st')
    (hmem : ∀ xs, (s, xs) ∈ i.inputs.zip values → (s, xs) ∈ j.inputs.zip values')
    (hnot : s ∉ i.inputs → s ∉ j.inputs) : st'.get u s = st.get u s := by
  by_cases hs : s ∈ i.inputs
  · obtain ⟨xs, hxs⟩ := exists_value_of_mem h hs
    rw [get_start_of_mem hi h hxs, get_start_of_mem hj h' (hmem xs hxs)]
  · rw [get_start_of_not_mem h hs, get_start_of_not_mem h' (hnot hs)]

end KernelAlgebra.Machine
