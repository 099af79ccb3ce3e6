import KernelAlgebra.Symbol
import Mathlib.Data.List.Forall2
import Mathlib.Data.List.Induction
import Mathlib.Data.List.Nodup

/-!
# Fresh symbols and ordered sets

A list without repeats is its own ordered set.  A supply is above the symbols whose ids it has
handed out.
-/

namespace KernelAlgebra

/-! ## First occurrences -/

section FirstOccurrences

variable {α : Type} [BEq α] [LawfulBEq α]

theorem eraseDups_concat (list : List α) (x : α) :
    (list ++ [x]).eraseDups = if x ∈ list then list.eraseDups else list.eraseDups ++ [x] := by
  rw [List.eraseDups_append]
  by_cases hx : x ∈ list <;> simp [List.removeAll, hx, List.eraseDups_cons]

theorem nodup_eraseDups (list : List α) : list.eraseDups.Nodup := by
  induction list using List.reverseRecOn with
  | nil => simp
  | append_singleton list x ih =>
      rw [eraseDups_concat]
      split
      · exact ih
      · rename_i hx
        rw [List.nodup_append]
        refine ⟨ih, by simp, fun y hy z hz heq => hx ?_⟩
        rw [← List.mem_singleton.mp hz, ← heq]
        exact List.mem_eraseDups.mp hy

theorem eraseDups_sublist (list : List α) : list.eraseDups.Sublist list := by
  induction list using List.reverseRecOn with
  | nil => simp
  | append_singleton list x ih =>
      rw [eraseDups_concat]
      split
      · exact ih.trans (List.sublist_append_left ..)
      · exact ih.append (List.Sublist.refl _)

theorem eraseDups_of_nodup {list : List α} (h : list.Nodup) : list.eraseDups = list := by
  induction list using List.reverseRecOn with
  | nil => rfl
  | append_singleton list x ih =>
      rw [List.nodup_append] at h
      have hx : x ∉ list := fun hmem => h.2.2 x hmem x (by simp) rfl
      rw [eraseDups_concat, if_neg hx, ih h.1]

end FirstOccurrences

/-! ## Lists of symbols -/

theorem addNew_of_nodup {list more : List Symbol} (h : (list ++ more).Nodup) :
    addNew list more = list ++ more := by
  induction more generalizing list with
  | nil => simp [addNew]
  | cons s rest ih =>
      have hstep : addNew list (s :: rest) =
          addNew (if s ∈ list then list else list ++ [s]) rest := rfl
      have hs : s ∉ list := by
        intro hmem
        exact (List.nodup_append.mp h).2.2 s hmem s (by simp) rfl
      rw [hstep, if_neg hs, ih (by simpa using h)]
      simp

theorem dedup_of_nodup {list : List Symbol} (h : list.Nodup) : dedup list = list := by
  have hempty : ([] ++ list : List Symbol).Nodup := h
  exact addNew_of_nodup hempty

theorem addNew_append (list xs ys : List Symbol) :
    addNew list (xs ++ ys) = addNew (addNew list xs) ys :=
  List.foldl_append

theorem addNew_of_subset {list more : List Symbol} (h : ∀ s ∈ more, s ∈ list) :
    addNew list more = list := by
  induction more with
  | nil => rfl
  | cons s rest ih =>
      have hstep : addNew list (s :: rest) =
          addNew (if s ∈ list then list else list ++ [s]) rest := rfl
      rw [hstep, if_pos (h s (by simp)), ih fun t ht => h t (by simp [ht])]

theorem addNew_eq_append (list more : List Symbol) :
    addNew list more = list ++ (dedup more).filter (· ∉ list) := by
  induction more using List.reverseRecOn with
  | nil => simp [addNew, dedup]
  | append_singleton rest s ih =>
      have hlist : addNew list (rest ++ [s]) =
          if s ∈ addNew list rest then addNew list rest else addNew list rest ++ [s] := by
        rw [addNew_append]
        rfl
      have hmore : dedup (rest ++ [s]) =
          if s ∈ dedup rest then dedup rest else dedup rest ++ [s] := by
        unfold dedup
        rw [addNew_append]
        rfl
      rw [hlist, hmore, ih]
      by_cases hmem : s ∈ rest <;> by_cases hold : s ∈ list <;>
        simp [hmem, hold, mem_dedup]

theorem dedup_append (xs ys : List Symbol) :
    dedup (xs ++ ys) = dedup xs ++ (dedup ys).filter (· ∉ xs) := by
  have hsplit : dedup (xs ++ ys) = addNew (dedup xs) ys := addNew_append [] xs ys
  rw [hsplit, addNew_eq_append]
  simp [mem_dedup]

theorem dedup_filter (keep : Symbol → Bool) (list : List Symbol) :
    dedup (list.filter keep) = (dedup list).filter keep := by
  induction list using List.reverseRecOn with
  | nil => rfl
  | append_singleton rest s ih =>
      have hone : dedup [s] = [s] := dedup_of_nodup (by simp)
      rw [List.filter_append, dedup_append, dedup_append, List.filter_append, ih, hone]
      by_cases hs : keep s = true
      · have hfilter : [s].filter keep = [s] := by simp [hs]
        rw [hfilter, hone]
        by_cases hmem : s ∈ rest <;> simp [hmem, hs]
      · have hfilter : [s].filter keep = [] := by simp [hs]
        rw [hfilter]
        by_cases hmem : s ∈ rest <;> simp [hmem, hs, dedup, addNew]

theorem nodup_map {list : List Symbol} {ρ : Symbol → Symbol} (h : list.Nodup)
    (hρ : ∀ s ∈ list, ∀ t ∈ list, ρ s = ρ t → s = t) : (list.map ρ).Nodup := by
  induction list with
  | nil => simp
  | cons s rest ih =>
      obtain ⟨hs, hrest⟩ := List.nodup_cons.mp h
      rw [List.map_cons, List.nodup_cons]
      constructor
      · intro hmem
        obtain ⟨t, ht, heq⟩ := List.mem_map.mp hmem
        exact hs (hρ t (by simp [ht]) s (by simp) heq ▸ ht)
      · exact ih hrest fun t ht t' ht' => hρ t (by simp [ht]) t' (by simp [ht'])

/-- What a symbol shows apart from its id and its role. -/
def Symbol.face (s : Symbol) : Symbol := { s with id := 0, role := .input }

theorem Symbol.size_of_face {s t : Symbol} (h : s.face = t.face) : s.size = t.size := by
  have hsize := congrArg Symbol.size h
  exact hsize

theorem Symbol.name_of_face {s t : Symbol} (h : s.face = t.face) : s.name = t.name := by
  have hname := congrArg Symbol.name h
  exact hname

theorem Symbol.semantic_of_face {s t : Symbol} (h : s.face = t.face) :
    s.semantic = t.semantic := by
  have hsemantic := congrArg Symbol.semantic h
  exact hsemantic

namespace Supply

/-- Every symbol of the list has its id from before. -/
def Above (g : Supply) (list : List Symbol) : Prop :=
  ∀ s ∈ list, s.id < g.next

instance (g : Supply) (list : List Symbol) : Decidable (g.Above list) :=
  inferInstanceAs (Decidable (∀ s ∈ list, s.id < g.next))

theorem Above.mono {g g' : Supply} {list : List Symbol} (h : g.Above list)
    (hle : g.next ≤ g'.next) : g'.Above list :=
  fun s hs => Nat.lt_of_lt_of_le (h s hs) hle

theorem next_copyAll {role : Symbol → Role} {list : List Symbol} (g : Supply) :
    (g.copyAll role list).2.next = g.next + list.length := by
  induction list generalizing g with
  | nil => simp [copyAll]
  | cons s rest ih =>
      simp only [copyAll, copy, ih, List.length_cons]
      omega

theorem map_id_copyAll {role : Symbol → Role} {list : List Symbol} (g : Supply) :
    (g.copyAll role list).1.map Symbol.id = List.range' g.next list.length := by
  induction list generalizing g with
  | nil => simp [copyAll]
  | cons s rest ih => simp [copyAll, copy, ih, List.range'_succ]

theorem map_face_copyAll {role : Symbol → Role} {list : List Symbol} (g : Supply) :
    (g.copyAll role list).1.map Symbol.face = list.map Symbol.face := by
  induction list generalizing g with
  | nil => simp [copyAll]
  | cons s rest ih => simp [copyAll, copy, ih, Symbol.face]

theorem map_role_copyAll {role : Symbol → Role} {list : List Symbol} (g : Supply) :
    (g.copyAll role list).1.map Symbol.role = list.map role := by
  induction list generalizing g with
  | nil => simp [copyAll]
  | cons s rest ih => simp [copyAll, copy, ih]

theorem forall₂_copyAll {role : Symbol → Role} {list : List Symbol} (g : Supply) :
    List.Forall₂ (fun s t => t = { s with id := t.id, role := role s }) list
      (g.copyAll role list).1 := by
  induction list generalizing g with
  | nil => simp [copyAll]
  | cons s rest ih => simp [copyAll, copy, ih]

theorem nodup_copyAll {role : Symbol → Role} {list : List Symbol} (g : Supply) :
    (g.copyAll role list).1.Nodup := by
  apply List.Nodup.of_map Symbol.id
  rw [map_id_copyAll]
  exact List.nodup_range'

theorem fresh_of_mem_copyAll {role : Symbol → Role} {list : List Symbol} {g : Supply} {t : Symbol}
    (ht : t ∈ (g.copyAll role list).1) :
    g.next ≤ t.id ∧ t.id < (g.copyAll role list).2.next := by
  have hid : t.id ∈ List.range' g.next list.length := by
    rw [← map_id_copyAll]
    exact List.mem_map_of_mem ht
  rw [next_copyAll]
  simpa using hid

end Supply

end KernelAlgebra
