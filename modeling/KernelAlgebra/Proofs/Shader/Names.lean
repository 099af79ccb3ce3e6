import KernelAlgebra.Proofs.Text.Frames
import KernelAlgebra.Shader.Writer
import Mathlib.Data.List.Nodup
import Mathlib.Data.List.Perm.Subperm

/-!
# The names that a shader makes

A name is the escaped base or the escaped base with a number behind it.  It is no keyword and
differs from all names before it.  The space of the builtins is only met where a number comes
behind `gl`, because the base is escaped before it is numbered.
-/

namespace KernelAlgebra.Shader

/-! ## Escaping -/

/-- The name lies in the space of the builtins. -/
def IsBuiltinName (name : String) : Prop := ['g', 'l', '_'] <+: name.toList

instance : DecidablePred IsBuiltinName := fun name =>
  inferInstanceAs (Decidable (['g', 'l', '_'] <+: name.toList))

theorem isReserved_iff {name : String} :
    isReserved name = true ↔ name ∈ keywords ∨ IsBuiltinName name := by
  simp [isReserved, IsBuiltinName]

theorem underscore_not_mem_keyword : ∀ name ∈ keywords, '_' ∉ name.toList := by
  decide +kernel

theorem not_mem_keywords_of_underscore {name : String} (h : '_' ∈ name.toList) :
    name ∉ keywords :=
  fun hmem => underscore_not_mem_keyword name hmem h

theorem isReserved_escaped (base : String) : isReserved (escaped base) = false := by
  unfold escaped
  split
  · decide +kernel
  split
  · rw [← Bool.not_eq_true, isReserved_iff, not_or]
    constructor
    · exact not_mem_keywords_of_underscore (by simp)
    · simp [IsBuiltinName]
  · rename_i hfree
    simpa using hfree

namespace Namer

/-! ## Numbering -/

theorem toList_numbered (base : String) (k : Nat) :
    (numbered base k).toList = base.toList ++ '_' :: (toString k).toList := by
  simp [numbered, toString]

theorem numbered_injective {base : String} {j k : Nat} (h : numbered base j = numbered base k) :
    j = k :=
  (Text.Frames.of_no_back fun _ => rfl : Text.Frames (base ++ "_") "" (numbered base)).injective h

/-- A number makes a builtin name of `gl` only. -/
theorem eq_of_isBuiltinName_numbered {base : String} {k : Nat} (hbase : ¬IsBuiltinName base)
    (h : IsBuiltinName (numbered base k)) : base = "gl" := by
  unfold IsBuiltinName at h hbase
  rw [toList_numbered] at h
  rw [← String.toList_inj]
  rcases hlist : base.toList with _ | ⟨a, _ | ⟨b, _ | ⟨c, rest⟩⟩⟩ <;>
    simp only [hlist, List.nil_append, List.cons_append, List.cons_prefix_cons] at h hbase
  · simp at h
  · simp at h
  · obtain ⟨rfl, rfl, _⟩ := h
    rfl
  · exact absurd ⟨h.1, h.2.1, h.2.2.1, by simp⟩ hbase

theorem firstUnused_cases (used : List String) (base : String) (fuel k : Nat) :
    numbered base (firstUnused used base fuel k) ∉ used ∨
      ∀ i < fuel, numbered base (k + i) ∈ used := by
  induction fuel generalizing k with
  | zero => simp
  | succ fuel ih =>
      unfold firstUnused
      split
      · rename_i hk
        refine (ih (k + 1)).imp_right fun hall i hi => ?_
        cases i with
        | zero => simpa using hk
        | succ i =>
            have hnext := hall i (by omega)
            rwa [show k + 1 + i = k + (i + 1) by omega] at hnext
      · rename_i hk
        exact .inl (by simpa using hk)

theorem numbered_firstUnused_not_mem (used : List String) (base : String) (k : Nat) :
    numbered base (firstUnused used base (used.length + 1) k) ∉ used := by
  rcases firstUnused_cases used base (used.length + 1) k with hfree | hall
  · exact hfree
  · -- more different names than there are in the list
    let tried := (List.range (used.length + 1)).map fun i => numbered base (k + i)
    have hnodup : tried.Nodup := by
      refine List.nodup_range.map fun i j hij => ?_
      exact Nat.add_left_cancel (numbered_injective hij)
    have hsubset : tried ⊆ used := by
      intro name hname
      obtain ⟨i, hi, rfl⟩ := List.mem_map.mp hname
      exact hall i (List.mem_range.mp hi)
    have hle := (List.subperm_of_subset hnodup hsubset).length_le
    simp only [tried, List.length_map, List.length_range] at hle
    omega

/-! ## Fresh names -/

/-- What can be said of a name that does not come from the interface. -/
structure Made (name : String) : Prop where
  free : name ∉ keywords
  builtin : IsBuiltinName name → ∃ k, name = numbered "gl" k

theorem made_escaped (base : String) : Made (escaped base) := by
  have hfree := isReserved_escaped base
  rw [← Bool.not_eq_true, isReserved_iff, not_or] at hfree
  exact ⟨hfree.1, fun h => absurd h hfree.2⟩

theorem made_numbered (base : String) (k : Nat) : Made (numbered (escaped base) k) where
  free := not_mem_keywords_of_underscore (by simp [toList_numbered])
  builtin := by
    have hfree := isReserved_escaped base
    rw [← Bool.not_eq_true, isReserved_iff, not_or] at hfree
    intro h
    exact ⟨k, by rw [eq_of_isBuiltinName_numbered hfree.2 h]⟩

theorem fresh_spec (n : Namer) (base : String) :
    (n.fresh base).1 ∉ n.used ∧ (n.fresh base).2.used = (n.fresh base).1 :: n.used ∧
      Made (n.fresh base).1 := by
  simp only [fresh]
  split
  · exact ⟨numbered_firstUnused_not_mem _ _ _, rfl, made_numbered ..⟩
  · rename_i hfree
    exact ⟨by simpa using hfree, rfl, made_escaped base⟩

end Namer

/-! ## Naming symbols -/

/-- How names grow: old names stay, and symbols without one get names that nobody has. -/
structure Named (names : Names) (n : Namer) (symbols : List Symbol) (names' : Names)
    (n' : Namer) : Prop where
  kept : ∀ s name, names.lookup s = some name → names'.lookup s = some name
  used : ∀ name ∈ n.used, name ∈ n'.used
  fresh : ∀ s ∈ symbols, names.lookup s = none → ∃ name, names'.lookup s = some name ∧
    name ∉ n.used ∧ name ∈ n'.used ∧ Namer.Made name
  apart : ∀ s ∈ symbols, names.lookup s = none → ∀ t ∈ symbols, names.lookup t = none →
    names'.lookup s = names'.lookup t → s = t
  source : ∀ s name, names'.lookup s = some name → names.lookup s = some name ∨ s ∈ symbols

theorem Named.skip {names names' : Names} {n n' : Namer} {s : Symbol} {rest : List Symbol}
    (hs : (names.lookup s).isSome) (h : Named names n rest names' n') :
    Named names n (s :: rest) names' n' := by
  have hrest : ∀ t ∈ s :: rest, names.lookup t = none → t ∈ rest := by
    intro t ht hnone
    rcases List.mem_cons.mp ht with rfl | ht
    · simp [hnone] at hs
    · exact ht
  exact ⟨h.kept, h.used, fun t ht hnone => h.fresh t (hrest t ht hnone) hnone,
    fun t ht hnone t' ht' hnone' =>
      h.apart t (hrest t ht hnone) hnone t' (hrest t' ht' hnone') hnone',
    fun t name ht => (h.source t name ht).imp_right (List.mem_cons_of_mem s)⟩

/-- A symbol without a name gets a new one, and the names of the rest differ from it. -/
theorem Named.cons {names names' : Names} {n n₁ n' : Namer} {s : Symbol} {rest : List Symbol}
    {name : String} (hs : names.lookup s = none) (hfree : name ∉ n.used)
    (hused : n₁.used = name :: n.used) (hmade : Namer.Made name)
    (h : Named ((s, name) :: names) n₁ rest names' n') : Named names n (s :: rest) names' n' := by
  have hself : names'.lookup s = some name := h.kept s name (by simp)
  have hother : ∀ t ≠ s, List.lookup t ((s, name) :: names) = names.lookup t := by
    intro t hne
    simp [List.lookup_cons, beq_false_of_ne hne]
  have hrest : ∀ t ∈ s :: rest, t ≠ s → names.lookup t = none → ∃ new,
      names'.lookup t = some new ∧ new ∉ n₁.used ∧ new ∈ n'.used ∧ Namer.Made new := by
    intro t ht hne hnone
    exact h.fresh t ((List.mem_cons.mp ht).resolve_left hne) ((hother t hne).trans hnone)
  have hfirst : ∀ t ∈ s :: rest, t ≠ s → names.lookup t = none →
      names'.lookup t ≠ some name := by
    intro t ht hne hnone heq
    obtain ⟨new, hnew, hnot, _⟩ := hrest t ht hne hnone
    rw [hnew] at heq
    exact hnot (by simp [hused, Option.some.inj heq])
  refine ⟨?_, ?_, ?_, ?_, ?_⟩
  · intro t old ht
    have hne : t ≠ s := by
      rintro rfl
      simp [hs] at ht
    exact h.kept t old ((hother t hne).trans ht)
  · intro old hold
    exact h.used old (by simp [hused, hold])
  · intro t ht hnone
    by_cases hne : t = s
    · subst hne
      exact ⟨name, hself, hfree, h.used name (by simp [hused]), hmade⟩
    · obtain ⟨new, hnew, hnot, hin, hnewMade⟩ := hrest t ht hne hnone
      exact ⟨new, hnew, fun hmem => hnot (by simp [hused, hmem]), hin, hnewMade⟩
  · intro t ht hnone t' ht' hnone' heq
    by_cases hne : t = s <;> by_cases hne' : t' = s
    · rw [hne, hne']
    · rw [hne, hself] at heq
      exact absurd heq.symm (hfirst t' ht' hne' hnone')
    · rw [hne', hself] at heq
      exact absurd heq (hfirst t ht hne hnone)
    · exact h.apart t ((List.mem_cons.mp ht).resolve_left hne) ((hother t hne).trans hnone) t'
        ((List.mem_cons.mp ht').resolve_left hne') ((hother t' hne').trans hnone') heq
  · intro t old ht
    by_cases hne : t = s
    · exact .inr (by simp [hne])
    · exact (h.source t old ht).imp (hother t hne).symm.trans (List.mem_cons_of_mem s)

theorem named_nameAll (names : Names) (n : Namer) (symbols : List Symbol) :
    Named names n symbols (nameAll names n symbols).1 (nameAll names n symbols).2 := by
  induction symbols generalizing names n with
  | nil => exact ⟨fun _ _ h => h, fun _ h => h, by simp, by simp, fun _ _ h => .inl h⟩
  | cons s rest ih =>
      unfold nameAll
      split
      · rename_i hs
        exact (ih names n).skip hs
      · rename_i hs
        obtain ⟨hfree, hused, hmade⟩ := n.fresh_spec (localBase s)
        exact (ih _ _).cons (Option.not_isSome_iff_eq_none.mp hs) hfree hused hmade

end KernelAlgebra.Shader
