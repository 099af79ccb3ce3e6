import KernelAlgebra.Proofs.Computation
import KernelAlgebra.Proofs.Program.Copies

/-!
# The operands of a composition

The operands of a composition are copies of the two programs that have no local symbol in
common.
-/

namespace KernelAlgebra

theorem Sketch.eq_of_program? {s : Sketch} {p : Program} (h : s.program? = some p) :
    s = p.sketch := by
  obtain ⟨i, graph?⟩ := s
  cases graph? with
  | none => cases h
  | some g =>
      cases h
      rfl

theorem Sketch.program?_of_eq {s : Sketch} {p : Program} (h : s = p.sketch) :
    s.program? = some p := by
  rw [h, Program.program?_sketch]

theorem Sketch.inputs_of_eq {s : Sketch} {p : Program} (h : s = p.sketch) :
    s.inputs = p.inputs := by
  rw [h]
  rfl

theorem Interface.not_mem_of_sharesLocals {i j : Interface} (h : i.sharesLocals j = false)
    {s : Symbol} (hs : s ∈ j.locals) : s ∉ i.locals := by
  intro hmem
  have := List.any_eq_false.mp h s hs
  simp [hmem] at this

namespace Fresh

variable {ε : Type} {g g' : Supply}

theorem yields_copy {s : Symbol} {role : Role} (hs : s.isHole = false) :
    Yields (copy s role : Fresh ε Symbol) g (.ok { s with id := g.next, role := role })
      ⟨g.next + 1⟩ := by
  unfold copy
  rw [hs]
  rfl

theorem yields_copyAll {role : Symbol → Role} {list : List Symbol}
    (h : ∀ s ∈ list, s.isHole = false) :
    Yields (copyAll role list : Fresh ε (List Symbol)) g (.ok (g.copyAll role list).1)
      (g.copyAll role list).2 := by
  have htake : list.takeWhile (fun s => !s.isHole) = list := by
    induction list with
    | nil => rfl
    | cons s rest ih =>
        rw [List.takeWhile_cons, h s (by simp), ih fun t ht => h t (by simp [ht])]
        rfl
  have hany : list.any (·.isHole) = false := by
    rw [List.any_eq_false]
    intro s hs
    simp [h s hs]
  unfold copyAll
  rw [htake, hany]
  rfl

theorem yields_copyAll_of_hole {role : Symbol → Role} {list : List Symbol}
    (h : list.any (·.isHole) = true) :
    Yields (copyAll role list : Fresh ε (List Symbol)) g (.error .outside)
      (g.copyAll role (list.takeWhile fun s => !s.isHole)).2 := by
  unfold copyAll
  rw [h]
  rfl

theorem yields_copyOf {p : Program} : Yields (copyOf p.sketch : Fresh ε Program) g (.ok p.copied) g :=
  rfl

theorem yields_freshCopyOf {p : Program} (h : ∀ s ∈ p.locals, s.isHole = false) :
    Yields (freshCopyOf p.sketch : Fresh ε Program) g
      (.ok (p.withLocals (g.copyAll Symbol.role p.locals).1)) (g.copyAll Symbol.role p.locals).2 := by
  have hpresent : Yields (present p.sketch.program? : Fresh ε Program) g (.ok p) g := rfl
  unfold freshCopyOf
  refine (yields_bind hpresent).mpr ((yields_bind (yields_copyAll h)).mpr ?_)
  exact yields_pure.mpr ⟨rfl, rfl⟩

end Fresh

/-- The second operand of a composition: a copy apart from the first one. -/
structure SecondOperand (ap bp bq : Program) (ρ : Symbol → Symbol) (g g' : Supply) : Prop where
  copies : Copies ρ bp bq
  later : g.next ≤ g'.next
  above : g'.Above bq.symbols
  named : ∀ s ∈ bp.symbols, (ρ s).name = s.name
  apart : ∀ s ∈ bq.locals, s ∉ ap.locals

namespace Copies

variable {ρ : Symbol → Symbol} {p q : Program}

theorem exists_of_mem_locals (h : Copies ρ p q) {t : Symbol} (ht : t ∈ q.locals) :
    ∃ s ∈ p.locals, ρ s = t := by
  rw [Interface.mem_locals, h.inputs, h.outputs, h.temps] at ht
  simp only [List.mem_map] at ht
  rcases ht with ⟨s, hs, rfl⟩ | ⟨s, hs, rfl⟩ | ⟨s, hs, rfl⟩
  · exact ⟨s, Interface.mem_locals.mpr (.inl hs), rfl⟩
  · exact ⟨s, Interface.mem_locals.mpr (.inr (.inl hs)), rfl⟩
  · exact ⟨s, Interface.mem_locals.mpr (.inr (.inr hs)), rfl⟩

theorem mem_symbols_cases (h : Copies ρ p q) {t : Symbol} (ht : t ∈ q.symbols) :
    t ∈ q.locals ∨ t ∈ p.symbols := by
  rcases Interface.mem_symbols.mp ht with ht | ht | ht | ht
  · exact .inl (Interface.mem_locals.mpr (.inl ht))
  · exact .inl (Interface.mem_locals.mpr (.inr (.inl ht)))
  · exact .inl (Interface.mem_locals.mpr (.inr (.inr ht)))
  · rw [h.constants, h.uniforms, h.textures] at ht
    exact .inr (Interface.mem_symbols.mpr (.inr (.inr (.inr ht))))

end Copies

variable {ap bp : Program} {g : Supply}

theorem secondOperand_copied (hvalid : bp.Valid) (habove : g.Above bp.symbols)
    (hapart : ap.sharesLocals bp.toInterface = false) :
    SecondOperand ap bp bp.copied (fun s => s) g g :=
  ⟨Program.copies_copied hvalid, Nat.le_refl _, habove, fun _ _ => rfl,
    fun _ hs => Interface.not_mem_of_sharesLocals hapart hs⟩

theorem secondOperand_fresh (hvalid : bp.Valid) (habove : g.Above bp.symbols)
    (habove' : g.Above ap.symbols) :
    SecondOperand ap bp (bp.withLocals (g.copyAll Symbol.role bp.locals).1)
      (bp.freshening g).apply g (g.copyAll Symbol.role bp.locals).2 := by
  have hcopies := Program.copies_freshening hvalid habove
  have hlater : g.next ≤ (g.copyAll Symbol.role bp.locals).2.next := by
    rw [g.next_copyAll]
    omega
  refine ⟨hcopies, hlater, ?_, fun s _ => Program.name_freshening s, ?_⟩
  · intro t ht
    rcases hcopies.mem_symbols_cases ht with ht | ht
    · obtain ⟨s, hs, rfl⟩ := hcopies.exists_of_mem_locals ht
      exact (Program.draws_freshening.fresh _ (Program.mem_freshening hs)).2
    · exact habove.mono hlater t ht
  · intro t ht hmem
    obtain ⟨s, hs, rfl⟩ := hcopies.exists_of_mem_locals ht
    have hold := habove' _ (Interface.mem_symbols_of_mem_locals hmem)
    have hnew := (Program.draws_freshening.fresh _ (Program.mem_freshening (g := g) hs)).1
    simp only at hnew
    omega

theorem yields_operands (hbp : bp.Valid) (ha : g.Above ap.symbols) (hb : g.Above bp.symbols) :
    ∃ bq ρ g', Yields (operands ap.sketch bp.sketch) g (.ok (ap.copied, bq)) g' ∧
      SecondOperand ap bp bq ρ g g' := by
  have hsolid : ∀ s ∈ bp.locals, s.isHole = false :=
    fun s hs => hbp.orderly.solid (Interface.mem_symbols_of_mem_locals hs)
  unfold operands
  cases hshares : ap.sharesLocals bp.toInterface with
  | false =>
      refine ⟨bp.copied, _, g, ?_, secondOperand_copied hbp hb hshares⟩
      refine (yields_bind Fresh.yields_copyOf).mpr ?_
      rw [show ap.sketch.sharesLocals bp.sketch.toInterface = false from hshares]
      refine (yields_bind Fresh.yields_copyOf).mpr ?_
      exact yields_pure.mpr ⟨rfl, rfl⟩
  | true =>
      refine ⟨_, _, _, ?_, secondOperand_fresh hbp hb ha⟩
      refine (yields_bind Fresh.yields_copyOf).mpr ?_
      rw [show ap.sketch.sharesLocals bp.sketch.toInterface = true from hshares]
      refine (yields_bind (Fresh.yields_freshCopyOf hsolid)).mpr ?_
      exact yields_pure.mpr ⟨rfl, rfl⟩

end KernelAlgebra
