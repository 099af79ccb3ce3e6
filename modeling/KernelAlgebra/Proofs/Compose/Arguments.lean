import KernelAlgebra.Proofs.Binding.Attributes
import KernelAlgebra.Proofs.Compose.Closure
import KernelAlgebra.Proofs.Compose.Currying

/-!
# Resolving is partial application

A handle resolves unless one of its inputs is bound to a stream.  The program that comes out takes
the free inputs only.  It computes from them what the program of the handle computes from the
vectors of the sources and them.
-/

namespace KernelAlgebra

open Machine

theorem Binding.Proper.kind_eq {b : Binding} (h : b.Proper) :
    b.kind = .uniform ∨ b.kind = .stream := by
  have hknown := BindingKind.isKnown_of_takes h.2
  cases hkind : b.kind <;> simp_all [BindingKind.isKnown]

theorem Symbol.traits_of_face {list list' : List Symbol} (h : list.map face = list'.map face) :
    list.map (fun s => (s.name, s.size, s.scalar, s.semantic)) =
      list'.map fun s => (s.name, s.size, s.scalar, s.semantic) := by
  have htraits := congrArg (List.map fun s : Symbol => (s.name, s.size, s.scalar, s.semantic)) h
  rw [List.map_map, List.map_map] at htraits
  exact htraits

namespace Handle

/-- The inputs in front of a stream are resolved, and the first one that a stream feeds is named. -/
theorem yields_resolveBindings_refused {inputs : List Symbol} {bindings : List Binding}
    {g : Supply} (hfed : Fed bindings inputs) (hproper : ∀ b ∈ bindings, b.Proper)
    (hstream : ∃ b ∈ bindings, b.kind ≠ .uniform) (habove : g.Above inputs)
    (hsolid : ∀ s ∈ inputs, s.isHole = false) :
    ∃ s b g', (b, s) ∈ bindings.zip inputs ∧ b.kind ≠ .uniform ∧
      Yields (resolveBindings inputs bindings) g (.error (.error (.boundToStream s b.source)))
        g' := by
  induction bindings generalizing inputs g with
  | nil => simp at hstream
  | cons b bindings ih =>
      cases inputs with
      | nil => simp [Fed] at hfed
      | cons s inputs =>
          simp only [Fed, List.map_cons, List.length_cons, List.take_succ_cons,
            List.cons.injEq] at hfed
          by_cases hb : b.kind = .uniform
          · have hnext : Supply.Above ⟨g.next + 1⟩ inputs :=
              fun t ht => Nat.lt_succ_of_lt (habove t (by simp [ht]))
            obtain ⟨t, b', g', hmem, hb', hrest⟩ := ih hfed.2 (fun b hb => hproper b (by simp [hb]))
              (by simpa [hb] using hstream) hnext fun t ht => hsolid t (by simp [ht])
            exact ⟨t, b', g', by simp [hmem], hb', yields_resolveBindings_cons
              (habove s (by simp)) (hsolid s (by simp)) (hproper b (by simp)) hb hfed.1 hrest⟩
          · refine ⟨s, b, g, by simp, hb, ?_⟩
            unfold resolveBindings
            simp only [bne_iff_ne, ne_eq, hb, not_false_eq_true, if_true]
            exact yields_throw.mpr ⟨rfl, rfl⟩

theorem Holds.yields_resolve_refused {g : Supply} {h : Handle} {p : Program}
    (hp : h.Holds Binding.Proper g p) (hstream : ∃ b ∈ h.bindings, b.kind ≠ .uniform) :
    ∃ s b g', (b, s) ∈ h.bindings.zip p.inputs ∧ b.kind ≠ .uniform ∧
      Yields h.resolve g (.error (.error (.boundToStream s b.source))) g' := by
  have hinputs : ∀ s ∈ p.inputs, s ∈ p.symbols := fun s hs => Interface.mem_symbols.mpr (.inl hs)
  have hsome : ¬h.bindings.isEmpty = true := by
    obtain ⟨b, hb, _⟩ := hstream
    rw [List.isEmpty_iff]
    exact List.ne_nil_of_mem hb
  have hfed : Fed h.bindings p.copied.inputs := hp.fed
  obtain ⟨s, b, g', hmem, hb, hrefused⟩ := yields_resolveBindings_refused hfed hp.all hstream
    (fun s hs => hp.above s (hinputs s hs)) hp.valid.orderly.inputs.solid
  refine ⟨s, b, g', hmem, hb, ?_⟩
  unfold resolve
  rw [hp.sketch]
  refine (yields_bind Fresh.yields_copyOf).mpr ?_
  rw [if_neg hsome]
  exact (yields_bind_error hrefused).mpr ⟨rfl, rfl⟩

/--
Resolving is refused for its bindings exactly if one of them takes a stream.  Otherwise it gives
a valid program with the free inputs, and with outputs like those of the handle.  On vectors for
the free inputs it computes what the program of the handle computes on them behind the vectors
that the sources have.
-/
theorem resolve_supplies_bindings {h : Handle} {p : Program} {g : Supply} (hh : h.WellFormed)
    (hp : h.sketch.program? = some p) (habove : g.Above h.sketch.symbols)
    (hproper : ∀ b ∈ h.bindings, b.Proper) :
    ((∃ e g', h.resolve.run.run g = (.error (.error e), g') ∧ e.kind = .unsupportedBinding) ↔
        ∃ b ∈ h.bindings, b.kind = .stream) ∧
      ((∀ b ∈ h.bindings, b.kind ≠ .stream) → ∃ q g', h.resolve.run.run g = (.ok q, g') ∧
        q.issues = [] ∧ q.inputs = h.free ∧
        q.outputs.map (fun s => (s.name, s.size, s.scalar, s.semantic)) =
          h.outputs.map (fun s => (s.name, s.size, s.scalar, s.semantic)) ∧
        ∀ (u : Overrides) (x outputs : List (List Float)),
          (∃ steps, Completes p (h.bindings.map (fun b => startValue u b.source) ++ x) u
            ⟨outputs, false, steps⟩) ↔
          ∃ steps, Completes q x u ⟨outputs, false, steps⟩) := by
  obtain ⟨p', hholds⟩ := hh.inOrder habove hproper
  obtain rfl : p' = p := by
    rw [hholds.sketch, Program.program?_sketch] at hp
    exact Option.some.inj hp
  have hkind : ∀ b ∈ h.bindings, b.kind ≠ .uniform ↔ b.kind = .stream := by
    intro b hb
    rcases (hproper b hb).kind_eq with hb | hb <;> simp [hb]
  constructor
  · constructor
    · rintro ⟨e, g', hrun, _⟩
      by_contra hnone
      have huniform : ∀ b ∈ h.bindings, b.kind = .uniform := by
        intro b hb
        by_contra hother
        exact hnone ⟨b, hb, (hkind b hb).mp hother⟩
      obtain ⟨q, g'', hyields, _⟩ := hholds.exists_resolve huniform
      cases (hyields.unique hrun).1
    · rintro ⟨b, hb, hstream⟩
      obtain ⟨s, b', g', _, _, hrefused⟩ :=
        hholds.yields_resolve_refused ⟨b, hb, (hkind b hb).mpr hstream⟩
      exact ⟨_, g', hrefused, rfl⟩
  · intro hnone
    have huniform : ∀ b ∈ h.bindings, b.kind = .uniform :=
      fun b hb => ((hproper b hb).kind_eq).resolve_right (hnone b hb)
    obtain ⟨q, g', hyields, hvalid, _, hinputs, houtputs, _⟩ := hholds.exists_resolved huniform
    refine ⟨q, g', hyields, Program.issues_eq_nil_iff.mpr hvalid, ?_, ?_, ?_⟩
    · rw [hinputs, free, hholds.sketch]
      rfl
    · rw [Handle.outputs, hholds.sketch]
      exact Symbol.traits_of_face houtputs
    · intro u x outputs
      exact (hholds.gives_resolve_iff huniform hyields).symm

/-- Hands out what a channel holds and puts its other input there. -/
def exchanging : Program :=
  let s : Symbol := ⟨1, .inout, 1, .float32, .attrib, "s", []⟩
  let x : Symbol := ⟨2, .input, 1, .float32, .attrib, "x", []⟩
  let y : Symbol := ⟨3, .output, 1, .float32, .attrib, "y", []⟩
  { Interface.empty "" with
    inputs := [s, x], outputs := [s, y],
    graph := ⟨[⟨[.copy y s, .copy s x], [], none⟩], 0, 0⟩ }

def exchangingBound (kind : BindingKind) (role : Role) : Handle :=
  ⟨1, 1, exchanging.sketch, [⟨kind, ⟨4, role, 1, .float32, .attrib, "k", [2]⟩⟩], []⟩

theorem resolve_supplies_bindings_exchanging :
    (∃ e g', (exchangingBound .stream .stream).resolve.run.run ⟨5⟩ = (.error (.error e), g') ∧
      e.kind = .unsupportedBinding) ∧
    ∃ q g', (exchangingBound .uniform .uniform).resolve.run.run ⟨5⟩ = (.ok q, g') ∧
      q.inputs = exchanging.inputs.drop 1 ∧
      ∃ steps, Completes q [[5]] [("k", [3])] ⟨[[5], [3]], false, steps⟩ := by
  have hwell : ∀ kind role, (exchangingBound kind role).WellFormed := fun kind role =>
    ⟨⟨exchanging, rfl, rfl⟩, by simp [exchangingBound, exchanging, Program.sketch],
      by simp [exchangingBound, exchanging, Program.sketch]⟩
  have habove : (⟨5⟩ : Supply).Above exchanging.sketch.symbols := by decide
  have hproper : ∀ kind role, kind.takes role = true →
      ∀ b ∈ (exchangingBound kind role).bindings, b.Proper := by
    intro kind role htakes b hb
    rw [List.mem_singleton.mp hb]
    exact ⟨rfl, htakes⟩
  constructor
  · have hstream := resolve_supplies_bindings (hwell .stream .stream) rfl habove
      (hproper _ _ rfl)
    exact hstream.1.mpr ⟨_, List.mem_singleton.mpr rfl, rfl⟩
  · have huniform := resolve_supplies_bindings (hwell .uniform .uniform) rfl habove
      (hproper _ _ rfl)
    obtain ⟨q, g', hrun, _, hinputs, _, hruns⟩ := huniform.2 (by simp [exchangingBound])
    refine ⟨q, g', hrun, hinputs, (hruns [("k", [3])] [[5]] [[5], [3]]).mp ?_⟩
    exact ⟨1, 1, rfl⟩

end Handle

end KernelAlgebra
