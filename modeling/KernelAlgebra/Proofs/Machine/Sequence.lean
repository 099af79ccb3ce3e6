import KernelAlgebra.Proofs.Graph.Sequence

/-!
# Runs of one graph after another

Where the first of two graphs takes a store to a second one, and the second graph takes that to
a third, the graphs one after the other take the first store to the third.  A block in front or
behind that copies symbols is the smallest such graph.
-/

namespace KernelAlgebra.Machine

variable {u : Overrides} {D W : Symbol → Prop} {ρ : Symbol → Symbol}

/-- A run through the graph takes one store to the other. -/
def Computes (g : Graph) (u : Overrides) (st fin : Store) (killed : Bool) : Prop :=
  ∃ k n, g.node? g.entry = some n ∧ Ends g u k ⟨g.entry, n.block, st⟩ fin killed

def Alike (u : Overrides) (st st' : Store) : Prop :=
  ∀ s, st'.get u s = st.get u s

theorem completes_iff {p : Program} {inputs outputs : List (List Float)} {killed : Bool} :
    (∃ steps, Completes p inputs u ⟨outputs, killed, steps⟩) ↔
      ∃ st fin, start p.toInterface inputs = .ok st ∧ Computes p.graph u st fin killed ∧
        (∀ s ∈ p.outputs, ¬ s.isHole) ∧ outputs = p.outputs.map (fin.get u) := by
  simp only [Completes, runWithin_eq_ok_iff, Runs, Computes]
  constructor
  · rintro ⟨_, _, k, fin, _, ⟨st, n, hstart, hn, hends⟩, hsolid, houtputs, _⟩
    exact ⟨st, fin, hstart, ⟨k, n, hn, hends⟩, hsolid, houtputs⟩
  · rintro ⟨st, fin, hstart, ⟨k, n, hn, hends⟩, hsolid, houtputs⟩
    exact ⟨k + 1, k + 1, k, fin, by omega, ⟨st, n, hstart, hn, hends⟩, hsolid, houtputs, rfl⟩

theorem Path.sized {g : Graph} {k : Nat} {c d : Point} (h : Path g u k c d)
    (hsized : c.store.Sized u) : d.store.Sized u := by
  induction h with
  | done => exact hsized
  | instruction hexec _ ih => exact ih (sized_exec hsized hexec)
  | edge _ _ _ _ _ ih => exact ih hsized

theorem Computes.sized {g : Graph} {st fin : Store} {killed : Bool}
    (h : Computes g u st fin killed) (hsized : st.Sized u) : fin.Sized u := by
  obtain ⟨k, n, _, d, hpath, hstop⟩ := h
  have hd := hpath.sized hsized
  cases hstop with
  | exit => exact hd
  | discard hexec => exact sized_exec hd hexec

theorem Embeds.computes {f : Nat → Nat} {g g' : Graph} (hembeds : Embeds D W ρ f g g')
    (hρ : Faithful D ρ) (hsound : g.Sound) (hentry : g'.entry = f g.entry)
    (hexit : g'.exit = f g.exit) {st st' fin : Store} {killed : Bool}
    (hagree : Agree u D ρ st st') (h : Computes g u st fin killed) :
    ∃ fin', Computes g' u st' fin' killed ∧ Agree u D ρ fin fin' ∧
      ∀ t, (∀ s, W s → ρ s ≠ t) → fin'.get u t = st'.get u t := by
  obtain ⟨k, n, hn, hends⟩ := h
  obtain ⟨j, _, n', fin', hn', hends', hagree', hframe⟩ :=
    hembeds.ends hρ hsound hexit hn hagree hends
  rw [← hentry] at hn' hends'
  exact ⟨fin', ⟨j, n', hn', hends'⟩, hagree', hframe⟩

/-! ## Sequences -/

section Sequences

variable {f₁ f₂ : Nat → Nat} {g₁ g₂ g : Graph}

private theorem branches_relocated {f : Nat → Nat} {count : Nat} {b : Branch}
    (hlt : f b.target < count) :
    Branches (fun _ => True) (fun s => s) f count b { b with target := f b.target } :=
  ⟨.id _, trivial, rfl, hlt⟩

theorem embeds_first (h : Graph.Sequel f₁ f₂ g₁ g₂ g) (h₁ : g₁.Sound) (h₂ : g₂.Sound) :
    Embeds (fun _ => True) (fun _ => True) (fun s => s) f₁ g₁ g where
  node := by
    intro id n hreach hn
    by_cases hexit : id = g₁.exit
    · subst hexit
      exact ⟨_, h.link n hn, ⟨fun i => i, by simp, fun i _ => .self i⟩, fun hne => absurd rfl hne⟩
    · refine ⟨_, h.first id n hn hexit,
        ⟨fun i => i, by simp [Graph.relocated], fun i _ => .self i⟩, fun _ => ⟨?_, rfl, _, rfl, ?_⟩⟩
      · rw [h.exit]
        exact h.apart id hreach.lt _ h₂.exit_lt
      · intro b hb
        exact branches_relocated
          (h.first_lt (h₁.closed id n hn _ (Graph.target_mem_successors hb)))

theorem embeds_second (h : Graph.Sequel f₁ f₂ g₁ g₂ g) (h₂ : g₂.Sound) :
    Embeds (fun _ => True) (fun _ => True) (fun s => s) f₂ g₂ g where
  node := by
    intro id n hreach hn
    refine ⟨_, h.second id n hn,
      ⟨fun i => i, by simp [Graph.relocated], fun i _ => .self i⟩,
      fun hexit => ⟨?_, rfl, _, rfl, ?_⟩⟩
    · rw [h.exit]
      exact fun heq => hexit (h.injective id hreach.lt _ h₂.exit_lt heq)
    · intro b hb
      exact branches_relocated
        (h.second_lt (h₂.closed id n hn _ (Graph.target_mem_successors hb)))

theorem computes_sequel (h : Graph.Sequel f₁ f₂ g₁ g₂ g) (h₁ : g₁.Sound) (h₂ : g₂.Sound)
    {st mid mid' fin : Store} {killed : Bool} (hfirst : Computes g₁ u st mid false)
    (hmid : Alike u mid mid') (hsecond : Computes g₂ u mid' fin killed) :
    ∃ fin', Computes g u st fin' killed ∧ Alike u fin fin' := by
  obtain ⟨k, n, hn, hends⟩ := hfirst
  have hsame : Agree u (fun _ => True) (fun s => s) st st := fun _ _ => rfl
  obtain ⟨j, m, mid₁, hm, hpath, hagree, _⟩ :=
    (embeds_first h h₁ h₂).path_to_exit (.id _) h₁ hn hsame hends
  obtain ⟨k', n', hn', hends'⟩ := hsecond
  have hstart : Agree u (fun _ => True) (fun s => s) mid' mid₁ := by
    intro s _
    rw [hagree s trivial, hmid s]
  obtain ⟨j', _, m', fin', hm', hends₂, hagree₂, _⟩ :=
    (embeds_second h h₂).ends (.id _) h₂ h.exit hn' hstart hends'
  obtain ⟨x, hx⟩ := h₁.exit_reached.node
  have hbranches : x.branches = [] := by
    have := (List.append_eq_nil_iff.mp (h₁.exit_final x hx)).1
    simpa using this
  have hnext : next u mid₁ g.size (f₁ g₁.exit) (some (f₂ g₂.entry)) x.branches =
      .ok (f₂ g₂.entry) := by
    rw [hbranches]
    rfl
  have hexit : f₁ g₁.exit ≠ g.exit := h.exit ▸ h.apart _ h₁.exit_lt _ h₂.exit_lt
  have hlink : Path g u 1 ⟨f₁ g₁.exit, [], mid₁⟩ ⟨f₂ g₂.entry, m'.block, mid₁⟩ :=
    .edge (h.link x hx) hexit hnext hm' (.done _)
  rw [← h.entry] at hm hpath
  exact ⟨fin', ⟨_, m, hm, (hpath.trans hlink).ends hends₂⟩, fun s => hagree₂ s trivial⟩

theorem discards_sequel (h : Graph.Sequel f₁ f₂ g₁ g₂ g) (h₁ : g₁.Sound) (h₂ : g₂.Sound)
    {st mid : Store} (hfirst : Computes g₁ u st mid true) : ∃ fin, Computes g u st fin true := by
  obtain ⟨k, n, hn, hends⟩ := hfirst
  have hsame : Agree u (fun _ => True) (fun s => s) st st := fun _ _ => rfl
  obtain ⟨j, m, fin, hm, hends'⟩ := (embeds_first h h₁ h₂).discards (.id _) h₁ hn hsame hends
  rw [← h.entry] at hm hends'
  exact ⟨fin, j, m, hm, hends'⟩

end Sequences

end KernelAlgebra.Machine
