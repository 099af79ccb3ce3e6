import KernelAlgebra.Proofs.Machine.Sequence

/-!
# Runs through an embedded graph

A run that enters an embedded graph retraces a run of that graph until it leaves through the
counterpart of the exit.  So a run through two graphs, one after the other, falls into a run of
the first and a run of the second one.
-/

namespace KernelAlgebra.Machine

variable {u : Overrides} {D W : Symbol → Prop} {ρ : Symbol → Symbol} {f : Nat → Nat}
  {g g' : Graph}

/-! ## One end -/

theorem Computes.unique {st fin fin' : Store} {killed killed' : Bool}
    (h : Computes g u st fin killed) (h' : Computes g u st fin' killed') :
    fin' = fin ∧ killed' = killed := by
  obtain ⟨k, n, hn, hends⟩ := h
  obtain ⟨k', n', hn', hends'⟩ := h'
  have hvisit : visit g u 0 (k + k' + 1) 0 g.entry st = .ok ⟨fin, killed, k + 1⟩ :=
    visit_eq_ok_iff.mpr ⟨n, k, hn, by omega, hends, by simp⟩
  have hvisit' : visit g u 0 (k + k' + 1) 0 g.entry st = .ok ⟨fin', killed', k' + 1⟩ :=
    visit_eq_ok_iff.mpr ⟨n', k', hn', by omega, hends', by simp⟩
  rw [hvisit] at hvisit'
  simp only [Except.ok.injEq, Final.mk.injEq] at hvisit'
  exact ⟨hvisit'.1.symm, hvisit'.2.1.symm⟩

/-! ## One step back -/

theorem exec_of_mirror (hρ : Faithful D ρ) {i i' : Instruction} (h : Mirrors D W ρ i i')
    {st st' st₁' : Store} {killed : Bool} (hagree : Agree u D ρ st st')
    (hexec : exec u st' i' = .ok ⟨st₁', killed⟩) : ∃ st₁, exec u st i = .ok ⟨st₁, killed⟩ := by
  have hread := h.readAll hρ hagree
  generalize ho : (⟨st₁', killed⟩ : Outcome) = o at hexec
  cases exec_eq_ok_iff.mp hexec with
  | nothing hop =>
      cases ho
      exact ⟨st, exec_eq_ok_iff.mpr (.nothing (h.op.symm.trans hop))⟩
  | test hop hsrcs =>
      cases ho
      exact ⟨st, exec_eq_ok_iff.mpr (.test (h.op.symm.trans hop) (hread.symm.trans hsrcs))⟩
  | @assignment srcs r ys hsrcs hr hdst hplace =>
      cases ho
      have hpresent : i.dst.isAbsent = false := by
        cases hi : i.dst.isAbsent with
        | false => rfl
        | true => simp [h.dst.absent hi] at hdst
      obtain ⟨hD, _⟩ := h.defines i.dst.sym (by simp [Instruction.defines, hpresent])
      have halike := h.dst.alike hρ hpresent hD
      have hsym : i'.dst.sym = ρ i.dst.sym := by rw [h.dst.present hpresent]
      rw [h.op, halike.size_eq] at hr
      rw [place_congr halike.selector, hsym, hagree _ hD] at hplace
      exact ⟨_, exec_eq_ok_iff.mpr (.assignment (hread.symm.trans hsrcs) hr hpresent hplace)⟩

theorem next_of_map {st st' : Store} {count count' id id' : Nat} {follower : Option Nat}
    {branches : List Branch} {target' : Nat} {mirror : Branch → Branch}
    (hread : ∀ b ∈ branches, read u st' (mirror b).cond = read u st b.cond)
    (hinside : ∀ b ∈ branches, b.target < count)
    (h : next u st' count' id' (follower.map f) (branches.map mirror) = .ok target') :
    ∃ target, next u st count id follower branches = .ok target := by
  induction branches with
  | nil =>
      cases follower with
      | none => simp [next] at h
      | some x => exact ⟨x, rfl⟩
  | cons b rest ih =>
      have hholds : holds u st' (mirror b) = holds u st b := by
        simp only [holds, hread b (by simp)]
      simp only [List.map_cons, next, hholds] at h ⊢
      split at h
      · exact ⟨b.target, by simp [Graph.follower?_of_lt (hinside b (by simp))]⟩
      · exact ih (fun c hc => hread c (by simp [hc])) (fun c hc => hinside c (by simp [hc])) h
      · cases h

/-- From a point with a counterpart that is not behind the exit, an edge of the counterpart
leads to the counterpart of the next point. -/
theorem Embeds.edge_back (hembeds : Embeds D W ρ f g g') (hρ : Faithful D ρ) (hsound : g.Sound)
    {base : Store} {id target' : Nat} {n n' m' : Node} {st st' : Store}
    (h : Mirrored u D W ρ f g base ⟨id, [], st⟩ ⟨f id, [], st'⟩) (hexit : id ≠ g.exit)
    (hn : g.node? id = some n) (hn' : g'.node? (f id) = some n')
    (hnext : next u st' g'.size (f id) n'.follower n'.branches = .ok target')
    (hm' : g'.node? target' = some m') :
    ∃ target m, next u st g.size id n.follower n.branches = .ok target ∧
      g.node? target = some m ∧
      Mirrored u D W ρ f g base ⟨target, m.block, st⟩ ⟨target', m'.block, st'⟩ := by
  obtain ⟨x, hx, _, hedges⟩ := hembeds.node id n h.reaches hn
  obtain rfl : x = n' := Option.some.inj (hx.symm.trans hn')
  obtain ⟨_, hfollower, branch, hbranches, hbranch⟩ := hedges hexit
  have hread : ∀ b ∈ n.branches, read u st' (branch b).cond = read u st b.cond := fun b hb =>
    read_image hρ h.agree (hbranch b hb).cond fun _ => (hbranch b hb).declared
  rw [hfollower, hbranches] at hnext
  obtain ⟨target, htarget⟩ := @next_of_map u f st st' g.size g'.size id (f id) n.follower
    n.branches target' branch hread
    (fun b hb => hsound.closed id n hn _ (Graph.target_mem_successors hb)) hnext
  have hsame := @next_map u st st' g.size g'.size id (f id) n.follower n.branches target f branch
    hread (fun b hb => ⟨(hbranch b hb).target, (hbranch b hb).inside⟩) htarget
  obtain rfl : f target = target' := Except.ok.inj (hsame.symm.trans hnext)
  have hreach := h.reaches.of_mem_successors hsound hn (mem_successors_of_next htarget)
  obtain ⟨m, hm⟩ := hreach.node
  obtain ⟨y, hy, hblock, _⟩ := hembeds.node target m hreach hm
  obtain rfl : y = m' := Option.some.inj (hy.symm.trans hm')
  exact ⟨target, m, htarget, hm, hreach, rfl, hblock, h.agree, h.frame⟩

/-! ## Whole runs back -/

theorem Embeds.ends_back (hembeds : Embeds D W ρ f g g') (hρ : Faithful D ρ) (hsound : g.Sound)
    {base fin : Store} {k : Nat} {c d d' : Point} (hpath : Path g' u k d d')
    (hstop : Stops g' u d' fin false) (h : Mirrored u D W ρ f g base c d) :
    ∃ j mid mid', Ends g u j c mid false ∧ Agree u D ρ mid mid' ∧
      (∀ t, (∀ s, W s → ρ s ≠ t) → mid'.get u t = base.get u t) ∧
      ∃ i, Ends g' u i ⟨f g.exit, [], mid'⟩ fin false := by
  induction hpath generalizing c with
  | done d =>
      obtain ⟨id, rest, st⟩ := c
      obtain ⟨mirror, hrest, _⟩ := h.rest
      cases hstop with
      | exit =>
          have hnil : rest = [] := List.map_eq_nil_iff.mp hrest.symm
          subst hnil
          obtain ⟨n, hn⟩ := h.reaches.node
          obtain ⟨_, _, _, hedges⟩ := hembeds.node id n h.reaches hn
          by_cases hexit : id = g.exit
          · subst hexit
            exact ⟨0, st, fin, Stops.exit.ends, h.agree, h.frame, 0,
              (Stops.at_exit h.node.symm fin).ends⟩
          · exact absurd h.node.symm (hedges hexit).1
  | @instruction k did i' rest' st' st₁' d' hexec' htail ih =>
      obtain ⟨id, rest, st⟩ := c
      obtain ⟨mirror, hrest, hmirrors⟩ := h.rest
      cases rest with
      | nil => cases hrest
      | cons i rest =>
          obtain ⟨rfl, rfl⟩ := List.cons.inj hrest
          have hmirror := hmirrors i (by simp)
          obtain ⟨st₁, hexec⟩ := exec_of_mirror hρ hmirror h.agree hexec'
          obtain ⟨st₂', hexec₂, hagree, hframe⟩ := exec_mirrors hρ hmirror h.agree hexec
          obtain rfl : st₂' = st₁' := by
            have hsame := hexec₂.symm.trans hexec'
            simpa using hsame
          obtain ⟨j, mid, mid', hends, hrest⟩ := ih hstop (c := ⟨id, rest, st₁⟩)
            ⟨h.reaches, h.node, ⟨mirror, rfl, fun x hx => hmirrors x (by simp [hx])⟩, hagree,
              fun t ht => (hframe t ht).trans (h.frame t ht)⟩
          refine ⟨j, mid, mid', ?_, hrest⟩
          simpa using (Path.instruction hexec (.done _)).ends hends
  | @edge k did target' n' m' st' d' hn' hexit' hnext' hm' htail ih =>
      obtain ⟨id, rest, st⟩ := c
      obtain ⟨mirror, hrest, _⟩ := h.rest
      have hnil : rest = [] := List.map_eq_nil_iff.mp hrest.symm
      subst hnil
      obtain rfl : did = f id := h.node
      by_cases hexit : id = g.exit
      · subst hexit
        exact ⟨0, st, st', Stops.exit.ends, h.agree, h.frame, _, _,
          .edge hn' hexit' hnext' hm' htail, hstop⟩
      · obtain ⟨n, hn⟩ := h.reaches.node
        obtain ⟨target, m, hnext, hm, hmirrored⟩ :=
          hembeds.edge_back hρ hsound h hexit hn hn' hnext' hm'
        obtain ⟨j, mid, mid', hends, hrest⟩ := ih hstop hmirrored
        exact ⟨1 + j, mid, mid', (Path.edge hn hexit hnext hm (.done _)).ends hends, hrest⟩

theorem Embeds.computes_back (hembeds : Embeds D W ρ f g g') (hρ : Faithful D ρ)
    (hsound : g.Sound) (hentry : g'.entry = f g.entry) (hexit : g'.exit = f g.exit)
    {st st' fin' : Store} (hagree : Agree u D ρ st st') (h : Computes g' u st' fin' false) :
    ∃ fin, Computes g u st fin false ∧ Agree u D ρ fin fin' ∧
      ∀ t, (∀ s, W s → ρ s ≠ t) → fin'.get u t = st'.get u t := by
  obtain ⟨k, n', hn', d, hpath, hstop⟩ := h
  have hreach : g.Reaches g.entry := .entry hsound.entry_lt
  obtain ⟨n, hn⟩ := hreach.node
  obtain ⟨x, hx, hblock, _⟩ := hembeds.node _ n hreach hn
  obtain rfl : x = n' := Option.some.inj (hx.symm.trans (hentry ▸ hn'))
  obtain ⟨j, fin, mid, hends, hagree', hframe, i, hrest⟩ :=
    hembeds.ends_back hρ hsound hpath hstop (c := ⟨g.entry, n.block, st⟩)
      ⟨hreach, hentry, hblock, hagree, fun _ _ => rfl⟩
  rw [← hexit] at hrest
  obtain ⟨rfl, _⟩ := eq_of_ends_exit hrest
  exact ⟨fin, ⟨j, n, hn, hends⟩, hagree', hframe⟩

theorem computes_sequel_back {f₁ f₂ : Nat → Nat} {g₁ g₂ : Graph}
    (h : Graph.Sequel f₁ f₂ g₁ g₂ g) (h₁ : g₁.Sound) (h₂ : g₂.Sound) {st fin : Store}
    (hcomputes : Computes g u st fin false) :
    ∃ mid mid' fin', Computes g₁ u st mid false ∧ Alike u mid mid' ∧
      Computes g₂ u mid' fin' false ∧ Alike u fin' fin := by
  obtain ⟨k, n', hn', d, hpath, hstop⟩ := hcomputes
  have hreach : g₁.Reaches g₁.entry := .entry h₁.entry_lt
  obtain ⟨n, hn⟩ := hreach.node
  obtain ⟨x, hx, hblock, _⟩ := (embeds_first h h₁ h₂).node _ n hreach hn
  obtain rfl : x = n' := Option.some.inj (hx.symm.trans (h.entry ▸ hn'))
  obtain ⟨j, mid, mid', hends, hmid, _, i, hrest⟩ :=
    (embeds_first h h₁ h₂).ends_back (.id _) h₁ hpath hstop (c := ⟨g₁.entry, n.block, st⟩)
      ⟨hreach, h.entry, hblock, fun _ _ => rfl, fun _ _ => rfl⟩
  -- behind the exit of the first graph there is one edge, to the entry of the second
  obtain ⟨d', hpath', hstop'⟩ := hrest
  have hapart : f₁ g₁.exit ≠ g.exit := h.exit ▸ h.apart _ h₁.exit_lt _ h₂.exit_lt
  obtain ⟨y, hy⟩ := h₁.exit_reached.node
  generalize hp : (⟨f₁ g₁.exit, [], mid'⟩ : Point) = p at hpath'
  cases hpath' with
  | done =>
      cases hstop' with
      | exit => exact absurd (congrArg Point.node hp) hapart
  | instruction => cases hp
  | @edge k id target z m st₁ _ hz _ hnext hm htail =>
      cases hp
      obtain rfl := Option.some.inj ((h.link y hy).symm.trans hz)
      have hsuccessor := mem_successors_of_next hnext
      rw [Graph.Sequel.successors_link h₁ hy, List.mem_singleton] at hsuccessor
      subst hsuccessor
      have hreach₂ : g₂.Reaches g₂.entry := .entry h₂.entry_lt
      obtain ⟨n₂, hn₂⟩ := hreach₂.node
      obtain ⟨w, hw, hblock₂, _⟩ := (embeds_second h h₂).node _ n₂ hreach₂ hn₂
      obtain rfl : w = m := Option.some.inj (hw.symm.trans hm)
      obtain ⟨j₂, fin', fin'', hends₂, hfin, _, i₂, hrest₂⟩ :=
        (embeds_second h h₂).ends_back (.id _) h₂ htail hstop' (c := ⟨g₂.entry, n₂.block, mid'⟩)
          ⟨hreach₂, rfl, hblock₂, fun _ _ => rfl, fun _ _ => rfl⟩
      rw [← h.exit] at hrest₂
      obtain ⟨rfl, _⟩ := eq_of_ends_exit hrest₂
      exact ⟨mid, mid', fin', ⟨j, n, hn, hends⟩, fun s => hmid s trivial,
        ⟨j₂, n₂, hn₂, hends₂⟩, fun s => hfin s trivial⟩

end KernelAlgebra.Machine
