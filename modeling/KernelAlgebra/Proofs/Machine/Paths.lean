import KernelAlgebra.Machine

/-!
# Runs as paths

A run moves from point to point: it executes the instructions of a node one by one and then
takes an edge.  The evaluator with its bound on visited nodes finds exactly the paths that end
behind the exit or at an instruction that discards the run, and it counts the edges of the path.
-/

namespace KernelAlgebra

namespace Machine

/-- A point of a run: a node, what is left of its block, and the store. -/
structure Point where
  node : Nat
  rest : Block
  store : Store

/-- The way from one point to another, with the number of edges on it. -/
inductive Path (g : Graph) (u : Overrides) : Nat → Point → Point → Prop
  | done (c : Point) : Path g u 0 c c
  | instruction {k id : Nat} {i : Instruction} {rest : Block} {st st' : Store} {d : Point} :
      exec u st i = .ok ⟨st', false⟩ →
      Path g u k ⟨id, rest, st'⟩ d → Path g u k ⟨id, i :: rest, st⟩ d
  | edge {k id target : Nat} {n m : Node} {st : Store} {d : Point} :
      g.node? id = some n → id ≠ g.exit →
      next u st g.size id n.follower n.branches = .ok target → g.node? target = some m →
      Path g u k ⟨target, m.block, st⟩ d → Path g u (k + 1) ⟨id, [], st⟩ d

/-- The run is over at a point; it leaves a store and says whether it was discarded. -/
inductive Stops (g : Graph) (u : Overrides) : Point → Store → Bool → Prop
  | exit {st : Store} : Stops g u ⟨g.exit, [], st⟩ st false
  | discard {id : Nat} {i : Instruction} {rest : Block} {st st' : Store} :
      exec u st i = .ok ⟨st', true⟩ → Stops g u ⟨id, i :: rest, st⟩ st' true

/-- From a point the run comes to an end after `k` more edges. -/
def Ends (g : Graph) (u : Overrides) (k : Nat) (c : Point) (fin : Store) (killed : Bool) : Prop :=
  ∃ d, Path g u k c d ∧ Stops g u d fin killed

variable {g : Graph} {u : Overrides}

theorem Path.trans {j k : Nat} {c d e : Point} (h : Path g u j c d) (h' : Path g u k d e) :
    Path g u (j + k) c e := by
  induction h with
  | done => simpa using h'
  | instruction hi _ ih => exact .instruction hi (ih h')
  | edge hn hexit hnext hm _ ih =>
      rw [Nat.add_right_comm]
      exact .edge hn hexit hnext hm (ih h')

theorem Path.ends {j k : Nat} {c d : Point} {fin : Store} {killed : Bool}
    (h : Path g u j c d) (h' : Ends g u k d fin killed) : Ends g u (j + k) c fin killed := by
  obtain ⟨e, hpath, hstop⟩ := h'
  exact ⟨e, h.trans hpath, hstop⟩

theorem Stops.at_exit {id : Nat} (h : id = g.exit) (st : Store) :
    Stops g u ⟨id, [], st⟩ st false := by
  subst h
  exact .exit

theorem Stops.ends {c : Point} {fin : Store} {killed : Bool} (h : Stops g u c fin killed) :
    Ends g u 0 c fin killed :=
  ⟨c, .done c, h⟩

theorem eq_of_ends_exit {k : Nat} {st fin : Store} {killed : Bool}
    (h : Ends g u k ⟨g.exit, [], st⟩ fin killed) : fin = st ∧ killed = false := by
  obtain ⟨c, hpath, hstop⟩ := h
  cases hpath with
  | done =>
      cases hstop
      exact ⟨rfl, rfl⟩
  | edge _ hexit => exact absurd rfl hexit

/-! ## The evaluator -/

/-- The evaluator in the middle of a block. -/
def resume (g : Graph) (u : Overrides) (limit fuel steps id index : Nat) (n : Node)
    (rest : Block) (st : Store) : Except RunError Final :=
  match execBlock u id index rest st with
  | .error e => .error e
  | .ok ⟨st, true⟩ => .ok ⟨st, true, steps + 1⟩
  | .ok ⟨st, false⟩ =>
      if id = g.exit then .ok ⟨st, false, steps + 1⟩
      else
        match next u st g.size id n.follower n.branches with
        | .error e => .error e
        | .ok id => visit g u limit fuel (steps + 1) id st

theorem visit_succ {limit fuel steps id : Nat} {n : Node} {st : Store}
    (hn : g.node? id = some n) :
    visit g u limit (fuel + 1) steps id st =
      resume g u limit fuel steps id 0 n n.block st := by
  unfold visit
  split
  · rename_i hnone
    cases hn.symm.trans hnone
  · rename_i m hm
    cases hn.symm.trans hm
    rfl

theorem resume_discard {limit fuel steps id index : Nat} {n : Node} {i : Instruction}
    {rest : Block} {st st' : Store} (h : exec u st i = .ok ⟨st', true⟩) :
    resume g u limit fuel steps id index n (i :: rest) st = .ok ⟨st', true, steps + 1⟩ := by
  simp [resume, execBlock, h]

theorem resume_instruction {limit fuel steps id index : Nat} {n : Node}
    {i : Instruction} {rest : Block} {st st' : Store} (h : exec u st i = .ok ⟨st', false⟩) :
    resume g u limit fuel steps id index n (i :: rest) st =
      resume g u limit fuel steps id (index + 1) n rest st' := by
  simp [resume, execBlock, h]

private theorem resume_eq_ok_of_ends {limit k : Nat} {c : Point} {fin : Store} {killed : Bool}
    (h : Ends g u k c fin killed) {fuel steps index : Nat} {n : Node}
    (hn : g.node? c.node = some n) (hfuel : k ≤ fuel) :
    resume g u limit fuel steps c.node index n c.rest c.store =
      .ok ⟨fin, killed, steps + k + 1⟩ := by
  obtain ⟨d, hpath, hstop⟩ := h
  induction hpath generalizing fuel steps index n with
  | done c =>
      cases hstop with
      | exit => simp [resume, execBlock]
      | discard hi => exact resume_discard hi
  | instruction hi _ ih =>
      simp only [resume_instruction hi]
      exact ih hn hfuel hstop
  | @edge k id target n' m st _ hn' hexit hnext hm _ ih =>
      have hsame : n' = n := Option.some.inj (hn'.symm.trans hn)
      subst hsame
      obtain ⟨fuel, rfl⟩ := Nat.exists_eq_add_of_le' (Nat.le_trans (Nat.le_add_left 1 k) hfuel)
      simp only [resume, execBlock, hexit, hnext, if_false]
      rw [visit_succ hm, ih hm (by omega) hstop]
      simp only [Except.ok.injEq, Final.mk.injEq, true_and]
      omega

private theorem ends_of_resume_block {limit fuel steps id : Nat} {n : Node} {f : Final}
    (hnil : ∀ index st, resume g u limit fuel steps id index n [] st = .ok f →
      ∃ k ≤ fuel, Ends g u k ⟨id, [], st⟩ f.store f.killed ∧ f.steps = steps + k + 1)
    {index : Nat} {rest : Block} {st : Store}
    (h : resume g u limit fuel steps id index n rest st = .ok f) :
    ∃ k ≤ fuel, Ends g u k ⟨id, rest, st⟩ f.store f.killed ∧ f.steps = steps + k + 1 := by
  induction rest generalizing index st with
  | nil => exact hnil index st h
  | cons i rest ih =>
      cases hexec : exec u st i with
      | error e => cases e <;> simp [resume, execBlock, hexec] at h
      | ok o =>
          obtain ⟨st', killed⟩ := o
          cases killed with
          | true =>
              rw [resume_discard hexec] at h
              cases h
              exact ⟨0, Nat.zero_le _, (Stops.discard hexec).ends, rfl⟩
          | false =>
              rw [resume_instruction hexec] at h
              obtain ⟨k, hk, hends, hsteps⟩ := ih h
              refine ⟨k, hk, ?_, hsteps⟩
              simpa using (Path.instruction hexec (.done _)).ends hends

private theorem ends_of_resume_eq_ok {limit fuel steps id index : Nat} {n : Node}
    {rest : Block} {st : Store} {f : Final} (hn : g.node? id = some n)
    (h : resume g u limit fuel steps id index n rest st = .ok f) :
    ∃ k ≤ fuel, Ends g u k ⟨id, rest, st⟩ f.store f.killed ∧ f.steps = steps + k + 1 := by
  induction fuel generalizing steps id index n rest st with
  | zero =>
      refine ends_of_resume_block (fun index st h => ?_) h
      simp only [resume, execBlock] at h
      split at h
      · rename_i hexit
        cases h
        exact ⟨0, Nat.le_refl 0, hexit ▸ Stops.exit.ends, rfl⟩
      · split at h
        · cases h
        · simp [visit] at h
  | succ fuel ih =>
      refine ends_of_resume_block (fun index st h => ?_) h
      simp only [resume, execBlock] at h
      split at h
      · rename_i hexit
        cases h
        exact ⟨0, Nat.zero_le _, hexit ▸ Stops.exit.ends, rfl⟩
      · rename_i hexit
        split at h
        · cases h
        · rename_i target hnext
          cases hm : g.node? target with
          | none => simp [visit, hm] at h
          | some m =>
              rw [visit_succ hm] at h
              obtain ⟨k, hk, hends, hsteps⟩ := ih hm h
              refine ⟨k + 1, by omega, ?_, by omega⟩
              rw [Nat.add_comm k 1]
              exact (Path.edge hn hexit hnext hm (.done _)).ends hends

theorem visit_eq_ok_iff {limit fuel steps id : Nat} {st : Store} {f : Final} :
    visit g u limit fuel steps id st = .ok f ↔
      ∃ n k, g.node? id = some n ∧ k < fuel ∧
        Ends g u k ⟨id, n.block, st⟩ f.store f.killed ∧ f.steps = steps + k + 1 := by
  cases fuel with
  | zero => simp [visit]
  | succ fuel =>
      constructor
      · intro h
        cases hn : g.node? id with
        | none => simp [visit, hn] at h
        | some n =>
            rw [visit_succ hn] at h
            obtain ⟨k, hk, hends, hsteps⟩ := ends_of_resume_eq_ok hn h
            exact ⟨n, k, rfl, by omega, hends, hsteps⟩
      · rintro ⟨n, k, hn, hk, hends, hsteps⟩
        rw [visit_succ hn, resume_eq_ok_of_ends hends hn (by omega)]
        rw [← hsteps]

/-! ## Runs of programs -/

/-- The run of a program on these inputs takes `k` edges and leaves a store. -/
def Runs (p : Program) (inputs : List (List Float)) (u : Overrides) (k : Nat) (fin : Store)
    (killed : Bool) : Prop :=
  ∃ st n, start p.toInterface inputs = .ok st ∧ p.graph.node? p.graph.entry = some n ∧
    Ends p.graph u k ⟨p.graph.entry, n.block, st⟩ fin killed

theorem runToEnd_eq_ok_iff {p : Program} {inputs : List (List Float)} {limit : Nat}
    {f : Final} :
    runToEnd p inputs u limit = .ok f ↔
      ∃ k < limit, Runs p inputs u k f.store f.killed ∧ f.steps = k + 1 := by
  unfold runToEnd Runs
  cases hstart : start p.toInterface inputs with
  | error e => simp
  | ok st =>
      simp only [visit_eq_ok_iff]
      constructor
      · rintro ⟨n, k, hn, hk, hends, hsteps⟩
        exact ⟨k, hk, ⟨st, n, rfl, hn, hends⟩, by omega⟩
      · rintro ⟨k, hk, ⟨st', n, hst, hn, hends⟩, hsteps⟩
        cases hst
        exact ⟨n, k, hn, hk, hends, by omega⟩

theorem runWithin_eq_ok_iff {p : Program} {inputs : List (List Float)} {limit : Nat}
    {r : Result} :
    runWithin p inputs u limit = .ok r ↔
      ∃ k fin, k < limit ∧ Runs p inputs u k fin r.killed ∧ (∀ s ∈ p.outputs, ¬ s.isHole) ∧
        r.outputs = p.outputs.map (fin.get u) ∧ r.steps = k + 1 := by
  unfold runWithin
  constructor
  · intro h
    cases hrun : runToEnd p inputs u limit with
    | error e => simp [hrun] at h
    | ok f =>
        obtain ⟨k, hk, hruns, hsteps⟩ := runToEnd_eq_ok_iff.mp hrun
        simp only [hrun, result] at h
        split at h
        · cases h
        · rename_i hholes
          cases h
          refine ⟨k, f.store, hk, hruns, ?_, rfl, hsteps⟩
          intro s hs hhole
          exact hholes (List.any_eq_true.mpr ⟨s, hs, hhole⟩)
  · rintro ⟨k, fin, hk, hruns, hholes, houtputs, hsteps⟩
    have hrun : runToEnd p inputs u limit = .ok ⟨fin, r.killed, k + 1⟩ :=
      runToEnd_eq_ok_iff.mpr ⟨k, hk, hruns, rfl⟩
    have hany : p.outputs.any (·.isHole) = false := by
      rw [List.any_eq_false]
      exact hholes
    simp only [hrun, result, hany, Bool.false_eq_true, if_false, resultOf]
    rw [← houtputs, ← hsteps]

/-! ## Answers -/

theorem visit_mono {limit limit' fuel fuel' steps id : Nat} {st : Store}
    {x : Except RunError Final} (hle : fuel ≤ fuel')
    (h : visit g u limit fuel steps id st = x) (hx : x ≠ .error (.stepLimit limit)) :
    visit g u limit' fuel' steps id st = x := by
  induction fuel generalizing fuel' steps id st with
  | zero => exact absurd h.symm hx
  | succ fuel ih =>
      obtain ⟨more, rfl⟩ : ∃ more, fuel' = more + 1 := ⟨fuel' - 1, by omega⟩
      rw [visit] at h ⊢
      split at h
      · exact h
      · split at h
        · exact h
        · exact h
        · split at h
          · rename_i hexit
            rwa [if_pos hexit]
          · rename_i hexit
            rw [if_neg hexit]
            split at h
            · exact h
            · exact ih (Nat.le_of_succ_le_succ hle) h

theorem runWithin_mono {p : Program} {inputs : List (List Float)} {limit limit' : Nat}
    {x : Except RunError Result} (hle : limit ≤ limit') (h : runWithin p inputs u limit = x)
    (hx : x ≠ .error (.stepLimit limit)) : runWithin p inputs u limit' = x := by
  unfold runWithin runToEnd at *
  cases hstart : start p.toInterface inputs with
  | error e => simpa only [hstart] using h
  | ok st =>
      simp only [hstart] at h ⊢
      have hvisit : visit p.graph u limit limit 0 p.graph.entry st ≠ .error (.stepLimit limit) := by
        intro hcut
        rw [hcut] at h
        exact hx h.symm
      rwa [visit_mono hle rfl hvisit]

end Machine

namespace Program.Answers

open Machine

variable {p q : Program} {inputs inputs' : List (List Float)} {o : RunOptions}
  {x y : Except RunError Result}

theorem iff_of_bound (hbound : 0 < o.maxSteps) :
    p.Answers inputs o x ↔ runWithin p inputs o.overrides o.maxSteps.toNat = x := by
  rw [Answers, if_pos hbound]

theorem iff_of_no_bound (hbound : ¬ 0 < o.maxSteps) :
    p.Answers inputs o x ↔
      ∃ limit, runWithin p inputs o.overrides limit = x ∧ x ≠ .error (.stepLimit limit) := by
  rw [Answers, if_neg hbound]

theorem unique (hx : p.Answers inputs o x) (hy : p.Answers inputs o y) : x = y := by
  by_cases hbound : 0 < o.maxSteps
  · rw [iff_of_bound hbound] at hx hy
    exact hx.symm.trans hy
  · rw [iff_of_no_bound hbound] at hx hy
    obtain ⟨limit, hx, hcut⟩ := hx
    obtain ⟨limit', hy, hcut'⟩ := hy
    have hmax := runWithin_mono (Nat.le_max_left limit limit') hx hcut
    exact hmax.symm.trans (runWithin_mono (Nat.le_max_right limit limit') hy hcut')

/-- What relates two runs at every limit relates their answers, also without a bound. -/
theorem carry {R : Except RunError Result → Except RunError Result → Prop}
    (hR : ∀ limit, R (runWithin p inputs o.overrides limit) (runWithin q inputs' o.overrides limit))
    (hcut : ∀ limit x, R x (.error (.stepLimit limit)) → x = .error (.stepLimit limit))
    (hx : p.Answers inputs o x) : ∃ y, q.Answers inputs' o y ∧ R x y := by
  by_cases hbound : 0 < o.maxSteps
  · rw [iff_of_bound hbound] at hx
    subst hx
    exact ⟨_, (iff_of_bound hbound).mpr rfl, hR _⟩
  · rw [iff_of_no_bound hbound] at hx
    obtain ⟨limit, rfl, hne⟩ := hx
    refine ⟨_, (iff_of_no_bound hbound).mpr ⟨limit, rfl, fun hlimit => ?_⟩, hR limit⟩
    exact hne (hcut limit _ (hlimit ▸ hR limit))

end Program.Answers

end KernelAlgebra
