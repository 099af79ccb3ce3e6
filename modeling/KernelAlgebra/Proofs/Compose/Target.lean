import KernelAlgebra.Proofs.Compose.Closure

/-!
# Targets along a tree of compositions

A composition looks at nothing but the targets of its two operands.  Operands without a target
say nothing, and two different targets leave the result without one.  So a target that all
programs of a tree agree on is the target of the result, and a contradiction anywhere in the
tree stays among the diagnostics.  The target of a contradiction, on the other hand, says
nothing to the operations further up.
-/

namespace KernelAlgebra

/-! ## Results of computations -/

section Returns

variable {ε σ α β : Type}

/-- Whatever it starts from, a computation that succeeds returns something with the property. -/
def Returns (x : ExceptT ε (StateM σ) α) (Q : α → Prop) : Prop :=
  ∀ s a s', Yields x s (.ok a) s' → Q a

variable {x : ExceptT ε (StateM σ) α} {f : α → ExceptT ε (StateM σ) β} {Q : α → Prop}
  {R : β → Prop}

theorem returns_pure {a : α} (h : Q a) : Returns (pure a : ExceptT ε (StateM σ) α) Q := by
  intro s b s' hrun
  obtain ⟨hb, _⟩ := yields_pure.mp hrun
  cases hb
  exact h

theorem returns_throw {e : ε} : Returns (throw e : ExceptT ε (StateM σ) α) Q := by
  intro s b s' hrun
  obtain ⟨hb, _⟩ := yields_throw.mp hrun
  cases hb

theorem returns_trivial : Returns x fun _ => True := fun _ _ _ _ => trivial

theorem Returns.bind (hx : Returns x Q) (hf : ∀ a, Q a → Returns (f a) R) :
    Returns (x >>= f) R := by
  intro s b s'' hrun
  obtain ⟨a, s', ha, hb⟩ := yields_bind_ok_iff.mp hrun
  exact hf a (hx s a s' ha) s' b s'' hb

theorem returns_after (hf : ∀ a, Returns (f a) R) : Returns (x >>= f) R :=
  returns_trivial.bind fun a _ => hf a

end Returns

/-! ## What a composition says about the target -/

structure Verdict where
  target : String
  diagnostics : List String

def Interface.verdict (i : Interface) : Verdict := ⟨i.target, i.diagnostics⟩

/-- What two operands say together. -/
def Verdict.join (v w : Verdict) : Verdict :=
  ⟨(reconcileTarget v.target w.target).1,
    v.diagnostics ++ w.diagnostics ++
      if (reconcileTarget v.target w.target).2 then [conflictText v.target w.target] else []⟩

theorem verdict_collect (p : Program) : p.collect.verdict = p.verdict := rfl

theorem verdict_optimize (p : Program) (o : OptimizeOptions) :
    (p.optimize o).1.verdict = p.verdict := by
  rw [Program.optimize, verdict_collect, Interface.verdict, Interface.verdict,
    ← p.toInterface_withoutDeadCode o]

theorem verdict_sequenced (a b : Program) :
    (sequenced a b).verdict = a.verdict.join b.verdict := rfl

namespace Compose

theorem returns_finish {c : Composer} {p : Program} :
    Returns (finish c p) fun q => q.verdict = p.verdict := by
  unfold finish
  dsimp only
  split
  · split
    · rename_i q st hq
      unfold Program.tryOptimize at hq
      split at hq
      · cases hq
        exact returns_after fun _ => returns_pure (verdict_optimize _ _)
      · cases hq
    · exact returns_throw
  · exact returns_pure rfl

theorem returns_ofFresh {α : Type} {x : Fresh ComposeError α} {Q : α → Prop}
    (h : Returns x Q) : Returns (ofFresh x) Q := by
  intro env a env' hrun
  obtain ⟨g, hx, _⟩ := yields_ofFresh_iff.mp hrun
  exact h _ a g hx

theorem yields_of_observe {c : Composer} {op : String} {x : Compose Handle} {h : Handle}
    {env env' : Env} (hrun : Yields (observe c op x) env (.ok h) env') :
    ∃ env₁, Yields x env (.ok h) env₁ := by
  obtain ⟨result, env₁, hattempt, hrun⟩ := yields_bind_ok_iff.mp hrun
  cases result with
  | ok h₁ =>
      obtain ⟨_, _, _, hdebug⟩ := yields_bind_ok_iff.mp hrun
      obtain ⟨_, _, _, hpure⟩ := yields_bind_ok_iff.mp hdebug
      obtain ⟨heq, _⟩ := yields_pure.mp hpure
      cases heq
      exact ⟨env₁, yields_of_attempt hattempt⟩
  | error e =>
      obtain ⟨_, _, _, hrefuse⟩ := yields_bind_ok_iff.mp hrun
      cases (yields_throw.mp hrefuse).1

theorem returns_observe {c : Composer} {op : String} {x : Compose Handle} {Q : Handle → Prop}
    (h : Returns x Q) : Returns (observe c op x) Q := by
  intro env a env' hrun
  obtain ⟨env₁, hx⟩ := yields_of_observe hrun
  exact h env a env₁ hx

end Compose

/-! ## One operation -/

theorem returns_present {ε : Type} {s : Sketch} :
    Returns (Fresh.present s.program? : Fresh ε Program) fun p => p.verdict = s.verdict := by
  unfold Sketch.program?
  cases s.graph? with
  | none => exact returns_throw
  | some g => exact returns_pure rfl

theorem returns_copyOf {ε : Type} {s : Sketch} :
    Returns (Fresh.copyOf s : Fresh ε Program) fun p => p.verdict = s.verdict :=
  returns_present.bind fun _ hp => returns_pure hp

theorem returns_operands {a b : Sketch} :
    Returns (operands a b) fun q => q.1.verdict = a.verdict ∧ q.2.verdict = b.verdict := by
  refine returns_copyOf.bind fun p hp => ?_
  dsimp only
  split
  · refine Returns.bind (Q := fun q => q.verdict = b.verdict) ?_ fun q hq => returns_pure ⟨hp, hq⟩
    exact returns_present.bind fun _ hq => returns_after fun _ => returns_pure hq
  · exact returns_copyOf.bind fun q hq => returns_pure ⟨hp, hq⟩

theorem returns_assemble {c : Composer} {a b : Program} :
    Returns (assemble c a b) fun p => p.verdict = a.verdict.join b.verdict := by
  unfold assemble
  split
  · exact returns_throw
  · split
    · exact returns_after fun _ => returns_pure (verdict_sequenced a b)
    · exact returns_pure (verdict_sequenced a b)

theorem returns_newHandle {p : Program} {bindings : List Binding} {spare : List Symbol} :
    Returns (Compose.newHandle p bindings spare) fun h => h.sketch.verdict = p.verdict :=
  returns_after fun _ => returns_pure rfl

namespace Composer

variable {c : Composer} {a b : Handle}

theorem returns_connect : Returns (c.connect (some a) (some b)) fun h =>
    h.sketch.verdict = a.sketch.verdict.join b.sketch.verdict := by
  refine Compose.returns_observe ?_
  refine (Compose.returns_ofFresh returns_operands).bind ?_
  rintro ⟨ap, bp⟩ ⟨ha, hb⟩
  refine returns_after fun _ => returns_after fun _ => returns_after fun _ =>
    returns_after fun ws => returns_assemble.bind fun code hcode => ?_
  split
  · exact (returns_throw (Q := fun _ => False)).bind fun _ h => h.elim
  · refine Compose.returns_finish.bind fun p hp => ?_
    have hverdict : p.verdict = a.sketch.verdict.join b.sketch.verdict := by
      rw [← ha, ← hb, ← hcode]
      exact hp
    exact hverdict ▸ returns_newHandle

theorem returns_combine : Returns (c.combine (some a) (some b)) fun h =>
    h.sketch.verdict = a.sketch.verdict.join b.sketch.verdict := by
  refine Compose.returns_observe ?_
  refine (Compose.returns_ofFresh returns_operands).bind ?_
  rintro ⟨ap, bp⟩ ⟨ha, hb⟩
  refine returns_assemble.bind fun code hcode => ?_
  refine returns_after fun _ => returns_after fun _ => ?_
  refine Compose.returns_finish.bind fun p hp => ?_
  have hverdict : p.verdict = a.sketch.verdict.join b.sketch.verdict := by
    rw [← ha, ← hb, ← hcode]
    exact hp
  exact hverdict ▸ returns_newHandle

end Composer

/-! ## Agreement and contradiction -/

/-- Two targets among these that differ. -/
structure Contradict (targets : List String) (x y : String) : Prop where
  left : x ∈ targets
  right : y ∈ targets
  left_set : x ≠ ""
  right_set : y ≠ ""
  ne : x ≠ y

def Agree (targets : List String) (target : String) : Prop :=
  ∀ s ∈ targets, s = "" ∨ s = target

instance (targets : List String) (target : String) : Decidable (Agree targets target) :=
  inferInstanceAs (Decidable (∀ s ∈ targets, s = "" ∨ s = target))

theorem exists_agree {targets : List String} (h : ¬ ∃ x y, Contradict targets x y) :
    ∃ target, Agree targets target := by
  by_cases hset : ∃ x ∈ targets, x ≠ ""
  · obtain ⟨x, hx, hne⟩ := hset
    refine ⟨x, fun s hs => ?_⟩
    by_cases hempty : s = ""
    · exact .inl hempty
    · by_cases hsame : s = x
      · exact .inr hsame
      · exact absurd ⟨s, x, hs, hx, hempty, hne, hsame⟩ h
  · refine ⟨"", fun s hs => .inl ?_⟩
    by_cases hempty : s = ""
    · exact hempty
    · exact absurd ⟨s, hs, hempty⟩ hset

/-- What is said of programs with these targets that bring along these diagnostics. -/
structure Accounts (targets diagnostics : List String) (v : Verdict) : Prop where
  agreed : ∀ target, Agree targets target →
    v.diagnostics = diagnostics ∧ (v.target = "" ∨ v.target = target) ∧
      (target ∈ targets → v.target = target)
  contradicted : ∀ x y, Contradict targets x y →
    ∃ x' y', Contradict targets x' y' ∧ conflictText x' y' ∈ v.diagnostics

theorem accounts_singleton (v : Verdict) : Accounts [v.target] v.diagnostics v where
  agreed := by
    intro target h
    refine ⟨rfl, h v.target (by simp), ?_⟩
    intro hmem
    exact (List.mem_singleton.mp hmem).symm
  contradicted := by
    rintro x y ⟨hx, hy, _, _, hne⟩
    exact absurd ((List.mem_singleton.mp hx).trans (List.mem_singleton.mp hy).symm) hne

theorem Contradict.mono {targets targets' : List String} {x y : String}
    (h : Contradict targets x y) (hsub : ∀ s ∈ targets, s ∈ targets') : Contradict targets' x y :=
  ⟨hsub x h.left, hsub y h.right, h.left_set, h.right_set, h.ne⟩

section Join

variable {ts ts' ds ds' : List String} {v w : Verdict}

theorem Accounts.contradict_of_ne (h : Accounts ts ds v) (h' : Accounts ts' ds' w)
    {target target' x y : String} (ht : Agree ts target) (ht' : Agree ts' target')
    (hx : x ∈ ts) (hy : y ∈ ts') (hxset : x ≠ "") (hyset : y ≠ "") (hne : x ≠ y) :
    conflictText x y ∈ (v.join w).diagnostics := by
  have hxt : x = target := (ht x hx).resolve_left hxset
  have hyt : y = target' := (ht' y hy).resolve_left hyset
  have hv : v.target = x := by rw [hxt]; exact (h.agreed target ht).2.2 (hxt ▸ hx)
  have hw : w.target = y := by rw [hyt]; exact (h'.agreed target' ht').2.2 (hyt ▸ hy)
  simp [Verdict.join, reconcileTarget, hv, hw, hxset, hyset, hne]

theorem Accounts.join (h : Accounts ts ds v) (h' : Accounts ts' ds' w) :
    Accounts (ts ++ ts') (ds ++ ds') (v.join w) where
  agreed := by
    intro target hagree
    obtain ⟨hd, hv, hmem⟩ := h.agreed target fun s hs => hagree s (List.mem_append.mpr (.inl hs))
    obtain ⟨hd', hw, hmem'⟩ :=
      h'.agreed target fun s hs => hagree s (List.mem_append.mpr (.inr hs))
    have hrule : reconcileTarget v.target w.target =
        (if v.target = "" then w.target else v.target, false) := by
      unfold reconcileTarget
      grind
    simp only [Verdict.join, hrule, hd, hd', Bool.false_eq_true, if_false, List.append_nil,
      true_and, List.mem_append]
    grind
  contradicted := by
    intro x y hxy
    by_cases hfirst : ∃ x y, Contradict ts x y
    · obtain ⟨x₁, y₁, h₁⟩ := hfirst
      obtain ⟨x', y', h₂, hmem⟩ := h.contradicted x₁ y₁ h₁
      refine ⟨x', y', h₂.mono fun s hs => List.mem_append.mpr (.inl hs), ?_⟩
      simp [Verdict.join, hmem]
    by_cases hsecond : ∃ x y, Contradict ts' x y
    · obtain ⟨x₁, y₁, h₁⟩ := hsecond
      obtain ⟨x', y', h₂, hmem⟩ := h'.contradicted x₁ y₁ h₁
      refine ⟨x', y', h₂.mono fun s hs => List.mem_append.mpr (.inr hs), ?_⟩
      simp [Verdict.join, hmem]
    -- neither operand contradicts itself, so the two targets come from different sides
    obtain ⟨target, ht⟩ := exists_agree hfirst
    obtain ⟨target', ht'⟩ := exists_agree hsecond
    obtain ⟨hx, hy, hxset, hyset, hne⟩ := hxy
    rcases List.mem_append.mp hx with hx₁ | hx₁ <;> rcases List.mem_append.mp hy with hy₁ | hy₁
    · exact absurd ⟨x, y, hx₁, hy₁, hxset, hyset, hne⟩ hfirst
    · exact ⟨x, y, ⟨hx, hy, hxset, hyset, hne⟩,
        h.contradict_of_ne h' ht ht' hx₁ hy₁ hxset hyset hne⟩
    · exact ⟨y, x, ⟨hy, hx, hyset, hxset, Ne.symm hne⟩,
        h.contradict_of_ne h' ht ht' hy₁ hx₁ hyset hxset (Ne.symm hne)⟩
    · exact absurd ⟨x, y, hx₁, hy₁, hxset, hyset, hne⟩ hsecond

end Join

/-! ## Trees of operations -/

/-- Connections and combinations of handles, nested in any way. -/
inductive Composition where
  | handle (h : Handle)
  | connect (first second : Composition)
  | combine (first second : Composition)

namespace Composition

/-- What may come of a tree, with any composer and in any environment at each operation. -/
inductive Gives : Composition → Handle → Prop
  | handle (h : Handle) : Gives (.handle h) h
  | connect {t t' : Composition} {a b h : Handle} {c : Composer} {env env' : Env} :
      Gives t a → Gives t' b → Yields (c.connect (some a) (some b)) env (.ok h) env' →
      Gives (.connect t t') h
  | combine {t t' : Composition} {a b h : Handle} {c : Composer} {env env' : Env} :
      Gives t a → Gives t' b → Yields (c.combine (some a) (some b)) env (.ok h) env' →
      Gives (.combine t t') h

def leaves : Composition → List Handle
  | handle h => [h]
  | connect t t' => t.leaves ++ t'.leaves
  | combine t t' => t.leaves ++ t'.leaves

def targets (t : Composition) : List String := t.leaves.map (·.sketch.target)

def diagnostics (t : Composition) : List String := t.leaves.flatMap (·.sketch.diagnostics)

/-- The rule for two operands, applied from the leaves to the root. -/
def verdict : Composition → Verdict
  | handle h => h.sketch.verdict
  | connect t t' => t.verdict.join t'.verdict
  | combine t t' => t.verdict.join t'.verdict

theorem Gives.verdict_eq {t : Composition} {h : Handle} (hgives : t.Gives h) :
    h.sketch.verdict = t.verdict := by
  induction hgives with
  | handle h => rfl
  | connect _ _ hrun ih ih' => rw [verdict, ← ih, ← ih', Composer.returns_connect _ _ _ hrun]
  | combine _ _ hrun ih ih' => rw [verdict, ← ih, ← ih', Composer.returns_combine _ _ _ hrun]

theorem accounts (t : Composition) : Accounts t.targets t.diagnostics t.verdict := by
  induction t with
  | handle h =>
      have hbrought : (handle h).diagnostics = h.sketch.diagnostics := by
        simp [diagnostics, leaves]
      rw [hbrought]
      exact accounts_singleton h.sketch.verdict
  | connect t t' ih ih' =>
      simpa [targets, diagnostics, leaves, verdict] using ih.join ih'
  | combine t t' ih ih' =>
      simpa [targets, diagnostics, leaves, verdict] using ih.join ih'

/--
What comes of a tree has the target that the rule for two operands gives along the tree.  If all
programs with a target have the same one, it is the target of the result, and no diagnostics are
added to those of the programs.  If two of them differ, a diagnostic names two that do.
-/
theorem target_of_gives {t : Composition} {r : Handle} (h : t.Gives r) :
    r.sketch.verdict = t.verdict ∧
    (∀ target, target = "" ∨ target ∈ t.targets → Agree t.targets target →
      r.sketch.target = target ∧ r.sketch.diagnostics = t.diagnostics) ∧
    (∀ x y, Contradict t.targets x y →
      ∃ x' y', Contradict t.targets x' y' ∧ conflictText x' y' ∈ r.sketch.diagnostics) := by
  have hverdict := h.verdict_eq
  have htarget : r.sketch.target = t.verdict.target := congrArg Verdict.target hverdict
  have hdiagnostics : r.sketch.diagnostics = t.verdict.diagnostics :=
    congrArg Verdict.diagnostics hverdict
  rw [htarget, hdiagnostics]
  refine ⟨hverdict, ?_, t.accounts.contradicted⟩
  intro target hmem hagree
  obtain ⟨hsame, hcases, heq⟩ := t.accounts.agreed target hagree
  refine ⟨?_, hsame⟩
  rcases hmem with rfl | hmem
  · exact hcases.elim id id
  · exact heq hmem

/-! ## Three programs -/

def run (c : Composer) : Composition → Compose Handle
  | handle h => return h
  | connect t t' => do c.connect (some (← t.run c)) (some (← t'.run c))
  | combine t t' => do c.combine (some (← t.run c)) (some (← t'.run c))

theorem gives_of_run {t : Composition} {c : Composer} {env env' : Env} {r : Handle}
    (h : Yields (t.run c) env (.ok r) env') : t.Gives r := by
  induction t generalizing env env' r with
  | handle h' =>
      obtain ⟨heq, _⟩ := yields_pure.mp h
      cases heq
      exact .handle h'
  | connect t t' ih ih' =>
      obtain ⟨a, env₁, ha, h₁⟩ := yields_bind_ok_iff.mp h
      obtain ⟨b, env₂, hb, h₂⟩ := yields_bind_ok_iff.mp h₁
      exact .connect (ih ha) (ih' hb) h₂
  | combine t t' ih ih' =>
      obtain ⟨a, env₁, ha, h₁⟩ := yields_bind_ok_iff.mp h
      obtain ⟨b, env₂, hb, h₂⟩ := yields_bind_ok_iff.mp h₁
      exact .combine (ih ha) (ih' hb) h₂

theorem exists_gives (t : Composition) (c : Composer) (env : Env)
    (h : ((t.run c).run.run env).1.isOk = true) : ∃ r, t.Gives r := by
  obtain ⟨r, env', hrun⟩ := yields_self (t.run c) env
  cases r with
  | ok r => exact ⟨r, gives_of_run hrun⟩
  | error f =>
      rw [show (t.run c).run.run env = (.error f, env') from hrun] at h
      cases h

def copyingFor (target : String) : Composition :=
  .handle ⟨1, 1, { Program.copying with target := target }.sketch, [], []⟩

/-- Three programs for three targets, the first two connected first. -/
def contradictory : Composition :=
  .connect (.connect (copyingFor "glsl:vertex") (copyingFor "hlsl:vertex"))
    (copyingFor "msl:vertex")

def plainComposer : Composer := { optimize := false }

def laterEnv : Env := { Env.start with supply := ⟨4⟩ }

theorem target_of_gives_three :
    (∃ r, (combine (connect (copyingFor "") (copyingFor "glsl:vertex"))
        (copyingFor "glsl:vertex")).Gives r ∧
      r.sketch.target = "glsl:vertex" ∧ r.sketch.diagnostics = []) ∧
    ∃ r, contradictory.Gives r ∧
      ∃ x y, Contradict contradictory.targets x y ∧ conflictText x y ∈ r.sketch.diagnostics := by
  constructor
  · obtain ⟨r, hr⟩ := exists_gives (combine (connect (copyingFor "")
      (copyingFor "glsl:vertex")) (copyingFor "glsl:vertex")) plainComposer laterEnv
      (by decide +kernel)
    exact ⟨r, hr, (target_of_gives hr).2.1 "glsl:vertex" (by decide) (by decide)⟩
  · obtain ⟨r, hr⟩ := exists_gives contradictory plainComposer laterEnv (by decide +kernel)
    refine ⟨r, hr, (target_of_gives hr).2.2 "glsl:vertex" "hlsl:vertex" ?_⟩
    exact ⟨by decide, by decide, by decide, by decide, by decide⟩

/-- A contradiction is not kept as the target: a third program still gives the result its own,
and another grouping has another target. -/
theorem target_of_contradictory : ∃ r r',
    contradictory.Gives r ∧
    (connect (copyingFor "glsl:vertex")
      (connect (copyingFor "hlsl:vertex") (copyingFor "msl:vertex"))).Gives r' ∧
    (∀ h ∈ contradictory.leaves, h.WellFormed) ∧
    Contradict contradictory.targets "glsl:vertex" "hlsl:vertex" ∧
    r.sketch.target = "msl:vertex" ∧ r'.sketch.target = "glsl:vertex" := by
  obtain ⟨r, hr⟩ := exists_gives contradictory plainComposer laterEnv (by decide +kernel)
  obtain ⟨r', hr'⟩ := exists_gives (connect (copyingFor "glsl:vertex")
    (connect (copyingFor "hlsl:vertex") (copyingFor "msl:vertex"))) plainComposer laterEnv
    (by decide +kernel)
  refine ⟨r, r', hr, hr', ?_, ⟨by decide, by decide, by decide, by decide, by decide⟩, ?_, ?_⟩
  · intro h hh
    simp only [contradictory, copyingFor, leaves, List.cons_append, List.nil_append,
      List.mem_cons, List.not_mem_nil, or_false] at hh
    rcases hh with rfl | rfl | rfl
    all_goals exact ⟨⟨_, rfl, rfl⟩, by decide, by decide⟩
  · exact congrArg Verdict.target hr.verdict_eq
  · exact congrArg Verdict.target hr'.verdict_eq

end Composition

end KernelAlgebra
