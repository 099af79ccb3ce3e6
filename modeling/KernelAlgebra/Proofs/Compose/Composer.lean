import KernelAlgebra.Proofs.Computation
import KernelAlgebra.Proofs.Optimizer.Basic

/-!
# Steps that all compositions share

Logging and counting change nothing but the log and the counters.  Finishing a program that
becomes valid by collecting its symbols succeeds and gives a valid program that improves it.

Symbols are only ever drawn, also by a composition that is refused.  So a property of what was
there before is still known when a composition that is put together from steps comes to its
next step.
-/

namespace KernelAlgebra.Compose

variable {env env' : Env} {c : Composer}

theorem yields_ofFresh_iff {α : Type} {x : Fresh ComposeError α}
    {r : Except (Fault ComposeError) α} :
    Yields (ofFresh x) env r env' ↔
      ∃ g, Yields x env.supply r g ∧ env' = { env with supply := g } := by
  obtain ⟨r₀, g₀, hx⟩ := yields_self x env.supply
  have hyields : Yields (ofFresh x) env r₀ { env with supply := g₀ } := by
    unfold ofFresh
    refine (yields_bind (yields_get.mpr ⟨rfl, rfl⟩)).mpr ?_
    rw [show x.run.run env.supply = (r₀, g₀) from hx]
    refine (yields_bind (yields_set.mpr ⟨rfl, rfl⟩)).mpr ?_
    cases r₀ with
    | ok a => exact yields_pure.mpr ⟨rfl, rfl⟩
    | error e => exact yields_throw.mpr ⟨rfl, rfl⟩
  constructor
  · intro h
    obtain ⟨rfl, rfl⟩ := hyields.unique h
    exact ⟨g₀, hx, rfl⟩
  · rintro ⟨g, hg, rfl⟩
    obtain ⟨rfl, rfl⟩ := hx.unique hg
    exact hyields

theorem yields_newHandle_iff {p : Program} {bindings : List Binding} {spare : List Symbol}
    {r : Except (Fault ComposeError) Handle} :
    Yields (newHandle p bindings spare) env r env' ↔
      r = .ok ⟨env.nextTag, env.nextTag, p.sketch, bindings, spare⟩ ∧
        env' = { env with nextTag := env.nextTag + 1 } := by
  have hyields : Yields (newHandle p bindings spare) env
      (.ok ⟨env.nextTag, env.nextTag, p.sketch, bindings, spare⟩)
      { env with nextTag := env.nextTag + 1 } := rfl
  constructor
  · exact fun h => hyields.unique h
  · rintro ⟨rfl, rfl⟩
    exact hyields

/-! ## Logging and counting -/

theorem supply_of_yields_log {line : String} {r : Except (Fault ComposeError) Unit}
    (h : Yields (log c line) env r env') : r = .ok () ∧ env'.supply = env.supply := by
  unfold log at h
  split at h
  · obtain ⟨rfl, rfl⟩ := yields_modify.mp h
    exact ⟨rfl, rfl⟩
  · obtain ⟨rfl, rfl⟩ := yields_pure.mp h
    exact ⟨rfl, rfl⟩

theorem supply_of_yields_debug {line : String} {r : Except (Fault ComposeError) Unit}
    (h : Yields (debug c line) env r env') : r = .ok () ∧ env'.supply = env.supply := by
  unfold debug at h
  split at h
  · exact supply_of_yields_log h
  · obtain ⟨rfl, rfl⟩ := yields_pure.mp h
    exact ⟨rfl, rfl⟩

theorem supply_of_yields_count {f : Metrics → Metrics} {r : Except (Fault ComposeError) Unit}
    (h : Yields (count c f) env r env') : r = .ok () ∧ env'.supply = env.supply := by
  unfold count at h
  split at h
  · obtain ⟨rfl, rfl⟩ := yields_modify.mp h
    exact ⟨rfl, rfl⟩
  · obtain ⟨rfl, rfl⟩ := yields_pure.mp h
    exact ⟨rfl, rfl⟩

theorem yields_bind_quiet {α : Type} {x : Compose Unit} {y : Compose α}
    (hx : ∀ {r env'}, Yields x env r env' → r = .ok () ∧ env'.supply = env.supply)
    {r : Except (Fault ComposeError) α} :
    Yields (x >>= fun _ => y) env r env' ↔
      ∃ env₁, Yields x env (.ok ()) env₁ ∧ env₁.supply = env.supply ∧ Yields y env₁ r env' := by
  obtain ⟨r₀, env₁, h₀⟩ := yields_self x env
  obtain ⟨rfl, hsupply⟩ := hx h₀
  rw [yields_bind h₀]
  constructor
  · exact fun h => ⟨env₁, h₀, hsupply, h⟩
  · rintro ⟨env₂, h₂, _, h⟩
    obtain ⟨_, rfl⟩ := h₀.unique h₂
    exact h

theorem supply_of_yields_countResult {op : String} {s : Sketch} (hs : s.graph?.isSome)
    {r : Except (Fault ComposeError) Unit} (h : Yields (countResult c op s) env r env') :
    r = .ok () ∧ env'.supply = env.supply := by
  obtain ⟨env₁, _, hsupply, h⟩ := (yields_bind_quiet supply_of_yields_count).mp h
  have hnone : s.graph?.isNone = false := by
    rw [Option.isNone_eq_false_iff]
    exact hs
  simp only [hnone, Bool.and_false, Bool.false_eq_true, if_false] at h
  obtain ⟨rfl, rfl⟩ := yields_pure.mp h
  exact ⟨rfl, hsupply⟩

theorem supply_of_yields_countFailure {op : String} {e : ComposeError}
    {r : Except (Fault ComposeError) Unit} (h : Yields (countFailure c op e) env r env') :
    r = .ok () ∧ env'.supply = env.supply := by
  obtain ⟨env₁, _, hsupply, h⟩ := (yields_bind_quiet supply_of_yields_count).mp h
  obtain ⟨rfl, hsupply'⟩ := supply_of_yields_debug h
  exact ⟨rfl, hsupply'.trans hsupply⟩

/-! ## Finishing -/

structure Finished (c : Composer) (p q : Program) : Prop where
  valid : q.Valid
  improves : Machine.Improves p q
  symbols : ∀ s ∈ q.symbols, s ∈ p.collect.symbols
  plain : c.optimize = false → q = p.collect

theorem finished_of_yields {p : Program} (hvalid : p.collect.Valid)
    {r : Except (Fault ComposeError) Program} (h : Yields (finish c p) env r env') :
    ∃ q, r = .ok q ∧ Finished c p q ∧ env'.supply = env.supply := by
  unfold finish at h
  simp only [Program.tryOptimize_of_valid hvalid] at h
  split at h
  · rename_i hoptimize
    obtain ⟨env₁, _, hsupply, h⟩ := (yields_bind_quiet supply_of_yields_debug).mp h
    obtain ⟨rfl, rfl⟩ := yields_pure.mp h
    refine ⟨_, rfl, ⟨Program.valid_optimize hvalid _, ?_, ?_, ?_⟩, hsupply⟩
    · exact (Program.improves_collect p).trans (Program.improves_optimize hvalid _)
    · exact fun s hs => Program.mem_symbols_of_optimize hvalid hs
    · intro hoff
      rw [hoff] at hoptimize
      cases hoptimize
  · obtain ⟨rfl, rfl⟩ := yields_pure.mp h
    exact ⟨_, rfl, ⟨hvalid, Program.improves_collect p, fun _ hs => hs, fun _ => rfl⟩, rfl⟩

/-! ## Observing -/

section Attempt

variable {α : Type} {x : Compose α} {a : α}

theorem yields_attempt_ok (hx : Yields x env (.ok a) env') :
    Yields (attempt x) env (.ok (.ok a)) env' := by
  apply yields_tryCatch
  exact (yields_bind hx).mpr (yields_pure.mpr ⟨rfl, rfl⟩)

theorem yields_attempt_refused {e : ComposeError} (hx : Yields x env (.error (.error e)) env') :
    Yields (attempt x) env (.ok (.error e)) env' := by
  have hbind : Yields (do return .ok (← x) : Compose (Except ComposeError α)) env
      (.error (.error e)) env' := (yields_bind_error hx).mpr ⟨rfl, rfl⟩
  exact (yields_tryCatch_error hbind).mpr (yields_pure.mpr ⟨rfl, rfl⟩)

theorem yields_attempt_crash {text : String} (hx : Yields x env (.error (.crash text)) env') :
    Yields (attempt x) env (.error (.crash text)) env' := by
  have hbind : Yields (do return .ok (← x) : Compose (Except ComposeError α)) env
      (.error (.crash text)) env' := (yields_bind_error hx).mpr ⟨rfl, rfl⟩
  exact (yields_tryCatch_error hbind).mpr (yields_throw.mpr ⟨rfl, rfl⟩)

theorem yields_of_attempt (h : Yields (attempt x) env (.ok (.ok a)) env') :
    Yields x env (.ok a) env' := by
  obtain ⟨r, env₁, hx⟩ := yields_self x env
  cases r with
  | ok b =>
      obtain ⟨heq, rfl⟩ := (yields_attempt_ok hx).unique h
      cases heq
      exact hx
  | error f =>
      cases f with
      | error e => cases ((yields_attempt_refused hx).unique h).1
      | crash text => cases ((yields_attempt_crash hx).unique h).1

end Attempt

section Observe

variable {op : String} {x : Compose Handle} {h : Handle}

theorem yields_observe (hx : Yields x env (.ok h) env') (hgraph : h.sketch.graph?.isSome) :
    ∃ env₁, Yields (observe c op x) env (.ok h) env₁ ∧ env₁.supply = env'.supply := by
  obtain ⟨r₁, env₁, h₁⟩ := yields_self (countResult c op h.sketch) env'
  obtain ⟨rfl, hsupply₁⟩ := supply_of_yields_countResult hgraph h₁
  obtain ⟨r₂, env₂, h₂⟩ := yields_self (debug c s!"{op}: {h.summary}") env₁
  obtain ⟨rfl, hsupply₂⟩ := supply_of_yields_debug h₂
  refine ⟨env₂, ?_, hsupply₂.trans hsupply₁⟩
  refine (yields_bind (yields_attempt_ok hx)).mpr ?_
  refine (yields_bind h₁).mpr ((yields_bind h₂).mpr ?_)
  exact yields_pure.mpr ⟨rfl, rfl⟩

theorem yields_observe_refused {e : ComposeError} (hx : Yields x env (.error (.error e)) env') :
    ∃ env₁, Yields (observe c op x) env (.error (.error e)) env₁ := by
  obtain ⟨r₁, env₁, h₁⟩ := yields_self (countFailure c op e) env'
  obtain ⟨rfl, _⟩ := supply_of_yields_countFailure h₁
  refine ⟨env₁, ?_⟩
  refine (yields_bind (yields_attempt_refused hx)).mpr ?_
  exact (yields_bind h₁).mpr (yields_throw.mpr ⟨rfl, rfl⟩)

end Observe

/-! ## What a composition ensures -/

/-- However the computation ends, no id becomes free again, and what it returns has the
property. -/
def Ensures {α : Type} (x : Compose α) (env : Env) (Q : α → Supply → Prop) : Prop :=
  ∀ r env', Yields x env r env' →
    env.supply.next ≤ env'.supply.next ∧ ∀ a, r = .ok a → Q a env'.supply

section Ensures

variable {α β : Type} {x : Compose α} {Q : α → Supply → Prop} {S : β → Supply → Prop}

theorem ensures_pure {a : α} (h : Q a env.supply) : Ensures (pure a) env Q := by
  intro r env' hrun
  obtain ⟨rfl, rfl⟩ := yields_pure.mp hrun
  refine ⟨Nat.le_refl _, fun b hb => ?_⟩
  cases hb
  exact h

theorem ensures_throw {f : Fault ComposeError} : Ensures (throw f : Compose α) env Q := by
  intro r env' hrun
  obtain ⟨rfl, rfl⟩ := yields_throw.mp hrun
  exact ⟨Nat.le_refl _, by simp⟩

theorem ensures_refuse {e : ComposeError} : Ensures (refuse e : Compose α) env Q :=
  ensures_throw

theorem Ensures.bind {f : α → Compose β} (hx : Ensures x env Q)
    (hf : ∀ a env', env.supply.next ≤ env'.supply.next → Q a env'.supply →
      Ensures (f a) env' S) : Ensures (x >>= f) env S := by
  intro r env' hrun
  obtain ⟨r₁, env₁, h₁⟩ := yields_self x env
  obtain ⟨hle, hQ⟩ := hx r₁ env₁ h₁
  cases r₁ with
  | error e =>
      obtain ⟨rfl, rfl⟩ := (yields_bind_error h₁).mp hrun
      exact ⟨hle, by simp⟩
  | ok a =>
      obtain ⟨hle', hS⟩ := hf a env₁ hle (hQ a rfl) r env' ((yields_bind h₁).mp hrun)
      exact ⟨Nat.le_trans hle hle', hS⟩

theorem ensures_unless {q : Prop} [Decidable q] {f : Fault ComposeError} {k : PUnit → Compose α}
    (hk : Ensures (k ⟨⟩) env Q) : Ensures (if q then throw f >>= k else k ⟨⟩) env Q := by
  split
  · exact (ensures_throw (Q := fun _ _ => False)).bind fun _ _ _ h => h.elim
  · exact hk

theorem Ensures.after {y : Compose Unit} (hy : Ensures y env fun _ _ => True)
    (hx : ∀ env', env.supply.next ≤ env'.supply.next → Ensures x env' Q) :
    Ensures (y >>= fun _ => x) env Q :=
  hy.bind fun _ env' hle _ => hx env' hle

theorem ensures_ofFresh {x : Fresh ComposeError α}
    (h : ∀ r g, Yields x env.supply r g →
      env.supply.next ≤ g.next ∧ ∀ a, r = .ok a → Q a g) : Ensures (ofFresh x) env Q := by
  intro r env' hrun
  obtain ⟨g, hx, rfl⟩ := yields_ofFresh_iff.mp hrun
  exact h r g hx

theorem ensures_ofExcept {x : Except (Fault ComposeError) α} (h : ∀ a, x = .ok a → Q a env.supply) :
    Ensures (ofFresh (Fresh.ofExcept x)) env Q := by
  apply ensures_ofFresh
  intro r g hrun
  cases x with
  | ok a =>
      obtain ⟨rfl, rfl⟩ := yields_pure.mp hrun
      exact ⟨Nat.le_refl _, fun b hb => by cases hb; exact h a rfl⟩
  | error f =>
      obtain ⟨rfl, rfl⟩ := yields_throw.mp hrun
      exact ⟨Nat.le_refl _, by simp⟩

theorem ensures_quiet {y : Compose Unit}
    (hy : ∀ {r env'}, Yields y env r env' → r = .ok () ∧ env'.supply = env.supply) :
    Ensures y env fun _ _ => True := by
  intro r env' hrun
  obtain ⟨_, hsupply⟩ := hy hrun
  exact ⟨Nat.le_of_eq (congrArg Supply.next hsupply.symm), by simp⟩

theorem ensures_log {line : String} : Ensures (log c line) env fun _ _ => True :=
  ensures_quiet supply_of_yields_log

theorem ensures_debug {line : String} : Ensures (debug c line) env fun _ _ => True :=
  ensures_quiet supply_of_yields_debug

theorem ensures_logAll {lines : List String} {f : String → String} :
    Ensures (lines.forM fun line => log c (f line)) env fun _ _ => True := by
  induction lines generalizing env with
  | nil => exact ensures_pure trivial
  | cons line rest ih => exact Ensures.after ensures_log fun _ _ => ih

theorem ensures_countResult {op : String} {s : Sketch} :
    Ensures (countResult c op s) env fun _ _ => True := by
  refine Ensures.after (ensures_quiet supply_of_yields_count) fun _ _ => ?_
  split
  · exact ensures_throw
  · exact ensures_pure trivial

theorem ensures_attempt (hx : Ensures x env Q) :
    Ensures (attempt x) env fun r g => ∀ a, r = .ok a → Q a g := by
  intro r env' hrun
  obtain ⟨r₁, env₁, h₁⟩ := yields_self x env
  obtain ⟨hle, hQ⟩ := hx r₁ env₁ h₁
  cases r₁ with
  | ok a =>
      obtain ⟨rfl, rfl⟩ := (yields_attempt_ok h₁).unique hrun
      refine ⟨hle, fun r hr a' ha' => hQ a' ?_⟩
      cases hr
      cases ha'
      rfl
  | error f =>
      cases f with
      | error e =>
          obtain ⟨rfl, rfl⟩ := (yields_attempt_refused h₁).unique hrun
          refine ⟨hle, fun r hr a ha => ?_⟩
          cases hr
          cases ha
      | crash text =>
          obtain ⟨rfl, rfl⟩ := (yields_attempt_crash h₁).unique hrun
          exact ⟨hle, by simp⟩

theorem ensures_observe {op : String} {x : Compose Handle} {Q : Handle → Supply → Prop}
    (hx : Ensures x env Q) (hQ : ∀ {h g g'}, Q h g → g.next ≤ g'.next → Q h g') :
    Ensures (observe c op x) env Q := by
  refine (ensures_attempt hx).bind fun r env₁ _ hr => ?_
  cases r with
  | ok h =>
      refine Ensures.after ensures_countResult fun env₂ hle₂ => ?_
      refine Ensures.after ensures_debug fun env₃ hle₃ => ?_
      exact ensures_pure (hQ (hr h rfl) (Nat.le_trans hle₂ hle₃))
  | error e =>
      refine Ensures.after (ensures_quiet supply_of_yields_countFailure) fun _ _ => ?_
      exact ensures_refuse

theorem ensures_finish {p : Program} (hvalid : p.collect.Valid) :
    Ensures (finish c p) env fun q g => Finished c p q ∧ g = env.supply := by
  intro r env' hrun
  obtain ⟨q, rfl, hfinished, hsupply⟩ := finished_of_yields hvalid hrun
  refine ⟨Nat.le_of_eq (congrArg Supply.next hsupply.symm), fun q' hq' => ?_⟩
  cases hq'
  exact ⟨hfinished, hsupply⟩

theorem ensures_newHandle {p : Program} {bindings : List Binding} {spare : List Symbol}
    {Q : Handle → Supply → Prop}
    (h : ∀ tag, Q ⟨tag, tag, p.sketch, bindings, spare⟩ env.supply) :
    Ensures (newHandle p bindings spare) env Q := by
  intro r env' hrun
  obtain ⟨rfl, rfl⟩ := yields_newHandle_iff.mp hrun
  refine ⟨Nat.le_refl _, fun h' hh' => ?_⟩
  cases hh'
  exact h _

end Ensures

end KernelAlgebra.Compose
