import KernelAlgebra.Compose.Composer

/-!
# Computations with a state that may be refused

What such a computation does is said in terms of its result and the state it leaves.
-/

namespace KernelAlgebra

section Yields

variable {ε σ α β : Type}

/-- From a state the computation comes to a result and leaves another state. -/
def Yields (x : ExceptT ε (StateM σ) α) (s : σ) (r : Except ε α) (s' : σ) : Prop :=
  x.run.run s = (r, s')

theorem yields_self (x : ExceptT ε (StateM σ) α) (s : σ) :
    ∃ r s', Yields x s r s' :=
  ⟨_, _, rfl⟩

theorem yields_pure {a : α} {s s' : σ} {r : Except ε α} :
    Yields (pure a) s r s' ↔ r = .ok a ∧ s' = s := by
  constructor
  · intro h
    cases h
    exact ⟨rfl, rfl⟩
  · rintro ⟨rfl, rfl⟩
    rfl

theorem yields_throw {e : ε} {s s' : σ} {r : Except ε α} :
    Yields (throw e) s r s' ↔ r = .error e ∧ s' = s := by
  constructor
  · intro h
    cases h
    exact ⟨rfl, rfl⟩
  · rintro ⟨rfl, rfl⟩
    rfl

theorem yields_get {s s' : σ} {r : Except ε σ} :
    Yields (get : ExceptT ε (StateM σ) σ) s r s' ↔ r = .ok s ∧ s' = s := by
  constructor
  · intro h
    cases h
    exact ⟨rfl, rfl⟩
  · rintro ⟨rfl, rfl⟩
    rfl

theorem yields_set {s t s' : σ} {r : Except ε PUnit} :
    Yields (set t : ExceptT ε (StateM σ) PUnit) s r s' ↔ r = .ok ⟨⟩ ∧ s' = t := by
  constructor
  · intro h
    cases h
    exact ⟨rfl, rfl⟩
  · rintro ⟨rfl, rfl⟩
    rfl

theorem yields_modify {f : σ → σ} {s s' : σ} {r : Except ε PUnit} :
    Yields (modify f : ExceptT ε (StateM σ) PUnit) s r s' ↔ r = .ok ⟨⟩ ∧ s' = f s := by
  constructor
  · intro h
    cases h
    exact ⟨rfl, rfl⟩
  · rintro ⟨rfl, rfl⟩
    rfl

variable {x : ExceptT ε (StateM σ) α} {f : α → ExceptT ε (StateM σ) β} {s s' s'' : σ}

theorem yields_bind {a : α} {r : Except ε β} (hx : Yields x s (.ok a) s') :
    Yields (x >>= f) s r s'' ↔ Yields (f a) s' r s'' := by
  have hrun : (x >>= f).run.run s = (f a).run.run s' := by
    unfold Yields at hx
    rw [ExceptT.run_bind, StateT.run_bind, hx]
    rfl
  unfold Yields
  rw [hrun]

theorem yields_bind_error {e : ε} {r : Except ε β} (hx : Yields x s (.error e) s') :
    Yields (x >>= f) s r s'' ↔ r = .error e ∧ s'' = s' := by
  have hrun : (x >>= f).run.run s = (.error e, s') := by
    unfold Yields at hx
    rw [ExceptT.run_bind, StateT.run_bind, hx]
    rfl
  unfold Yields
  rw [hrun, Prod.mk.injEq]
  exact ⟨fun h => ⟨h.1.symm, h.2.symm⟩, fun h => ⟨h.1.symm, h.2.symm⟩⟩

theorem yields_bind_ok_iff {b : β} :
    Yields (x >>= f) s (.ok b) s'' ↔
      ∃ a s', Yields x s (.ok a) s' ∧ Yields (f a) s' (.ok b) s'' := by
  obtain ⟨r, s', hx⟩ := yields_self x s
  cases r with
  | error e =>
      rw [yields_bind_error hx]
      constructor
      · rintro ⟨h, _⟩
        cases h
      · rintro ⟨a, t, ha, _⟩
        cases hx.symm.trans ha
  | ok a =>
      rw [yields_bind hx]
      constructor
      · exact fun h => ⟨a, s', hx, h⟩
      · rintro ⟨a', t, ha, h⟩
        cases hx.symm.trans ha
        exact h

theorem Yields.unique {r r' : Except ε α} (h : Yields x s r s') (h' : Yields x s r' s'') :
    r' = r ∧ s'' = s' := by
  cases h.symm.trans h'
  exact ⟨rfl, rfl⟩

theorem yields_tryCatch {handle : ε → ExceptT ε (StateM σ) α} {a : α}
    (hx : Yields x s (.ok a) s') : Yields (tryCatch x handle) s (.ok a) s' := by
  change (ExceptT.tryCatch x handle).run.run s = _
  unfold Yields at hx
  rw [ExceptT.tryCatch, ExceptT.run_mk]
  change ((x.run >>= _ : StateM σ (Except ε α)).run s) = _
  rw [StateT.run_bind, hx]
  rfl

theorem yields_tryCatch_error {handle : ε → ExceptT ε (StateM σ) α} {e : ε} {r : Except ε α}
    (hx : Yields x s (.error e) s') :
    Yields (tryCatch x handle) s r s'' ↔ Yields (handle e) s' r s'' := by
  have hrun : (tryCatch x handle).run.run s = (handle e).run.run s' := by
    change (ExceptT.tryCatch x handle).run.run s = _
    unfold Yields at hx
    rw [ExceptT.tryCatch, ExceptT.run_mk]
    change ((x.run >>= _ : StateM σ (Except ε α)).run s) = _
    rw [StateT.run_bind, hx]
    rfl
  unfold Yields
  rw [hrun]

end Yields

end KernelAlgebra
