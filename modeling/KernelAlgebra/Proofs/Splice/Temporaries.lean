import KernelAlgebra.Proofs.Compose.Resolution
import KernelAlgebra.Proofs.Machine.Copying

/-!
# The private names of inlined code

A replacement passes the check when its channels are as wide as the operands of the instruction.
Its local symbols then get fresh names, and its channels get temporaries of their own, so that
the inlined code shares nothing with its surroundings but constants, uniforms and textures.
-/

namespace KernelAlgebra

open Machine

/-! ## The check of the interface -/

/-- There is an input as wide as each source, and a first output as wide as the destination. -/
structure Instruction.Admits (i : Instruction) (repl : Interface) : Prop where
  inputs : repl.inputs.map Symbol.size = i.src.map View.size
  output : i.dst.isAbsent = false → ∃ s rest, repl.outputs = s :: rest ∧ s.size = i.dst.size

namespace Program

theorem checkFeeds_cases {i : Instruction} {inputs : List Symbol} {views : List View}
    (hsolid : ∀ s ∈ inputs, s.isHole = false) (hlen : inputs.length = views.length) :
    (checkFeeds i inputs views = .ok () ∧ inputs.map Symbol.size = views.map View.size) ∨
      ∃ e, checkFeeds i inputs views = .error (.error e) ∧
        inputs.map Symbol.size ≠ views.map View.size := by
  induction inputs generalizing views with
  | nil =>
      cases views with
      | nil => simp [checkFeeds]
      | cons v views => simp at hlen
  | cons s inputs ih =>
      cases views with
      | nil => simp at hlen
      | cons v views =>
          have hrest := ih (fun t ht => hsolid t (by simp [ht])) (by simpa using hlen)
          simp only [checkFeeds, hsolid s (by simp), Bool.false_eq_true, if_false]
          by_cases hsize : s.size = v.size
          · simpa [hsize] using hrest
          · simp [hsize]

theorem checkResult_cases {i : Instruction} {outputs : List Symbol}
    (hsolid : ∀ s ∈ outputs, s.isHole = false) (hsome : i.dst.isAbsent = false → outputs ≠ []) :
    (checkResult i outputs = .ok () ∧
        (i.dst.isAbsent = false → ∃ s rest, outputs = s :: rest ∧ s.size = i.dst.size)) ∨
      ∃ e, checkResult i outputs = .error (.error e) ∧
        ¬ (i.dst.isAbsent = false → ∃ s rest, outputs = s :: rest ∧ s.size = i.dst.size) := by
  cases outputs with
  | nil =>
      refine .inl ⟨rfl, fun hdst => ?_⟩
      exact absurd rfl (hsome hdst)
  | cons s rest =>
      simp only [checkResult, hsolid s (by simp), Bool.false_eq_true, if_false]
      cases hdst : i.dst.isAbsent with
      | true => simp
      | false => by_cases hsize : s.size = i.dst.size <;> simp [hsize]

theorem checkSplice_cases {i : Instruction} {repl : Interface}
    (hinputs : ∀ s ∈ repl.inputs, s.isHole = false)
    (houtputs : ∀ s ∈ repl.outputs, s.isHole = false) :
    (checkSplice i repl = .ok () ∧ i.Admits repl) ∨
      ∃ e, checkSplice i repl = .error (.error e) ∧ ¬ i.Admits repl := by
  unfold checkSplice
  by_cases hlen : repl.inputs.length = i.src.length
  · by_cases hnone : (!i.dst.isAbsent && repl.outputs.isEmpty) = true
    · refine .inr ⟨.noOutputs i, by simp [hlen, hnone], fun h => ?_⟩
      simp only [Bool.and_eq_true, Bool.not_eq_true', List.isEmpty_iff] at hnone
      obtain ⟨s, rest, hcons, _⟩ := h.output hnone.1
      simp [hnone.2] at hcons
    · have hsome : i.dst.isAbsent = false → repl.outputs ≠ [] := by
        intro hdst
        simpa [hdst] using hnone
      simp only [hlen, bne_self_eq_false, hnone, Bool.false_eq_true, if_false]
      rcases checkFeeds_cases (i := i) hinputs hlen with ⟨hfeeds, hsizes⟩ | ⟨e, hfeeds, hsizes⟩
      · rw [hfeeds]
        refine (checkResult_cases houtputs hsome).imp (fun h => ⟨h.1, hsizes, h.2⟩) ?_
        rintro ⟨e, hresult, hrefused⟩
        exact ⟨e, hresult, fun h => hrefused h.output⟩
      · exact .inr ⟨e, by rw [hfeeds], fun h => hsizes h.inputs⟩
  · refine .inr ⟨.inputCount i repl.inputs.length, by simp [hlen], fun h => hlen ?_⟩
    simpa using congrArg List.length h.inputs

end Program

/-! ## Fresh temporaries -/

theorem Renaming.apply_append (m m' : Renaming) (s : Symbol) :
    apply (m ++ m') s = if s ∈ m.map Prod.fst then m.apply s else m'.apply s := by
  induction m with
  | nil => simp
  | cons q rest ih =>
      obtain ⟨old, new⟩ := q
      by_cases h : s = old
      · simp [apply_cons, h]
      · have hmem : s ∈ ((old, new) :: rest).map Prod.fst ↔ s ∈ rest.map Prod.fst := by
          simp [h]
        simp only [List.cons_append, apply_cons, if_neg h, ih, hmem]

/-- Fresh temporaries stand for the symbols of a list. -/
structure Temporaries (m : Renaming) (list : List Symbol) (g g' : Supply) : Prop where
  later : g.next ≤ g'.next
  draws : m.Draws g g'
  keys : ∀ s, s ∈ m.map Prod.fst ↔ s ∈ list
  values : ∀ q ∈ m, q.2 = { q.1 with id := q.2.id, role := .temp }

namespace Temporaries

variable {m : Renaming} {list list' : List Symbol} {g g' : Supply}

theorem congr (h : Temporaries m list g g') (hsame : ∀ s, s ∈ list ↔ s ∈ list') :
    Temporaries m list' g g' :=
  ⟨h.later, h.draws, fun s => (h.keys s).trans (hsame s), h.values⟩

theorem append_first (h : Temporaries m list ⟨g.next + 1⟩ g') (s : Symbol) :
    Temporaries (m ++ [(s, { s with id := g.next, role := .temp })]) (s :: list) g g' where
  later := Nat.le_of_succ_le h.later
  draws := h.draws.append_first h.later rfl
  keys := by
    intro t
    rw [List.map_append, List.mem_append, h.keys t, List.mem_cons]
    simp [or_comm]
  values := by
    intro q hq
    rcases List.mem_append.mp hq with hq | hq
    · exact h.values q hq
    · rw [List.mem_singleton.mp hq]

theorem cons (h : Temporaries m list g g') (s : Symbol) :
    Temporaries ((s, { s with id := g'.next, role := .temp }) :: m) (s :: list) g
      ⟨g'.next + 1⟩ where
  later := Nat.le_succ_of_le h.later
  draws := h.draws.cons h.later rfl
  keys := by
    intro t
    rw [List.map_cons, List.mem_cons, h.keys t, List.mem_cons]
  values := by
    intro q hq
    rcases List.mem_cons.mp hq with rfl | hq
    · rfl
    · exact h.values q hq

end Temporaries

def Renaming.feeds (m : Renaming) (inputs : List Symbol) (views : List View) :
    List (Symbol × View) :=
  (inputs.zip views).map fun q => (m.apply q.1, q.2)

theorem Temporaries.feeds_append {m : Renaming} {inputs : List Symbol} {views : List View}
    {g g' : Supply} (h : Temporaries m inputs g g') {s t : Symbol} (hs : s ∉ inputs) (v : View) :
    Renaming.feeds (m ++ [(s, t)]) (s :: inputs) (v :: views) = (t, v) :: m.feeds inputs views := by
  unfold Renaming.feeds
  rw [List.zip_cons_cons, List.map_cons, Renaming.apply_append,
    if_neg fun hmem => hs ((h.keys s).mp hmem), Renaming.apply_cons, if_pos rfl]
  congr 1
  apply List.map_congr_left
  intro q hq
  rw [Renaming.apply_append, if_pos ((h.keys q.1).mpr (List.of_mem_zip hq).1)]

namespace Program

theorem yields_feedInputs_cons {inputs : List Symbol} {views : List View} {s : Symbol} {v : View}
    {g g' : Supply} {m : Renaming} {block : Block} (hid : s.id < g.next) (hs : s.isHole = false)
    (hv : v.isAbsent = false ∧ v.check false = .ok ()) (hsize : s.size = v.size)
    (hrest : Yields (feedInputs inputs views) ⟨g.next + 1⟩ (.ok (m, block)) g') :
    let t : Symbol := { s with id := g.next, role := .temp }
    Yields (feedInputs (s :: inputs) (v :: views)) g
      (.ok (m ++ [(s, t)], .move (View.full t) v :: block)) g' := by
  intro t
  have ht : t.isHole = false := by
    simp only [t, Symbol.isHole, decide_eq_false_iff_not]
    omega
  have hassign : Instruction.assign (View.full t) v = .ok (.move (View.full t) v) := by
    refine Instruction.assign_of_check (Instruction.check_move ht View.check_full hv.1 hv.2 ?_)
    rw [View.size_full ht, ← hsize]
  unfold feedInputs
  refine (yields_bind (Fresh.yields_copy hs)).mpr ?_
  simp only [t] at hassign
  simp only [hassign]
  exact (yields_bind hrest).mpr (yields_pure.mpr ⟨rfl, rfl⟩)

theorem yields_feedInputs {inputs : List Symbol} {views : List View} {g : Supply}
    (hnodup : inputs.Nodup) (hsolid : ∀ s ∈ inputs, s.isHole = false) (habove : g.Above inputs)
    (hsizes : inputs.map Symbol.size = views.map View.size)
    (hviews : ∀ v ∈ views, v.isAbsent = false ∧ v.check false = .ok ()) :
    ∃ m g', Yields (feedInputs inputs views) g (.ok (m, feedBlock (m.feeds inputs views))) g' ∧
      Temporaries m inputs g g' := by
  induction inputs generalizing views g with
  | nil =>
      refine ⟨[], g, ?_, Nat.le_refl _, .nil g g, by simp, by simp⟩
      unfold feedInputs
      exact yields_pure.mpr ⟨rfl, rfl⟩
  | cons s inputs ih =>
      cases views with
      | nil => simp at hsizes
      | cons v views =>
          obtain ⟨hs, hrest⟩ := List.nodup_cons.mp hnodup
          simp only [List.map_cons, List.cons.injEq] at hsizes
          have hnext : Supply.Above ⟨g.next + 1⟩ inputs :=
            fun t ht => Nat.lt_succ_of_lt (habove t (by simp [ht]))
          obtain ⟨m, g', hyields, htemps⟩ := ih (g := ⟨g.next + 1⟩) hrest
            (fun t ht => hsolid t (by simp [ht])) hnext hsizes.2
            fun w hw => hviews w (by simp [hw])
          refine ⟨_, g', ?_, htemps.append_first s⟩
          rw [htemps.feeds_append hs]
          exact yields_feedInputs_cons (habove s (by simp)) (hsolid s (by simp))
            (hviews v (by simp)) hsizes.1 hyields

theorem yields_freshOutputs {m : Renaming} {list outputs : List Symbol} {g g₁ : Supply}
    (htemps : Temporaries m list g g₁) (hsolid : ∀ s ∈ outputs, s.isHole = false) :
    ∃ m' g', Yields (freshOutputs m outputs) g₁ (.ok m') g' ∧
      Temporaries m' (list ++ outputs) g g' ∧ ∀ s ∈ list, m'.apply s = m.apply s := by
  induction outputs generalizing m list g₁ with
  | nil =>
      refine ⟨m, g₁, yields_pure.mpr ⟨rfl, rfl⟩, ?_, fun _ _ => rfl⟩
      rwa [List.append_nil]
  | cons s outputs ih =>
      have hrest : ∀ t ∈ outputs, t.isHole = false := fun t ht => hsolid t (by simp [ht])
      by_cases hmem : s ∈ list
      · obtain ⟨m', g', hyields, htemps', hsame⟩ := ih htemps hrest
        have hfound : (m.lookup s).isSome = true := by
          simpa using (htemps.keys s).mpr hmem
        refine ⟨m', g', ?_, htemps'.congr fun t => ?_, hsame⟩
        · simp only [freshOutputs, hfound, if_true]
          exact hyields
        · simp only [List.mem_append, List.mem_cons]
          grind
      · obtain ⟨m', g', hyields, htemps', hsame⟩ := ih (htemps.cons s) hrest
        have hmissing : (m.lookup s).isSome = false := by
          rw [Bool.eq_false_iff]
          exact fun hfound => hmem ((htemps.keys s).mp (by simpa using hfound))
        refine ⟨m', g', ?_, htemps'.congr fun t => ?_, fun t ht => ?_⟩
        · simp only [freshOutputs, hmissing, Bool.false_eq_true, if_false]
          exact (yields_bind (Fresh.yields_copy (hsolid s (by simp)))).mpr hyields
        · simp only [List.mem_append, List.mem_cons]
          grind
        · rw [hsame t (by simp [ht]), Renaming.apply_cons, if_neg]
          rintro rfl
          exact hmem ht

end Program

/-! ## Private names -/

/-- Every local symbol of a program has a fresh name of its own that starts out the same. -/
structure PrivateNames (σ : Symbol → Symbol) (repl : Program) (g : Supply) : Prop where
  fixed : ∀ s ∈ repl.symbols, s.isLocal = false → σ s = s
  stays : ∀ s ∈ repl.symbols, s.isLocal = true → (σ s).isLocal = true
  fresh : ∀ s ∈ repl.symbols, s.isLocal = true → g.next ≤ (σ s).id
  alike : ∀ s ∈ repl.symbols, (σ s).size = s.size ∧ (σ s).value = s.value
  solid : ∀ s ∈ repl.symbols, (σ s).isHole = false
  injective : ∀ s ∈ repl.symbols, ∀ t ∈ repl.symbols, σ s = σ t → s = t

namespace PrivateNames

variable {σ : Symbol → Symbol} {repl : Program} {g : Supply}

theorem relabels (h : PrivateNames σ repl g) : Relabels repl.symbols σ :=
  ⟨h.fixed, h.stays, fun s hs => (h.alike s hs).1, fun s hs _ => h.solid s hs⟩

theorem startValue_eq (h : PrivateNames σ repl g) (u : Overrides) {s : Symbol}
    (hs : s ∈ repl.symbols) : startValue u (σ s) = startValue u s := by
  cases hlocal : s.isLocal with
  | false => rw [h.fixed s hs hlocal]
  | true =>
      obtain ⟨hsize, hvalue⟩ := h.alike s hs
      rw [startValue_of_isLocal hlocal, startValue_of_isLocal (h.stays s hs hlocal), hsize, hvalue]

theorem not_mem (h : PrivateNames σ repl g) {declared : List Symbol} (habove : g.Above declared)
    {s : Symbol} (hs : s ∈ repl.symbols) (hlocal : s.isLocal = true) : σ s ∉ declared := by
  intro hmem
  have hold := habove _ hmem
  have hnew := h.fresh s hs hlocal
  omega

end PrivateNames

theorem Temporaries.apply_cases {m : Renaming} {list : List Symbol} {g g' : Supply}
    (h : Temporaries m list g g') (t : Symbol) :
    t ∈ list ∧ g.next ≤ (m.apply t).id ∧
        m.apply t = { t with id := (m.apply t).id, role := .temp } ∨ m.apply t = t := by
  rcases m.apply_cases t with hmem | ⟨hsame, _⟩
  · exact .inl ⟨(h.keys t).mp (List.mem_map.mpr ⟨_, hmem, rfl⟩), (h.draws.fresh _ hmem).1,
      h.values _ hmem⟩
  · exact .inr hsame

theorem Copies.privateNames {ρ : Symbol → Symbol} {repl sub : Program} {m : Renaming}
    {g g₁ g₂ : Supply} (h : Copies ρ repl sub) (hrepl : repl.Valid) (hlater : g.next ≤ g₁.next)
    (hfresh : ∀ s ∈ repl.symbols, s.isLocal = true → g.next ≤ (ρ s).id)
    (habove : g₁.Above (repl.symbols.map ρ))
    (htemps : Temporaries m (sub.inputs ++ sub.outputs) g₁ g₂) :
    PrivateNames (fun s => m.apply (ρ s)) repl g where
  fixed := by
    intro s hs hlocal
    rw [h.fixed s hs hlocal]
    rcases htemps.apply_cases s with ⟨hmem, _⟩ | hsame
    · have horderly := h.orderly hrepl
      have hchannel : s.isLocal = true := by
        rcases List.mem_append.mp hmem with hmem | hmem
        · exact horderly.inputs.isLocal (by decide) hmem
        · exact horderly.outputs.isLocal (by decide) hmem
      rw [hlocal] at hchannel
      cases hchannel
    · exact hsame
  stays := by
    intro s hs hlocal
    rcases htemps.apply_cases (ρ s) with ⟨_, _, hnew⟩ | hsame
    · rw [hnew]
      rfl
    · rw [hsame]
      exact h.relabels.stays s hs hlocal
  fresh := by
    intro s hs hlocal
    rcases htemps.apply_cases (ρ s) with ⟨_, hnew, _⟩ | hsame
    · exact Nat.le_trans hlater hnew
    · rw [hsame]
      exact hfresh s hs hlocal
  alike := by
    intro s hs
    have hold : (ρ s).size = s.size ∧ (ρ s).value = s.value := by
      rw [h.twin s hs]
      exact ⟨rfl, rfl⟩
    rcases htemps.apply_cases (ρ s) with ⟨_, _, hnew⟩ | hsame
    · rw [hnew]
      exact hold
    · rwa [hsame]
  solid := fun s hs => htemps.draws.solid habove (List.mem_map_of_mem hs)
    (h.solid s hs (hrepl.orderly.solid hs))
  injective := fun s hs t ht heq => h.injective s hs t ht
    (htemps.draws.injective habove _ (List.mem_map_of_mem hs) _ (List.mem_map_of_mem ht) heq)

end KernelAlgebra
