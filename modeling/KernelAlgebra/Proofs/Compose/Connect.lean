import KernelAlgebra.Proofs.Compose.Composer
import KernelAlgebra.Proofs.Compose.Functional

/-!
# Connecting handles

Connecting two handles goes well exactly when the channels that meet have equal sizes.  The
result then runs the two programs one after the other.
-/

namespace KernelAlgebra

open Machine

/-- The handle holds this program, which is valid and has an input for every binding. -/
structure Handle.Over (h : Handle) (p : Program) : Prop where
  sketch : h.sketch = p.sketch
  valid : p.Valid
  bindings : h.bindings.length ≤ p.inputs.length

/-- The handle holds this program, and no id of the program is still to be drawn. -/
structure Handle.Carries (g : Supply) (h : Handle) (p : Program) : Prop where
  holds : h.Over p
  above : g.Above p.symbols

theorem Handle.Carries.mono {g g' : Supply} {h : Handle} {p : Program} (hh : h.Carries g p)
    (hle : g.next ≤ g'.next) : h.Carries g' p :=
  ⟨hh.holds, hh.above.mono hle⟩

/-- Every output of the first handle has the size of the free input that it meets. -/
def Handle.Meets (a b : Handle) : Prop :=
  ∀ q ∈ a.outputs.zip b.free, q.1.size = q.2.size

instance (a b : Handle) : Decidable (a.Meets b) :=
  inferInstanceAs (Decidable (∀ q ∈ a.outputs.zip b.free, q.1.size = q.2.size))

/-! ## The steps of a connection -/

theorem yields_splitInputs {p : Program} {bound : Nat} {g : Supply}
    (hbound : bound ≤ p.inputs.length) :
    Yields (splitInputs p bound) g (.ok (p.inputs.take bound, p.inputs.drop bound)) g := by
  unfold splitInputs
  rw [if_pos hbound]
  exact yields_pure.mpr ⟨rfl, rfl⟩

theorem checkPairs_of_sizes {pairs : List (Symbol × Symbol)}
    (hsolid : ∀ q ∈ pairs, q.1.isHole = false ∧ q.2.isHole = false)
    (hsizes : ∀ q ∈ pairs, q.1.size = q.2.size) (i : Nat) : checkPairs i pairs = .ok () := by
  induction pairs generalizing i with
  | nil => rfl
  | cons q rest ih =>
      obtain ⟨o, n⟩ := q
      obtain ⟨ho, hn⟩ := hsolid (o, n) (by simp)
      have hsize : o.size = n.size := hsizes (o, n) (by simp)
      simp only [checkPairs, ho, hn, hsize, Bool.or_self, Bool.false_eq_true, if_false,
        bne_self_eq_false]
      exact ih (fun q hq => hsolid q (by simp [hq])) (fun q hq => hsizes q (by simp [hq])) _

theorem checkPairs_of_not_sizes {pairs : List (Symbol × Symbol)}
    (hsolid : ∀ q ∈ pairs, q.1.isHole = false ∧ q.2.isHole = false)
    (hsizes : ¬ ∀ q ∈ pairs, q.1.size = q.2.size) (i : Nat) :
    ∃ j o n, checkPairs i pairs = .error (.error (.connectSizes j o n)) := by
  induction pairs generalizing i with
  | nil => exact absurd (by simp) hsizes
  | cons q rest ih =>
      obtain ⟨o, n⟩ := q
      obtain ⟨ho, hn⟩ := hsolid (o, n) (by simp)
      simp only [checkPairs, ho, hn, Bool.or_self, Bool.false_eq_true, if_false]
      by_cases hsize : o.size = n.size
      · simp only [hsize, bne_self_eq_false, Bool.false_eq_true, if_false]
        refine ih (fun q hq => hsolid q (by simp [hq])) (fun hrest => hsizes ?_) _
        intro q hq
        rcases List.mem_cons.mp hq with rfl | hq
        · exact hsize
        · exact hrest q hq
      · exact ⟨i, o, n, by simp [hsize]⟩

theorem yields_assemble (c : Composer) (env : Env) {a b : Program} (ha : a.graph.Sound) :
    ∃ env', Yields (assemble c a b) env (.ok (sequenced a b)) env' ∧
      env'.supply = env.supply := by
  have hexit : a.graph.exit < (a.graph.absorb b.graph).size := by
    have hlt := ha.exit_lt
    simp only [Graph.size, Graph.absorb, List.length_append] at hlt ⊢
    omega
  have happend : a.graph.tryAppend b.graph = .ok (a.graph.append b.graph) := if_pos hexit
  unfold assemble
  simp only [happend]
  split
  · obtain ⟨r, env₁, h₁⟩ := yields_self
      (Compose.log c s!"warning: {conflictText a.target b.target}") env
    obtain ⟨rfl, hsupply⟩ := Compose.supply_of_yields_log h₁
    exact ⟨env₁, (yields_bind h₁).mpr (yields_pure.mpr ⟨rfl, rfl⟩), hsupply⟩
  · exact ⟨env, yields_pure.mpr ⟨rfl, rfl⟩, rfl⟩

theorem takesEpilogue_of_sound {g : Graph} (hsound : g.Sound) (block : Block) :
    Program.takesEpilogue g block = true := by
  have hexit : g.exit < g.newNode.1.size := by
    have hlt := hsound.exit_lt
    simp only [Graph.size, Graph.newNode, List.length_append] at hlt ⊢
    omega
  simp [Program.takesEpilogue, Graph.tryAppendExit, if_pos hexit, Except.isOk, Except.toBool]

/-! ## The operands -/

namespace SecondOperand

variable {ap bp bq : Program} {ρ : Symbol → Symbol} {g g₁ : Supply}

theorem pairs_eq (h : SecondOperand ap bp bq ρ g g₁) (bound : Nat) :
    ap.copied.outputs.zip (bq.inputs.drop bound) =
      (ap.outputs.zip (bp.inputs.drop bound)).map fun q => (q.1, ρ q.2) := by
  have hcopied : ap.copied.outputs = ap.outputs := rfl
  rw [hcopied, h.copies.inputs, ← List.map_drop, List.zip_map_right]
  rfl

theorem sizes_iff (h : SecondOperand ap bp bq ρ g g₁) (bound : Nat) :
    (∀ q ∈ ap.copied.outputs.zip (bq.inputs.drop bound), q.1.size = q.2.size) ↔
      ∀ q ∈ ap.outputs.zip (bp.inputs.drop bound), q.1.size = q.2.size := by
  have hsize : ∀ q ∈ ap.outputs.zip (bp.inputs.drop bound), (ρ q.2).size = q.2.size := by
    intro q hq
    have hmem := List.mem_of_mem_drop (List.of_mem_zip hq).2
    exact h.copies.size_eq (Interface.mem_symbols.mpr (.inl hmem))
  rw [h.pairs_eq, List.forall_mem_map]
  constructor
  · intro hall q hq
    rw [hall q hq, hsize q hq]
  · intro hall q hq
    rw [hall q hq, hsize q hq]

theorem solid_pairs (h : SecondOperand ap bp bq ρ g g₁) (ha : ap.Valid) (hb : bp.Valid)
    (bound : Nat) :
    ∀ q ∈ ap.copied.outputs.zip (bq.inputs.drop bound),
      q.1.isHole = false ∧ q.2.isHole = false := by
  intro q hq
  obtain ⟨hout, hin⟩ := List.of_mem_zip hq
  exact ⟨ha.orderly.outputs.solid _ hout,
    (h.copies.orderly hb).inputs.solid _ (List.mem_of_mem_drop hin)⟩

theorem above_first (h : SecondOperand ap bp bq ρ g g₁) (ha : g.Above ap.symbols) :
    g₁.Above ap.copied.symbols :=
  Supply.Above.mono ha h.later

theorem connection (h : SecondOperand ap bp bq ρ g g₁) (ha : ap.Valid) (hb : bp.Valid)
    (habove : g.Above ap.symbols) {bound : Nat} {ws : List Wire} {g₂ : Supply}
    (hdrawn : Wire.Drawn g₁ g₂ (ap.copied.outputs.zip (bq.inputs.drop bound)) ws)
    (hsizes : ∀ q ∈ ap.copied.outputs.zip (bq.inputs.drop bound), q.1.size = q.2.size) :
    Connection ap.copied bq bound ws g₁ g₂ where
  first := (Program.copies_copied ha).valid ha
  second := h.copies.valid hb
  apart := h.apart
  above := h.above_first habove
  above' := h.above
  drawn := hdrawn
  sizes := by
    intro w hw
    refine hsizes (w.output, w.input) ?_
    rw [← hdrawn.ends]
    exact List.mem_map.mpr ⟨w, hw, rfl⟩

end SecondOperand

/-- The program is a finished connection of the two others, drawn from one supply and leaving
another. -/
inductive Joins (c : Composer) (ap bp : Program) (taken bound : Nat) (g : Supply) : Program → Supply → Prop
  | intro {bq q : Program} {ρ : Symbol → Symbol} {g₁ g₂ : Supply} {ws : List Wire}
      (operand : SecondOperand ap bp bq ρ g g₁)
      (connection : Connection ap.copied bq bound ws g₁ g₂)
      (finished : Compose.Finished c (Connection.program ap.copied bq taken bound ws) q) :
      Joins c ap bp taken bound g q g₂

theorem Joins.completes {c : Composer} {ap bp q : Program} {taken bound : Nat} {g g' : Supply}
    (h : Joins c ap bp taken bound g q g') (ha : ap.Valid) (hb : bp.Valid)
    (htaken : taken ≤ ap.inputs.length) (hbound : bound ≤ bp.inputs.length) {u : Overrides}
    {ca cb xa xb ra rb : List (List Float)} (hca : ca.length = taken) (hcb : cb.length = bound)
    (hruna : ∃ steps, Completes ap (ca ++ xa) u ⟨ra, false, steps⟩)
    (hrunb : ∃ steps, Completes bp (cb ++ ra.take (bp.inputs.drop bound).length ++ xb) u
      ⟨rb, false, steps⟩) :
    ∃ steps, Completes q (ca ++ cb ++ xa ++ xb) u
      ⟨rb ++ ra.drop (bp.inputs.drop bound).length, false, steps⟩ := by
  obtain ⟨operand, connection, finished⟩ := h
  rename_i bq ρ g₁ ws
  have hlen : (bq.inputs.drop bound).length = (bp.inputs.drop bound).length := by
    rw [operand.copies.inputs, List.length_drop, List.length_map, List.length_drop]
  have hca' : ca.length = (ap.copied.inputs.take taken).length := by
    rw [hca, show ap.copied.inputs = ap.inputs from rfl, List.length_take_of_le htaken]
  have hcb' : cb.length = (bq.inputs.take bound).length := by
    rw [operand.copies.inputs, List.length_take, List.length_map, Nat.min_eq_left hbound, hcb]
  have hruna' := (Program.copies_copied ha).completes ha hruna
  have hrunb' := operand.copies.completes hb hrunb
  rw [← hlen] at hrunb' ⊢
  exact finished.improves.completes (connection.completes_program hca' hcb' hruna' hrunb')

/-! ## Connecting -/

namespace Composer

variable {c : Composer} {a b : Handle} {ap bp : Program} {env : Env}

theorem meets_iff (ha : a.Over ap) (hb : b.Over bp) :
    a.Meets b ↔ ∀ q ∈ ap.outputs.zip (bp.inputs.drop b.bindings.length),
      q.1.size = q.2.size := by
  unfold Handle.Meets Handle.outputs Handle.free
  rw [ha.sketch, hb.sketch]
  rfl

/-- What connecting gives: a connection where the sizes agree, and a refusal elsewhere. -/
def Connects (c : Composer) (a b : Handle) (ap bp : Program) (g : Supply)
    (r : Except (Fault ComposeError) Handle) (g' : Supply) : Prop :=
  (a.Meets b ∧ ∃ h q, r = .ok h ∧ Joins c ap bp a.bindings.length b.bindings.length g q g' ∧
    h.sketch = q.sketch ∧ h.bindings = a.bindings ++ b.bindings) ∨
  (¬ a.Meets b ∧ g.next ≤ g'.next ∧ ∃ e, r = .error (.error e) ∧ e.kind = .sizeMismatch)

theorem connects_of_yields (ha : a.Over ap) (hb : b.Over bp)
    (habove : env.supply.Above ap.symbols) (habove' : env.supply.Above bp.symbols)
    {r : Except (Fault ComposeError) Handle} {env' : Env}
    (hrun : Yields (connectBoth c a b) env r env') :
    Connects c a b ap bp env.supply r env'.supply := by
  obtain ⟨bq, ρ, g₁, hoperands, operand⟩ := yields_operands hb.valid habove habove'
  have hinputs : b.bindings.length ≤ bq.inputs.length := by
    rw [operand.copies.inputs, List.length_map]
    exact hb.bindings
  have hsolid := operand.solid_pairs ha.valid hb.valid b.bindings.length
  have hmeets := (meets_iff ha hb).trans (operand.sizes_iff b.bindings.length).symm
  unfold connectBoth at hrun
  rw [ha.sketch, hb.sketch] at hrun
  have hrun := (yields_bind (Compose.yields_ofFresh_iff.mpr ⟨_, hoperands, rfl⟩)).mp hrun
  have hrun := (yields_bind (Compose.yields_ofFresh_iff.mpr
    ⟨_, yields_splitInputs ha.bindings, rfl⟩)).mp hrun
  have hrun := (yields_bind (Compose.yields_ofFresh_iff.mpr
    ⟨_, yields_splitInputs hinputs, rfl⟩)).mp hrun
  by_cases hsizes : ∀ q ∈ ap.copied.outputs.zip (bq.inputs.drop b.bindings.length),
      q.1.size = q.2.size
  · refine .inl ⟨hmeets.mpr hsizes, ?_⟩
    obtain ⟨ws, g₂, hdrawing, hdrawn⟩ := Wire.exists_drawn hsolid g₁
    have connection := operand.connection ha.valid hb.valid habove hdrawn hsizes
    have hcheck : Yields (Fresh.ofExcept (checkPairs 0 (ap.copied.outputs.zip
        (bq.inputs.drop b.bindings.length)))) g₁ (.ok ()) g₁ := by
      rw [checkPairs_of_sizes hsolid hsizes]
      exact yields_pure.mpr ⟨rfl, rfl⟩
    have hrun := (yields_bind (Compose.yields_ofFresh_iff.mpr ⟨_, hcheck, rfl⟩)).mp hrun
    have hrun := (yields_bind (Compose.yields_ofFresh_iff.mpr ⟨_, hdrawing, rfl⟩)).mp hrun
    obtain ⟨env₁, hassemble, hsupply₁⟩ := yields_assemble c { env with supply := g₂ }
      (b := bq) connection.first.sound
    have hrun := (yields_bind hassemble).mp hrun
    have htakes : takesEpilogue (sequenced ap.copied bq) ws = true := by
      refine takesEpilogue_of_sound (sound_withPrologue ?_ _) _
      exact (Graph.sequel_append connection.first.sound connection.second.sound).sound
        connection.first.sound connection.second.sound
    simp only [htakes, Bool.not_true, Bool.false_eq_true, if_false] at hrun
    obtain ⟨r₂, env₂, hfinish⟩ := yields_self (Compose.finish c
      (Connection.program ap.copied bq a.bindings.length b.bindings.length ws)) env₁
    obtain ⟨q, rfl, finished, hsupply₂⟩ :=
      Compose.finished_of_yields connection.valid_program hfinish
    have hrun := (yields_bind hfinish).mp hrun
    obtain ⟨rfl, rfl⟩ := Compose.yields_newHandle_iff.mp hrun
    have hsupply : env₂.supply = g₂ := hsupply₂.trans hsupply₁
    refine ⟨_, q, rfl, ?_, rfl, rfl⟩
    rw [hsupply]
    exact .intro operand connection finished
  · refine .inr ⟨mt hmeets.mp hsizes, ?_⟩
    obtain ⟨j, o, n, hcheck⟩ := checkPairs_of_not_sizes hsolid hsizes 0
    have hrefused : Yields (Fresh.ofExcept (checkPairs 0 (ap.copied.outputs.zip
        (bq.inputs.drop b.bindings.length)))) g₁ (.error (.error (.connectSizes j o n))) g₁ := by
      rw [hcheck]
      exact yields_throw.mpr ⟨rfl, rfl⟩
    obtain ⟨rfl, rfl⟩ :=
      (yields_bind_error (Compose.yields_ofFresh_iff.mpr ⟨_, hrefused, rfl⟩)).mp hrun
    exact ⟨operand.later, _, rfl, rfl⟩

theorem over_of_program? {h : Handle} {p : Program} (hp : h.sketch.program? = some p)
    (hvalid : p.issues = []) (hbindings : h.bindings.length ≤ p.inputs.length) : h.Over p :=
  ⟨Sketch.eq_of_program? hp, Program.issues_eq_nil_iff.mp hvalid, hbindings⟩

/--
Connecting handles over valid programs succeeds when the channels that meet have equal sizes,
and the result is the composition of the two programs: curried inputs come first, the outputs
of the first program feed the free inputs of the second one, and what is left over on either
side stays a channel of the result.  With unequal sizes the connection is refused.
-/
theorem connect_composes (c : Composer) {a b : Handle} {ap bp : Program} {env : Env}
    (hap : a.sketch.program? = some ap) (hbp : b.sketch.program? = some bp)
    (hva : ap.issues = []) (hvb : bp.issues = [])
    (hba : a.bindings.length ≤ ap.inputs.length) (hbb : b.bindings.length ≤ bp.inputs.length)
    (habove : env.supply.Above ap.symbols) (habove' : env.supply.Above bp.symbols) :
    (a.Meets b → ∃ h q env', (connect c (some a) (some b)).run.run env = (.ok h, env') ∧
      h.sketch.program? = some q ∧ h.bindings = a.bindings ++ b.bindings ∧
      ∀ (u : Overrides) (ca cb xa xb ra rb : List (List Float)),
        ca.length = a.bindings.length → cb.length = b.bindings.length →
        (∃ steps, Completes ap (ca ++ xa) u ⟨ra, false, steps⟩) →
        (∃ steps, Completes bp (cb ++ ra.take b.free.length ++ xb) u ⟨rb, false, steps⟩) →
        ∃ steps, Completes q (ca ++ cb ++ xa ++ xb) u
          ⟨rb ++ ra.drop b.free.length, false, steps⟩) ∧
    (¬ a.Meets b → ∃ e env',
      (connect c (some a) (some b)).run.run env = (.error (.error e), env') ∧
        e.kind = .sizeMismatch) := by
  have ha := over_of_program? hap hva hba
  have hb := over_of_program? hbp hvb hbb
  have hfree : b.free = bp.inputs.drop b.bindings.length := by
    rw [Handle.free, hb.sketch]
    rfl
  obtain ⟨r, env₁, hrun⟩ := yields_self (connectCore c (some a) (some b)) env
  have hconnects := connects_of_yields ha hb habove habove' hrun
  constructor
  · intro hmeets
    rcases hconnects with ⟨_, h, q, rfl, hjoins, hsketch, hbindings⟩ | ⟨hnot, _⟩
    · have hprogram : h.sketch.program? = some q := by
        rw [hsketch]
        rfl
      obtain ⟨env', hobserve, _⟩ := Compose.yields_observe hrun (by rw [hsketch]; rfl)
      refine ⟨h, q, env', hobserve, hprogram, hbindings, ?_⟩
      intro u ca cb xa xb ra rb hca hcb hruna hrunb
      rw [hfree] at hrunb ⊢
      exact hjoins.completes ha.valid hb.valid ha.bindings hb.bindings hca hcb hruna hrunb
    · exact absurd hmeets hnot
  · intro hmeets
    rcases hconnects with ⟨hyes, _⟩ | ⟨_, _, e, rfl, hkind⟩
    · exact absurd hyes hmeets
    · obtain ⟨env', hobserve⟩ := Compose.yields_observe_refused hrun
      exact ⟨e, env', hobserve, hkind⟩

theorem connect_composes_copying :
    ∃ h q env', (connect {} (some ⟨1, 1, Program.copying.sketch, [], []⟩)
        (some ⟨1, 1, Program.copying.sketch, [], []⟩)).run.run { Env.start with supply := ⟨4⟩ } =
          (.ok h, env') ∧
      h.sketch.program? = some q ∧ ∃ steps, Completes q [[3]] [] ⟨[[3]], false, steps⟩ := by
  have hrun : ∃ steps, Completes Program.copying [[3]] [] ⟨[[3]], false, steps⟩ :=
    ⟨2, 2, rfl⟩
  have habove : (⟨4⟩ : Supply).Above Program.copying.symbols := by decide
  have hmeets : Handle.Meets ⟨1, 1, Program.copying.sketch, [], []⟩
      ⟨1, 1, Program.copying.sketch, [], []⟩ := by decide
  have hcomposes := @connect_composes {} ⟨1, 1, Program.copying.sketch, [], []⟩
    ⟨1, 1, Program.copying.sketch, [], []⟩ Program.copying Program.copying
    { Env.start with supply := ⟨4⟩ } rfl rfl rfl rfl (by decide) (by decide) habove habove
  obtain ⟨h, q, env', hconnect, hq, _, hruns⟩ := hcomposes.1 hmeets
  exact ⟨h, q, env', hconnect, hq, hruns [] [] [] [[3]] [] [[3]] [[3]] rfl rfl hrun hrun⟩

end Composer

end KernelAlgebra
