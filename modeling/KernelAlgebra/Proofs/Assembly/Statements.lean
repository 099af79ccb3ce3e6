import KernelAlgebra.Proofs.Assembly.Operands
import KernelAlgebra.Proofs.Builder.Soundness
import KernelAlgebra.Proofs.Computation
import KernelAlgebra.Proofs.Constants.Keys

/-!
# What a statement does to the state of lowering

A statement that is accepted takes one step of the draft, and views it needs are what its
operands denote.  Names and constants are only added.
-/

namespace KernelAlgebra.Assembly

/-! ## Computations that are accepted -/

def Accepts {α : Type} (x : LowerM α) (l : Lowering) (g : Supply) (a : α) (l' : Lowering)
    (g' : Supply) : Prop :=
  Yields (x.run l) g (.ok (a, l')) g'

section Accepts

variable {α β : Type} {l l' l'' : Lowering} {g g' g'' : Supply}

theorem accepts_bind {x : LowerM α} {f : α → LowerM β} {b : β} :
    Accepts (x >>= f) l g b l'' g'' ↔
      ∃ a l' g', Accepts x l g a l' g' ∧ Accepts (f a) l' g' b l'' g'' := by
  unfold Accepts
  rw [StateT.run_bind, yields_bind_ok_iff]
  constructor
  · rintro ⟨⟨a, l'⟩, g', hx, hf⟩
    exact ⟨a, l', g', hx, hf⟩
  · rintro ⟨a, l', g', hx, hf⟩
    exact ⟨⟨a, l'⟩, g', hx, hf⟩

theorem accepts_pure {a b : α} : Accepts (pure a) l g b l' g' ↔ b = a ∧ l' = l ∧ g' = g := by
  constructor
  · intro h
    cases h
    exact ⟨rfl, rfl, rfl⟩
  · rintro ⟨rfl, rfl, rfl⟩
    rfl

theorem accepts_get {m : Lowering} :
    Accepts (get : LowerM Lowering) l g m l' g' ↔ m = l ∧ l' = l ∧ g' = g := by
  constructor
  · intro h
    cases h
    exact ⟨rfl, rfl, rfl⟩
  · rintro ⟨rfl, rfl, rfl⟩
    rfl

theorem accepts_getThe {h : Supply} :
    Accepts (getThe Supply : LowerM Supply) l g h l' g' ↔ h = g ∧ l' = l ∧ g' = g := by
  constructor
  · intro h
    cases h
    exact ⟨rfl, rfl, rfl⟩
  · rintro ⟨rfl, rfl, rfl⟩
    rfl

theorem accepts_set {m : Lowering} {a : PUnit} :
    Accepts (set m : LowerM PUnit) l g a l' g' ↔ l' = m ∧ g' = g := by
  constructor
  · intro h
    cases h
    exact ⟨rfl, rfl⟩
  · rintro ⟨rfl, rfl⟩
    rfl

theorem accepts_setSupply {h : Supply} {a : PUnit} :
    Accepts (set h : LowerM PUnit) l g a l' g' ↔ l' = l ∧ g' = h := by
  constructor
  · intro h
    cases h
    exact ⟨rfl, rfl⟩
  · rintro ⟨rfl, rfl⟩
    rfl

theorem accepts_modify {f : Lowering → Lowering} {a : PUnit} :
    Accepts (modify f : LowerM PUnit) l g a l' g' ↔ l' = f l ∧ g' = g := by
  constructor
  · intro h
    cases h
    exact ⟨rfl, rfl⟩
  · rintro ⟨rfl, rfl⟩
    rfl

theorem not_accepts_complain {span : Span} {c : LowerComplaint} {a : α} :
    ¬ Accepts (LowerM.complain span c) l g a l' g' := by
  intro h
  cases h

theorem accepts_modifyBuilder {span : Span} {f : Builder → Except BuilderError Builder}
    {a : Unit} :
    Accepts (LowerM.modifyBuilder span f) l g a l' g' ↔
      ∃ b, f l.builder = .ok b ∧ l' = { l with builder := b } ∧ g' = g := by
  unfold LowerM.modifyBuilder
  rw [accepts_bind]
  constructor
  · rintro ⟨l₁, l₂, g₁, hget, h⟩
    obtain ⟨rfl, rfl, rfl⟩ := accepts_get.mp hget
    split at h
    · rename_i b hb
      obtain ⟨rfl, rfl⟩ := accepts_set.mp h
      exact ⟨b, hb, rfl, rfl⟩
    · exact absurd h not_accepts_complain
  · rintro ⟨b, hb, rfl, rfl⟩
    refine ⟨l, l, g', accepts_get.mpr ⟨rfl, rfl, rfl⟩, ?_⟩
    rw [hb]
    exact accepts_set.mpr ⟨rfl, rfl⟩

theorem accepts_declare {span : Span}
    {f : Builder → Supply → Except DeclarationFault (Symbol × Builder × Supply)} {s : Symbol}
    (h : Accepts (LowerM.declare span f) l g s l' g') :
    ∃ b, f l.builder g = .ok (s, b, g') ∧ l' = { l with builder := b } := by
  unfold LowerM.declare at h
  obtain ⟨l₁, l₂, g₁, hget, h₁⟩ := accepts_bind.mp h
  obtain ⟨rfl, rfl, rfl⟩ := accepts_get.mp hget
  obtain ⟨g₂, l₃, g₃, hsupply, h₂⟩ := accepts_bind.mp h₁
  obtain ⟨rfl, rfl, rfl⟩ := accepts_getThe.mp hsupply
  split at h₂
  · rename_i t b g₄ hf
    obtain ⟨_, l₄, g₅, hset, h₃⟩ := accepts_bind.mp h₂
    obtain ⟨rfl, rfl⟩ := accepts_set.mp hset
    obtain ⟨_, l₅, g₆, hset', h₄⟩ := accepts_bind.mp h₃
    obtain ⟨rfl, rfl⟩ := accepts_setSupply.mp hset'
    obtain ⟨rfl, rfl, rfl⟩ := accepts_pure.mp h₄
    exact ⟨b, hf, rfl⟩
  · exact absurd h₂ not_accepts_complain

end Accepts

/-! ## Symbols -/

theorem inputs_declare (p : Program) (s : Symbol) :
    (p.declare s).inputs = if s.isInput then p.inputs ++ [s] else p.inputs := by
  unfold Program.declare Symbol.isInput
  split <;> rename_i hrole <;> simp [hrole]

theorem outputs_declare (p : Program) (s : Symbol) :
    (p.declare s).outputs = if s.isOutput then p.outputs ++ [s] else p.outputs := by
  unfold Program.declare Symbol.isOutput
  split <;> rename_i hrole <;> simp [hrole]

theorem constant_cases {b b' : Builder} {g g' : Supply} {values : List Float} {s : Symbol}
    (h : b.constant g values = .ok (s, b', g')) :
    b'.draft = b.draft ∧ b'.program = b.program.declare s ∧ s.value = values ∧
      (s ∈ b.pool.constants ∧ b'.pool = b.pool ∧ g' = g ∨
        s = ⟨g.next, .const, values.length, .float32, .attrib, "", values⟩ ∧
          b'.pool.constants = b.pool.constants ++ [s] ∧ g' = ⟨g.next + 1⟩) := by
  have hvalues := ConstantRequest.values_ofValues .float32 values
  unfold Builder.constant at h
  cases hget : b.pool.get g .float32 values with
  | error e =>
      simp only [hget] at h
      cases h
  | ok q =>
      obtain ⟨t, pool, g₁⟩ := q
      simp only [hget, Except.ok.injEq, Prod.mk.injEq] at h
      obtain ⟨rfl, rfl, rfl⟩ := h
      refine ⟨by simp only [Builder.draft, Builder.graph, Program.graph_declare], rfl, ?_⟩
      rcases ConstantPool.request_cases hget with
        ⟨hfind, rfl, rfl⟩ | ⟨_, rfl, hconstants, _, rfl⟩
      · obtain ⟨hmem, hanswer⟩ := ConstantPool.isAnswer_of_find? hfind
        exact ⟨hanswer.value.trans hvalues, .inl ⟨hmem, rfl, rfl⟩⟩
      · exact ⟨hvalues, .inr ⟨ConstantPool.fresh_ofValues g _ values, hconstants, rfl⟩⟩

theorem pool_of_constant {b b' : Builder} {g g' : Supply} {values : List Float} {s : Symbol}
    (h : b.constant g values = .ok (s, b', g')) :
    b.pool.constants ⊆ b'.pool.constants ∧ s ∈ b'.pool.constants ∧ g.next ≤ g'.next ∧
      ∀ t ∈ b'.pool.constants, t ∈ b.pool.constants ∨
        t = ⟨g.next, .const, values.length, .float32, .attrib, "", values⟩ := by
  obtain ⟨_, _, _, ⟨hs, hpool, rfl⟩ | ⟨hs, hpool, rfl⟩⟩ := constant_cases h
  · rw [hpool]
    exact ⟨List.Subset.refl _, hs, Nat.le_refl _, fun t ht => .inl ht⟩
  · rw [hpool, ← hs]
    refine ⟨List.subset_append_left .., by simp, Nat.le_succ _, ?_⟩
    intro t ht
    exact (List.mem_append.mp ht).imp_right List.mem_singleton.mp

/-! ## Names and constants -/

def Lowering.dictionary (l : Lowering) : Dictionary := ⟨l.entries, l.builder.pool.constants⟩

structure Declares (d : DeclStatement) (e : Entry) : Prop where
  name : e.name = d.name
  role : e.sym.role = d.role
  size : e.sym.size = d.size
  value : e.sym.value = d.values

/-- Names and constants are in order, and the interface lists what has been declared. -/
structure Kept (l : Lowering) (g : Supply) (ds : List DeclStatement) : Prop where
  proper : l.dictionary.Proper
  supply : 0 < g.next
  declared : List.Forall₂ Declares ds l.entries
  inputs : l.builder.program.inputs = (l.entries.filter (·.sym.isInput)).map Entry.sym
  outputs : l.builder.program.outputs = (l.entries.filter (·.sym.isOutput)).map Entry.sym
  literals : ∀ s ∈ l.builder.pool.constants, s.value.length = s.size
  collectable : l.builder.program.toInterface.Collectable

structure Widens (l : Lowering) (g : Supply) (l' : Lowering) (g' : Supply)
    (new : List DeclStatement) : Prop where
  dictionary : l.dictionary.Extends l'.dictionary
  kept : ∀ ds, Kept l g ds → Kept l' g' (ds ++ new)

section Widens

variable {l l' l'' : Lowering} {g g' g'' : Supply} {new new' : List DeclStatement}

theorem Widens.trans (h : Widens l g l' g' new) (h' : Widens l' g' l'' g'' new') :
    Widens l g l'' g'' (new ++ new') where
  dictionary := h.dictionary.trans h'.dictionary
  kept := by
    intro ds hkept
    rw [← List.append_assoc]
    exact h'.kept _ (h.kept ds hkept)

theorem widens_of_same (hentries : l'.entries = l.entries)
    (hsame : Builder.SameSymbols l.builder l'.builder) : Widens l g l' g [] where
  dictionary := by
    refine ⟨?_, ?_⟩
    · intro e he
      change e ∈ l'.entries
      rw [hentries]
      exact he
    · intro s hs
      change s ∈ l'.builder.pool.constants
      rw [hsame.pool]
      exact hs
  kept := by
    intro ds hkept
    have hdictionary : l'.dictionary = l.dictionary := by
      simp only [Lowering.dictionary, hentries, hsame.pool]
    have hinterface := hsame.interface
    rw [List.append_nil]
    exact ⟨hdictionary ▸ hkept.proper, hkept.supply, hentries ▸ hkept.declared,
      by rw [hentries, ← hkept.inputs, hinterface],
      by rw [hentries, ← hkept.outputs, hinterface], hsame.pool ▸ hkept.literals,
      hinterface ▸ hkept.collectable⟩

theorem widens_of_constant {b : Builder} {values : List Float} {s : Symbol}
    (h : l.builder.constant g values = .ok (s, b, g')) :
    Widens l g { l with builder := b } g' [] := by
  obtain ⟨_, hprogram, _, _⟩ := constant_cases h
  obtain ⟨hsub, hmem, hlater, hcases⟩ := pool_of_constant h
  refine ⟨⟨fun _ he => he, fun _ ht => hsub ht⟩, ?_⟩
  intro ds hkept
  rw [List.append_nil]
  have hconst : ∀ t ∈ b.pool.constants, t.role = .const := by
    intro t ht
    rcases hcases t ht with ht | rfl
    · exact hkept.proper.const t ht
    · rfl
  have hpresent : ∀ t ∈ b.pool.constants, t.isHole = false := by
    intro t ht
    rcases hcases t ht with ht | rfl
    · exact hkept.proper.present t ht
    · have hsupply := hkept.supply
      simp only [Symbol.isHole, decide_eq_false_iff_not]
      omega
  have hliterals : ∀ t ∈ b.pool.constants, t.value.length = t.size := by
    intro t ht
    rcases hcases t ht with ht | rfl
    · exact hkept.literals t ht
    · rfl
  have hrole := hconst s hmem
  refine ⟨⟨hkept.proper.named, hkept.proper.solid, hkept.proper.names, hconst, hpresent⟩,
    Nat.lt_of_lt_of_le hkept.supply hlater, hkept.declared, ?_, ?_, hliterals, ?_⟩
  · rw [hprogram, inputs_declare]
    simp only [Symbol.isInput, hrole]
    exact hkept.inputs
  · rw [hprogram, outputs_declare]
    simp only [Symbol.isOutput, hrole]
    exact hkept.outputs
  · rw [hprogram]
    refine hkept.collectable.declare (hpresent s hmem) ?_ ?_
    · intro hin
      have hinput := hkept.collectable.inputs.role s hin
      simp [hrole] at hinput
    · intro hout
      have houtput := hkept.collectable.outputs.role s hout
      simp [hrole] at houtput

theorem find?_name {name : String} {e : Entry} {entries : List Entry}
    (h : entries.find? (·.name == name) = some e) : e ∈ entries ∧ e.name = name :=
  ⟨List.mem_of_find?_eq_some h, by simpa using List.find?_some h⟩

structure Viewed (l : Lowering) (g : Supply) (o : Operand) (v : View) (l' : Lowering)
    (g' : Supply) : Prop where
  draft : l'.builder.draft = l.builder.draft
  widens : Widens l g l' g' []
  denotes : Denotes l'.dictionary o v

theorem viewed_of_accepts {o : Operand} {v : View} (h : Accepts (LowerM.view o) l g v l' g') :
    Viewed l g o v l' g' := by
  cases o with
  | literal values span =>
      obtain ⟨s, l₁, g₁, hdeclare, hpure⟩ := accepts_bind.mp h
      obtain ⟨rfl, rfl, rfl⟩ := accepts_pure.mp hpure
      obtain ⟨b, hconstant, rfl⟩ := accepts_declare hdeclare
      obtain ⟨hdraft, _, hvalue, _⟩ := constant_cases hconstant
      obtain ⟨_, hmem, _⟩ := pool_of_constant hconstant
      exact ⟨hdraft, widens_of_constant hconstant, .literal hmem hvalue⟩
  | ref name selector neg span =>
      obtain ⟨found, l₁, g₁, hfind, h₁⟩ := accepts_bind.mp h
      obtain ⟨l₂, l₃, g₂, hget, hpure⟩ := accepts_bind.mp hfind
      obtain ⟨rfl, rfl, rfl⟩ := accepts_get.mp hget
      obtain ⟨rfl, rfl, rfl⟩ := accepts_pure.mp hpure
      cases hentry : l₁.entries.find? (·.name == name) with
      | none =>
          simp only [hentry, Option.map_none] at h₁
          exact absurd h₁ not_accepts_complain
      | some e =>
          obtain ⟨he, rfl⟩ := find?_name hentry
          simp only [hentry, Option.map_some] at h₁
          obtain ⟨_, l₄, g₃, hmodify, h₂⟩ := accepts_bind.mp h₁
          obtain ⟨rfl, rfl⟩ := accepts_modify.mp hmodify
          have hwidens : Widens l₁ g₃ { l₁ with used := e.name :: l₁.used } g₃ [] :=
            widens_of_same rfl ⟨rfl, rfl⟩
          by_cases hselector : selector = ""
          · simp only [hselector, if_true] at h₂
            obtain ⟨rfl, rfl, rfl⟩ := accepts_pure.mp h₂
            rw [hselector]
            exact ⟨rfl, hwidens, .whole he⟩
          · simp only [hselector, if_false] at h₂
            split at h₂
            · rename_i idx hidx
              obtain ⟨rfl, rfl, rfl⟩ := accepts_pure.mp h₂
              exact ⟨rfl, hwidens, .picked he hselector hidx⟩
            · exact absurd h₂ not_accepts_complain

theorem viewed_all_of_accepts {os : List Operand} {vs : List View}
    (h : Accepts (os.mapM LowerM.view) l g vs l' g') :
    l'.builder.draft = l.builder.draft ∧ Widens l g l' g' [] ∧
      List.Forall₂ (Denotes l'.dictionary) os vs := by
  induction os generalizing l g vs with
  | nil =>
      rw [List.mapM_nil] at h
      obtain ⟨rfl, rfl, rfl⟩ := accepts_pure.mp h
      exact ⟨rfl, widens_of_same rfl ⟨rfl, rfl⟩, .nil⟩
  | cons o os ih =>
      rw [List.mapM_cons] at h
      obtain ⟨v, l₁, g₁, hv, h₁⟩ := accepts_bind.mp h
      obtain ⟨vs', l₂, g₂, hvs, h₂⟩ := accepts_bind.mp h₁
      obtain ⟨rfl, rfl, rfl⟩ := accepts_pure.mp h₂
      have hviewed := viewed_of_accepts hv
      obtain ⟨hdraft, hwidens, hdenotes⟩ := ih hvs
      exact ⟨hdraft.trans hviewed.draft, hviewed.widens.trans hwidens,
        .cons (hviewed.denotes.extend hwidens.dictionary) hdenotes⟩

/-! ## Declarations -/

theorem accepts_semanticOf {d : DeclStatement} {semantic : Semantic}
    (h : Accepts (LowerM.semanticOf d) l g semantic l' g') : l' = l ∧ g' = g := by
  unfold LowerM.semanticOf at h
  split at h
  · exact (accepts_pure.mp h).2
  · split at h
    · exact (accepts_pure.mp h).2
    · exact absurd h not_accepts_complain

theorem accepts_checkValues {d : DeclStatement} {a : Unit}
    (h : Accepts (LowerM.checkValues d) l g a l' g') : l' = l ∧ g' = g := by
  unfold LowerM.checkValues at h
  split at h
  · split at h
    · exact absurd h not_accepts_complain
    · split at h
      · exact absurd h not_accepts_complain
      · exact (accepts_pure.mp h).2
  · split at h
    · exact absurd h not_accepts_complain
    · exact (accepts_pure.mp h).2

theorem declaration_cases {d : DeclStatement} {a : Unit}
    (h : Accepts (LowerM.declaration d) l g a l' g') :
    ∃ s scalar semantic,
      s = ⟨g.next, d.role, d.size, scalar, semantic, d.name, d.values⟩ ∧
      l.entries.find? (·.name == d.name) = none ∧
      l' = { l with
        builder := { l.builder with program := l.builder.program.declare s },
        entries := l.entries ++ [⟨d.name, s, d.span⟩] } ∧
      g' = ⟨g.next + 1⟩ := by
  unfold LowerM.declaration at h
  obtain ⟨l₁, l₀, g₀, hget, h₁⟩ := accepts_bind.mp h
  obtain ⟨rfl, rfl, rfl⟩ := accepts_get.mp hget
  cases hfind : l₀.entries.find? (·.name == d.name) with
  | some e =>
      simp only [hfind] at h₁
      exact absurd h₁ not_accepts_complain
  | none =>
      simp only [hfind] at h₁
      obtain ⟨semantic, l₂, g₂, hsemantic, h₂⟩ := accepts_bind.mp h₁
      obtain ⟨rfl, rfl⟩ := accepts_semanticOf hsemantic
      obtain ⟨_, l₃, g₃, hvalues, h₃⟩ := accepts_bind.mp h₂
      obtain ⟨rfl, rfl⟩ := accepts_checkValues hvalues
      obtain ⟨s, l₄, g₄, hdeclare, h₄⟩ := accepts_bind.mp h₃
      obtain ⟨b, hb, rfl⟩ := accepts_declare hdeclare
      obtain ⟨rfl, rfl⟩ := accepts_modify.mp h₄
      unfold Builder.declare at hb
      split at hb
      · cases hb
      · rename_i t g₅ hsymbol
        cases hb
        obtain ⟨hs, hg⟩ := Supply.declare_eq_ok hsymbol
        exact ⟨s, _, semantic, hs, rfl, rfl, hg⟩

theorem widens_of_declaration {d : DeclStatement} {a : Unit}
    (h : Accepts (LowerM.declaration d) l g a l' g') : Widens l g l' g' [d] := by
  obtain ⟨s, scalar, semantic, hs, hfind, rfl, rfl⟩ := declaration_cases h
  refine ⟨⟨fun _ he => List.mem_append.mpr (.inl he), fun _ ht => ht⟩, ?_⟩
  intro ds hkept
  have hsupply := hkept.supply
  have hnew : ∀ e ∈ l.entries, e.name ≠ d.name := by
    intro e he heq
    exact absurd (List.find?_eq_none.mp hfind e he) (by simp [heq])
  have hentries : ∀ {P : Entry → Prop}, (∀ e ∈ l.entries, P e) → P ⟨d.name, s, d.span⟩ →
      ∀ e ∈ l.entries ++ [⟨d.name, s, d.span⟩], P e := by
    intro P hold hlast e he
    rcases List.mem_append.mp he with he | he
    · exact hold e he
    · exact List.mem_singleton.mp he ▸ hlast
  have hsolid : s.isHole = false := by
    simp only [hs, Symbol.isHole, decide_eq_false_iff_not]
    omega
  have hlisted : ∀ {P : Entry → Bool}, s ∉ (l.entries.filter P).map Entry.sym := by
    intro P hmem
    obtain ⟨e, he, heq⟩ := List.mem_map.mp hmem
    have hentry := List.mem_of_mem_filter he
    exact hnew e hentry (by rw [← hkept.proper.named e hentry, heq, hs])
  refine ⟨⟨?_, ?_, ?_, hkept.proper.const, hkept.proper.present⟩, Nat.succ_pos _, ?_, ?_, ?_,
    hkept.literals, hkept.collectable.declare hsolid (hkept.inputs ▸ hlisted)
      (hkept.outputs ▸ hlisted)⟩
  · exact hentries hkept.proper.named (by rw [hs])
  · exact hentries hkept.proper.solid hsolid
  · change ((l.entries ++ [_]).map Entry.name).Nodup
    rw [List.map_append, List.nodup_append]
    refine ⟨hkept.proper.names, by simp, ?_⟩
    intro name hname name' hname' heq
    obtain ⟨e, he, rfl⟩ := List.mem_map.mp hname
    exact hnew e he (heq.trans (List.mem_singleton.mp hname'))
  · refine List.rel_append hkept.declared (.cons ⟨rfl, ?_, ?_, ?_⟩ .nil)
    · rw [hs]
    · rw [hs]
    · rw [hs]
  · change (l.builder.program.declare s).inputs = _
    rw [inputs_declare, List.filter_append, List.map_append, ← hkept.inputs]
    by_cases hinput : s.isInput = true
    · simp [hinput]
    · simp [hinput]
  · change (l.builder.program.declare s).outputs = _
    rw [outputs_declare, List.filter_append, List.map_append, ← hkept.outputs]
    by_cases houtput : s.isOutput = true
    · simp [houtput]
    · simp [houtput]

theorem draft_of_declaration {d : DeclStatement} {a : Unit}
    (h : Accepts (LowerM.declaration d) l g a l' g') : l'.builder.draft = l.builder.draft := by
  obtain ⟨s, scalar, semantic, _, _, rfl, _⟩ := declaration_cases h
  simp only [Builder.draft, Builder.graph, Program.graph_declare]

/-! ## Instructions -/

theorem make_cases {op : Op} {dst : View} {srcs : List View} {i : Instruction}
    (h : Instruction.make op dst srcs = .ok i) :
    i.op = op ∧ i.dst = dst ∧ i.src = srcs ∧ i.check = .ok () := by
  unfold Instruction.make at h
  cases hcheck : Instruction.checkOperands op dst srcs with
  | error e =>
      rw [hcheck] at h
      cases h
  | ok _ =>
      rw [hcheck] at h
      cases h
      have hlen : srcs.length = op.arity :=
        (Instruction.check_eq_ok_iff (i := ⟨op, dst, srcs⟩)).mp hcheck |>.2.1
      have hslots : Instruction.slots op srcs = srcs := by
        simp [Instruction.slots, ← hlen]
      refine ⟨rfl, rfl, hslots, ?_⟩
      unfold Instruction.check Instruction.raw
      rw [hslots]
      exact hcheck

theorem instruction_cases {op : Op} {dst : Operand} {srcs : List Operand} {span : Span}
    {a : Unit} (halive : l.builder.draft.ended = false)
    (h : Accepts (LowerM.instruction op dst srcs span) l g a l' g') :
    Widens l g l' g' [] ∧ ∃ i, Encodes l'.dictionary op dst srcs i ∧
      l'.builder.draft = l.builder.draft.append i := by
  cases dst with
  | literal values span => exact absurd h not_accepts_complain
  | ref name selector neg dstSpan =>
      obtain ⟨v, l₁, g₁, hv, h₁⟩ := accepts_bind.mp h
      have hdst := viewed_of_accepts hv
      split at h₁
      · exact absurd h₁ not_accepts_complain
      · rename_i hwritable
        obtain ⟨vs, l₂, g₂, hvs, h₂⟩ := accepts_bind.mp h₁
        obtain ⟨hdraft, hwidens, hsrcs⟩ := viewed_all_of_accepts hvs
        obtain ⟨b, hb, rfl, rfl⟩ := accepts_modifyBuilder.mp h₂
        have hdraft' : l₂.builder.draft = l.builder.draft := hdraft.trans hdst.draft
        have halive' : l₂.builder.ended = false := (congrArg Draft.ended hdraft').trans halive
        obtain ⟨i, hi, hb', hsame⟩ := Builder.emit_cases halive' hb
        obtain ⟨hop, hidst, hisrc, hcheck⟩ := make_cases hi
        have hlast : Widens l₂ g' { l₂ with builder := b } g' [] := widens_of_same rfl hsame
        refine ⟨(hdst.widens.trans hwidens).trans hlast, i, ⟨hop, ?_, ?_, ?_, hcheck⟩, ?_⟩
        · rw [hidst]
          exact (hdst.denotes.extend hwidens.dictionary).extend hlast.dictionary
        · rw [hisrc]
          exact hsrcs.imp fun _ _ ho => ho.extend hlast.dictionary
        · rw [hidst]
          simpa using hwritable
        · rw [hb', hdraft']

theorem kill_cases {src : Operand} {span : Span} {a : Unit}
    (halive : l.builder.draft.ended = false)
    (h : Accepts (LowerM.statement (.kill src span)) l g a l' g') :
    Widens l g l' g' [] ∧ ∃ i, Guards l'.dictionary src i ∧
      l'.builder.draft = l.builder.draft.append i := by
  obtain ⟨v, l₁, g₁, hv, h₁⟩ := accepts_bind.mp h
  have hsrc := viewed_of_accepts hv
  obtain ⟨b, hb, rfl, rfl⟩ := accepts_modifyBuilder.mp h₁
  have halive' : l₁.builder.ended = false := (congrArg Draft.ended hsrc.draft).trans halive
  obtain ⟨i, hi, hb', hsame⟩ := Builder.emit_cases halive' hb
  obtain ⟨hop, _, hisrc, hcheck⟩ := make_cases hi
  have hlast : Widens l₁ g' { l₁ with builder := b } g' [] := widens_of_same rfl hsame
  refine ⟨hsrc.widens.trans hlast, i,
    ⟨hop, ⟨v, hisrc, hsrc.denotes.extend hlast.dictionary⟩, hcheck⟩, ?_⟩
  rw [hb', hsrc.draft]

/-! ## Conditionals and loops -/

theorem opening_cases {cond : Operand} {span : Span} {a : Unit}
    {step : View → Builder → Except BuilderError Builder} (next : Draft → View → Draft)
    (hstep : ∀ {b b' : Builder} {v : View}, b.ended = false → step v b = .ok b' →
      v.check false = .ok () ∧ b'.draft = next b.draft v ∧ Builder.SameSymbols b b')
    (halive : l.builder.draft.ended = false)
    (h : Accepts (do
      let v ← LowerM.view cond
      LowerM.modifyBuilder span (step v)
      LowerM.opening span) l g a l' g') :
    Widens l g l' g' [] ∧ ∃ v, Tests l'.dictionary cond v ∧
      l'.builder.draft = next l.builder.draft v := by
  obtain ⟨v, l₁, g₁, hv, h₁⟩ := accepts_bind.mp h
  have hcond := viewed_of_accepts hv
  obtain ⟨_, l₂, g₂, hmodify, h₂⟩ := accepts_bind.mp h₁
  obtain ⟨b, hb, rfl, rfl⟩ := accepts_modifyBuilder.mp hmodify
  obtain ⟨rfl, rfl⟩ := accepts_modify.mp h₂
  have halive' : l₁.builder.ended = false := (congrArg Draft.ended hcond.draft).trans halive
  obtain ⟨hcheck, hb', hsame⟩ := hstep halive' hb
  have hlast : Widens l₁ g' { l₁ with builder := b, opened := span :: l₁.opened } g' [] :=
    widens_of_same rfl hsame
  refine ⟨hcond.widens.trans hlast, v, ⟨hcond.denotes.extend hlast.dictionary, hcheck⟩, ?_⟩
  change b.draft = _
  rw [hb', hcond.draft]

theorem closing_cases {span : Span} {a : Unit} {step : Builder → Except BuilderError Builder}
    (h : Accepts (do
      LowerM.modifyBuilder span step
      LowerM.closing) l g a l' g') :
    ∃ b, step l.builder = .ok b ∧ l' = { l with builder := b, opened := l.opened.drop 1 } ∧
      g' = g := by
  obtain ⟨_, l₁, g₁, hmodify, h₁⟩ := accepts_bind.mp h
  obtain ⟨b, hb, rfl, rfl⟩ := accepts_modifyBuilder.mp hmodify
  obtain ⟨rfl, rfl⟩ := accepts_modify.mp h₁
  exact ⟨b, hb, rfl, rfl⟩

/-! ## All statements -/

inductive Advances (b b' : Draft) (d : Dictionary) : Statement → Prop
  | decl {decl : DeclStatement} : b' = b → Advances b b' d (.decl decl)
  | instr {op : Op} {dst : Operand} {srcs : List Operand} {span : Span} {i : Instruction} :
      Encodes d op dst srcs i → b' = b.append i → Advances b b' d (.instr op dst srcs span)
  | kill {src : Operand} {span : Span} {i : Instruction} :
      Guards d src i → b' = b.append i → Advances b b' d (.kill src span)
  | openIf {cond : Operand} {span : Span} {v : View} :
      Tests d cond v → b' = b.openIf v → Advances b b' d (.openIf cond span)
  | openElse {span : Span} {head join : Nat} {outer : List Frame} :
      b.frames = ⟨.conditional, head, join⟩ :: outer → b' = b.openElse head join outer →
      Advances b b' d (.openElse span)
  | closeIf {span : Span} {f : Frame} {outer : List Frame} :
      b.frames = f :: outer → f.kind ≠ .loop → b' = b.close f.join f.join outer →
      Advances b b' d (.closeIf span)
  | openWhile {cond : Operand} {span : Span} {v : View} :
      Tests d cond v → b' = b.openWhile v → Advances b b' d (.openWhile cond span)
  | closeWhile {span : Span} {head join : Nat} {outer : List Frame} :
      b.frames = ⟨.loop, head, join⟩ :: outer → b' = b.close head join outer →
      Advances b b' d (.closeWhile span)

theorem advances_of_accepts {s : Statement} {a : Unit}
    (halive : l.builder.draft.ended = false)
    (h : Accepts (LowerM.statement s) l g a l' g') :
    Advances l.builder.draft l'.builder.draft l'.dictionary s ∧
      Widens l g l' g' (declarations [s]) := by
  cases s with
  | decl d => exact ⟨.decl (draft_of_declaration h), widens_of_declaration h⟩
  | instr op dst srcs span =>
      obtain ⟨hwidens, i, hi, hdraft⟩ := instruction_cases halive h
      exact ⟨.instr hi hdraft, hwidens⟩
  | kill src span =>
      obtain ⟨hwidens, i, hi, hdraft⟩ := kill_cases halive h
      exact ⟨.kill hi hdraft, hwidens⟩
  | openIf cond span =>
      obtain ⟨hwidens, v, hv, hdraft⟩ := opening_cases Draft.openIf
        (fun hb hopen => Builder.openIf_cases hb hopen) halive h
      exact ⟨.openIf hv hdraft, hwidens⟩
  | openElse span =>
      obtain ⟨b, hb, rfl, rfl⟩ := accepts_modifyBuilder.mp h
      obtain ⟨head, join, outer, hframes, hdraft, hsame⟩ := Builder.openElse_cases halive hb
      exact ⟨.openElse hframes hdraft, widens_of_same rfl hsame⟩
  | closeIf span =>
      obtain ⟨b, hb, rfl, rfl⟩ := closing_cases h
      obtain ⟨f, outer, hframes, hkind, hdraft, hsame⟩ := Builder.closeIf_cases halive hb
      exact ⟨.closeIf hframes hkind hdraft, widens_of_same rfl hsame⟩
  | openWhile cond span =>
      obtain ⟨hwidens, v, hv, hdraft⟩ := opening_cases Draft.openWhile
        (fun hb hopen => Builder.openWhile_cases hb hopen) halive h
      exact ⟨.openWhile hv hdraft, hwidens⟩
  | closeWhile span =>
      obtain ⟨b, hb, rfl, rfl⟩ := closing_cases h
      obtain ⟨head, join, outer, hframes, hdraft, hsame⟩ := Builder.closeWhile_cases halive hb
      exact ⟨.closeWhile hframes hdraft, widens_of_same rfl hsame⟩

end Widens

end KernelAlgebra.Assembly
