import KernelAlgebra.Proofs.Graph.Reachability
import KernelAlgebra.Validation

/-!
# What it means that validation finds nothing

A program has no issues exactly when its lists are orderly, its graph is sound, and the code of
every reachable node fits the declared symbols.
-/

namespace KernelAlgebra

/-- A list without holes and repeats whose symbols have one of these roles. -/
structure RoleList (roles : List Role) (list : List Symbol) : Prop where
  nodup : list.Nodup
  role : ∀ s ∈ list, s.role ∈ roles
  solid : ∀ s ∈ list, s.isHole = false

structure Interface.Orderly (l : Interface) : Prop where
  inputs : RoleList [.input, .inout] l.inputs
  outputs : RoleList [.output, .inout] l.outputs
  temps : RoleList [.temp, .input, .output, .inout] l.temps
  constants : RoleList [.const] l.constants
  uniforms : RoleList [.uniform] l.uniforms
  textures : RoleList [.texture, .stream] l.textures
  inout_output : ∀ s ∈ l.inputs, s.isInOut = true → s ∈ l.outputs
  inout_input : ∀ s ∈ l.outputs, s.isInOut = true → s ∈ l.inputs
  temps_apart : ∀ s ∈ l.temps, s ∉ l.inputs ∧ s ∉ l.outputs

/-- Edges stay in the arena, and every reachable node but the exit leads on. -/
structure Graph.Sound (g : Graph) : Prop where
  entry_lt : g.entry < g.size
  exit_lt : g.exit < g.size
  closed : ∀ id n, g.node? id = some n → ∀ s ∈ n.successors, s < g.size
  exit_final : ∀ n, g.node? g.exit = some n → n.successors = []
  follower : ∀ id n, g.Reaches id → g.node? id = some n → id ≠ g.exit → n.follower.isSome
  exit_reached : g.Reaches g.exit

/-- The operands fit the opcode and are declared, and nothing read-only is written. -/
structure Instruction.Fits (declared : List Symbol) (i : Instruction) : Prop where
  checked : i.check = .ok ()
  uses : ∀ s ∈ i.uses, s ∈ declared
  defines : ∀ s, i.defines = some s → s ∈ declared ∧ s.isLocal = true

structure Branch.Fits (declared : List Symbol) (b : Branch) : Prop where
  present : b.cond.isAbsent = false
  checked : b.cond.check false = .ok ()
  declared : b.cond.sym ∈ declared

structure Node.Fits (declared : List Symbol) (n : Node) : Prop where
  block : ∀ i ∈ n.block, i.Fits declared
  branches : ∀ b ∈ n.branches, b.Fits declared

def Graph.Fits (declared : List Symbol) (g : Graph) : Prop :=
  ∀ id n, g.Reaches id → g.node? id = some n → n.Fits declared

structure Program.Valid (p : Program) : Prop where
  orderly : p.toInterface.Orderly
  sound : p.graph.Sound
  fits : p.graph.Fits p.symbols

theorem Instruction.Fits.mono {declared declared' : List Symbol} {i : Instruction}
    (h : i.Fits declared) (hsub : ∀ s ∈ declared, s ∈ declared') : i.Fits declared' :=
  ⟨h.checked, fun s hs => hsub s (h.uses s hs),
    fun s hs => ⟨hsub s (h.defines s hs).1, (h.defines s hs).2⟩⟩

theorem Graph.Fits.mono {declared declared' : List Symbol} {g : Graph} (h : g.Fits declared)
    (hsub : ∀ s ∈ declared, s ∈ declared') : g.Fits declared' := by
  intro id n hreach hn
  obtain ⟨hblock, hbranches⟩ := h id n hreach hn
  constructor
  · exact fun i hi => (hblock i hi).mono hsub
  · intro b hb
    have hfits := hbranches b hb
    exact ⟨hfits.present, hfits.checked, hsub _ hfits.declared⟩

theorem Graph.Reaches.of_mem_successors {g : Graph} {id : Nat} {n : Node} (hsound : g.Sound)
    (hreach : g.Reaches id) (hn : g.node? id = some n) {x : Nat} (hx : x ∈ n.successors) :
    g.Reaches x :=
  hreach.successor hn hx (hsound.closed id n hn x hx)

theorem Graph.Sound.of_sameShape {g g' : Graph} (h : g.Sound) (hshape : SameShape g g') :
    g'.Sound where
  entry_lt := by rw [hshape.entry, hshape.size]; exact h.entry_lt
  exit_lt := by rw [hshape.exit, hshape.size]; exact h.exit_lt
  closed := by
    intro id n' hn' s hs
    obtain ⟨n, hn, hsuccessors, _⟩ := hshape.node_back hn'
    rw [hshape.size]
    exact h.closed id n hn s (hsuccessors ▸ hs)
  exit_final := by
    intro n' hn'
    obtain ⟨n, hn, hsuccessors, _⟩ := hshape.node_back hn'
    rw [hsuccessors]
    exact h.exit_final n (hshape.exit ▸ hn)
  follower := by
    intro id n' hreach hn' hexit
    obtain ⟨n, hn, _, hfollower⟩ := hshape.node_back hn'
    rw [hfollower]
    exact h.follower id n (hshape.reaches_iff.mp hreach) hn (hshape.exit ▸ hexit)
  exit_reached := by
    rw [hshape.exit]
    exact hshape.reaches_iff.mpr h.exit_reached

/-! ## Orderly lists -/

theorem RoleList.isLocal {roles : List Role} {list : List Symbol} (h : RoleList roles list)
    {b : Bool} (hroles : ∀ r ∈ roles, r.isLocal = b) {s : Symbol} (hs : s ∈ list) :
    s.isLocal = b :=
  hroles s.role (h.role s hs)

theorem RoleList.append {roles : List Role} {xs ys : List Symbol} (hxs : RoleList roles xs)
    (hys : RoleList roles ys) (hapart : ∀ s ∈ ys, s ∉ xs) : RoleList roles (xs ++ ys) where
  nodup := List.nodup_append.mpr
    ⟨hxs.nodup, hys.nodup, fun s hs t ht heq => hapart t ht (heq ▸ hs)⟩
  role := by
    intro s hs
    rcases List.mem_append.mp hs with hs | hs
    · exact hxs.role s hs
    · exact hys.role s hs
  solid := by
    intro s hs
    rcases List.mem_append.mp hs with hs | hs
    · exact hxs.solid s hs
    · exact hys.solid s hs

theorem roleList_singleton {roles : List Role} {s : Symbol} (hrole : s.role ∈ roles)
    (hsolid : s.isHole = false) : RoleList roles [s] :=
  ⟨by simp, by simpa using hrole, by simpa using hsolid⟩

theorem roleList_cons_iff {roles : List Role} {s : Symbol} {rest : List Symbol} :
    RoleList roles (s :: rest) ↔
      s.isHole = false ∧ s.role ∈ roles ∧ s ∉ rest ∧ RoleList roles rest := by
  constructor
  · intro h
    obtain ⟨hs, hnodup⟩ := List.nodup_cons.mp h.nodup
    exact ⟨h.solid s List.mem_cons_self, h.role s List.mem_cons_self, hs, hnodup,
      fun t ht => h.role t (List.mem_cons_of_mem _ ht),
      fun t ht => h.solid t (List.mem_cons_of_mem _ ht)⟩
  · rintro ⟨hsolid, hrole, hs, hrest⟩
    refine (roleList_singleton hrole hsolid).append hrest ?_
    intro t ht hmem
    exact hs (List.mem_singleton.mp hmem ▸ ht)

namespace Interface

theorem mem_symbols {i : Interface} {s : Symbol} :
    s ∈ i.symbols ↔ s ∈ i.inputs ∨ s ∈ i.outputs ∨ s ∈ i.temps ∨ s ∈ i.constants ∨
      s ∈ i.uniforms ∨ s ∈ i.textures := by
  simp [symbols]

theorem mem_locals {i : Interface} {s : Symbol} :
    s ∈ i.locals ↔ s ∈ i.inputs ∨ s ∈ i.outputs ∨ s ∈ i.temps := by
  simp [locals, mem_dedup]

theorem mem_symbols_of_mem_locals {i : Interface} {s : Symbol} (h : s ∈ i.locals) :
    s ∈ i.symbols := by
  rw [mem_symbols]
  rcases mem_locals.mp h with h | h | h
  · exact .inl h
  · exact .inr (.inl h)
  · exact .inr (.inr (.inl h))

theorem Orderly.isLocal_of_mem_locals {i : Interface} (h : i.Orderly) {s : Symbol}
    (hs : s ∈ i.locals) : s.isLocal = true := by
  rcases mem_locals.mp hs with hs | hs | hs
  · exact h.inputs.isLocal (by decide) hs
  · exact h.outputs.isLocal (by decide) hs
  · exact h.temps.isLocal (by decide) hs

theorem Orderly.isLocal_of_mem_shared {i : Interface} (h : i.Orderly) {s : Symbol}
    (hs : s ∈ i.constants ∨ s ∈ i.uniforms ∨ s ∈ i.textures) : s.isLocal = false := by
  rcases hs with hs | hs | hs
  · exact h.constants.isLocal (by decide) hs
  · exact h.uniforms.isLocal (by decide) hs
  · exact h.textures.isLocal (by decide) hs

theorem Orderly.mem_locals_iff {i : Interface} (h : i.Orderly) {s : Symbol}
    (hs : s ∈ i.symbols) : s ∈ i.locals ↔ s.isLocal = true := by
  constructor
  · exact h.isLocal_of_mem_locals
  · intro hlocal
    rw [mem_locals]
    rcases mem_symbols.mp hs with hs | hs | hs | hs
    · exact .inl hs
    · exact .inr (.inl hs)
    · exact .inr (.inr hs)
    · rw [h.isLocal_of_mem_shared hs] at hlocal
      cases hlocal

theorem Orderly.solid {i : Interface} (h : i.Orderly) {s : Symbol} (hs : s ∈ i.symbols) :
    s.isHole = false := by
  rcases mem_symbols.mp hs with hs | hs | hs | hs | hs | hs
  · exact h.inputs.solid s hs
  · exact h.outputs.solid s hs
  · exact h.temps.solid s hs
  · exact h.constants.solid s hs
  · exact h.uniforms.solid s hs
  · exact h.textures.solid s hs

end Interface

/-! ## What the checks find -/

namespace Validation

/-! ## Lists -/

theorem listIssues_eq_nil_iff {name : String} {roles : List Role} {seen list : List Symbol}
    {i : Nat} :
    listIssues name roles seen i list = [] ↔
      RoleList roles list ∧ ∀ s ∈ list, s ∉ seen := by
  induction list generalizing seen i with
  | nil =>
      simp only [listIssues, List.not_mem_nil, true_iff]
      exact ⟨⟨by simp, by simp, by simp⟩, by simp⟩
  | cons s rest ih =>
      rw [listIssues, roleList_cons_iff, List.forall_mem_cons]
      split
      · rename_i hhole
        simp [hhole]
      · rename_i hhole
        split
        · rename_i hseen
          simp [hseen]
        · rename_i hseen
          have hrole : (if s.role ∈ roles then [] else [general (.wrongRole name i s)]) = [] ↔
              s.role ∈ roles := by
            split <;> simp_all
          have hapart : (∀ t ∈ rest, t ∉ s :: seen) ↔ s ∉ rest ∧ ∀ t ∈ rest, t ∉ seen := by
            simp only [List.mem_cons, not_or, forall_and]
            exact and_congr_left fun _ => ⟨fun h hs => h s hs rfl, fun h t ht heq => h (heq ▸ ht)⟩
          rw [List.append_eq_nil_iff, ih, hrole, hapart]
          simp only [hhole, hseen, not_false_eq_true, true_and]
          tauto

theorem inoutIssues_eq_nil_iff {make : Symbol → Violation} {here there : List Symbol}
    (hsolid : ∀ s ∈ here, s.isHole = false) :
    inoutIssues make here there = [] ↔ ∀ s ∈ here, s.isInOut = true → s ∈ there := by
  simp only [inoutIssues, List.map_eq_nil_iff, List.filter_eq_nil_iff]
  constructor
  · intro h s hs hinout
    have := h s hs
    simpa [hsolid s hs, hinout] using this
  · intro h s hs hbad
    simp only [Bool.and_eq_true, Bool.not_eq_true', List.contains_eq_mem,
      decide_eq_false_iff_not] at hbad
    exact hbad.2 (h s hs hbad.1.2)

theorem tempIssues_eq_nil_iff {l : Interface} :
    tempIssues l = [] ↔ ∀ s ∈ l.temps, s ∉ l.inputs ∧ s ∉ l.outputs := by
  simp [tempIssues, List.filter_eq_nil_iff]

theorem interfaceIssues_eq_nil_iff {l : Interface} :
    interfaceIssues l = [] ↔ l.Orderly := by
  simp only [interfaceIssues, List.append_eq_nil_iff, listIssues_eq_nil_iff,
    List.not_mem_nil, not_false_eq_true, implies_true, and_true, tempIssues_eq_nil_iff]
  constructor
  · rintro ⟨⟨⟨⟨⟨⟨⟨⟨hin, hout⟩, htemp⟩, hconst⟩, huni⟩, htex⟩, hio⟩, hoi⟩, hapart⟩
    exact ⟨hin, hout, htemp, hconst, huni, htex, (inoutIssues_eq_nil_iff hin.solid).mp hio,
      (inoutIssues_eq_nil_iff hout.solid).mp hoi, hapart⟩
  · intro h
    exact ⟨⟨⟨⟨⟨⟨⟨⟨h.inputs, h.outputs⟩, h.temps⟩, h.constants⟩, h.uniforms⟩, h.textures⟩,
      (inoutIssues_eq_nil_iff h.inputs.solid).mpr h.inout_output⟩,
      (inoutIssues_eq_nil_iff h.outputs.solid).mpr h.inout_input⟩, h.temps_apart⟩

/-! ## The graph -/

theorem edgeIssues_eq_nil_iff {count id : Nat} {n : Node} :
    edgeIssues count id n = [] ↔ ∀ s ∈ n.successors, s < count := by
  have hbranches :
      (n.branches.zipIdx.filterMap fun q =>
        if count ≤ q.1.target then some (atNode id (.targetOutside q.2 q.1.target)) else none) = [] ↔
      ∀ b ∈ n.branches, b.target < count := by
    simp only [List.filterMap_eq_nil_iff, ite_eq_right_iff, reduceCtorEq, imp_false, Nat.not_le]
    constructor
    · intro h b hb
      obtain ⟨j, hj⟩ := List.getElem?_of_mem hb
      exact h (b, j) (List.mk_mem_zipIdx_iff_getElem?.mpr hj)
    · rintro h ⟨b, j⟩ hq
      exact h b (List.mem_of_getElem? (List.mk_mem_zipIdx_iff_getElem?.mp hq))
  unfold edgeIssues Node.successors
  rw [List.append_eq_nil_iff, hbranches]
  cases n.follower with
  | none => simp
  | some f =>
      simp only [ite_eq_right_iff, List.cons_ne_nil, imp_false, Nat.not_le, Option.toList_some,
        List.mem_append, List.mem_map, List.mem_singleton]
      constructor
      · rintro ⟨hf, hb⟩ s (⟨b, hmem, rfl⟩ | rfl)
        · exact hb b hmem
        · exact hf
      · intro h
        exact ⟨h f (.inr rfl), fun b hb => h _ (.inl ⟨b, hb, rfl⟩)⟩

theorem arenaIssues_eq_nil_iff {g : Graph} :
    arenaIssues g = [] ↔ g.entry < g.size ∧ g.exit < g.size ∧
      ∀ id n, g.node? id = some n → ∀ s ∈ n.successors, s < g.size := by
  unfold arenaIssues
  split
  · rename_i h
    simp only [List.cons_ne_nil, false_iff, not_and]
    omega
  · split
    · rename_i h
      simp only [List.cons_ne_nil, false_iff, not_and]
      omega
    · rename_i hentry hexit
      simp only [List.flatMap_eq_nil_iff, edgeIssues_eq_nil_iff]
      constructor
      · intro h
        refine ⟨by omega, by omega, ?_⟩
        intro id n hn
        exact h (n, id) (List.mk_mem_zipIdx_iff_getElem?.mpr hn)
      · rintro ⟨_, _, h⟩ ⟨n, id⟩ hq
        exact h id n (List.mk_mem_zipIdx_iff_getElem?.mp hq)

theorem flowIssues_eq_nil_iff {g : Graph} :
    flowIssues g = [] ↔
      (∀ n, g.node? g.exit = some n → n.successors = []) ∧
      (∀ id n, g.Reaches id → g.node? id = some n → id ≠ g.exit → n.follower.isSome) ∧
      g.Reaches g.exit := by
  have hfollower :
      (g.reachableNodes.filterMap fun q =>
        if q.1 ≠ g.exit && q.2.follower.isNone then some (atNode q.1 .noFollower) else none) = [] ↔
      ∀ id n, g.Reaches id → g.node? id = some n → id ≠ g.exit → n.follower.isSome := by
    simp only [List.filterMap_eq_nil_iff, Prod.forall, Graph.mem_reachableNodes]
    constructor
    · intro h id n hreach hn hexit
      have := h id n ⟨hreach, hn⟩
      simpa [hexit, Option.isSome_iff_ne_none] using this
    · rintro h id n ⟨hreach, hn⟩
      by_cases hexit : id = g.exit
      · simp [hexit]
      · have := h id n hreach hn hexit
        simp [hexit, Option.isSome_iff_ne_none.mp this]
  have hreached : (if g.exit ∈ g.reachable then [] else [general .exitUnreachable]) = [] ↔
      g.Reaches g.exit := by
    simp [Graph.mem_reachable]
  unfold flowIssues
  rw [List.append_eq_nil_iff, List.append_eq_nil_iff, hfollower, hreached, and_assoc]
  refine and_congr ?_ Iff.rfl
  cases g.node? g.exit with
  | none => simp
  | some n => simp

/-! ## The code -/

theorem undeclaredIssue_eq_nil_iff {declared : List Symbol} {place : Violation → Issue}
    {s : Symbol} : undeclaredIssue declared place s = [] ↔ s ∈ declared := by
  simp [undeclaredIssue]

theorem instructionIssues_eq_nil_iff {declared : List Symbol} {id index : Nat}
    {i : Instruction} : instructionIssues declared id index i = [] ↔ i.Fits declared := by
  unfold instructionIssues
  cases hcheck : i.check with
  | error e =>
      simp only [List.cons_ne_nil, false_iff]
      intro h
      simp [h.checked] at hcheck
  | ok v =>
      simp only [List.append_eq_nil_iff, List.flatMap_eq_nil_iff, undeclaredIssue_eq_nil_iff]
      cases hdefines : i.defines with
      | none =>
          simp only [true_and]
          exact ⟨fun h => ⟨hcheck, h, by simp [hdefines]⟩, fun h => h.uses⟩
      | some s =>
          simp only [List.append_eq_nil_iff, undeclaredIssue_eq_nil_iff, ite_eq_right_iff,
            List.cons_ne_nil, imp_false, Role.isReadOnly, Bool.not_eq_true', Bool.not_eq_false]
          constructor
          · rintro ⟨⟨hs, hlocal⟩, huses⟩
            refine ⟨hcheck, huses, ?_⟩
            intro t ht
            cases hdefines.symm.trans ht
            exact ⟨hs, hlocal⟩
          · intro h
            exact ⟨h.defines s hdefines, h.uses⟩

theorem branchIssues_eq_nil_iff {declared : List Symbol} {id index : Nat} {b : Branch} :
    branchIssues declared id index b = [] ↔ b.Fits declared := by
  unfold branchIssues
  split
  · rename_i habsent
    simp only [List.cons_ne_nil, false_iff]
    intro h
    simp [h.present] at habsent
  · rename_i hpresent
    rw [List.append_eq_nil_iff, undeclaredIssue_eq_nil_iff]
    cases hcheck : b.cond.check false with
    | error e =>
        simp only [List.cons_ne_nil, false_and, false_iff]
        intro h
        simp [h.checked] at hcheck
    | ok v =>
        simp only [true_and]
        exact ⟨fun h => ⟨by simpa using hpresent, hcheck, h⟩, fun h => h.declared⟩

theorem flatMap_zipIdx_eq_nil_iff {α β : Type} {list : List α} {f : α × Nat → List β}
    {P : α → Prop} (h : ∀ a i, f (a, i) = [] ↔ P a) :
    list.zipIdx.flatMap f = [] ↔ ∀ a ∈ list, P a := by
  simp only [List.flatMap_eq_nil_iff, Prod.forall, h]
  constructor
  · intro hall a ha
    obtain ⟨i, hi⟩ := List.getElem?_of_mem ha
    exact hall a i (List.mk_mem_zipIdx_iff_getElem?.mpr hi)
  · intro hall a i hq
    exact hall a (List.mem_of_getElem? (List.mk_mem_zipIdx_iff_getElem?.mp hq))

theorem nodeIssues_eq_nil_iff {declared : List Symbol} {id : Nat} {n : Node} :
    nodeIssues declared id n = [] ↔ n.Fits declared := by
  unfold nodeIssues
  rw [List.append_eq_nil_iff,
    flatMap_zipIdx_eq_nil_iff (fun _ _ => instructionIssues_eq_nil_iff),
    flatMap_zipIdx_eq_nil_iff (fun _ _ => branchIssues_eq_nil_iff)]
  exact ⟨fun h => ⟨h.1, h.2⟩, fun h => ⟨h.block, h.branches⟩⟩

theorem codeIssues_eq_nil_iff {declared : List Symbol} {g : Graph} :
    codeIssues declared g = [] ↔ g.Fits declared := by
  simp only [codeIssues, List.flatMap_eq_nil_iff, Prod.forall, Graph.mem_reachableNodes,
    nodeIssues_eq_nil_iff, and_imp]
  exact Iff.rfl

end Validation

theorem Program.issues_eq_nil_iff {p : Program} : p.issues = [] ↔ p.Valid := by
  have hparts : p.issues = [] ↔
      Validation.interfaceIssues p.toInterface = [] ∧ Validation.arenaIssues p.graph = [] ∧
        Validation.flowIssues p.graph = [] ∧ Validation.codeIssues p.symbols p.graph = [] := by
    unfold Program.issues
    rw [List.append_eq_nil_iff]
    cases Validation.arenaIssues p.graph with
    | nil => simp
    | cons i rest => simp
  rw [hparts, Validation.interfaceIssues_eq_nil_iff, Validation.arenaIssues_eq_nil_iff,
    Validation.flowIssues_eq_nil_iff, Validation.codeIssues_eq_nil_iff]
  constructor
  · rintro ⟨horderly, ⟨hentry, hexit, hclosed⟩, ⟨hfinal, hfollower, hreached⟩, hfits⟩
    exact ⟨horderly, ⟨hentry, hexit, hclosed, hfinal, hfollower, hreached⟩, hfits⟩
  · rintro ⟨horderly, hsound, hfits⟩
    exact ⟨horderly, ⟨hsound.entry_lt, hsound.exit_lt, hsound.closed⟩,
      ⟨hsound.exit_final, hsound.follower, hsound.exit_reached⟩, hfits⟩

end KernelAlgebra
