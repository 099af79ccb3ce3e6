import KernelAlgebra.Proofs.Compose.Behaviour
import KernelAlgebra.Proofs.Machine.Start
import KernelAlgebra.Proofs.Splice.Graph

/-!
# A program in the place of an instruction

The reference of a splice is a run of the old graph that calls a program where it meets the
instruction.  Where the code that was put in does what such a call does, the edited graph follows
the reference: with the same store up to the call, and from there on with a store that agrees on
the symbols of the old program.
-/

namespace KernelAlgebra

/-- One edge or more leads from a node to another one. -/
def Graph.Leads (g : Graph) : Nat → Nat → Prop :=
  Relation.TransGen fun x y => y ∈ g.targets x

namespace Machine

variable {u : Overrides}

/-! ## The reference -/

/--
A program stands for an instruction: it runs on the numbers of the sources, and its first output
goes through the destination, if there is one.
-/
inductive StandsFor (repl : Program) (u : Overrides) (i : Instruction) (st : Store) : Store → Prop
  | silent {values outputs : List (List Float)} :
      i.dst.isAbsent = true → readAll u st i.src = some values → Gives repl u values outputs →
      StandsFor repl u i st st
  | stored {values rest : List (List Float)} {first : List Float} {st' : Store} :
      readAll u st i.src = some values → Gives repl u values (first :: rest) →
      write u st i.dst first = some st' → StandsFor repl u i st st'

/--
A run to the exit that calls a program at one place.  The place is a node and what is left of
its block there.
-/
inductive Detour (g : Graph) (u : Overrides) (repl : Program) (id : Nat) (here : Block) :
    Point → Store → Prop
  | exit {st : Store} : Detour g u repl id here ⟨g.exit, [], st⟩ st
  | call {i : Instruction} {rest : Block} {st st' fin : Store} :
      i :: rest = here → StandsFor repl u i st st' →
      Detour g u repl id here ⟨id, rest, st'⟩ fin → Detour g u repl id here ⟨id, i :: rest, st⟩ fin
  | instruction {x : Nat} {i : Instruction} {rest : Block} {st st' fin : Store} :
      ¬ (x = id ∧ i :: rest = here) → exec u st i = .ok ⟨st', false⟩ →
      Detour g u repl id here ⟨x, rest, st'⟩ fin → Detour g u repl id here ⟨x, i :: rest, st⟩ fin
  | edge {x target : Nat} {m k : Node} {st fin : Store} :
      g.node? x = some m → x ≠ g.exit →
      next u st g.size x m.follower m.branches = .ok target → g.node? target = some k →
      Detour g u repl id here ⟨target, k.block, st⟩ fin → Detour g u repl id here ⟨x, [], st⟩ fin

/-- What a program gives when another one stands for its instruction `index` of node `id`. -/
def GivesWith (p repl : Program) (id index : Nat) (u : Overrides) : Behaviour :=
  fun inputs outputs => ∃ n m st fin, p.graph.node? id = some n ∧
    p.graph.node? p.graph.entry = some m ∧ start p.toInterface inputs = .ok st ∧
    Detour p.graph u repl id (n.block.drop index) ⟨p.graph.entry, m.block, st⟩ fin ∧
    outputs = p.outputs.map (fin.get u)

/-! ## Stores of a program -/

/-- Vectors have their lengths, and nothing was written but local symbols of the list. -/
structure Store.Confined (u : Overrides) (declared : List Symbol) (st : Store) : Prop where
  sized : st.Sized u
  kept : ∀ s, ¬ (s ∈ declared ∧ s.isLocal = true) → st.get u s = startValue u s

theorem Store.Confined.exec {declared : List Symbol} {st st' : Store} {i : Instruction}
    {killed : Bool} (h : st.Confined u declared) (hfits : i.Fits declared)
    (hexec : Machine.exec u st i = .ok ⟨st', killed⟩) : st'.Confined u declared where
  sized := sized_exec h.sized hexec
  kept := by
    intro s hs
    rw [get_exec_of_ne hexec fun hdefines => hs (hfits.defines s hdefines), h.kept s hs]

theorem confined_start {p : Program} (hp : p.Valid) {inputs : List (List Float)} {st : Store}
    (h : start p.toInterface inputs = .ok st) : st.Confined u p.symbols where
  sized := sized_start h
  kept := by
    intro s hs
    refine get_start_of_not_mem h fun hmem => hs ⟨Interface.mem_symbols.mpr (.inl hmem), ?_⟩
    exact hp.orderly.inputs.isLocal (by decide) hmem

/-- The code does what a call of the program does, as far as the listed symbols tell. -/
def ActsFor (code : Graph) (repl : Program) (u : Overrides) (i : Instruction)
    (declared : List Symbol) : Prop :=
  ∀ st st', st.Confined u declared → StandsFor repl u i st st' →
    ∃ fin, Computes code u st fin false ∧ Agree u (· ∈ declared) (fun s => s) st' fin

/-! ## The edited graph follows the reference -/

end Machine

theorem Instruction.Fits.mirrors_self {declared : List Symbol} {i : Instruction}
    (h : i.Fits declared) :
    Machine.Mirrors (· ∈ declared) (fun s => s ∈ declared ∧ s.isLocal = true) (fun s => s) i i :=
  ⟨⟨rfl, .id _, fun v => v, by simp, fun v _ => .id v⟩, h.uses,
    fun s hs => ⟨(h.defines s hs).1, h.defines s hs⟩⟩

namespace Graph.Spliced

open Machine

variable {g g' code : Graph} {id index : Nat} {n : Node} {u : Overrides} {repl : Program}
  {declared : List Symbol}

theorem front_ne_exit (h : Spliced id index n code g g') : id ≠ g'.exit := by
  have hlt := lt_of_node? h.node
  rw [h.exit]
  split <;> omega

theorem place_ne_exit (h : Spliced id index n code g g') (hg : g.Sound) (x : Nat) :
    g.place x ≠ g'.exit := by
  have := hg.exit_lt
  rw [h.exit, place]
  split <;> omega

theorem hosts (h : Spliced id index n code g g') (hg : g.Sound) : Hosts g.place code g' [] where
  inner := fun x m _ hm hexit => ⟨h.inner x m hm hexit, h.place_ne_exit hg x⟩
  last := fun m hm => ⟨_, h.last m hm, by simp [Node.straight]⟩

theorem path_code (h : Spliced id index n code g g') (hg : g.Sound) (hcode : code.Sound)
    {st fin : Store} (hcomputes : Computes code u st fin false) :
    ∃ k, Path g' u k ⟨id, [], st⟩ ⟨g.size, n.block.drop (index + 1), fin⟩ := by
  have hhosts := h.hosts hg
  obtain ⟨m, hm⟩ := (Reaches.entry hcode.entry_lt).node
  obtain ⟨m', hm', _⟩ := hhosts.block (.entry hcode.entry_lt) hm
  obtain ⟨k, hpath⟩ := hhosts.path hcode hm' hcomputes
  obtain ⟨x, hx⟩ := hcode.exit_reached.node
  have hleave : Path g' u 1 ⟨g.place code.exit, [], fin⟩ ⟨g.size, n.block.drop (index + 1), fin⟩ :=
    .edge (h.last x hx) (h.place_ne_exit hg _) rfl h.back (.done _)
  exact ⟨_, .edge h.front h.front_ne_exit rfl hm' (hpath.trans hleave)⟩

theorem next_of_lt (h : Spliced id index n code g g') (hg : g.Sound) {x x' target : Nat}
    {m : Node} {st st' : Store} (hm : g.node? x = some m)
    (hread : ∀ b ∈ m.branches, read u st b.cond = read u st' b.cond)
    (hnext : next u st g.size x m.follower m.branches = .ok target) :
    next u st' g'.size x' m.follower m.branches = .ok target :=
  next_congr hread
    (fun b hb => h.lt_size (hg.closed x m hm b.target (target_mem_successors hb))) hnext

/-! ### Past the instruction -/

def resumed (g : Graph) (id x : Nat) : Nat := if x = id then g.size else x

theorem resumed_exit (h : Spliced id index n code g g') : resumed g id g.exit = g'.exit := by
  rw [h.exit, resumed]
  by_cases hexit : id = g.exit <;> simp [hexit, Ne.symm]

theorem resumed_ne_exit (h : Spliced id index n code g g') (hg : g.Sound) {x : Nat}
    (hx : x < g.size) (hne : x ≠ g.exit) : resumed g id x ≠ g'.exit := by
  have := hg.exit_lt
  rw [h.exit, resumed]
  split <;> split <;> omega

theorem node?_resumed (h : Spliced id index n code g g') {x : Nat} {m : Node}
    (hm : g.node? x = some m) :
    ∃ block, g'.node? (resumed g id x) = some { m with block := block } := by
  by_cases hid : x = id
  · subst hid
    cases hm.symm.trans h.node
    simp only [resumed, if_true]
    exact ⟨_, h.back⟩
  · simp only [resumed, if_neg hid]
    exact ⟨m.block, (h.other x (lt_of_node? hm) hid).trans hm⟩

/-- A point behind the instruction, from where no run comes back to it. -/
structure Past (g : Graph) (id : Nat) (here : Block) (declared : List Symbol) (c : Point) :
    Prop where
  reaches : g.Reaches c.node
  fits : ∀ i ∈ c.rest, i.Fits declared
  behind : c.node = id ∧ c.rest.length < here.length ∨ g.Leads id c.node

theorem Past.instruction {here rest : Block} {x : Nat} {i : Instruction} {st st' : Store}
    (h : Past g id here declared ⟨x, i :: rest, st⟩) : Past g id here declared ⟨x, rest, st'⟩ where
  reaches := h.reaches
  fits := fun j hj => h.fits j (by simp [hj])
  behind := by
    refine h.behind.imp_left fun hin => ⟨hin.1, ?_⟩
    have hlt := hin.2
    simp only [List.length_cons] at hlt ⊢
    omega

theorem Past.edge {here : Block} {x target : Nat} {m k : Node} {st st' : Store}
    (h : Past g id here declared ⟨x, [], st⟩) (hg : g.Sound) (hfits : g.Fits declared)
    (hloop : ¬ g.Leads id id) (hm : g.node? x = some m) (htarget : target ∈ m.successors)
    (hk : g.node? target = some k) :
    target ≠ id ∧ Past g id here declared ⟨target, k.block, st'⟩ := by
  have hreach := h.reaches.of_mem_successors hg hm htarget
  have hedge : target ∈ g.targets x := mem_targets.mpr ⟨m, hm, htarget, hreach.lt⟩
  have hleads : g.Leads id target := by
    rcases h.behind with ⟨hid, _⟩ | hleads
    · obtain rfl : x = id := hid
      exact .single hedge
    · exact hleads.tail hedge
  refine ⟨?_, hreach, (hfits target k hreach hk).block, .inr hleads⟩
  rintro rfl
  exact hloop hleads

theorem ends_of_past (h : Spliced id index n code g g') (hg : g.Sound) (hfits : g.Fits declared)
    (hloop : ¬ g.Leads id id) {here : Block} {c : Point} {fin st' : Store}
    (hdetour : Detour g u repl id here c fin) (hpast : Past g id here declared c)
    (hagree : Machine.Agree u (· ∈ declared) (fun s => s) c.store st') :
    ∃ k fin', Ends g' u k ⟨resumed g id c.node, c.rest, st'⟩ fin' false ∧
      Machine.Agree u (· ∈ declared) (fun s => s) fin fin' := by
  induction hdetour generalizing st' with
  | exit => exact ⟨0, st', (Stops.at_exit h.resumed_exit st').ends, hagree⟩
  | call hhere _ _ _ =>
      rcases hpast.behind with ⟨_, hlt⟩ | hleads
      · rw [← hhere] at hlt
        exact absurd hlt (Nat.lt_irrefl _)
      · exact absurd hleads hloop
  | @instruction x i rest st st₁ fin _ hexec _ ih =>
      have hi := hpast.fits i (by simp)
      obtain ⟨st₁', hexec', hagree', _⟩ := exec_mirrors (.id _) hi.mirrors_self hagree hexec
      obtain ⟨k, fin', hends, hfin⟩ := ih hpast.instruction hagree'
      exact ⟨_, fin', (Path.instruction hexec' (.done _)).ends hends, hfin⟩
  | @edge x target m k st fin hm hexit hnext hk _ ih =>
      have hx := hpast.reaches
      have hnode := hfits x m hx hm
      obtain ⟨hne, hpast'⟩ := hpast.edge hg hfits hloop hm (mem_successors_of_next hnext) hk
      obtain ⟨block, hblock⟩ := h.node?_resumed hm
      have hread : ∀ b ∈ m.branches, read u st b.cond = read u st' b.cond :=
        fun b hb => read_congr fun _ => (hagree _ (hnode.branches b hb).declared).symm
      have hnext' : next u st' g'.size (resumed g id x) m.follower m.branches = .ok target :=
        h.next_of_lt hg hm hread hnext
      obtain ⟨j, fin', hends, hfin⟩ := ih hpast' hagree
      simp only [resumed, if_neg hne] at hends
      exact ⟨_, fin', (Path.edge hblock (h.resumed_ne_exit hg hx.lt hexit) hnext'
        ((h.other target (lt_of_node? hk) hne).trans hk) (.done _)).ends hends, hfin⟩

/-! ### On the way to the instruction -/

theorem node?_ahead (h : Spliced id index n code g g') {x : Nat} {m : Node}
    (hm : g.node? x = some m) :
    ∃ m', g'.node? x = some m' ∧
      m.block = m'.block ++ if x = id then n.block.drop index else [] := by
  by_cases hcut : x = id
  · subst hcut
    cases hm.symm.trans h.node
    exact ⟨_, h.front, by simp [Node.straight]⟩
  · exact ⟨m, (h.other x (lt_of_node? hm) hcut).trans hm, by simp [hcut]⟩

/-- A point before the instruction, with what the edited graph has left of its block. -/
structure Ahead (g : Graph) (id : Nat) (here : Block) (u : Overrides) (declared : List Symbol)
    (rest : Block) (c : Point) : Prop where
  reaches : g.Reaches c.node
  fits : ∀ i ∈ c.rest, i.Fits declared
  confined : c.store.Confined u declared
  left : c.rest = rest ++ if c.node = id then here else []

variable {here rest tail : Block} {x target : Nat} {i : Instruction} {m k : Node} {st st' : Store}

theorem Ahead.instruction (h : Ahead g id here u declared rest ⟨x, i :: tail, st⟩)
    (hplace : ¬ (x = id ∧ i :: tail = here)) (hexec : exec u st i = .ok ⟨st', false⟩) :
    ∃ rest', rest = i :: rest' ∧ Ahead g id here u declared rest' ⟨x, tail, st'⟩ := by
  have hleft := h.left
  cases rest with
  | nil =>
      by_cases hx : x = id
      · simp only [List.nil_append, if_pos hx] at hleft
        exact absurd ⟨hx, hleft⟩ hplace
      · simp [hx] at hleft
  | cons y rest' =>
      simp only [List.cons_append, List.cons.injEq] at hleft
      obtain ⟨rfl, htail⟩ := hleft
      exact ⟨rest', rfl, h.reaches, fun j hj => h.fits j (by simp [hj]),
        h.confined.exec (h.fits i (by simp)) hexec, htail⟩

theorem Ahead.nil (h : Ahead g id here u declared rest ⟨x, [], st⟩) (hhere : here ≠ []) :
    x ≠ id ∧ rest = [] := by
  have hleft := h.left
  simp only [List.nil_eq_append_iff] at hleft
  refine ⟨fun hx => hhere ?_, hleft.1⟩
  rw [if_pos hx] at hleft
  exact hleft.2

theorem Ahead.edge (h : Ahead g id (n.block.drop index) u declared rest ⟨x, [], st⟩)
    (hspliced : Spliced id index n code g g') (hg : g.Sound) (hfits : g.Fits declared)
    (hindex : index < n.block.length) (hm : g.node? x = some m) (hexit : x ≠ g.exit)
    (hnext : next u st g.size x m.follower m.branches = .ok target)
    (hk : g.node? target = some k) :
    ∃ block, Path g' u 1 ⟨x, rest, st⟩ ⟨target, block, st⟩ ∧
      Ahead g id (n.block.drop index) u declared block ⟨target, k.block, st⟩ := by
  obtain ⟨hne, rfl⟩ := h.nil (by simpa using hindex)
  have htarget := h.reaches.of_mem_successors hg hm (mem_successors_of_next hnext)
  obtain ⟨k', hk', hleft⟩ := hspliced.node?_ahead hk
  have hexit' : x ≠ g'.exit := by
    have := hspliced.resumed_ne_exit hg h.reaches.lt hexit
    rwa [resumed, if_neg hne] at this
  exact ⟨k'.block, .edge ((hspliced.other x h.reaches.lt hne).trans hm) hexit'
    (hspliced.next_of_lt hg hm (fun _ _ => rfl) hnext) hk' (.done _),
    htarget, (hfits target k htarget hk).block, h.confined, hleft⟩

theorem ends_of_ahead (h : Spliced id index n code g g') (hg : g.Sound) (hcode : code.Sound)
    (hfits : g.Fits declared) (hid : g.Reaches id) (hloop : ¬ g.Leads id id)
    (hi : n.block[index]? = some i) (hacts : ActsFor code repl u i declared)
    {c : Point} {fin : Store} (hdetour : Detour g u repl id (n.block.drop index) c fin)
    (hahead : Ahead g id (n.block.drop index) u declared rest c) :
    ∃ k fin', Ends g' u k ⟨c.node, rest, c.store⟩ fin' false ∧
      Machine.Agree u (· ∈ declared) (fun s => s) fin fin' := by
  obtain ⟨hindex, rfl⟩ := List.getElem?_eq_some_iff.mp hi
  have hhere : n.block.drop index ≠ [] := by simpa using hindex
  induction hdetour generalizing rest with
  | @exit st =>
      obtain ⟨hne, rfl⟩ := hahead.nil hhere
      rw [← h.exit_of_ne (Ne.symm hne)]
      exact ⟨0, st, Stops.exit.ends, fun _ _ => rfl⟩
  | @call j tail st st₁ fin hplace hstands hrest ih =>
      obtain rfl : rest = [] := by simpa [← hplace] using hahead.left
      have hpast : Past g id (n.block.drop index) declared ⟨id, tail, st₁⟩ := by
        refine ⟨hid, fun i hi => hahead.fits i (by simp [hi]), .inl ⟨rfl, ?_⟩⟩
        rw [← hplace]
        simp
      rw [List.drop_eq_getElem_cons hindex, List.cons.injEq] at hplace
      obtain ⟨rfl, rfl⟩ := hplace
      obtain ⟨mid, hcomputes, hagree⟩ := hacts st st₁ hahead.confined hstands
      obtain ⟨k, hpath⟩ := h.path_code hg hcode hcomputes
      obtain ⟨k', fin', hends, hfin⟩ := h.ends_of_past hg hfits hloop hrest hpast hagree
      simp only [resumed, if_true] at hends
      exact ⟨_, fin', hpath.ends hends, hfin⟩
  | @instruction x j tail st st₁ fin hplace hexec _ ih =>
      obtain ⟨rest', rfl, hahead'⟩ := hahead.instruction hplace hexec
      obtain ⟨k, fin', hends, hfin⟩ := ih hahead'
      exact ⟨_, fin', (Path.instruction hexec (.done _)).ends hends, hfin⟩
  | @edge x target m k st fin hm hexit hnext hk _ ih =>
      obtain ⟨block, hpath, hahead'⟩ := hahead.edge h hg hfits hindex hm hexit hnext hk
      obtain ⟨j, fin', hends, hfin⟩ := ih hahead'
      exact ⟨_, fin', hpath.ends hends, hfin⟩

theorem computes_of_detour (h : Spliced id index n code g g') (hg : g.Sound) (hcode : code.Sound)
    (hfits : g.Fits declared) (hid : g.Reaches id) (hloop : ¬ g.Leads id id)
    (hi : n.block[index]? = some i) (hacts : ActsFor code repl u i declared)
    {fin : Store} (hm : g.node? g.entry = some m) (hconfined : st.Confined u declared)
    (hdetour : Detour g u repl id (n.block.drop index) ⟨g.entry, m.block, st⟩ fin) :
    ∃ fin', Computes g' u st fin' false ∧ Machine.Agree u (· ∈ declared) (fun s => s) fin fin' := by
  have hentry : g.Reaches g.entry := .entry hg.entry_lt
  obtain ⟨m', hm', hleft⟩ := h.node?_ahead hm
  obtain ⟨k, fin', hends, hfin⟩ := h.ends_of_ahead hg hcode hfits hid hloop hi hacts hdetour
    ⟨hentry, (hfits _ m hentry hm).block, hconfined, hleft⟩
  rw [← h.entry] at hm' hends
  exact ⟨fin', ⟨k, m', hm', hends⟩, hfin⟩

end Graph.Spliced

end KernelAlgebra
