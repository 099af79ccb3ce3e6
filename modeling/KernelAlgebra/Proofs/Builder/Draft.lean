import KernelAlgebra.Builder
import KernelAlgebra.Proofs.Graph.Sequence

/-!
# What a builder leaves open

While a program is being written, the current node takes further instructions, the nodes where
open frames continue are still empty, and the test of a conditional may yet learn about an
alternative.  Everything else is final.
-/

namespace KernelAlgebra

theorem Graph.node?_newNode (g : Graph) (id : Nat) :
    g.newNode.1.node? id = if id = g.size then some Node.empty else g.node? id := by
  unfold newNode node? size
  by_cases h : id = g.nodes.length
  · simp [h]
  · rw [if_neg h]
    by_cases hlt : id < g.nodes.length
    · exact List.getElem?_append_left hlt
    · rw [List.getElem?_eq_none (by simp; omega), List.getElem?_eq_none (by omega)]

theorem Graph.size_newNode (g : Graph) : g.newNode.1.size = g.size + 1 := by
  simp [newNode, size]

theorem Graph.node?_setFollower (g : Graph) (id x : Nat) (follower : Option Nat) :
    (g.setFollower id follower).node? x =
      if id = x then (g.node? x).map fun n => { n with follower := follower } else g.node? x :=
  g.node?_modify id _ x

theorem Program.graph_declare (p : Program) (s : Symbol) : (p.declare s).graph = p.graph := by
  unfold declare
  split <;> rfl

/-- The part of a builder that statements work on. -/
structure Draft where
  graph : Graph
  current : Nat
  frames : List Frame
  ended : Bool

def Builder.draft (b : Builder) : Draft := ⟨b.graph, b.current, b.frames, b.ended⟩

namespace Draft

/-- The tests that may yet learn about an alternative. -/
def heads (b : Draft) : List Nat :=
  (b.frames.filter (·.kind = .conditional)).map Frame.head

/-- The nodes that nothing has been written to. -/
def waiting (b : Draft) : List Nat := b.graph.exit :: b.frames.map Frame.join

structure Ready (b : Draft) : Prop where
  alive : b.ended = false
  current : ∃ block, b.graph.node? b.current = some ⟨block, [], none⟩
  waiting : ∀ id ∈ b.waiting, b.graph.node? id = some Node.empty
  apart : (b.current :: b.waiting).Nodup
  heads : ∀ f ∈ b.frames, f.kind = .conditional →
    ∃ n, b.graph.node? f.head = some n ∧ n.follower = some f.join

/-- What may become of a node: one that leads on somewhere is final, but for where it leads if
that is not settled yet. -/
structure Later (settled : Prop) (n n' : Node) : Prop where
  block : n.block <+: n'.block
  closed : n.follower ≠ none →
    n'.block = n.block ∧ n'.branches = n.branches ∧ n'.follower ≠ none
  follower : n.follower ≠ none → settled → n'.follower = n.follower

/-- A graph that a draft may grow to. -/
structure Grows (b : Draft) (g : Graph) : Prop where
  entry : g.entry = b.graph.entry
  exit : g.exit = b.graph.exit
  nodes : ∀ id n, b.graph.node? id = some n →
    ∃ n', g.node? id = some n' ∧ Later (id ∉ b.heads) n n'

variable {b b' : Draft} {g : Graph}

theorem mem_heads {id : Nat} :
    id ∈ b.heads ↔ ∃ f ∈ b.frames, f.kind = .conditional ∧ f.head = id := by
  simp [heads, and_assoc]

theorem Later.refl (settled : Prop) (n : Node) : Later settled n n :=
  ⟨List.prefix_refl _, fun h => ⟨rfl, rfl, h⟩, fun _ _ => rfl⟩

theorem Ready.current_not_mem_heads (h : Ready b) : b.current ∉ b.heads := by
  intro hmem
  obtain ⟨f, hf, hkind, hhead⟩ := mem_heads.mp hmem
  obtain ⟨block, hcurrent⟩ := h.current
  obtain ⟨n, hn, hfollower⟩ := h.heads f hf hkind
  rw [hhead] at hn
  cases hcurrent.symm.trans hn
  cases hfollower

theorem Ready.lt_size (h : Ready b) {id : Nat} (hid : id ∈ b.current :: b.waiting) :
    id < b.graph.size := by
  rcases List.mem_cons.mp hid with rfl | hid
  · obtain ⟨block, hcurrent⟩ := h.current
    exact Graph.lt_of_node? hcurrent
  · exact Graph.lt_of_node? (h.waiting id hid)

theorem Ready.current_ne (h : Ready b) {id : Nat} (hid : id ∈ b.waiting) : id ≠ b.current := by
  rintro rfl
  exact (List.nodup_cons.mp h.apart).1 hid

theorem apart_of_new (h : Ready b) (j k : Nat) (hjk : j ≠ k) :
    ((b.graph.size + j) :: b.graph.exit :: (b.graph.size + k) :: b.frames.map Frame.join).Nodup := by
  have hlt : ∀ id ∈ b.waiting, id < b.graph.size :=
    fun id hid => h.lt_size (List.mem_cons_of_mem _ hid)
  have hapart := (List.nodup_cons.mp h.apart).2
  simp only [Draft.waiting, List.nodup_cons, List.mem_cons] at hlt hapart ⊢
  have hexit := hlt b.graph.exit (.inl rfl)
  have hsize : ∀ k, b.graph.size + k ∉ b.frames.map Frame.join := fun k hk => by
    have := hlt _ (.inr hk)
    omega
  refine ⟨?_, ?_, hsize k, hapart.2⟩
  · rintro (heq | heq | hmem)
    · omega
    · omega
    · exact hsize j hmem
  · rintro (heq | hmem)
    · omega
    · exact hapart.1 hmem

/-! ## Growing -/

theorem Grows.of_step (hgrows : Grows b' g) (h : Ready b) (hstep : Grows b b'.graph)
    (hheads : ∀ id ∈ b'.heads, id ∈ b.heads ∨ id = b.current) : Grows b g := by
  refine ⟨hgrows.entry.trans hstep.entry, hgrows.exit.trans hstep.exit, ?_⟩
  intro id n hn
  obtain ⟨n₁, hn₁, hlater₁⟩ := hstep.nodes id n hn
  obtain ⟨n₂, hn₂, hlater₂⟩ := hgrows.nodes id n₁ hn₁
  refine ⟨n₂, hn₂, hlater₁.block.trans hlater₂.block, ?_, ?_⟩
  · intro hfollower
    obtain ⟨hblock₁, hbranches₁, hfollower₁⟩ := hlater₁.closed hfollower
    obtain ⟨hblock₂, hbranches₂, hfollower₂⟩ := hlater₂.closed hfollower₁
    exact ⟨hblock₂.trans hblock₁, hbranches₂.trans hbranches₁, hfollower₂⟩
  · intro hfollower hsettled
    have hsame := hlater₁.follower hfollower hsettled
    have hsettled' : id ∉ b'.heads := by
      intro hmem
      rcases hheads id hmem with hhead | rfl
      · exact hsettled hhead
      · obtain ⟨block, hcurrent⟩ := h.current
        cases hcurrent.symm.trans hn
        exact hfollower rfl
    rw [hlater₂.follower (hsame ▸ hfollower) hsettled', hsame]

theorem grows_of_current (h : Ready b) (hentry : g.entry = b.graph.entry)
    (hexit : g.exit = b.graph.exit)
    (hcurrent : ∀ block, b.graph.node? b.current = some ⟨block, [], none⟩ →
      ∃ n', g.node? b.current = some n' ∧ block <+: n'.block)
    (hother : ∀ id n, id ≠ b.current → b.graph.node? id = some n → g.node? id = some n) :
    Grows b g := by
  refine ⟨hentry, hexit, ?_⟩
  intro id n hn
  by_cases hid : id = b.current
  · subst hid
    obtain ⟨block, hblock⟩ := h.current
    cases hblock.symm.trans hn
    obtain ⟨n', hn', hprefix⟩ := hcurrent block hblock
    exact ⟨n', hn', hprefix, fun hne => absurd rfl hne, fun hne => absurd rfl hne⟩
  · exact ⟨n, hother id n hid hn, .refl _ n⟩

/-- What the current node of the grown graph has beyond the draft. -/
def Rest (b : Draft) (g : Graph) (rest : Block) : Prop :=
  ∃ block n, b.graph.node? b.current = some ⟨block, [], none⟩ ∧
    g.node? b.current = some n ∧ n.block = block ++ rest

theorem Grows.exists_rest (h : Ready b) (hgrows : Grows b g) : ∃ rest, Rest b g rest := by
  obtain ⟨block, hcurrent⟩ := h.current
  obtain ⟨n, hn, hlater⟩ := hgrows.nodes _ _ hcurrent
  obtain ⟨rest, hrest⟩ := hlater.block
  exact ⟨rest, block, n, hcurrent, hn, hrest.symm⟩

theorem Grows.node?_eq (hgrows : Grows b g) {id : Nat} {n : Node}
    (hn : b.graph.node? id = some n) (hfollower : n.follower ≠ none) (hid : id ∉ b.heads) :
    g.node? id = some n := by
  obtain ⟨n', hn', hlater⟩ := hgrows.nodes id n hn
  obtain ⟨hblock, hbranches, _⟩ := hlater.closed hfollower
  have hfollower' := hlater.follower hfollower hid
  obtain ⟨block, branches, follower⟩ := n
  obtain ⟨block', branches', follower'⟩ := n'
  simp only at hblock hbranches hfollower'
  rw [hn', hblock, hbranches, hfollower']

/-! ## Instructions -/

def append (b : Draft) (i : Instruction) : Draft :=
  { b with graph := b.graph.modify b.current fun n => { n with block := n.block ++ [i] } }

theorem node?_append_current {i : Instruction} {block : Block}
    (h : b.graph.node? b.current = some ⟨block, [], none⟩) :
    (b.append i).graph.node? b.current = some ⟨block ++ [i], [], none⟩ := by
  simp [append, Graph.node?_modify, h]

theorem node?_append_of_ne {i : Instruction} {id : Nat} (h : id ≠ b.current) :
    (b.append i).graph.node? id = b.graph.node? id := by
  simp [append, Graph.node?_modify, Ne.symm h]

theorem Ready.append (h : Ready b) (i : Instruction) : Ready (b.append i) where
  alive := h.alive
  current := by
    obtain ⟨block, hcurrent⟩ := h.current
    exact ⟨_, node?_append_current hcurrent⟩
  waiting := by
    intro id hid
    rw [node?_append_of_ne (h.current_ne hid)]
    exact h.waiting id hid
  apart := h.apart
  heads := by
    intro f hf hkind
    have hne : f.head ≠ b.current := fun heq =>
      h.current_not_mem_heads (mem_heads.mpr ⟨f, hf, hkind, heq⟩)
    rw [node?_append_of_ne hne]
    exact h.heads f hf hkind

theorem Grows.of_append (h : Ready b) {i : Instruction} (hgrows : Grows (b.append i) g) :
    Grows b g := by
  refine hgrows.of_step h (grows_of_current h rfl rfl ?_ ?_) fun _ hid => .inl hid
  · intro block hblock
    exact ⟨_, node?_append_current hblock, List.prefix_append _ _⟩
  · intro id n hid hn
    rw [node?_append_of_ne hid, hn]

theorem Rest.of_append {i : Instruction} {rest : Block} (h : Ready b)
    (hrest : Rest (b.append i) g rest) : Rest b g (i :: rest) := by
  obtain ⟨block, hcurrent⟩ := h.current
  obtain ⟨block', n, hcurrent', hn, hblock⟩ := hrest
  cases (node?_append_current hcurrent).symm.trans hcurrent'
  exact ⟨block, n, hcurrent, hn, by rw [hblock, List.append_assoc]; rfl⟩

/-! ## Closing a frame -/

def close (b : Draft) (target join : Nat) (outer : List Frame) : Draft :=
  ⟨b.graph.setFollower b.current (some target), join, outer, b.ended⟩

theorem node?_close_current {target join : Nat} {outer : List Frame} {block : Block}
    (h : b.graph.node? b.current = some ⟨block, [], none⟩) :
    (b.close target join outer).graph.node? b.current = some ⟨block, [], some target⟩ := by
  simp [close, Graph.node?_setFollower, h]

theorem node?_close_of_ne {target join id : Nat} {outer : List Frame} (h : id ≠ b.current) :
    (b.close target join outer).graph.node? id = b.graph.node? id := by
  simp [close, Graph.node?_setFollower, Ne.symm h]

section Close

variable {f : Frame} {outer : List Frame} (hframes : b.frames = f :: outer) (target : Nat)
include hframes

theorem join_mem_waiting : f.join ∈ b.waiting := by
  simp [waiting, hframes]

theorem heads_close_subset : ∀ id ∈ (b.close target f.join outer).heads, id ∈ b.heads := by
  intro id hid
  obtain ⟨f', hf', hkind, hhead⟩ := mem_heads.mp hid
  exact mem_heads.mpr ⟨f', hframes ▸ List.mem_cons_of_mem f hf', hkind, hhead⟩

theorem node?_close_join (h : Ready b) :
    (b.close target f.join outer).graph.node? f.join = some Node.empty := by
  rw [node?_close_of_ne (h.current_ne (join_mem_waiting hframes))]
  exact h.waiting _ (join_mem_waiting hframes)

theorem Ready.close (h : Ready b) : Ready (b.close target f.join outer) where
  alive := h.alive
  current := ⟨[], node?_close_join hframes target h⟩
  waiting := by
    intro id hid
    have hmem : id ∈ b.waiting := by
      simp only [Draft.waiting, hframes, List.map_cons, List.mem_cons] at hid ⊢
      rcases hid with hid | hid
      · exact .inl hid
      · exact .inr (.inr hid)
    rw [node?_close_of_ne (h.current_ne hmem)]
    exact h.waiting id hmem
  apart := by
    have hapart := (List.nodup_cons.mp h.apart).2
    simp only [Draft.waiting, hframes, List.map_cons] at hapart
    exact (List.Perm.swap _ _ _).nodup hapart
  heads := by
    intro f' hf' hkind
    have hmem : f' ∈ b.frames := hframes ▸ List.mem_cons_of_mem f hf'
    have hne : f'.head ≠ b.current := fun heq =>
      h.current_not_mem_heads (mem_heads.mpr ⟨f', hmem, hkind, heq⟩)
    rw [node?_close_of_ne hne]
    exact h.heads f' hmem hkind

theorem Grows.of_close (h : Ready b) (hgrows : Grows (b.close target f.join outer) g) :
    Grows b g := by
  refine hgrows.of_step h (grows_of_current h rfl rfl ?_ ?_)
    fun id hid => .inl (heads_close_subset hframes target id hid)
  · intro block hblock
    exact ⟨_, node?_close_current hblock, List.prefix_refl _⟩
  · intro id n hid hn
    rw [node?_close_of_ne hid, hn]

theorem Grows.node?_of_close (h : Ready b) (hgrows : Grows (b.close target f.join outer) g)
    {rest : Block} (hrest : Rest b g rest) :
    rest = [] ∧ ∃ block, g.node? b.current = some ⟨block, [], some target⟩ := by
  obtain ⟨block, n, hcurrent, hn, hblock⟩ := hrest
  have hfinal : g.node? b.current = some ⟨block, [], some target⟩ := by
    refine hgrows.node?_eq (node?_close_current hcurrent) (by simp) ?_
    exact fun hmem => h.current_not_mem_heads (heads_close_subset hframes target _ hmem)
  cases hn.symm.trans hfinal
  exact ⟨by simpa using hblock, block, hfinal⟩

end Close

/-! ## Opening a conditional -/

def openIf (b : Draft) (v : View) : Draft :=
  ⟨b.graph.newNode.1.newNode.1.modify b.current fun n =>
      { n with branches := n.branches ++ [⟨v, b.graph.size⟩], follower := some (b.graph.size + 1) },
    b.graph.size, ⟨.conditional, b.current, b.graph.size + 1⟩ :: b.frames, b.ended⟩

theorem node?_openIf_current {v : View} {block : Block} (h : Ready b)
    (hcurrent : b.graph.node? b.current = some ⟨block, [], none⟩) :
    (b.openIf v).graph.node? b.current =
      some ⟨block, [⟨v, b.graph.size⟩], some (b.graph.size + 1)⟩ := by
  have hlt := h.lt_size List.mem_cons_self
  simp only [openIf, Graph.node?_modify, Graph.node?_newNode, Graph.size_newNode, if_true]
  rw [if_neg (by omega), if_neg (by omega), hcurrent]
  rfl

theorem node?_openIf_of_ne {v : View} {id : Nat} (h : id ≠ b.current) (hlt : id < b.graph.size) :
    (b.openIf v).graph.node? id = b.graph.node? id := by
  simp only [openIf, Graph.node?_modify, Graph.node?_newNode, Graph.size_newNode]
  rw [if_neg (Ne.symm h), if_neg (by omega), if_neg (by omega)]

theorem node?_openIf_new {v : View} {id : Nat} (h : Ready b)
    (hid : id = b.graph.size ∨ id = b.graph.size + 1) :
    (b.openIf v).graph.node? id = some Node.empty := by
  have hlt := h.lt_size List.mem_cons_self
  simp only [openIf, Graph.node?_modify, Graph.node?_newNode, Graph.size_newNode]
  rw [if_neg (by omega)]
  rcases hid with rfl | rfl
  · rw [if_neg (by omega), if_pos rfl]
  · rw [if_pos rfl]

theorem mem_heads_openIf {v : View} {id : Nat} :
    id ∈ (b.openIf v).heads ↔ id = b.current ∨ id ∈ b.heads := by
  simp [heads, openIf]

theorem mem_waiting_openIf {v : View} {id : Nat} :
    id ∈ (b.openIf v).waiting ↔ id = b.graph.size + 1 ∨ id ∈ b.waiting := by
  simp only [Draft.waiting, Draft.openIf, List.map_cons, List.mem_cons]
  exact or_left_comm

theorem Ready.openIf (h : Ready b) (v : View) : Ready (b.openIf v) where
  alive := h.alive
  current := ⟨[], node?_openIf_new h (.inl rfl)⟩
  waiting := by
    intro id hid
    rcases mem_waiting_openIf.mp hid with hid' | hid'
    · exact node?_openIf_new h (.inr hid')
    · rw [node?_openIf_of_ne (h.current_ne hid') (h.lt_size (List.mem_cons_of_mem _ hid'))]
      exact h.waiting id hid'
  apart := apart_of_new h 0 1 (by omega)
  heads := by
    intro f hf hkind
    rcases List.mem_cons.mp hf with rfl | hf
    · obtain ⟨block, hcurrent⟩ := h.current
      exact ⟨_, node?_openIf_current h hcurrent, rfl⟩
    · have hne : f.head ≠ b.current := fun heq =>
        h.current_not_mem_heads (mem_heads.mpr ⟨f, hf, hkind, heq⟩)
      obtain ⟨n, hn, hfollower⟩ := h.heads f hf hkind
      rw [node?_openIf_of_ne hne (Graph.lt_of_node? hn)]
      exact ⟨n, hn, hfollower⟩

theorem Grows.of_openIf (h : Ready b) {v : View} (hgrows : Grows (b.openIf v) g) :
    Grows b g := by
  refine hgrows.of_step h (grows_of_current h rfl rfl ?_ ?_) fun id hid => ?_
  · intro block hblock
    exact ⟨_, node?_openIf_current h hblock, List.prefix_refl _⟩
  · intro id n hid hn
    rw [node?_openIf_of_ne hid (Graph.lt_of_node? hn), hn]
  · exact (mem_heads_openIf.mp hid).symm

theorem Grows.node?_of_openIf (h : Ready b) {v : View} (hgrows : Grows (b.openIf v) g)
    {rest : Block} (hrest : Rest b g rest) :
    rest = [] ∧ ∃ n, g.node? b.current = some n ∧ n.branches = [⟨v, b.graph.size⟩] := by
  obtain ⟨block, n, hcurrent, hn, hblock⟩ := hrest
  obtain ⟨n', hn', hlater⟩ := hgrows.nodes _ _ (node?_openIf_current h hcurrent)
  obtain ⟨hblock', hbranches, _⟩ := hlater.closed (by simp)
  cases hn.symm.trans hn'
  refine ⟨?_, n, hn, hbranches⟩
  rw [hblock'] at hblock
  simpa using hblock

/-! ## Opening an alternative -/

def openElse (b : Draft) (head join : Nat) (outer : List Frame) : Draft :=
  ⟨(b.graph.newNode.1.setFollower head (some b.graph.size)).setFollower b.current (some join),
    b.graph.size, ⟨.alternative, head, join⟩ :: outer, b.ended⟩

section OpenElse

variable {head join : Nat} {outer : List Frame}
  (hframes : b.frames = ⟨.conditional, head, join⟩ :: outer)
include hframes

theorem head_mem_heads : head ∈ b.heads := by
  simp [heads, hframes]

theorem Ready.head_ne (h : Ready b) : head ≠ b.current :=
  fun heq => h.current_not_mem_heads (heq ▸ head_mem_heads hframes)

theorem Ready.exists_head (h : Ready b) :
    ∃ n, b.graph.node? head = some n ∧ n.follower = some join :=
  h.heads ⟨.conditional, head, join⟩ (hframes ▸ List.mem_cons_self) rfl

theorem node?_openElse_current (h : Ready b) {block : Block}
    (hcurrent : b.graph.node? b.current = some ⟨block, [], none⟩) :
    (b.openElse head join outer).graph.node? b.current = some ⟨block, [], some join⟩ := by
  have hlt := h.lt_size List.mem_cons_self
  simp only [openElse, Graph.node?_setFollower, Graph.node?_newNode, if_true]
  rw [if_neg (h.head_ne hframes), if_neg (by omega), hcurrent]
  rfl

theorem node?_openElse_head (h : Ready b) {n : Node} (hn : b.graph.node? head = some n) :
    (b.openElse head join outer).graph.node? head =
      some { n with follower := some b.graph.size } := by
  have hlt := Graph.lt_of_node? hn
  simp only [openElse, Graph.node?_setFollower, Graph.node?_newNode, if_true]
  rw [if_neg (Ne.symm (h.head_ne hframes)), if_neg (by omega), hn]
  rfl

theorem node?_openElse_new (h : Ready b) :
    (b.openElse head join outer).graph.node? b.graph.size = some Node.empty := by
  have hlt := h.lt_size List.mem_cons_self
  obtain ⟨n, hn, _⟩ := h.exists_head hframes
  have hlt' := Graph.lt_of_node? hn
  simp only [openElse, Graph.node?_setFollower, Graph.node?_newNode, if_true]
  rw [if_neg (by omega), if_neg (by omega)]

omit hframes in
theorem node?_openElse_of_ne {id : Nat} (hcurrent : id ≠ b.current) (hhead : id ≠ head)
    (hlt : id < b.graph.size) :
    (b.openElse head join outer).graph.node? id = b.graph.node? id := by
  simp only [openElse, Graph.node?_setFollower, Graph.node?_newNode]
  rw [if_neg (Ne.symm hcurrent), if_neg (Ne.symm hhead), if_neg (by omega)]

theorem head_not_mem_outer (h : Ready b) :
    ∀ f ∈ outer, f.kind = .conditional → f.head ≠ head := by
  intro f hf hkind heq
  obtain ⟨n, hn, hjoin⟩ := h.exists_head hframes
  obtain ⟨n', hn', hjoin'⟩ := h.heads f (hframes ▸ List.mem_cons_of_mem _ hf) hkind
  rw [heq] at hn'
  cases hn.symm.trans hn'
  have hsame : f.join = join := Option.some.inj (hjoin'.symm.trans hjoin)
  have hapart := (List.nodup_cons.mp (List.nodup_cons.mp h.apart).2).2
  rw [hframes, List.map_cons, List.nodup_cons] at hapart
  exact hapart.1 (List.mem_map.mpr ⟨f, hf, hsame⟩)

theorem head_not_mem_heads_openElse (h : Ready b) :
    head ∉ (b.openElse head join outer).heads := by
  intro hmem
  obtain ⟨f, hf, hkind, heq⟩ := mem_heads.mp hmem
  rcases List.mem_cons.mp hf with rfl | hf
  · cases hkind
  · exact head_not_mem_outer hframes h f hf hkind heq

theorem heads_openElse_subset : ∀ id ∈ (b.openElse head join outer).heads, id ∈ b.heads := by
  intro id hid
  obtain ⟨f, hf, hkind, heq⟩ := mem_heads.mp hid
  rcases List.mem_cons.mp hf with rfl | hf
  · cases hkind
  · exact mem_heads.mpr ⟨f, hframes ▸ List.mem_cons_of_mem _ hf, hkind, heq⟩

theorem waiting_openElse : (b.openElse head join outer).waiting = b.waiting := by
  simp only [waiting, openElse, hframes, List.map_cons]
  rfl

theorem Ready.openElse (h : Ready b) : Ready (b.openElse head join outer) where
  alive := h.alive
  current := ⟨[], node?_openElse_new hframes h⟩
  waiting := by
    rw [waiting_openElse hframes]
    intro id hid
    have hempty := h.waiting id hid
    have hhead : id ≠ head := by
      rintro rfl
      obtain ⟨n, hn, hfollower⟩ := h.exists_head hframes
      cases hempty.symm.trans hn
      cases hfollower
    rw [node?_openElse_of_ne (h.current_ne hid) hhead (Graph.lt_of_node? hempty)]
    exact hempty
  apart := by
    rw [waiting_openElse hframes, List.nodup_cons]
    refine ⟨?_, (List.nodup_cons.mp h.apart).2⟩
    intro hmem
    have hlt := h.lt_size (List.mem_cons_of_mem _ hmem)
    exact Nat.lt_irrefl _ hlt
  heads := by
    intro f hf hkind
    rcases List.mem_cons.mp hf with rfl | hf
    · cases hkind
    · have hmem : f ∈ b.frames := hframes ▸ List.mem_cons_of_mem _ hf
      have hne : f.head ≠ b.current := fun heq =>
        h.current_not_mem_heads (mem_heads.mpr ⟨f, hmem, hkind, heq⟩)
      obtain ⟨n, hn, hfollower⟩ := h.heads f hmem hkind
      refine ⟨n, ?_, hfollower⟩
      rw [node?_openElse_of_ne hne (head_not_mem_outer hframes h f hf hkind)
        (Graph.lt_of_node? hn), hn]

theorem Grows.of_openElse (h : Ready b) (hgrows : Grows (b.openElse head join outer) g) :
    Grows b g := by
  refine hgrows.of_step h ⟨rfl, rfl, ?_⟩ fun id hid => .inl (heads_openElse_subset hframes id hid)
  intro id n hn
  by_cases hcurrent : id = b.current
  · subst hcurrent
    obtain ⟨block, hblock⟩ := h.current
    cases hblock.symm.trans hn
    exact ⟨_, node?_openElse_current hframes h hblock, List.prefix_refl _,
      fun hne => absurd rfl hne, fun hne => absurd rfl hne⟩
  · by_cases hhead : id = head
    · subst hhead
      refine ⟨_, node?_openElse_head hframes h hn, List.prefix_refl _, ?_, ?_⟩
      · exact fun _ => ⟨rfl, rfl, by simp⟩
      · exact fun _ hsettled => absurd (head_mem_heads hframes) hsettled
    · refine ⟨n, ?_, .refl _ n⟩
      rw [node?_openElse_of_ne hcurrent hhead (Graph.lt_of_node? hn), hn]

theorem Grows.node?_of_openElse (h : Ready b) (hgrows : Grows (b.openElse head join outer) g)
    {rest : Block} (hrest : Rest b g rest) :
    rest = [] ∧ ∃ block, g.node? b.current = some ⟨block, [], some join⟩ := by
  obtain ⟨block, n, hcurrent, hn, hblock⟩ := hrest
  have hfinal : g.node? b.current = some ⟨block, [], some join⟩ := by
    refine hgrows.node?_eq (node?_openElse_current hframes h hcurrent) (by simp) ?_
    exact fun hmem => h.current_not_mem_heads (heads_openElse_subset hframes _ hmem)
  cases hn.symm.trans hfinal
  exact ⟨by simpa using hblock, block, hfinal⟩

theorem Grows.follower_of_openElse (h : Ready b)
    (hgrows : Grows (b.openElse head join outer) g) :
    ∃ n, g.node? head = some n ∧ n.follower = some b.graph.size := by
  obtain ⟨n, hn, _⟩ := h.exists_head hframes
  exact ⟨_, hgrows.node?_eq (node?_openElse_head hframes h hn) (by simp)
    (head_not_mem_heads_openElse hframes h), rfl⟩

theorem Grows.follower_of_close (h : Ready b) {target : Nat}
    (hgrows : Grows (b.close target join outer) g) :
    ∃ n, g.node? head = some n ∧ n.follower = some join := by
  obtain ⟨n, hn, hfollower⟩ := h.exists_head hframes
  refine ⟨n, hgrows.node?_eq ?_ (by simp [hfollower]) ?_, hfollower⟩
  · rw [node?_close_of_ne (h.head_ne hframes), hn]
  · intro hmem
    obtain ⟨f, hf, hkind, heq⟩ := mem_heads.mp hmem
    exact head_not_mem_outer hframes h f hf hkind heq

end OpenElse

/-! ## Opening a loop -/

def openWhile (b : Draft) (v : View) : Draft :=
  ⟨(b.graph.newNode.1.newNode.1.newNode.1.setFollower b.current (some b.graph.size)).modify
      b.graph.size fun n =>
        { n with branches := [⟨v, b.graph.size + 1⟩], follower := some (b.graph.size + 2) },
    b.graph.size + 1, ⟨.loop, b.graph.size, b.graph.size + 2⟩ :: b.frames, b.ended⟩

theorem node?_openWhile_current {v : View} {block : Block} (h : Ready b)
    (hcurrent : b.graph.node? b.current = some ⟨block, [], none⟩) :
    (b.openWhile v).graph.node? b.current = some ⟨block, [], some b.graph.size⟩ := by
  have hlt := h.lt_size List.mem_cons_self
  simp only [openWhile, Graph.node?_modify, Graph.node?_setFollower, Graph.node?_newNode,
    Graph.size_newNode, if_true]
  rw [if_neg (by omega), if_neg (by omega), if_neg (by omega), if_neg (by omega), hcurrent]
  rfl

theorem node?_openWhile_test {v : View} (h : Ready b) :
    (b.openWhile v).graph.node? b.graph.size =
      some ⟨[], [⟨v, b.graph.size + 1⟩], some (b.graph.size + 2)⟩ := by
  have hlt := h.lt_size List.mem_cons_self
  simp only [openWhile, Graph.node?_modify, Graph.node?_setFollower, Graph.node?_newNode,
    Graph.size_newNode, if_true]
  rw [if_neg (by omega), if_neg (by omega), if_neg (by omega)]
  rfl

theorem node?_openWhile_of_ne {v : View} {id : Nat} (h : id ≠ b.current)
    (hlt : id < b.graph.size) : (b.openWhile v).graph.node? id = b.graph.node? id := by
  simp only [openWhile, Graph.node?_modify, Graph.node?_setFollower, Graph.node?_newNode,
    Graph.size_newNode]
  rw [if_neg (by omega), if_neg (Ne.symm h), if_neg (by omega), if_neg (by omega),
    if_neg (by omega)]

theorem node?_openWhile_new {v : View} {id : Nat} (h : Ready b)
    (hid : id = b.graph.size + 1 ∨ id = b.graph.size + 2) :
    (b.openWhile v).graph.node? id = some Node.empty := by
  have hlt := h.lt_size List.mem_cons_self
  simp only [openWhile, Graph.node?_modify, Graph.node?_setFollower, Graph.node?_newNode,
    Graph.size_newNode]
  rw [if_neg (by omega), if_neg (by omega)]
  rcases hid with rfl | rfl
  · rw [if_neg (by omega), if_pos rfl]
  · rw [if_pos rfl]

theorem heads_openWhile (b : Draft) (v : View) : (b.openWhile v).heads = b.heads := by
  simp [heads, openWhile]

theorem mem_waiting_openWhile {v : View} {id : Nat} :
    id ∈ (b.openWhile v).waiting ↔ id = b.graph.size + 2 ∨ id ∈ b.waiting := by
  simp only [Draft.waiting, Draft.openWhile, List.map_cons, List.mem_cons]
  exact or_left_comm

theorem Ready.openWhile (h : Ready b) (v : View) : Ready (b.openWhile v) where
  alive := h.alive
  current := ⟨[], node?_openWhile_new h (.inl rfl)⟩
  waiting := by
    intro id hid
    rcases mem_waiting_openWhile.mp hid with hid' | hid'
    · exact node?_openWhile_new h (.inr hid')
    · rw [node?_openWhile_of_ne (h.current_ne hid') (h.lt_size (List.mem_cons_of_mem _ hid'))]
      exact h.waiting id hid'
  apart := apart_of_new h 1 2 (by omega)
  heads := by
    intro f hf hkind
    rcases List.mem_cons.mp hf with rfl | hf
    · cases hkind
    · have hne : f.head ≠ b.current := fun heq =>
        h.current_not_mem_heads (mem_heads.mpr ⟨f, hf, hkind, heq⟩)
      obtain ⟨n, hn, hfollower⟩ := h.heads f hf hkind
      rw [node?_openWhile_of_ne hne (Graph.lt_of_node? hn)]
      exact ⟨n, hn, hfollower⟩

theorem Grows.of_openWhile (h : Ready b) {v : View} (hgrows : Grows (b.openWhile v) g) :
    Grows b g := by
  refine hgrows.of_step h (grows_of_current h rfl rfl ?_ ?_) fun id hid => ?_
  · intro block hblock
    exact ⟨_, node?_openWhile_current h hblock, List.prefix_refl _⟩
  · intro id n hid hn
    rw [node?_openWhile_of_ne hid (Graph.lt_of_node? hn), hn]
  · rw [heads_openWhile] at hid
    exact .inl hid

theorem Grows.node?_of_openWhile (h : Ready b) {v : View} (hgrows : Grows (b.openWhile v) g)
    {rest : Block} (hrest : Rest b g rest) :
    rest = [] ∧ ∃ block, g.node? b.current = some ⟨block, [], some b.graph.size⟩ := by
  obtain ⟨block, n, hcurrent, hn, hblock⟩ := hrest
  have hfinal : g.node? b.current = some ⟨block, [], some b.graph.size⟩ := by
    refine hgrows.node?_eq (node?_openWhile_current h hcurrent) (by simp) ?_
    rw [heads_openWhile]
    exact h.current_not_mem_heads
  cases hn.symm.trans hfinal
  exact ⟨by simpa using hblock, block, hfinal⟩

theorem Grows.test_of_openWhile (h : Ready b) {v : View} (hgrows : Grows (b.openWhile v) g) :
    g.node? b.graph.size = some ⟨[], [⟨v, b.graph.size + 1⟩], some (b.graph.size + 2)⟩ := by
  refine hgrows.node?_eq (node?_openWhile_test h) (by simp) ?_
  rw [heads_openWhile]
  intro hmem
  obtain ⟨f, hf, hkind, heq⟩ := mem_heads.mp hmem
  obtain ⟨n, hn, _⟩ := h.heads f hf hkind
  have hlt := Graph.lt_of_node? hn
  omega

/-! ## Finishing -/

def finished (b : Draft) : Graph := b.graph.setFollower b.current (some b.graph.exit)

theorem node?_finished_current {block : Block}
    (hcurrent : b.graph.node? b.current = some ⟨block, [], none⟩) :
    (finished b).node? b.current = some ⟨block, [], some b.graph.exit⟩ := by
  simp [finished, Graph.node?_setFollower, hcurrent]

theorem node?_finished_of_ne {id : Nat} (h : id ≠ b.current) :
    (finished b).node? id = b.graph.node? id := by
  simp [finished, Graph.node?_setFollower, Ne.symm h]

theorem grows_finished (hready : Ready b) : Grows b (finished b) := by
  refine grows_of_current hready rfl rfl ?_ ?_
  · intro block hblock
    exact ⟨_, node?_finished_current hblock, List.prefix_refl _⟩
  · intro id n hid hn
    rw [node?_finished_of_ne hid, hn]

end Draft

end KernelAlgebra
