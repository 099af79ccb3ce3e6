import KernelAlgebra.Proofs.Builder.Steps
import KernelAlgebra.Proofs.Program.Collection

/-!
# A finished draft is sound

Every edge of a draft leads to one of its nodes, and only the current node and those where open
frames continue lead nowhere yet.  Whatever the draft grows to, these nodes are reached there.
So once every frame is closed and the current node leads to the exit, the graph is sound.
-/

namespace KernelAlgebra

/-! ## Declared symbols -/

theorem RoleList.append_singleton {roles : List Role} {list : List Symbol} {s : Symbol}
    (h : RoleList roles list) (hnew : s ∉ list) (hrole : s.role ∈ roles)
    (hsolid : s.isHole = false) : RoleList roles (list ++ [s]) :=
  h.append (roleList_singleton hrole hsolid) (by simpa using hnew)

theorem Interface.collectable_empty (target : String) : (Interface.empty target).Collectable := by
  refine ⟨⟨?_, ?_, ?_⟩, ⟨?_, ?_, ?_⟩, ?_, ?_, ?_, ?_, ?_⟩ <;> simp [Interface.empty]

theorem Interface.Collectable.declare {p : Program} {s : Symbol}
    (h : p.toInterface.Collectable) (hsolid : s.isHole = false) (hinput : s ∉ p.inputs)
    (houtput : s ∉ p.outputs) : (p.declare s).toInterface.Collectable := by
  have hshared : ∀ {roles : List Role} {list : List Symbol},
      (∀ t ∈ list, t.role ∈ roles ∧ t.isHole = false) → s.role ∈ roles →
      ∀ t ∈ list ++ [s], t.role ∈ roles ∧ t.isHole = false := by
    intro roles list hlist hrole
    exact List.forall_mem_append.mpr ⟨hlist, by simp [hrole, hsolid]⟩
  unfold Program.declare
  cases hrole : s.role with
  | input =>
      have hinout : ∀ t ∈ [s], t.isInOut = true → t ∈ p.outputs := by
        simp [Symbol.isInOut, hrole]
      exact { h with
        inputs := h.inputs.append_singleton hinput (by simp [hrole]) hsolid
        inout_output := List.forall_mem_append.mpr ⟨h.inout_output, hinout⟩
        inout_input := fun t ht hio => List.mem_append_left _ (h.inout_input t ht hio) }
  | output =>
      have hinout : ∀ t ∈ [s], t.isInOut = true → t ∈ p.inputs := by
        simp [Symbol.isInOut, hrole]
      exact { h with
        outputs := h.outputs.append_singleton houtput (by simp [hrole]) hsolid
        inout_output := fun t ht hio => List.mem_append_left _ (h.inout_output t ht hio)
        inout_input := List.forall_mem_append.mpr ⟨h.inout_input, hinout⟩ }
  | inout =>
      refine { h with
        inputs := h.inputs.append_singleton hinput (by simp [hrole]) hsolid
        outputs := h.outputs.append_singleton houtput (by simp [hrole]) hsolid
        inout_output := List.forall_mem_append.mpr ⟨?_, by simp⟩
        inout_input := List.forall_mem_append.mpr ⟨?_, by simp⟩ }
      · exact fun t ht hio => List.mem_append_left _ (h.inout_output t ht hio)
      · exact fun t ht hio => List.mem_append_left _ (h.inout_input t ht hio)
  | temp => exact { h with }
  | const =>
      refine { h with constants := fun t ht => ?_ }
      rcases mem_addNew.mp ht with ht | ht
      · exact h.constants t ht
      · exact List.mem_singleton.mp ht ▸ ⟨by simp [hrole], hsolid⟩
  | uniform => exact { h with uniforms := hshared h.uniforms (by simp [hrole]) }
  | stream => exact { h with textures := hshared h.textures (by simp [hrole]) }
  | texture => exact { h with textures := hshared h.textures (by simp [hrole]) }

theorem Graph.Reaches.follower {g : Graph} {id target : Nat} {n : Node} (h : g.Reaches id)
    (hn : g.node? id = some n) (hfollower : n.follower = some target) (hlt : target < g.size) :
    g.Reaches target :=
  h.successor hn (List.mem_append.mpr (.inr (by simp [hfollower]))) hlt

namespace Draft

variable {b b' : Draft} {g : Graph} {declared : List Symbol}

/-! ## Nodes in order -/

/-- A node of a draft whose edges stay inside, which leads on unless it is open, and whose code
fits. -/
structure Placed (declared : List Symbol) (b : Draft) (id : Nat) (n : Node) : Prop where
  edges : ∀ s ∈ n.successors, s < b.graph.size
  follower : n.follower = none → id ∈ b.current :: b.waiting
  fits : n.Fits declared

structure Tidy (declared : List Symbol) (b : Draft) : Prop where
  entry_lt : b.graph.entry < b.graph.size
  heads_lt : ∀ f ∈ b.frames, f.head < b.graph.size
  nodes : ∀ id n, b.graph.node? id = some n → Placed declared b id n

theorem fits_empty (declared : List Symbol) : Node.empty.Fits declared :=
  ⟨by simp [Node.empty], by simp [Node.empty]⟩

theorem placed_empty {id : Nat} (hid : id ∈ b.current :: b.waiting) :
    Placed declared b id Node.empty :=
  ⟨by simp [Node.empty, Node.successors], fun _ => hid, fits_empty declared⟩

theorem Placed.of_same {id : Nat} {n : Node} (h : Placed declared b id n)
    (hsize : b.graph.size ≤ b'.graph.size)
    (hopen : id ∈ b.current :: b.waiting → id ∈ b'.current :: b'.waiting) :
    Placed declared b' id n :=
  ⟨fun s hs => Nat.lt_of_lt_of_le (h.edges s hs) hsize, fun hn => hopen (h.follower hn), h.fits⟩

theorem Placed.of_current {block : Block} {target : Nat} {n : Node}
    (h : Placed declared b b.current ⟨block, [], none⟩) (hblock : n.block = block)
    (hfollower : n.follower = some target) (htarget : target < b'.graph.size)
    (hbranches : ∀ q ∈ n.branches, q.Fits declared ∧ q.target < b'.graph.size) :
    Placed declared b' b.current n where
  edges := by
    intro s hs
    rcases List.mem_append.mp hs with hs | hs
    · obtain ⟨q, hq, rfl⟩ := List.mem_map.mp hs
      exact (hbranches q hq).2
    · rw [hfollower, Option.toList_some] at hs
      exact List.mem_singleton.mp hs ▸ htarget
  follower := by
    intro hnone
    rw [hfollower] at hnone
    cases hnone
  fits := ⟨hblock ▸ h.fits.block, fun q hq => (hbranches q hq).1⟩

theorem Tidy.append (h : Tidy declared b) (hready : Ready b) {i : Instruction}
    (hi : i.Fits declared) : Tidy declared (b.append i) where
  entry_lt := by simpa [Draft.append] using h.entry_lt
  heads_lt := by simpa [Draft.append] using h.heads_lt
  nodes := by
    intro id n hn
    by_cases hid : id = b.current
    · subst hid
      obtain ⟨block, hblock⟩ := hready.current
      cases hn.symm.trans (node?_append_current hblock)
      refine ⟨by simp [Node.successors], fun _ => List.mem_cons_self, ?_, by simp⟩
      intro j hj
      rcases List.mem_append.mp hj with hj | hj
      · exact (h.nodes _ _ hblock).fits.block j hj
      · exact List.mem_singleton.mp hj ▸ hi
    · rw [node?_append_of_ne hid] at hn
      exact (h.nodes id n hn).of_same (by simp [Draft.append]) fun hmem => hmem

theorem Tidy.close (h : Tidy declared b) (hready : Ready b) {f : Frame} {outer : List Frame}
    (hframes : b.frames = f :: outer) {target : Nat} (htarget : target < b.graph.size) :
    Tidy declared (b.close target f.join outer) where
  entry_lt := by simpa [Draft.close, Graph.setFollower] using h.entry_lt
  heads_lt := by
    intro f' hf'
    simpa [Draft.close, Graph.setFollower] using
      h.heads_lt f' (hframes ▸ List.mem_cons_of_mem f hf')
  nodes := by
    intro id n hn
    have hsize : (b.close target f.join outer).graph.size = b.graph.size := by
      simp [Draft.close, Graph.setFollower]
    by_cases hid : id = b.current
    · subst hid
      obtain ⟨block, hblock⟩ := hready.current
      cases hn.symm.trans (node?_close_current hblock)
      exact (h.nodes _ _ hblock).of_current rfl rfl (hsize ▸ htarget) (by simp)
    · rw [node?_close_of_ne hid] at hn
      refine (h.nodes id n hn).of_same (Nat.le_of_eq hsize.symm) ?_
      simp only [waiting, Draft.close, hframes, List.map_cons, List.mem_cons]
      intro hmem
      rcases hmem with hmem | hmem | hmem | hmem
      · exact absurd hmem hid
      · exact .inr (.inl hmem)
      · exact .inl hmem
      · exact .inr (.inr hmem)

theorem size_openIf (b : Draft) (v : View) : (b.openIf v).graph.size = b.graph.size + 2 := by
  simp [Draft.openIf, Graph.size_newNode]

theorem Tidy.openIf (h : Tidy declared b) (hready : Ready b) {v : View}
    (hv : ∀ target, Branch.Fits declared ⟨v, target⟩) : Tidy declared (b.openIf v) where
  entry_lt := by
    rw [size_openIf]
    exact Nat.lt_add_right 2 h.entry_lt
  heads_lt := by
    intro f hf
    rw [size_openIf]
    rcases List.mem_cons.mp hf with rfl | hf
    · exact Nat.lt_add_right 2 (hready.lt_size List.mem_cons_self)
    · exact Nat.lt_add_right 2 (h.heads_lt f hf)
  nodes := by
    intro id n hn
    have hlt := Graph.lt_of_node? hn
    rw [size_openIf] at hlt
    by_cases hnew : id = b.graph.size ∨ id = b.graph.size + 1
    · cases hn.symm.trans (node?_openIf_new hready hnew)
      apply placed_empty
      rcases hnew with rfl | rfl
      · exact List.mem_cons_self
      · simp [waiting, Draft.openIf]
    · have hold : id < b.graph.size := by omega
      by_cases hid : id = b.current
      · subst hid
        obtain ⟨block, hblock⟩ := hready.current
        cases hn.symm.trans (node?_openIf_current hready hblock)
        refine (h.nodes _ _ hblock).of_current rfl rfl (by rw [size_openIf]; omega) ?_
        intro q hq
        rw [List.mem_singleton.mp hq, size_openIf]
        exact ⟨hv _, by simp⟩
      · rw [node?_openIf_of_ne hid hold] at hn
        refine (h.nodes id n hn).of_same (by rw [size_openIf]; omega) ?_
        intro hmem
        have hmem := (List.mem_cons.mp hmem).resolve_left hid
        exact List.mem_cons_of_mem _ (mem_waiting_openIf.mpr (.inr hmem))

theorem size_openWhile (b : Draft) (v : View) :
    (b.openWhile v).graph.size = b.graph.size + 3 := by
  simp [Draft.openWhile, Graph.size_newNode, Graph.setFollower]

theorem Tidy.openWhile (h : Tidy declared b) (hready : Ready b) {v : View}
    (hv : ∀ target, Branch.Fits declared ⟨v, target⟩) : Tidy declared (b.openWhile v) where
  entry_lt := by
    rw [size_openWhile]
    exact Nat.lt_add_right 3 h.entry_lt
  heads_lt := by
    intro f hf
    rw [size_openWhile]
    rcases List.mem_cons.mp hf with rfl | hf
    · exact Nat.lt_add_of_pos_right (by decide)
    · exact Nat.lt_add_right 3 (h.heads_lt f hf)
  nodes := by
    intro id n hn
    have hlt := Graph.lt_of_node? hn
    rw [size_openWhile] at hlt
    by_cases hnew : id = b.graph.size + 1 ∨ id = b.graph.size + 2
    · cases hn.symm.trans (node?_openWhile_new hready hnew)
      apply placed_empty
      rcases hnew with rfl | rfl
      · exact List.mem_cons_self
      · simp [waiting, Draft.openWhile]
    · by_cases htest : id = b.graph.size
      · subst htest
        cases hn.symm.trans (node?_openWhile_test hready)
        refine ⟨?_, by simp, by simp, ?_⟩
        · simp only [Node.successors, List.map_cons, List.map_nil, Option.toList_some,
            size_openWhile]
          simp
        · intro q hq
          exact List.mem_singleton.mp hq ▸ hv _
      · have hold : id < b.graph.size := by omega
        by_cases hid : id = b.current
        · subst hid
          obtain ⟨block, hblock⟩ := hready.current
          cases hn.symm.trans (node?_openWhile_current hready hblock)
          exact (h.nodes _ _ hblock).of_current rfl rfl (by rw [size_openWhile]; omega) (by simp)
        · rw [node?_openWhile_of_ne hid hold] at hn
          refine (h.nodes id n hn).of_same (by rw [size_openWhile]; omega) ?_
          intro hmem
          have hmem := (List.mem_cons.mp hmem).resolve_left hid
          exact List.mem_cons_of_mem _ (mem_waiting_openWhile.mpr (.inr hmem))

theorem size_openElse (b : Draft) (head join : Nat) (outer : List Frame) :
    (b.openElse head join outer).graph.size = b.graph.size + 1 := by
  simp [Draft.openElse, Graph.size_newNode, Graph.setFollower]

theorem Tidy.openElse (h : Tidy declared b) (hready : Ready b) {head join : Nat}
    {outer : List Frame} (hframes : b.frames = ⟨.conditional, head, join⟩ :: outer) :
    Tidy declared (b.openElse head join outer) where
  entry_lt := by
    rw [size_openElse]
    exact Nat.lt_add_right 1 h.entry_lt
  heads_lt := by
    have hhead : head < b.graph.size :=
      h.heads_lt ⟨.conditional, head, join⟩ (hframes ▸ List.mem_cons_self)
    intro f hf
    rw [size_openElse]
    rcases List.mem_cons.mp hf with rfl | hf
    · exact Nat.lt_add_right 1 hhead
    · exact Nat.lt_add_right 1 (h.heads_lt f (hframes ▸ List.mem_cons_of_mem _ hf))
  nodes := by
    intro id n hn
    have hlt := Graph.lt_of_node? hn
    rw [size_openElse] at hlt
    have hjoin : join < b.graph.size :=
      hready.lt_size (List.mem_cons_of_mem _ (join_mem_waiting hframes))
    by_cases hnew : id = b.graph.size
    · subst hnew
      cases hn.symm.trans (node?_openElse_new hframes hready)
      exact placed_empty List.mem_cons_self
    · have hold : id < b.graph.size := by omega
      by_cases hid : id = b.current
      · subst hid
        obtain ⟨block, hblock⟩ := hready.current
        cases hn.symm.trans (node?_openElse_current hframes hready hblock)
        exact (h.nodes _ _ hblock).of_current rfl rfl (by rw [size_openElse]; omega) (by simp)
      · by_cases hhead : id = head
        · subst hhead
          obtain ⟨n₀, hn₀, _⟩ := hready.exists_head hframes
          cases hn.symm.trans (node?_openElse_head hframes hready hn₀)
          have hplaced := h.nodes _ _ hn₀
          refine ⟨?_, by simp, hplaced.fits.block, hplaced.fits.branches⟩
          intro s hs
          rw [size_openElse]
          rcases List.mem_append.mp hs with hs | hs
          · exact Nat.lt_succ_of_lt (hplaced.edges s (List.mem_append.mpr (.inl hs)))
          · rw [Option.toList_some] at hs
            rw [List.mem_singleton.mp hs]
            exact Nat.lt_succ_self _
        · rw [node?_openElse_of_ne hid hhead hold] at hn
          refine (h.nodes id n hn).of_same (by rw [size_openElse]; omega) ?_
          intro hmem
          rw [waiting_openElse hframes]
          rcases List.mem_cons.mp hmem with hmem | hmem
          · exact absurd hmem hid
          · exact List.mem_cons_of_mem _ hmem

/-! ## Nodes that are reached -/

/-- In what the draft grows to, a path leads to the current node, to the tests that may learn
about an alternative, and to where the other frames continue. -/
structure Reached (b : Draft) (g : Graph) : Prop where
  current : g.Reaches b.current
  heads : ∀ f ∈ b.frames, f.kind = .conditional → g.Reaches f.head
  joins : ∀ f ∈ b.frames, f.kind ≠ .conditional → g.Reaches f.join

theorem Grows.lt_size (hgrows : Grows b g) {id : Nat} {n : Node}
    (hn : b.graph.node? id = some n) : id < g.size := by
  obtain ⟨_, hn', _⟩ := hgrows.nodes id n hn
  exact Graph.lt_of_node? hn'

theorem Reached.append (h : Reached b g) (i : Instruction) : Reached (b.append i) g :=
  ⟨h.current, h.heads, h.joins⟩

theorem Reached.openIf (h : Reached b g) (hready : Ready b) {v : View}
    (hgrows : Grows (b.openIf v) g) : Reached (b.openIf v) g where
  current := by
    obtain ⟨rest, hrest⟩ := (hgrows.of_openIf hready).exists_rest hready
    obtain ⟨_, n, hn, hbranches⟩ := hgrows.node?_of_openIf hready hrest
    refine h.current.successor hn (Graph.target_mem_successors (b := ⟨v, b.graph.size⟩) ?_) ?_
    · rw [hbranches]
      exact List.mem_cons_self
    · exact hgrows.lt_size (node?_openIf_new hready (.inl rfl))
  heads := by
    intro f hf hkind
    rcases List.mem_cons.mp hf with rfl | hf
    · exact h.current
    · exact h.heads f hf hkind
  joins := by
    intro f hf hkind
    rcases List.mem_cons.mp hf with rfl | hf
    · exact absurd rfl hkind
    · exact h.joins f hf hkind

theorem Reached.openElse (h : Reached b g) (hready : Ready b) {head join : Nat}
    {outer : List Frame} (hframes : b.frames = ⟨.conditional, head, join⟩ :: outer)
    (hgrows : Grows (b.openElse head join outer) g) :
    Reached (b.openElse head join outer) g where
  current := by
    have hhead : g.Reaches head := h.heads _ (hframes ▸ List.mem_cons_self) rfl
    obtain ⟨n, hn, hfollower⟩ := Grows.follower_of_openElse hframes hready hgrows
    exact hhead.follower hn hfollower (hgrows.lt_size (node?_openElse_new hframes hready))
  heads := by
    intro f hf hkind
    rcases List.mem_cons.mp hf with rfl | hf
    · cases hkind
    · exact h.heads f (hframes ▸ List.mem_cons_of_mem _ hf) hkind
  joins := by
    intro f hf hkind
    rcases List.mem_cons.mp hf with rfl | hf
    · have hgrows' := Grows.of_openElse hframes hready hgrows
      have hjoin : join ∈ b.waiting := join_mem_waiting hframes
      obtain ⟨rest, hrest⟩ := hgrows'.exists_rest hready
      obtain ⟨_, block, hn⟩ := Grows.node?_of_openElse hframes hready hgrows hrest
      exact h.current.follower hn rfl (hgrows'.lt_size (hready.waiting _ hjoin))
    · exact h.joins f (hframes ▸ List.mem_cons_of_mem _ hf) hkind

theorem Reached.close (h : Reached b g) (hready : Ready b) {f : Frame} {outer : List Frame}
    (hframes : b.frames = f :: outer) {target : Nat}
    (hgrows : Grows (b.close target f.join outer) g) :
    Reached (b.close target f.join outer) g where
  current := by
    have hmem : f ∈ b.frames := hframes ▸ List.mem_cons_self
    by_cases hkind : f.kind = .conditional
    · obtain ⟨kind, head, join⟩ := f
      cases hkind
      obtain ⟨n, hn, hfollower⟩ := Grows.follower_of_close hframes hready hgrows
      exact (h.heads _ hmem rfl).follower hn hfollower
        (hgrows.lt_size (node?_close_join hframes target hready))
    · exact h.joins f hmem hkind
  heads := fun f' hf' => h.heads f' (hframes ▸ List.mem_cons_of_mem f hf')
  joins := fun f' hf' => h.joins f' (hframes ▸ List.mem_cons_of_mem f hf')

theorem Reached.openWhile (h : Reached b g) (hready : Ready b) {v : View}
    (hgrows : Grows (b.openWhile v) g) : Reached (b.openWhile v) g := by
  have htest := hgrows.test_of_openWhile hready
  have hreach : g.Reaches b.graph.size := by
    obtain ⟨rest, hrest⟩ := (hgrows.of_openWhile hready).exists_rest hready
    obtain ⟨_, block, hn⟩ := hgrows.node?_of_openWhile hready hrest
    exact h.current.follower hn rfl (Graph.lt_of_node? htest)
  refine ⟨?_, ?_, ?_⟩
  · exact hreach.successor htest List.mem_cons_self
      (hgrows.lt_size (node?_openWhile_new hready (.inl rfl)))
  · intro f hf hkind
    rcases List.mem_cons.mp hf with rfl | hf
    · cases hkind
    · exact h.heads f hf hkind
  · intro f hf hkind
    rcases List.mem_cons.mp hf with rfl | hf
    · exact hreach.follower htest rfl (hgrows.lt_size (node?_openWhile_new hready (.inr rfl)))
    · exact h.joins f hf hkind

/-! ## The end -/

theorem sound_finished (hready : Ready b) (htidy : Tidy declared b) (hframes : b.frames = [])
    (hreached : Reached b (finished b)) :
    (finished b).Sound ∧ (finished b).Fits declared := by
  have hsize : (finished b).size = b.graph.size := by simp [finished, Graph.setFollower]
  have hexit_lt : b.graph.exit < b.graph.size :=
    hready.lt_size (List.mem_cons_of_mem _ List.mem_cons_self)
  obtain ⟨block, hcurrent⟩ := hready.current
  have hnode := node?_finished_current hcurrent
  have hcases : ∀ id n, (finished b).node? id = some n →
      id = b.current ∧ n = ⟨block, [], some b.graph.exit⟩ ∨
        id ≠ b.current ∧ b.graph.node? id = some n := by
    intro id n hn
    by_cases hid : id = b.current
    · subst hid
      exact .inl ⟨rfl, Option.some.inj (hn.symm.trans hnode)⟩
    · exact .inr ⟨hid, node?_finished_of_ne hid ▸ hn⟩
  have hplaced := htidy.nodes _ _ hcurrent
  refine ⟨⟨hsize ▸ htidy.entry_lt, hsize ▸ hexit_lt, ?_, ?_, ?_, ?_⟩, ?_⟩
  · intro id n hn s hs
    rw [hsize]
    rcases hcases id n hn with ⟨rfl, rfl⟩ | ⟨_, hn⟩
    · exact List.mem_singleton.mp hs ▸ hexit_lt
    · exact (htidy.nodes id n hn).edges s hs
  · intro n hn
    rcases hcases _ n hn with ⟨heq, _⟩ | ⟨_, hn⟩
    · exact absurd heq (hready.current_ne List.mem_cons_self)
    · cases hn.symm.trans (hready.waiting _ List.mem_cons_self)
      rfl
  · intro id n _ hn hexit
    rcases hcases id n hn with ⟨rfl, rfl⟩ | ⟨hid, hn⟩
    · rfl
    · rw [Option.isSome_iff_ne_none]
      intro hnone
      have hopen := (htidy.nodes id n hn).follower hnone
      simp only [waiting, hframes, List.map_nil, List.mem_cons, List.not_mem_nil, or_false] at hopen
      exact hopen.elim hid hexit
  · exact hreached.current.follower hnode rfl (hsize ▸ hexit_lt)
  · intro id n _ hn
    rcases hcases id n hn with ⟨rfl, rfl⟩ | ⟨_, hn⟩
    · exact ⟨hplaced.fits.block, by simp⟩
    · exact (htidy.nodes id n hn).fits

end Draft

end KernelAlgebra
