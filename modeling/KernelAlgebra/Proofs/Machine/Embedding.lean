import KernelAlgebra.Proofs.Instruction
import KernelAlgebra.Proofs.Machine.Execution
import KernelAlgebra.Proofs.Machine.Simulation
import KernelAlgebra.Proofs.Validity

/-!
# Graphs inside other graphs

A graph is embedded in another one when each of its reachable nodes has a counterpart there
that does the same with other symbols.  A run of the graph then has a counterpart too, as long
as different symbols keep different names.  Symbols that are no names of written ones keep
their numbers throughout.
-/

namespace KernelAlgebra.Machine

variable {u : Overrides} {D W : Symbol → Prop} {ρ : Symbol → Symbol}

/-! ## Operands -/

/-- The symbols in `D` have different names of the same size. -/
structure Faithful (D : Symbol → Prop) (ρ : Symbol → Symbol) : Prop where
  injective : ∀ s t, D s → D t → ρ s = ρ t → s = t
  size : ∀ s, D s → (ρ s).size = s.size
  solid : ∀ s, D s → s.isHole = false → (ρ s).isHole = false

theorem Faithful.id (D : Symbol → Prop) : Faithful D fun s => s :=
  ⟨fun _ _ _ _ h => h, fun _ _ => rfl, fun _ _ h => h⟩

/-- The same operand of the symbol with the other name, or none for none. -/
structure Image (ρ : Symbol → Symbol) (v w : View) : Prop where
  absent : v.isAbsent = true → w.isAbsent = true
  present : v.isAbsent = false → w = { v with sym := ρ v.sym }

theorem Image.id (v : View) : Image (fun s => s) v v :=
  ⟨fun h => h, fun _ => rfl⟩

theorem Image.alike (hρ : Faithful D ρ) {v w : View} (h : Image ρ v w)
    (hv : v.isAbsent = false) (hD : D v.sym) : View.Alike v w := by
  have hw := h.present hv
  subst hw
  refine ⟨rfl, rfl, hρ.size _ hD, ?_⟩
  rw [hv]
  exact hρ.solid _ hD hv

/-- The symbols in `D` have the same numbers under their other names. -/
def Agree (u : Overrides) (D : Symbol → Prop) (ρ : Symbol → Symbol) (st st' : Store) : Prop :=
  ∀ s, D s → st'.get u (ρ s) = st.get u s

theorem read_image (hρ : Faithful D ρ) {st st' : Store} (hagree : Agree u D ρ st st')
    {v w : View} (h : Image ρ v w) (hD : v.isAbsent = false → D v.sym) :
    read u st' w = read u st v := by
  unfold read
  cases hv : v.isAbsent with
  | true => rw [h.absent hv]; rfl
  | false =>
      have halike := h.alike hρ hv (hD hv)
      have hsym : w.sym = ρ v.sym := by rw [h.present hv]
      rw [halike.absent, hv, halike.elements_eq, halike.neg, hsym, hagree _ (hD hv)]

theorem readAll_image (hρ : Faithful D ρ) {st st' : Store} (hagree : Agree u D ρ st st')
    {srcs : List View} {image : View → View} (h : ∀ v ∈ srcs, Image ρ v (image v))
    (hD : ∀ v ∈ srcs, v.isAbsent = false → D v.sym) :
    readAll u st' (srcs.map image) = readAll u st srcs := by
  induction srcs with
  | nil => rfl
  | cons v rest ih =>
      have htail := ih (fun w hw => h w (by simp [hw])) (fun w hw => hD w (by simp [hw]))
      have hhead := read_image hρ hagree (h v (by simp)) (hD v (by simp))
      unfold readAll at htail ⊢
      rw [List.map_cons, List.mapM_cons, List.mapM_cons, htail, hhead]

theorem place_congr {v w : View} (h : w.selector = v.selector) {xs r : List Float} {i : Nat} :
    place w xs i r = place v xs i r := by
  induction r generalizing xs i with
  | nil => rfl
  | cons x r ih =>
      have hindex : w.index? i = v.index? i := by simp [View.index?, h]
      simp only [place, hindex, ih]

/-! ## Instructions -/

/-- The same instruction on symbols with other names. -/
structure Imitates (ρ : Symbol → Symbol) (i i' : Instruction) : Prop where
  op : i'.op = i.op
  dst : Image ρ i.dst i'.dst
  src : ∃ image, i'.src = i.src.map image ∧ ∀ v ∈ i.src, Image ρ v (image v)

/-- The instruction reads in `D` and writes in `W`. -/
structure Mirrors (D W : Symbol → Prop) (ρ : Symbol → Symbol) (i i' : Instruction) : Prop
    extends Imitates ρ i i' where
  uses : ∀ s ∈ i.uses, D s
  defines : ∀ s, i.defines = some s → D s ∧ W s

theorem Mirrors.self (i : Instruction) :
    Mirrors (fun _ => True) (fun _ => True) (fun s => s) i i :=
  ⟨⟨rfl, .id _, ⟨fun v => v, by simp, fun v _ => .id v⟩⟩, fun _ _ => trivial,
    fun _ _ => ⟨trivial, trivial⟩⟩

theorem Mirrors.readAll (hρ : Faithful D ρ) {i i' : Instruction} (h : Mirrors D W ρ i i')
    {st st' : Store} (hagree : Agree u D ρ st st') :
    Machine.readAll u st' i'.src = Machine.readAll u st i.src := by
  obtain ⟨image, hsrc, himage⟩ := h.src
  rw [hsrc]
  exact readAll_image hρ hagree himage
    fun v hv hpresent => h.uses v.sym (mem_uses.mpr ⟨v, hv, hpresent, rfl⟩)

theorem exec_mirrors (hρ : Faithful D ρ) {i i' : Instruction}
    (h : Mirrors D W ρ i i') {st st₁ st' : Store} {killed : Bool} (hagree : Agree u D ρ st st')
    (hexec : exec u st i = .ok ⟨st₁, killed⟩) :
    ∃ st₁', exec u st' i' = .ok ⟨st₁', killed⟩ ∧ Agree u D ρ st₁ st₁' ∧
      ∀ t, (∀ s, W s → ρ s ≠ t) → st₁'.get u t = st'.get u t := by
  have hread := h.readAll hρ hagree
  generalize ho : (⟨st₁, killed⟩ : Outcome) = o at hexec
  cases exec_eq_ok_iff.mp hexec with
  | nothing hop =>
      cases ho
      exact ⟨st', exec_eq_ok_iff.mpr (.nothing (h.op.trans hop)), hagree, fun _ _ => rfl⟩
  | test hop hsrcs =>
      cases ho
      exact ⟨st', exec_eq_ok_iff.mpr (.test (h.op.trans hop) (hread.trans hsrcs)), hagree,
        fun _ _ => rfl⟩
  | @assignment srcs r ys hsrcs hr hdst hplace =>
      cases ho
      obtain ⟨hD, hW⟩ := h.defines i.dst.sym (by simp [Instruction.defines, hdst])
      have halike := h.dst.alike hρ hdst hD
      have hsym : i'.dst.sym = ρ i.dst.sym := by rw [h.dst.present hdst]
      have hplace' : place i'.dst (st'.get u i'.dst.sym) 0 r = some ys := by
        rw [place_congr halike.selector, hsym, hagree _ hD, hplace]
      refine ⟨st'.set i'.dst.sym ys, exec_eq_ok_iff.mpr (.assignment (hread.trans hsrcs)
        (by rw [h.op, halike.size_eq, hr]) (halike.absent.trans hdst) hplace'), ?_, ?_⟩
      · intro s hs
        rw [hsym, Store.get_set, Store.get_set]
        by_cases hsame : s = i.dst.sym
        · simp [hsame]
        · rw [if_neg hsame, if_neg fun heq => hsame (hρ.injective _ _ hs hD heq), hagree s hs]
      · intro t ht
        rw [hsym, Store.get_set, if_neg fun heq => ht _ hW heq.symm]

/-! ## Graphs -/

/-- A branch on the same numbers to the counterpart of its target. -/
structure Branches (D : Symbol → Prop) (ρ : Symbol → Symbol) (f : Nat → Nat) (count : Nat)
    (b b' : Branch) : Prop where
  cond : Image ρ b.cond b'.cond
  declared : D b.cond.sym
  target : b'.target = f b.target
  inside : b'.target < count

/-- The counterpart of a node; where the run goes from the exit is left open. -/
structure Embeds (D W : Symbol → Prop) (ρ : Symbol → Symbol) (f : Nat → Nat)
    (g g' : Graph) : Prop where
  node : ∀ id n, g.Reaches id → g.node? id = some n → ∃ n', g'.node? (f id) = some n' ∧
    (∃ mirror, n'.block = n.block.map mirror ∧ ∀ i ∈ n.block, Mirrors D W ρ i (mirror i)) ∧
    (id ≠ g.exit → f id ≠ g'.exit ∧ n'.follower = n.follower.map f ∧
      ∃ mirror, n'.branches = n.branches.map mirror ∧
        ∀ b ∈ n.branches, Branches D ρ f g'.size b (mirror b))

variable {f : Nat → Nat} {g g' : Graph}

/-- A point of a run and its counterpart; symbols with no written name are as in `base`. -/
structure Mirrored (u : Overrides) (D W : Symbol → Prop) (ρ : Symbol → Symbol) (f : Nat → Nat)
    (g : Graph) (base : Store) (c d : Point) : Prop where
  reaches : g.Reaches c.node
  node : d.node = f c.node
  rest : ∃ mirror, d.rest = c.rest.map mirror ∧ ∀ i ∈ c.rest, Mirrors D W ρ i (mirror i)
  agree : Agree u D ρ c.store d.store
  frame : ∀ t, (∀ s, W s → ρ s ≠ t) → d.store.get u t = base.get u t

theorem follows_embeds (hρ : Faithful D ρ) (hembeds : Embeds D W ρ f g g')
    (hsound : g.Sound) (base : Store) : Follows g g' u (Mirrored u D W ρ f g base) where
  instruction := by
    rintro id i rest st st₁ ⟨did, drest, dst⟩ h hexec
    obtain ⟨mirror, hrest, hmirrors⟩ := h.rest
    obtain rfl : drest = (i :: rest).map mirror := hrest
    obtain ⟨dst₁, hexec', hagree, hframe⟩ :=
      exec_mirrors hρ (hmirrors i (by simp)) h.agree hexec
    refine ⟨_, .instruction hexec' (.done _), h.reaches, h.node,
      ⟨mirror, rfl, fun j hj => hmirrors j (by simp [hj])⟩, hagree, ?_⟩
    intro t ht
    rw [hframe t ht, h.frame t ht]
  edge := by
    rintro id target n m st ⟨did, drest, dst⟩ h hn hexit hnext hm
    obtain ⟨mirror, hrest, _⟩ := h.rest
    obtain rfl : drest = [] := hrest
    obtain rfl : did = f id := h.node
    obtain ⟨n', hn', _, hedges⟩ := hembeds.node id n h.reaches hn
    obtain ⟨hexit', hfollower, branch, hbranches, hbranch⟩ := hedges hexit
    have hnext' : next u dst g'.size (f id) n'.follower n'.branches = .ok (f target) := by
      rw [hfollower, hbranches]
      exact next_map
        (fun b hb => read_image hρ h.agree (hbranch b hb).cond fun _ => (hbranch b hb).declared)
        (fun b hb => ⟨(hbranch b hb).target, (hbranch b hb).inside⟩) hnext
    have hsuccessor := mem_successors_of_next hnext
    have hreach : g.Reaches target :=
      h.reaches.successor hn hsuccessor (hsound.closed id n hn target hsuccessor)
    obtain ⟨m', hm', hblock, _⟩ := hembeds.node target m hreach hm
    exact ⟨1, Nat.le_refl 1, _, .edge hn' hexit' hnext' hm' (.done _), hreach, rfl, hblock,
      h.agree, h.frame⟩

theorem Embeds.path (hembeds : Embeds D W ρ f g g') (hρ : Faithful D ρ) (hsound : g.Sound)
    {k : Nat} {n : Node} {st st' : Store} {d : Point} (hn : g.node? g.entry = some n)
    (hagree : Agree u D ρ st st') (hpath : Path g u k ⟨g.entry, n.block, st⟩ d) :
    ∃ j ≤ k, ∃ n' d', g'.node? (f g.entry) = some n' ∧
      Path g' u j ⟨f g.entry, n'.block, st'⟩ d' ∧ Mirrored u D W ρ f g st' d d' := by
  have hreach : g.Reaches g.entry := .entry hsound.entry_lt
  obtain ⟨n', hn', hblock, _⟩ := hembeds.node _ n hreach hn
  have hstart : Mirrored u D W ρ f g st' ⟨g.entry, n.block, st⟩ ⟨f g.entry, n'.block, st'⟩ :=
    ⟨hreach, rfl, hblock, hagree, fun _ _ => rfl⟩
  obtain ⟨j, hj, d', hpath', hmirrored⟩ :=
    (follows_embeds hρ hembeds hsound st').path hpath hstart
  exact ⟨j, hj, n', d', hn', hpath', hmirrored⟩

theorem Embeds.path_to_exit (hembeds : Embeds D W ρ f g g') (hρ : Faithful D ρ)
    (hsound : g.Sound) {k : Nat} {n : Node} {st st' fin : Store}
    (hn : g.node? g.entry = some n) (hagree : Agree u D ρ st st')
    (hends : Ends g u k ⟨g.entry, n.block, st⟩ fin false) :
    ∃ j n' fin', g'.node? (f g.entry) = some n' ∧
      Path g' u j ⟨f g.entry, n'.block, st'⟩ ⟨f g.exit, [], fin'⟩ ∧ Agree u D ρ fin fin' ∧
      ∀ t, (∀ s, W s → ρ s ≠ t) → fin'.get u t = st'.get u t := by
  obtain ⟨d, hpath, hstop⟩ := hends
  obtain ⟨j, _, n', ⟨did, drest, fin'⟩, hn', hpath', h⟩ := hembeds.path hρ hsound hn hagree hpath
  cases hstop with
  | exit =>
      obtain ⟨mirror, hrest, _⟩ := h.rest
      obtain rfl : drest = [] := hrest
      obtain rfl : did = f g.exit := h.node
      exact ⟨j, n', fin', hn', hpath', h.agree, h.frame⟩

theorem Embeds.ends (hembeds : Embeds D W ρ f g g') (hρ : Faithful D ρ) (hsound : g.Sound)
    (hexit : g'.exit = f g.exit) {k : Nat} {n : Node} {st st' fin : Store} {killed : Bool}
    (hn : g.node? g.entry = some n) (hagree : Agree u D ρ st st')
    (hends : Ends g u k ⟨g.entry, n.block, st⟩ fin killed) :
    ∃ j ≤ k, ∃ n' fin', g'.node? (f g.entry) = some n' ∧
      Ends g' u j ⟨f g.entry, n'.block, st'⟩ fin' killed ∧ Agree u D ρ fin fin' ∧
      ∀ t, (∀ s, W s → ρ s ≠ t) → fin'.get u t = st'.get u t := by
  obtain ⟨d, hpath, hstop⟩ := hends
  obtain ⟨j, hj, n', ⟨did, drest, dst⟩, hn', hpath', h⟩ := hembeds.path hρ hsound hn hagree hpath
  obtain ⟨mirror, hrest, hmirrors⟩ := h.rest
  cases hstop with
  | exit =>
      obtain rfl : drest = [] := hrest
      exact ⟨j, hj, n', dst, hn', ⟨_, hpath', .at_exit (h.node.trans hexit.symm) _⟩, h.agree,
        h.frame⟩
  | discard hexec =>
      obtain rfl : drest = _ := hrest
      obtain ⟨fin', hexec', hagree', hframe⟩ :=
        exec_mirrors hρ (hmirrors _ (by simp)) h.agree hexec
      refine ⟨j, hj, n', fin', hn', ⟨_, hpath', .discard hexec'⟩, hagree', ?_⟩
      intro t ht
      rw [hframe t ht, h.frame t ht]

theorem Embeds.discards (hembeds : Embeds D W ρ f g g') (hρ : Faithful D ρ) (hsound : g.Sound)
    {k : Nat} {n : Node} {st st' fin : Store} (hn : g.node? g.entry = some n)
    (hagree : Agree u D ρ st st') (hends : Ends g u k ⟨g.entry, n.block, st⟩ fin true) :
    ∃ j n' fin', g'.node? (f g.entry) = some n' ∧
      Ends g' u j ⟨f g.entry, n'.block, st'⟩ fin' true := by
  obtain ⟨d, hpath, hstop⟩ := hends
  obtain ⟨j, _, n', ⟨did, drest, dst⟩, hn', hpath', h⟩ := hembeds.path hρ hsound hn hagree hpath
  obtain ⟨mirror, hrest, hmirrors⟩ := h.rest
  cases hstop with
  | discard hexec =>
      obtain rfl : drest = _ := hrest
      obtain ⟨fin', hexec', _⟩ := exec_mirrors hρ (hmirrors _ (by simp)) h.agree hexec
      exact ⟨j, n', fin', hn', _, hpath', .discard hexec'⟩

end KernelAlgebra.Machine
