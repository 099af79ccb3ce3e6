import KernelAlgebra.Proofs.Builder.Inlining
import KernelAlgebra.Proofs.Computation

/-!
# Code in the place of an instruction

The node of the instruction is cut in two.  Its front keeps the id and leads into the code, and
the exit of the code leads to its back, which has a new id and the edges of the node.  All other
nodes stay as they are.
-/

namespace KernelAlgebra

@[simp] theorem Node.successors_straight (block : Block) (follower : Nat) :
    (straight block follower).successors = [follower] := rfl

namespace Graph

variable {g g' code : Graph} {id index : Nat} {n : Node}

/-! ## The edit -/

def cut (g : Graph) (id index : Nat) : Graph :=
  (g.splitAt id index).modify g.size fun n => { n with block := n.block.drop 1 }

theorem size_cut (hn : g.node? id = some n) (index : Nat) :
    (g.cut id index).size = g.size + 1 := by
  simp [cut, splitAt, hn, modify, size]

theorem entry_cut (hn : g.node? id = some n) : (g.cut id index).entry = g.entry := by
  simp [cut, splitAt, hn, modify]

theorem exit_cut (hn : g.node? id = some n) :
    (g.cut id index).exit = if id = g.exit then g.size else g.exit := by
  simp [cut, splitAt, hn]

theorem ne_exit_cut (hn : g.node? id = some n) : id ≠ (g.cut id index).exit := by
  have hlt := lt_of_node? hn
  rw [exit_cut hn]
  split <;> omega

theorem node?_cut_front (hn : g.node? id = some n) :
    (g.cut id index).node? id = some (Node.straight (n.block.take index) g.size) := by
  have hlt := lt_of_node? hn
  simp only [cut, splitAt, hn]
  rw [node?_modify, if_neg (by omega)]
  change (Graph.modify _ id _).node? id = _
  rw [node?_modify, if_pos rfl, node?_of_lt_append hlt, hn]
  rfl

theorem node?_cut_back (hn : g.node? id = some n) :
    (g.cut id index).node? g.size = some { n with block := n.block.drop (index + 1) } := by
  have hlt := lt_of_node? hn
  simp only [cut, splitAt, hn]
  rw [node?_modify, if_pos rfl]
  change ((Graph.modify _ id _).node? g.size).map _ = _
  rw [node?_modify, if_neg (by omega), node?_last]
  simp

theorem node?_cut_of_ne (hn : g.node? id = some n) {x : Nat} (hx : x < g.size) (hne : x ≠ id) :
    (g.cut id index).node? x = g.node? x := by
  simp only [cut, splitAt, hn]
  rw [node?_modify, if_neg (by omega)]
  change (Graph.modify _ id _).node? x = _
  rw [node?_modify, if_neg (Ne.symm hne), node?_of_lt_append hx]

def place (g : Graph) (x : Nat) : Nat := x + (g.size + 1)

/-- Code has taken the place of the instruction `index` of node `id`. -/
structure Spliced (id index : Nat) (n : Node) (code g g' : Graph) : Prop where
  node : g.node? id = some n
  size : g'.size = g.size + 1 + code.size
  entry : g'.entry = g.entry
  exit : g'.exit = if id = g.exit then g.size else g.exit
  front : g'.node? id = some (.straight (n.block.take index) (g.place code.entry))
  back : g'.node? g.size = some { n with block := n.block.drop (index + 1) }
  other : ∀ x < g.size, x ≠ id → g'.node? x = g.node? x
  inner : ∀ x m, code.node? x = some m → x ≠ code.exit →
    g'.node? (g.place x) = some (relocated g.place m)
  last : ∀ m, code.node? code.exit = some m →
    g'.node? (g.place code.exit) = some (.straight m.block g.size)

theorem insertAfter_cut (hn : g.node? id = some n) (hcode : code.Sound) :
    (g.cut id index).insertAfter id code =
      (((g.cut id index).absorb code).modify (g.place code.exit) fun x =>
        { x with branches := [], follower := some g.size }).modify id fun m =>
          { m with branches := [], follower := some (g.place code.entry) } := by
  have hsize := size_cut hn index
  have hentry : code.entryIn (g.cut id index) = g.place code.entry := by
    rw [entryIn, moved_of_lt _ hcode.entry_lt, hsize, place]
  have hexit : code.exitIn (g.cut id index) = g.place code.exit := by
    rw [exitIn, moved_of_lt _ hcode.exit_lt, hsize, place]
  have hinside : g.place code.entry < (g.cut id index).size + code.size := by
    have := hcode.entry_lt
    rw [hsize, place]
    omega
  simp only [insertAfter, node?_cut_front hn, hentry, hexit, if_neg (ne_exit_cut hn),
    follower?_of_lt hinside]
  rfl

theorem node?_absorb_cut_of_le (hn : g.node? id = some n) {x : Nat} (hx : x ≤ g.size) :
    ((g.cut id index).absorb code).node? x = (g.cut id index).node? x := by
  refine node?_of_lt_append ?_ _ _
  rw [size_cut hn index]
  omega

theorem node?_absorb_cut_place (hn : g.node? id = some n) (hcode : code.Sound) {x : Nat}
    {m : Node} (hm : code.node? x = some m) :
    ((g.cut id index).absorb code).node? (g.place x) = some (relocated g.place m) := by
  have habsorb := node?_absorb (g := g.cut id index) hcode hm
  rw [size_cut hn index] at habsorb
  exact habsorb

theorem spliced_insertAfter (hn : g.node? id = some n) (hcode : code.Sound) (index : Nat) :
    Spliced id index n code g ((g.cut id index).insertAfter id code) := by
  have hlt := lt_of_node? hn
  have hfar : ∀ x y, x ≤ g.size → x ≠ g.place y := by
    intro x y hx
    rw [place]
    omega
  rw [insertAfter_cut hn hcode]
  refine ⟨hn, ?_, ?_, ?_, ?_, ?_, ?_, ?_, ?_⟩
  · rw [size_modify, size_modify, ← size_cut hn index]
    simp [absorb, size]
  · simp [absorb, entry_cut hn]
  · simp [absorb, exit_cut hn]
  · rw [node?_modify, if_pos rfl, node?_modify, if_neg (hfar id _ (by omega)).symm,
      node?_absorb_cut_of_le hn (by omega), node?_cut_front hn]
    rfl
  · rw [node?_modify, if_neg (by omega), node?_modify, if_neg (hfar _ _ (Nat.le_refl _)).symm,
      node?_absorb_cut_of_le hn (Nat.le_refl _), node?_cut_back hn]
  · intro x hx hne
    rw [node?_modify, if_neg (Ne.symm hne), node?_modify, if_neg (hfar x _ (by omega)).symm,
      node?_absorb_cut_of_le hn (by omega), node?_cut_of_ne hn hx hne]
  · intro x m hm hexit
    have hne : g.place code.exit ≠ g.place x := by
      simp only [place]
      omega
    rw [node?_modify, if_neg (hfar id x (by omega)), node?_modify, if_neg hne,
      node?_absorb_cut_place hn hcode hm]
  · intro m hm
    rw [node?_modify, if_neg (hfar id _ (by omega)), node?_modify, if_pos rfl,
      node?_absorb_cut_place hn hcode hm]
    rfl

theorem yields_attempt {g₁ left : Graph} : Yields (Edit.attempt (.ok g₁) left) g (.ok ()) g₁ :=
  rfl

theorem yields_split (hn : g.node? id = some n) (hindex : index ≤ n.block.length) :
    Yields (Edit.split id index) g (.ok g.size) (g.splitAt id index) := by
  have hsplit : g.trySplit id index = .ok (g.splitAt id index) := by
    simp [trySplit, node, hn, hindex]
  refine (yields_bind (yields_get.mpr ⟨rfl, rfl⟩)).mpr ?_
  rw [hsplit]
  exact (yields_bind yields_attempt).mpr (yields_pure.mpr ⟨rfl, rfl⟩)

theorem yields_insertAfter (hn : g.node? id = some n) (hcode : code.Sound) :
    Yields (Edit.insertAfter id code) g (.ok (code.entryIn g, code.exitIn g))
      (g.insertAfter id code) := by
  have hexit : code.exitIn g < (g.absorb code).size := by
    have hlt := hcode.exit_lt
    rw [exitIn, moved_of_lt _ hlt]
    simp only [size, absorb, List.length_append, List.length_map] at hlt ⊢
    omega
  have hsplice : g.trySplice id code = .ok (g.insertAfter id code) := if_pos hexit
  have hnode : Yields (Edit.node id) g (.ok n) g := by
    refine (yields_bind (yields_get.mpr ⟨rfl, rfl⟩)).mpr ?_
    rw [node, hn]
    rfl
  refine (yields_bind (yields_get.mpr ⟨rfl, rfl⟩)).mpr ((yields_bind hnode).mpr ?_)
  rw [hsplice]
  exact (yields_bind yields_attempt).mpr (yields_pure.mpr ⟨rfl, rfl⟩)

theorem yields_replaceInstruction (hn : g.node? id = some n) (hindex : index ≤ n.block.length)
    (hcode : code.Sound) :
    ∃ g', Yields (Edit.replaceInstruction id index code) g (.ok ()) g' ∧
      Spliced id index n code g g' := by
  refine ⟨_, ?_, spliced_insertAfter hn hcode index⟩
  refine (yields_bind (yields_split hn hindex)).mpr ?_
  refine (yields_bind (yields_modify.mpr ⟨rfl, rfl⟩)).mpr ?_
  exact (yields_bind (yields_insertAfter (node?_cut_front hn) hcode)).mpr
    (yields_pure.mpr ⟨rfl, rfl⟩)

/-! ## Parts of the edited graph -/

namespace Spliced

/-- A node of the edited graph and where it comes from; `old` and `new` say which nodes of the
two graphs are meant. -/
inductive Part (id index : Nat) (n : Node) (code g : Graph) (old new : Nat → Prop) :
    Nat → Node → Prop
  | front : Part id index n code g old new id (.straight (n.block.take index) (g.place code.entry))
  | back : Part id index n code g old new g.size { n with block := n.block.drop (index + 1) }
  | other {x : Nat} {m : Node} :
      old x → x ≠ id → g.node? x = some m → Part id index n code g old new x m
  | inner {y : Nat} {k : Node} :
      new y → y ≠ code.exit → code.node? y = some k →
      Part id index n code g old new (g.place y) (relocated g.place k)
  | last {k : Node} :
      code.node? code.exit = some k →
      Part id index n code g old new (g.place code.exit) (.straight k.block g.size)

variable (h : Spliced id index n code g g')

include h

theorem place_lt {x : Nat} (hx : x < code.size) : g.place x < g'.size := by
  rw [h.size, place]
  omega

theorem lt_size {x : Nat} (hx : x < g.size) : x < g'.size := by
  rw [h.size]
  omega

theorem back_lt : g.size < g'.size := by
  rw [h.size]
  omega

theorem part {old new : Nat → Prop} (hold : ∀ x, old x → x < g.size)
    (hnew : ∀ y, new y → y < code.size) {x : Nat} {m : Node}
    (hx : old x ∨ x = g.size ∨ ∃ y, new y ∧ x = g.place y) (hm : g'.node? x = some m) :
    Part id index n code g old new x m := by
  rcases hx with hx | rfl | ⟨y, hy, rfl⟩
  · by_cases hcut : x = id
    · subst hcut
      cases hm.symm.trans h.front
      exact .front
    · exact .other hx hcut ((h.other x (hold x hx) hcut).symm.trans hm)
  · cases hm.symm.trans h.back
    exact .back
  · obtain ⟨k, hk⟩ := node?_eq_some_of_lt (hnew y hy)
    by_cases hlast : y = code.exit
    · subst hlast
      cases hm.symm.trans (h.last k hk)
      exact .last hk
    · cases hm.symm.trans (h.inner y k hk hlast)
      exact .inner hy hlast hk

theorem part_of_node? {x : Nat} {m : Node} (hm : g'.node? x = some m) :
    Part id index n code g (· < g.size) (· < code.size) x m := by
  refine h.part (fun _ hx => hx) (fun _ hy => hy) ?_ hm
  have hx := lt_of_node? hm
  rw [h.size] at hx
  rcases Nat.lt_trichotomy x g.size with hlt | heq | hgt
  · exact .inl hlt
  · exact .inr (.inl heq)
  · exact .inr (.inr ⟨x - (g.size + 1), by omega, by rw [place]; omega⟩)

theorem part_of_reaches (hg : g.Sound) (hcode : code.Sound) (hid : g.Reaches id) {x : Nat}
    (hx : g'.Reaches x) {m : Node} (hm : g'.node? x = some m) :
    Part id index n code g g.Reaches code.Reaches x m := by
  refine h.part (fun _ => Reaches.lt) (fun _ => Reaches.lt) ?_ hm
  clear hm
  induction hx with
  | entry =>
      rw [h.entry]
      exact .inl (.entry hg.entry_lt)
  | @step x next _ hedge ih =>
      obtain ⟨m, hm, hs, _⟩ := mem_targets.mp hedge
      cases h.part (fun _ => Reaches.lt) (fun _ => Reaches.lt) ih hm with
      | front =>
          rw [Node.successors_straight, List.mem_singleton] at hs
          exact .inr (.inr ⟨_, .entry hcode.entry_lt, hs⟩)
      | back => exact .inl (hid.of_mem_successors hg h.node hs)
      | other hx _ hm => exact .inl (hx.of_mem_successors hg hm hs)
      | inner hy _ hk =>
          rw [successors_relocated] at hs
          obtain ⟨z, hz, rfl⟩ := List.mem_map.mp hs
          exact .inr (.inr ⟨z, hy.of_mem_successors hcode hk hz, rfl⟩)
      | last =>
          rw [Node.successors_straight, List.mem_singleton] at hs
          exact .inr (.inl hs)

/-! ## Reachable nodes -/

theorem reaches_place (hcode : code.Sound) (hid : g'.Reaches id) {y : Nat}
    (hy : code.Reaches y) : g'.Reaches (g.place y) := by
  induction hy with
  | entry hlt => exact hid.successor h.front (by simp) (h.place_lt hlt)
  | @step y next _ hedge ih =>
      obtain ⟨k, hk, hs, hlt⟩ := mem_targets.mp hedge
      have hne : y ≠ code.exit := by
        rintro rfl
        rw [hcode.exit_final k hk] at hs
        cases hs
      refine ih.successor (h.inner y k hk hne) ?_ (h.place_lt hlt)
      rw [successors_relocated]
      exact List.mem_map.mpr ⟨next, hs, rfl⟩

theorem reaches_back (hcode : code.Sound) (hid : g'.Reaches id) : g'.Reaches g.size := by
  obtain ⟨k, hk⟩ := hcode.exit_reached.node
  exact (h.reaches_place hcode hid hcode.exit_reached).successor (h.last k hk) (by simp) h.back_lt

theorem reaches_of_reaches (hcode : code.Sound) {x : Nat} (hx : g.Reaches x) :
    g'.Reaches x := by
  induction hx with
  | entry hlt => exact h.entry ▸ .entry (h.entry ▸ h.lt_size hlt)
  | @step x next hx hedge ih =>
      obtain ⟨m, hm, hs, hlt⟩ := mem_targets.mp hedge
      by_cases hcut : x = id
      · subst hcut
        cases hm.symm.trans h.node
        exact (h.reaches_back hcode ih).successor h.back hs (h.lt_size hlt)
      · exact ih.successor ((h.other x hx.lt hcut).trans hm) hs (h.lt_size hlt)

/-! ## Validity -/

theorem exit_of_eq (hexit : id = g.exit) : g'.exit = g.size := by
  rw [h.exit, if_pos hexit]

theorem exit_of_ne (hexit : id ≠ g.exit) : g'.exit = g.exit := by
  rw [h.exit, if_neg hexit]

theorem closed (hg : g.Sound) (hcode : code.Sound) :
    ∀ x m, g'.node? x = some m → ∀ s ∈ m.successors, s < g'.size := by
  intro x m hm s hs
  cases h.part_of_node? hm with
  | front =>
      rw [Node.successors_straight, List.mem_singleton] at hs
      exact hs ▸ h.place_lt hcode.entry_lt
  | back => exact h.lt_size (hg.closed id n h.node s hs)
  | other _ _ hm => exact h.lt_size (hg.closed x m hm s hs)
  | inner _ _ hk =>
      rw [successors_relocated] at hs
      obtain ⟨z, hz, rfl⟩ := List.mem_map.mp hs
      exact h.place_lt (hcode.closed _ _ hk z hz)
  | last =>
      rw [Node.successors_straight, List.mem_singleton] at hs
      exact hs ▸ h.back_lt

theorem sound (hg : g.Sound) (hcode : code.Sound) (hid : g.Reaches id) : g'.Sound where
  entry_lt := h.entry ▸ h.lt_size hg.entry_lt
  exit_lt := by
    have := hg.exit_lt
    rw [h.exit, h.size]
    split <;> omega
  closed := h.closed hg hcode
  exit_final := by
    intro m hm
    by_cases hexit : id = g.exit
    · rw [h.exit_of_eq hexit, h.back] at hm
      cases hm
      exact hg.exit_final n (hexit ▸ h.node)
    · rw [h.exit_of_ne hexit, h.other _ hg.exit_lt (Ne.symm hexit)] at hm
      exact hg.exit_final m hm
  follower := by
    intro x m hx hm hexit
    cases h.part_of_reaches hg hcode hid hx hm with
    | front => rfl
    | back => exact hg.follower id n hid h.node fun heq => hexit (h.exit_of_eq heq).symm
    | other hx hcut hm =>
        refine hg.follower x m hx hm ?_
        rintro rfl
        exact hexit (h.exit_of_ne (Ne.symm hcut)).symm
    | inner hy hlast hk => simpa [relocated] using hcode.follower _ _ hy hk hlast
    | last => rfl
  exit_reached := by
    by_cases hexit : id = g.exit
    · rw [h.exit_of_eq hexit]
      exact h.reaches_back hcode (h.reaches_of_reaches hcode hid)
    · rw [h.exit_of_ne hexit]
      exact h.reaches_of_reaches hcode hg.exit_reached

theorem fits (hg : g.Sound) (hcode : code.Sound) (hid : g.Reaches id) {declared : List Symbol}
    (hfits : g.Fits declared) (hcodeFits : code.Fits declared) : g'.Fits declared := by
  have hnode := hfits id n hid h.node
  intro x m hx hm
  cases h.part_of_reaches hg hcode hid hx hm with
  | front => exact ⟨fun i hi => hnode.block i (List.mem_of_mem_take hi), by simp [Node.straight]⟩
  | back => exact ⟨fun i hi => hnode.block i (List.mem_of_mem_drop hi), hnode.branches⟩
  | other hx _ hm => exact hfits x m hx hm
  | inner hy _ hk => exact Sequel.fits_relocated (hcodeFits _ _ hy hk)
  | last hk =>
      exact ⟨(hcodeFits _ _ hcode.exit_reached hk).block, by simp [Node.straight]⟩

end Spliced

end Graph

end KernelAlgebra
