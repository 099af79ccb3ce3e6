import KernelAlgebra.Program.Splice
import KernelAlgebra.Proofs.Machine.Embedding

/-!
# One graph after another

Appending a graph, putting a block before the entry and putting one behind the exit are the same
thing: the nodes of two graphs stand in one arena, and the exit of the first leads to the entry
of the second.  The result is sound if both parts are, and it runs one part after the other.
-/

namespace KernelAlgebra.Graph

def relocated (f : Nat → Nat) (n : Node) : Node :=
  { n with
    branches := n.branches.map fun b => { b with target := f b.target },
    follower := n.follower.map f }

theorem successors_relocated (f : Nat → Nat) (n : Node) :
    (relocated f n).successors = n.successors.map f := by
  unfold Node.successors relocated
  cases n.follower <;> simp

/-- The first graph stands at the places `f₁`, the second one behind it at the places `f₂`. -/
structure Sequel (f₁ f₂ : Nat → Nat) (g₁ g₂ g : Graph) : Prop where
  entry : g.entry = f₁ g₁.entry
  exit : g.exit = f₂ g₂.exit
  first : ∀ id n, g₁.node? id = some n → id ≠ g₁.exit → g.node? (f₁ id) = some (relocated f₁ n)
  link : ∀ n, g₁.node? g₁.exit = some n →
    g.node? (f₁ g₁.exit) = some { n with follower := some (f₂ g₂.entry) }
  second : ∀ id n, g₂.node? id = some n → g.node? (f₂ id) = some (relocated f₂ n)
  cover : ∀ x, x < g.size → (∃ id < g₁.size, x = f₁ id) ∨ ∃ id < g₂.size, x = f₂ id
  apart : ∀ id < g₁.size, ∀ j < g₂.size, f₁ id ≠ f₂ j
  injective : ∀ id < g₂.size, ∀ j < g₂.size, f₂ id = f₂ j → id = j

namespace Sequel

variable {f₁ f₂ : Nat → Nat} {g₁ g₂ g : Graph}

theorem first_lt (h : Sequel f₁ f₂ g₁ g₂ g) {id : Nat} (hid : id < g₁.size) :
    f₁ id < g.size := by
  obtain ⟨n, hn⟩ := node?_eq_some_of_lt hid
  by_cases hexit : id = g₁.exit
  · subst hexit
    exact lt_of_node? (h.link n hn)
  · exact lt_of_node? (h.first id n hn hexit)

theorem second_lt (h : Sequel f₁ f₂ g₁ g₂ g) {id : Nat} (hid : id < g₂.size) :
    f₂ id < g.size := by
  obtain ⟨n, hn⟩ := node?_eq_some_of_lt hid
  exact lt_of_node? (h.second id n hn)

theorem successors_link (hsound : g₁.Sound) {n : Node} (hn : g₁.node? g₁.exit = some n)
    (target : Nat) : ({ n with follower := some target } : Node).successors = [target] := by
  have hbranches := (List.append_eq_nil_iff.mp (hsound.exit_final n hn)).1
  simp only [Node.successors, hbranches, List.nil_append, Option.toList_some]

/-! ## Reachable nodes -/

theorem reaches_cases (h : Sequel f₁ f₂ g₁ g₂ g) (h₁ : g₁.Sound) (h₂ : g₂.Sound) {x : Nat}
    (hx : g.Reaches x) :
    (∃ id, g₁.Reaches id ∧ x = f₁ id) ∨ ∃ id, g₂.Reaches id ∧ x = f₂ id := by
  induction hx with
  | entry => exact .inl ⟨g₁.entry, .entry h₁.entry_lt, h.entry⟩
  | step _ hedge ih =>
      obtain ⟨m, hm, hs, _⟩ := mem_targets.mp hedge
      rcases ih with ⟨id, hreach, rfl⟩ | ⟨id, hreach, rfl⟩
      · obtain ⟨n, hn⟩ := hreach.node
        by_cases hexit : id = g₁.exit
        · subst hexit
          cases hm.symm.trans (h.link n hn)
          rw [successors_link h₁ hn] at hs
          exact .inr ⟨g₂.entry, .entry h₂.entry_lt, List.mem_singleton.mp hs⟩
        · cases hm.symm.trans (h.first id n hn hexit)
          rw [successors_relocated] at hs
          obtain ⟨y, hy, rfl⟩ := List.mem_map.mp hs
          exact .inl ⟨y, hreach.of_mem_successors h₁ hn hy, rfl⟩
      · obtain ⟨n, hn⟩ := hreach.node
        cases hm.symm.trans (h.second id n hn)
        rw [successors_relocated] at hs
        obtain ⟨y, hy, rfl⟩ := List.mem_map.mp hs
        exact .inr ⟨y, hreach.of_mem_successors h₂ hn hy, rfl⟩

theorem reaches_first (h : Sequel f₁ f₂ g₁ g₂ g) (h₁ : g₁.Sound) {id : Nat}
    (hreach : g₁.Reaches id) : g.Reaches (f₁ id) := by
  induction hreach with
  | entry hlt => exact h.entry ▸ .entry (h.entry ▸ h.first_lt hlt)
  | @step x y hx hedge ih =>
      obtain ⟨n, hn, hs, hlt⟩ := mem_targets.mp hedge
      have hexit : x ≠ g₁.exit := by
        rintro rfl
        rw [h₁.exit_final n hn] at hs
        cases hs
      refine ih.successor (h.first x n hn hexit) ?_ (h.first_lt hlt)
      rw [successors_relocated]
      exact List.mem_map.mpr ⟨y, hs, rfl⟩

theorem reaches_second (h : Sequel f₁ f₂ g₁ g₂ g) (h₁ : g₁.Sound) {id : Nat}
    (hreach : g₂.Reaches id) : g.Reaches (f₂ id) := by
  induction hreach with
  | entry hlt =>
      obtain ⟨n, hn⟩ := h₁.exit_reached.node
      refine (h.reaches_first h₁ h₁.exit_reached).successor (h.link n hn) ?_ (h.second_lt hlt)
      rw [successors_link h₁ hn]
      exact List.mem_singleton.mpr rfl
  | @step x y hx hedge ih =>
      obtain ⟨n, hn, hs, hlt⟩ := mem_targets.mp hedge
      refine ih.successor (h.second x n hn) ?_ (h.second_lt hlt)
      rw [successors_relocated]
      exact List.mem_map.mpr ⟨y, hs, rfl⟩

/-! ## Validity -/

theorem sound (h : Sequel f₁ f₂ g₁ g₂ g) (h₁ : g₁.Sound) (h₂ : g₂.Sound) : g.Sound where
  entry_lt := h.entry ▸ h.first_lt h₁.entry_lt
  exit_lt := h.exit ▸ h.second_lt h₂.exit_lt
  closed := by
    intro x m hm s hs
    rcases h.cover x (lt_of_node? hm) with ⟨id, hid, rfl⟩ | ⟨id, hid, rfl⟩
    · obtain ⟨n, hn⟩ := node?_eq_some_of_lt hid
      by_cases hexit : id = g₁.exit
      · subst hexit
        cases hm.symm.trans (h.link n hn)
        rw [successors_link h₁ hn] at hs
        exact List.mem_singleton.mp hs ▸ h.second_lt h₂.entry_lt
      · cases hm.symm.trans (h.first id n hn hexit)
        rw [successors_relocated] at hs
        obtain ⟨y, hy, rfl⟩ := List.mem_map.mp hs
        exact h.first_lt (h₁.closed id n hn y hy)
    · obtain ⟨n, hn⟩ := node?_eq_some_of_lt hid
      cases hm.symm.trans (h.second id n hn)
      rw [successors_relocated] at hs
      obtain ⟨y, hy, rfl⟩ := List.mem_map.mp hs
      exact h.second_lt (h₂.closed id n hn y hy)
  exit_final := by
    intro m hm
    obtain ⟨n, hn⟩ := node?_eq_some_of_lt h₂.exit_lt
    rw [h.exit] at hm
    cases hm.symm.trans (h.second _ n hn)
    rw [successors_relocated, h₂.exit_final n hn]
    rfl
  follower := by
    intro x m hx hm hexit
    rcases h.reaches_cases h₁ h₂ hx with ⟨id, hreach, rfl⟩ | ⟨id, hreach, rfl⟩
    · obtain ⟨n, hn⟩ := hreach.node
      by_cases hid : id = g₁.exit
      · subst hid
        cases hm.symm.trans (h.link n hn)
        rfl
      · cases hm.symm.trans (h.first id n hn hid)
        simpa [relocated] using h₁.follower id n hreach hn hid
    · obtain ⟨n, hn⟩ := hreach.node
      cases hm.symm.trans (h.second id n hn)
      have hid : id ≠ g₂.exit := by
        rintro rfl
        exact hexit h.exit.symm
      simpa [relocated] using h₂.follower id n hreach hn hid
  exit_reached := h.exit ▸ h.reaches_second h₁ h₂.exit_reached

theorem fits_relocated {declared : List Symbol} {f : Nat → Nat} {n : Node}
    (h : n.Fits declared) : (relocated f n).Fits declared := by
  refine ⟨h.block, ?_⟩
  intro b' hb'
  obtain ⟨b, hb, rfl⟩ := List.mem_map.mp hb'
  obtain ⟨hpresent, hchecked, hdeclared⟩ := h.branches b hb
  exact ⟨hpresent, hchecked, hdeclared⟩

theorem fits (h : Sequel f₁ f₂ g₁ g₂ g) (h₁ : g₁.Sound) (h₂ : g₂.Sound)
    {declared : List Symbol} (hfits₁ : g₁.Fits declared) (hfits₂ : g₂.Fits declared) :
    g.Fits declared := by
  intro x m hx hm
  rcases h.reaches_cases h₁ h₂ hx with ⟨id, hreach, rfl⟩ | ⟨id, hreach, rfl⟩
  · obtain ⟨n, hn⟩ := hreach.node
    by_cases hid : id = g₁.exit
    · subst hid
      cases hm.symm.trans (h.link n hn)
      exact ⟨(hfits₁ _ n hreach hn).block, (hfits₁ _ n hreach hn).branches⟩
    · cases hm.symm.trans (h.first id n hn hid)
      exact fits_relocated (hfits₁ id n hreach hn)
  · obtain ⟨n, hn⟩ := hreach.node
    cases hm.symm.trans (h.second id n hn)
    exact fits_relocated (hfits₂ id n hreach hn)

end Sequel

/-! ## The three ways to put graphs one after another -/

theorem relocated_self (n : Node) : relocated (fun id => id) n = n := by
  simp [relocated]

theorem shift_eq_relocated {size base : Nat} {n : Node} (h : ∀ s ∈ n.successors, s < size) :
    shift size base n = relocated (· + base) n := by
  have hbranches : n.branches.map (fun b => { b with target := moved size base b.target }) =
      n.branches.map fun b => { b with target := b.target + base } := by
    apply List.map_congr_left
    intro b hb
    rw [moved_of_lt base (h b.target (target_mem_successors hb))]
  unfold shift relocated
  rw [hbranches]
  cases hfollower : n.follower with
  | none => rfl
  | some x =>
      have hx : x < size := h x (by simp [Node.successors, hfollower])
      have hlt : x + base < base + size := by omega
      simp only [Option.bind_some, moved_of_lt base hx, follower?_of_lt hlt, Option.map_some]

theorem node?_modify (g : Graph) (id : Nat) (f : Node → Node) (x : Nat) :
    (g.modify id f).node? x = if id = x then (g.node? x).map f else g.node? x := by
  unfold modify node?
  rw [List.getElem?_modify]
  by_cases h : id = x
  · simp [h]
  · simp [h]

theorem node?_of_lt_append {g : Graph} {more : List Node} {id : Nat} (h : id < g.size)
    (entry exit : Nat) : (⟨g.nodes ++ more, entry, exit⟩ : Graph).node? id = g.node? id :=
  List.getElem?_append_left h

theorem sequel_append {g sub : Graph} (hsound : g.Sound) (hsub : sub.Sound) :
    Sequel (fun id => id) (· + g.size) g sub (g.append sub) where
  entry := rfl
  exit := moved_of_lt g.size hsub.exit_lt
  first := by
    intro id n hn hexit
    change ((g.absorb sub).setFollower g.exit _).node? id = _
    rw [setFollower, node?_modify, if_neg (Ne.symm hexit), absorb,
      node?_of_lt_append (lt_of_node? hn), hn, relocated_self]
  link := by
    intro n hn
    have hentry : sub.entryIn g = sub.entry + g.size := moved_of_lt g.size hsub.entry_lt
    have hinside : sub.entry + g.size < g.size + sub.size := by
      have := hsub.entry_lt
      omega
    change ((g.absorb sub).setFollower g.exit _).node? g.exit = _
    rw [setFollower, node?_modify, if_pos rfl, absorb, node?_of_lt_append hsound.exit_lt, hn,
      hentry, follower?_of_lt hinside]
    rfl
  second := by
    intro id n hn
    have hexit : g.exit ≠ id + g.size := by
      have := hsound.exit_lt
      omega
    have hmoved : (g.absorb sub).node? (id + g.size) = (sub.node? id).map (shift sub.size g.size) := by
      unfold absorb node?
      rw [List.getElem?_append_right (Nat.le_add_left g.size id), List.getElem?_map]
      simp [size]
    change ((g.absorb sub).setFollower g.exit _).node? (id + g.size) = _
    rw [setFollower, node?_modify, if_neg hexit, hmoved, hn, Option.map_some,
      shift_eq_relocated (hsub.closed id n hn)]
  cover := by
    intro x hx
    have hsize : (g.append sub).size = g.size + sub.size := by
      simp [append, setFollower, modify, absorb, size]
    by_cases hlt : x < g.size
    · exact .inl ⟨x, hlt, rfl⟩
    · exact .inr ⟨x - g.size, by omega, by omega⟩
  apart := by
    intro id hid j _
    omega
  injective := by
    intro id _ j _ h
    omega

def single (block : Block) : Graph := ⟨[⟨block, [], none⟩], 0, 0⟩

theorem node?_single {block : Block} {id : Nat} {n : Node} (h : (single block).node? id = some n) :
    id = 0 ∧ n = ⟨block, [], none⟩ := by
  cases id with
  | zero => exact ⟨rfl, (Option.some.inj h).symm⟩
  | succ id => cases h

theorem sound_single (block : Block) : (single block).Sound where
  entry_lt := Nat.zero_lt_one
  exit_lt := Nat.zero_lt_one
  closed := by
    intro id n hn s hs
    rw [(node?_single hn).2] at hs
    cases hs
  exit_final := by
    intro n hn
    rw [(node?_single hn).2]
    rfl
  follower := by
    intro id n _ hn hexit
    exact absurd (node?_single hn).1 hexit
  exit_reached := .entry Nat.zero_lt_one

theorem fits_single {declared : List Symbol} {block : Block}
    (h : ∀ i ∈ block, i.Fits declared) : (single block).Fits declared := by
  intro id n _ hn
  rw [(node?_single hn).2]
  exact ⟨h, by simp⟩

theorem node?_last (g : Graph) (n : Node) (entry exit : Nat) :
    (⟨g.nodes ++ [n], entry, exit⟩ : Graph).node? g.size = some n := by
  simp [node?, size]

theorem sequel_prologue {g : Graph} (hsound : g.Sound) (block : Block) :
    Sequel (fun _ => g.size) (fun id => id) (single block) g
      (g.prependEntry.setBlock g.size block) where
  entry := rfl
  exit := rfl
  first := by
    intro id n hn hexit
    exact absurd (node?_single hn).1 hexit
  link := by
    intro n hn
    rw [(node?_single hn).2, setBlock, node?_modify, if_pos rfl, prependEntry, node?_last,
      follower?_of_lt hsound.entry_lt]
    rfl
  second := by
    intro id n hn
    have hlt := lt_of_node? hn
    rw [setBlock, node?_modify, if_neg (Nat.ne_of_gt hlt), prependEntry, node?_of_lt_append hlt,
      hn, relocated_self]
  cover := by
    intro x hx
    have hsize : (g.prependEntry.setBlock g.size block).size = g.size + 1 := by
      simp [prependEntry, setBlock, modify, size]
    by_cases hlt : x < g.size
    · exact .inr ⟨x, hlt, rfl⟩
    · exact .inl ⟨0, Nat.zero_lt_one, by omega⟩
  apart := by
    intro _ _ j hj
    omega
  injective := fun _ _ _ _ h => h

theorem sequel_epilogue {g : Graph} (hsound : g.Sound) (block : Block) :
    Sequel (fun id => id) (fun _ => g.size) g (single block)
      (g.appendExit.setBlock g.size block) where
  entry := rfl
  exit := rfl
  first := by
    intro id n hn hexit
    have hlt := lt_of_node? hn
    rw [setBlock, node?_modify, if_neg (Nat.ne_of_gt hlt)]
    change (g.newNode.1.setFollower g.exit _).node? id = _
    rw [setFollower, node?_modify, if_neg (Ne.symm hexit), newNode, node?_of_lt_append hlt, hn,
      relocated_self]
  link := by
    intro n hn
    rw [setBlock, node?_modify, if_neg (Nat.ne_of_gt hsound.exit_lt)]
    change (g.newNode.1.setFollower g.exit _).node? g.exit = _
    rw [setFollower, node?_modify, if_pos rfl, newNode, node?_of_lt_append hsound.exit_lt, hn]
    rfl
  second := by
    intro id n hn
    rw [(node?_single hn).2, setBlock, node?_modify, if_pos rfl]
    change ((g.newNode.1.setFollower g.exit _).node? g.size).map _ = _
    rw [setFollower, node?_modify, if_neg (Nat.ne_of_lt hsound.exit_lt), newNode, node?_last]
    rfl
  cover := by
    intro x hx
    have hsize : (g.appendExit.setBlock g.size block).size = g.size + 1 := by
      simp [appendExit, setFollower, setBlock, newNode, modify, size]
    by_cases hlt : x < g.size
    · exact .inl ⟨x, hlt, rfl⟩
    · exact .inr ⟨0, Nat.zero_lt_one, by omega⟩
  apart := by
    intro id hid _ _
    omega
  injective := by
    intro id hid j hj _
    have hid : id < 1 := hid
    have hj : j < 1 := hj
    omega

end KernelAlgebra.Graph
