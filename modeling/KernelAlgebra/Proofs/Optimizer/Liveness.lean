import KernelAlgebra.Optimizer.DeadCode
import KernelAlgebra.Proofs.Program.Collection

/-!
# The live sets are the least solution

Bringing one node up to date only adds symbols to its set, whichever of the others are up to date
already, and sets only ever hold outputs and symbols that the code mentions.  A round that is not
the last adds a symbol to some set, so the rounds that the analysis allows itself suffice.
-/

namespace KernelAlgebra.Liveness

variable {p : Program}

/-! ## Membership -/

theorem mem_transfer {i : Instruction} {live : LiveSet} {s : Symbol} :
    s ∈ transfer i live ↔
      (s ∈ live ∧ ¬ (i.dst.isAbsent = false ∧ i.dst.covers = true ∧ s = i.dst.sym)) ∨
        s ∈ i.uses := by
  unfold transfer
  rw [mem_addNew]
  cases i.dst.isAbsent <;> cases i.dst.covers <;> simp

theorem transfer_mono {i : Instruction} {live live' : LiveSet} (h : live ⊆ live') :
    transfer i live ⊆ transfer i live' := by
  intro s hs
  rcases mem_transfer.mp hs with ⟨hlive, hkept⟩ | huse
  · exact mem_transfer.mpr (.inl ⟨h hlive, hkept⟩)
  · exact mem_transfer.mpr (.inr huse)

theorem throughBlock_mono {block : Block} {live live' : LiveSet} (h : live ⊆ live') :
    throughBlock block live ⊆ throughBlock block live' := by
  induction block with
  | nil => exact h
  | cons i rest ih => exact transfer_mono ih

theorem mem_of_mem_throughBlock {block : Block} {live : LiveSet} {s : Symbol}
    (h : s ∈ throughBlock block live) : s ∈ live ∨ ∃ i ∈ block, s ∈ i.uses := by
  induction block with
  | nil => exact .inl h
  | cons i rest ih =>
      rcases mem_transfer.mp h with ⟨hlive, _⟩ | huse
      · rcases ih hlive with hlive | ⟨j, hj, hs⟩
        · exact .inl hlive
        · exact .inr ⟨j, by simp [hj], hs⟩
      · exact .inr ⟨i, by simp, huse⟩

theorem mem_liveOut {t : Table} {id : Nat} {n : Node} {s : Symbol} :
    s ∈ liveOut p t id n ↔
      (id = p.graph.exit ∧ s ∈ p.outputs) ∨ (∃ next ∈ n.successors, s ∈ liveIn t next) ∨
        s ∈ conditionSymbols n := by
  unfold liveOut exitSet
  rw [mem_addNew, mem_addNew, List.mem_flatMap, or_assoc]
  split
  · rename_i h
    simp [h, mem_dedup]
  · rename_i h
    simp [h]

/-! ## Tables -/

def Below (t t' : Table) : Prop := ∀ id, liveIn t id ⊆ liveIn t' id

theorem Below.refl (t : Table) : Below t t := fun _ _ hs => hs

theorem liveOut_mono {t t' : Table} (h : Below t t') (id : Nat) (n : Node) :
    liveOut p t id n ⊆ liveOut p t' id n := by
  intro s hs
  rcases mem_liveOut.mp hs with hexit | ⟨next, hnext, hs⟩ | hcond
  · exact mem_liveOut.mpr (.inl hexit)
  · exact mem_liveOut.mpr (.inr (.inl ⟨next, hnext, h next hs⟩))
  · exact mem_liveOut.mpr (.inr (.inr hcond))

theorem below_cons {set set' : LiveSet} {t t' : Table} :
    Below (set :: t) (set' :: t') ↔ set ⊆ set' ∧ Below t t' := by
  constructor
  · intro h
    exact ⟨by simpa [liveIn] using h 0, fun id => by simpa [liveIn] using h (id + 1)⟩
  · rintro ⟨hset, htable⟩ id
    cases id with
    | zero => simpa [liveIn] using hset
    | succ id => simpa [liveIn] using htable id

/-- No set holds a symbol that an update would not put there. -/
def Grounded (p : Program) (t : Table) : Prop :=
  ∀ id n, p.graph.node? id = some n → liveIn t id ⊆ newLiveIn p t id n

theorem newLiveIn_mono {t t' : Table} (h : Below t t') (id : Nat) (n : Node) :
    newLiveIn p t id n ⊆ newLiveIn p t' id n :=
  throughBlock_mono (liveOut_mono h id n)

theorem sameSet_iff {live live' : LiveSet} :
    sameSet live live' = true ↔ live ⊆ live' ∧ live' ⊆ live := by
  simp [sameSet, List.subset_def]

/-! ## Updates -/

section Updates

variable {t : Table} {id : Nat} {n : Node}

@[simp] theorem length_update (id : Nat) (t : Table) : (update p id t).length = t.length := by
  unfold update
  split
  · rfl
  · dsimp only
    split <;> simp

theorem liveIn_update_of_ne {id' : Nat} (h : id' ≠ id) :
    liveIn (update p id t) id' = liveIn t id' := by
  unfold update
  split
  · rfl
  · dsimp only
    split
    · rfl
    · simp [liveIn, List.getElem?_set_ne (Ne.symm h)]

theorem mem_liveIn_update (hlen : t.length = p.graph.size) (hn : p.graph.node? id = some n)
    {s : Symbol} : s ∈ liveIn (update p id t) id ↔ s ∈ newLiveIn p t id n := by
  simp only [update, hn]
  split
  · rename_i hsame
    obtain ⟨hnew, hold⟩ := sameSet_iff.mp hsame
    exact ⟨fun hs => hold hs, fun hs => hnew hs⟩
  · have hid : id < t.length := hlen ▸ Graph.lt_of_node? hn
    simp [liveIn, List.getElem?_set_self hid]

theorem update_eq_self (h : ∀ n, p.graph.node? id = some n →
    newLiveIn p t id n ⊆ liveIn t id ∧ liveIn t id ⊆ newLiveIn p t id n) : update p id t = t := by
  unfold update
  split
  · rfl
  · rename_i n hn
    exact if_pos (sameSet_iff.mpr (h n hn))

theorem Grounded.below_update (h : Grounded p t) (hlen : t.length = p.graph.size) (id : Nat) :
    Below t (update p id t) := by
  intro id' s hs
  by_cases hid : id' = id
  · subst hid
    cases hn : p.graph.node? id' with
    | none => simpa [update, hn] using hs
    | some n => exact (mem_liveIn_update hlen hn).mpr (h id' n hn hs)
  · rwa [liveIn_update_of_ne hid]

theorem Grounded.update (h : Grounded p t) (hlen : t.length = p.graph.size) (id : Nat) :
    Grounded p (Liveness.update p id t) := by
  have hbelow := h.below_update hlen id
  intro id' n hn s hs
  refine newLiveIn_mono hbelow id' n ?_
  by_cases hid : id' = id
  · subst hid
    exact (mem_liveIn_update hlen hn).mp hs
  · rw [liveIn_update_of_ne hid] at hs
    exact h id' n hn hs

end Updates

/-! ## Rounds -/

section Rounds

variable {t t' : Table} {order : List Nat}

theorem round_preserves {P : Table → Prop} (hupdate : ∀ id ∈ order, ∀ t, P t → P (update p id t))
    (h : P t) : P (round p order t) := by
  induction order with
  | nil => exact h
  | cons id rest ih =>
      refine hupdate id (by simp) _ (ih fun id' hid' => hupdate id' (by simp [hid']))

/-- A table of the right size that no update can have put too much into. -/
structure Growing (p : Program) (t : Table) : Prop where
  length : t.length = p.graph.size
  grounded : Grounded p t

theorem Growing.update (h : Growing p t) (id : Nat) : Growing p (Liveness.update p id t) :=
  ⟨(length_update id t).trans h.length, h.grounded.update h.length id⟩

theorem Growing.round (h : Growing p t) (order : List Nat) : Growing p (Liveness.round p order t) :=
  round_preserves (fun id _ _ h => h.update id) h

theorem Growing.below_round (h : Growing p t) (order : List Nat) :
    Below t (Liveness.round p order t) := by
  induction order with
  | nil => exact Below.refl t
  | cons id rest ih =>
      have hrest := h.round rest
      exact fun id' _ hs => hrest.grounded.below_update hrest.length id id' (ih id' hs)

/-- Every node of the order has the set that an update would give it. -/
def Solved (p : Program) (order : List Nat) (t : Table) : Prop :=
  ∀ id ∈ order, ∀ n, p.graph.node? id = some n → newLiveIn p t id n ⊆ liveIn t id

theorem Growing.solved (h : Growing p t) (hround : Below (Liveness.round p order t) t) :
    Solved p order t := by
  induction order with
  | nil => simp [Solved]
  | cons id rest ih =>
      have hrest := h.round rest
      have hlast := hrest.grounded.below_update hrest.length id
      have hsolved := ih fun id' _ hs => hround id' (hlast id' hs)
      intro id' hid' n hn s hs
      rcases List.mem_cons.mp hid' with rfl | hid'
      · have hs' := newLiveIn_mono (h.below_round rest) id' n hs
        exact hround id' ((mem_liveIn_update hrest.length hn).mpr hs')
      · exact hsolved id' hid' n hn hs

theorem Growing.round_eq_self_iff (h : Growing p t) :
    Liveness.round p order t = t ↔ Solved p order t := by
  constructor
  · intro hround
    refine h.solved ?_
    rw [hround]
    exact Below.refl t
  · intro hsolved
    induction order with
    | nil => rfl
    | cons id rest ih =>
        have hrest : Liveness.round p rest t = t :=
          ih fun id' hid' => hsolved id' (List.mem_cons_of_mem id hid')
        change Liveness.update p id (Liveness.round p rest t) = t
        rw [hrest]
        exact update_eq_self fun n hn => ⟨hsolved id (by simp) n hn, h.grounded id n hn⟩

/-- The rounds that start with one table go on until none changes anything, and leave the other. -/
inductive RoundsEnd (p : Program) (order : List Nat) : Table → Table → Prop
  | last {t : Table} : round p order t = t → RoundsEnd p order t t
  | next {t t' : Table} : round p order t ≠ t → RoundsEnd p order (round p order t) t' →
      RoundsEnd p order t t'

theorem RoundsEnd.preserves {P : Table → Prop}
    (hupdate : ∀ id ∈ order, ∀ t, P t → P (update p id t)) (h : RoundsEnd p order t t')
    (ht : P t) : P t' := by
  induction h with
  | last => exact ht
  | next _ _ ih => exact ih (round_preserves hupdate ht)

theorem RoundsEnd.round_eq (h : RoundsEnd p order t t') : round p order t' = t' := by
  induction h with
  | last hround => exact hround
  | next _ _ ih => exact ih

end Rounds

/-! ## How many rounds there can be -/

def weight (candidates : List Symbol) (t : Table) : Nat :=
  total (t.map fun set => candidates.countP (· ∈ set))

theorem weight_le (candidates : List Symbol) (t : Table) :
    weight candidates t ≤ t.length * candidates.length := by
  induction t with
  | nil => simp [weight]
  | cons set t ih =>
      have hset : candidates.countP (· ∈ set) ≤ candidates.length := List.countP_le_length
      simp only [weight, List.map_cons, total_cons, List.length_cons, Nat.succ_mul] at ih ⊢
      omega

private theorem countP_mem_mono {candidates : List Symbol} {set set' : LiveSet}
    (h : set ⊆ set') : candidates.countP (· ∈ set) ≤ candidates.countP (· ∈ set') :=
  List.countP_mono_left fun s _ hs => by simpa using h (by simpa using hs)

private theorem countP_mem_lt {candidates : List Symbol} {set set' : LiveSet} {s : Symbol}
    (h : set ⊆ set') (hcandidate : s ∈ candidates) (hs : s ∉ set) (hs' : s ∈ set') :
    candidates.countP (· ∈ set) < candidates.countP (· ∈ set') := by
  induction candidates with
  | nil => simp at hcandidate
  | cons x rest ih =>
      have hrest : rest.countP (· ∈ set) ≤ rest.countP (· ∈ set') := countP_mem_mono h
      by_cases hx : x = s
      · subst hx
        simp [hs, hs']
        omega
      · have htail := ih (by simpa [Ne.symm hx] using hcandidate)
        by_cases hmem : x ∈ set
        · simp [hmem, h hmem]
          omega
        · by_cases hmem' : x ∈ set'
          · simp [hmem, hmem']
            omega
          · simpa [hmem, hmem'] using htail

theorem weight_mono {candidates : List Symbol} {t t' : Table} (hlen : t.length = t'.length)
    (hbelow : Below t t') : weight candidates t ≤ weight candidates t' := by
  induction t generalizing t' with
  | nil => simp [weight]
  | cons set t ih =>
      cases t' with
      | nil => simp at hlen
      | cons set' t' =>
          obtain ⟨hset, htable⟩ := below_cons.mp hbelow
          have hhead : candidates.countP (· ∈ set) ≤ candidates.countP (· ∈ set') :=
            countP_mem_mono hset
          have htail := ih (by simpa using hlen) htable
          simp only [weight, List.map_cons, total_cons] at htail ⊢
          omega

theorem weight_lt_of_below {candidates : List Symbol} {t t' : Table}
    (hlen : t.length = t'.length) (hbelow : Below t t') (hmore : ¬ Below t' t)
    (hwithin : ∀ id, liveIn t' id ⊆ candidates) : weight candidates t < weight candidates t' := by
  induction t generalizing t' with
  | nil =>
      cases t' with
      | nil => exact absurd hbelow hmore
      | cons set' t' => simp at hlen
  | cons set t ih =>
      cases t' with
      | nil => simp at hlen
      | cons set' t' =>
          obtain ⟨hset, htable⟩ := below_cons.mp hbelow
          have hlen' : t.length = t'.length := by simpa using hlen
          by_cases hsame : set' ⊆ set
          · -- the additional symbol is in the tail
            have hrest : ¬ Below t' t := fun h => hmore (below_cons.mpr ⟨hsame, h⟩)
            have hhead : candidates.countP (· ∈ set) ≤ candidates.countP (· ∈ set') :=
              countP_mem_mono hset
            have htail := ih hlen' htable hrest fun id => by
              simpa [liveIn] using hwithin (id + 1)
            simp only [weight, List.map_cons, total_cons] at htail ⊢
            omega
          · obtain ⟨s, hs', hs⟩ : ∃ s, s ∈ set' ∧ s ∉ set := by
              simpa [List.subset_def] using hsame
            have hhead := countP_mem_lt hset (by simpa [liveIn] using hwithin 0 hs') hs hs'
            have htail : weight candidates t ≤ weight candidates t' := weight_mono hlen' htable
            simp only [weight, List.map_cons, total_cons] at htail ⊢
            omega

/-! ## The result of the analysis -/

def candidates (p : Program) : List Symbol := dedup (p.outputs ++ p.mentions)

def Within (p : Program) (t : Table) : Prop := ∀ id, liveIn t id ⊆ candidates p

theorem Within.update {t : Table} {id : Nat} (hlen : t.length = p.graph.size)
    (hreach : p.graph.Reaches id) (h : Within p t) : Within p (Liveness.update p id t) := by
  intro id' s hs
  by_cases hid : id' = id
  swap
  · exact h id' (liveIn_update_of_ne hid ▸ hs)
  subst hid
  obtain ⟨n, hn⟩ := hreach.node
  have hmention : s ∈ Program.nodeSymbols n → s ∈ candidates p := by
    intro hs
    have := Program.mem_mentions.mpr ⟨id', n, hreach, hn, hs⟩
    simp [candidates, mem_dedup, this]
  rcases mem_of_mem_throughBlock ((mem_liveIn_update hlen hn).mp hs) with hout | ⟨i, hi, hs⟩
  · rcases mem_liveOut.mp hout with ⟨_, hs⟩ | ⟨next, _, hs⟩ | hs
    · simp [candidates, mem_dedup, hs]
    · exact h next hs
    · exact hmention (List.mem_append.mpr (.inr hs))
  · refine hmention (List.mem_append.mpr (.inl (List.mem_flatMap.mpr ⟨i, hi, ?_⟩)))
    simp [Program.instructionSymbols, hs]

theorem roundsEnd_iterate {order : List Nat} {fuel : Nat} {t : Table}
    (horder : ∀ id ∈ order, p.graph.Reaches id) (hgrowing : Growing p t) (hwithin : Within p t)
    (hfuel : p.graph.size * (candidates p).length < fuel + weight (candidates p) t) :
    RoundsEnd p order t (iterate p order fuel t) := by
  induction fuel generalizing t with
  | zero =>
      have hbound := weight_le (candidates p) t
      rw [hgrowing.length] at hbound
      omega
  | succ fuel ih =>
      have hgrowing' := hgrowing.round order
      have hwithin' : Within p (round p order t) :=
        (round_preserves (P := fun t => Growing p t ∧ Within p t)
          (fun id hid _ h => ⟨h.1.update id, h.2.update h.1.length (horder id hid)⟩)
          ⟨hgrowing, hwithin⟩).2
      simp only [iterate]
      split
      · rename_i hround
        exact .last hround
      · rename_i hround
        have hmore : ¬ Below (round p order t) t := fun h =>
          hround (hgrowing.round_eq_self_iff.mpr (hgrowing.solved h))
        have hweight := weight_lt_of_below (hgrowing.length.trans hgrowing'.length.symm)
          (hgrowing.below_round order) hmore hwithin'
        exact .next hround (ih hgrowing' hwithin' (by omega))

theorem liveIn_start (id : Nat) : liveIn (start p) id = [] := by
  simp only [liveIn, start, List.getElem?_map]
  cases p.graph.nodes[id]? <;> rfl

theorem growing_start (p : Program) : Growing p (start p) where
  length := by simp [start, Graph.size]
  grounded := fun id n _ => by
    rw [liveIn_start]
    exact List.nil_subset _

theorem roundsEnd_table (p : Program) : RoundsEnd p p.graph.reachable (start p) (table p) := by
  refine roundsEnd_iterate (fun id hid => Graph.mem_reachable.mp hid) (growing_start p) ?_ ?_
  · intro id
    rw [liveIn_start]
    exact List.nil_subset _
  · simp only [roundBound, candidates]
    omega

theorem growing_table (p : Program) : Growing p (table p) :=
  (roundsEnd_table p).preserves (fun id _ _ h => h.update id) (growing_start p)

theorem mem_liveIn_table {id : Nat} {n : Node} {s : Symbol} (hreach : p.graph.Reaches id)
    (hn : p.graph.node? id = some n) (hs : s ∈ throughBlock n.block (liveOut p (table p) id n)) :
    s ∈ liveIn (table p) id :=
  (growing_table p).round_eq_self_iff.mp (roundsEnd_table p).round_eq id
    (Graph.mem_reachable.mpr hreach) n hn hs

end KernelAlgebra.Liveness

namespace KernelAlgebra

/-!
## Live symbols and the ways to their readers

A symbol is live at a point exactly when a way leads from there to a reader of it on which nothing
overwrites all of it.  Every solution of the analysis holds these symbols, and no round adds any
other, so the analysis finds the least solution.
-/

def Graph.EdgesInside (g : Graph) : Prop :=
  ∀ id n, g.node? id = some n → ∀ x ∈ n.successors, x < g.size

namespace Liveness

variable {p : Program} {g : Graph} {outputs : List Symbol} {s : Symbol}

/-- From a point inside a node, a way leads to a reader of the symbol before it is overwritten. -/
inductive Live (outputs : List Symbol) (g : Graph) (s : Symbol) : Nat → Block → Prop
  | output : s ∈ outputs → Live outputs g s g.exit []
  | condition {id : Nat} {n : Node} :
      g.node? id = some n → s ∈ conditionSymbols n → Live outputs g s id []
  | edge {id next : Nat} {n m : Node} :
      g.node? id = some n → next ∈ n.successors → g.node? next = some m →
      Live outputs g s next m.block → Live outputs g s id []
  | use {id : Nat} {i : Instruction} {rest : Block} :
      s ∈ i.uses → Live outputs g s id (i :: rest)
  | past {id : Nat} {i : Instruction} {rest : Block} :
      ¬ (i.dst.isAbsent = false ∧ i.dst.covers = true ∧ s = i.dst.sym) →
      Live outputs g s id rest → Live outputs g s id (i :: rest)

/-! ## What the analysis finds is live -/

theorem live_of_mem_throughBlock {live : LiveSet} {id : Nat} {block : Block}
    (hlive : ∀ s ∈ live, Live outputs g s id []) (h : s ∈ throughBlock block live) :
    Live outputs g s id block := by
  induction block with
  | nil => exact hlive s h
  | cons i rest ih =>
      rcases mem_transfer.mp h with ⟨hrest, hkept⟩ | huse
      · exact .past hkept (ih hrest)
      · exact .use huse

/-- Every set of the table holds live symbols only. -/
def Justified (p : Program) (t : Table) : Prop :=
  ∀ id n, p.graph.node? id = some n →
    ∀ s ∈ liveIn t id, Live p.outputs p.graph s id n.block

theorem Justified.liveOut {t : Table} (h : Justified p t) (hclosed : p.graph.EdgesInside)
    {id : Nat} {n : Node} (hn : p.graph.node? id = some n) :
    ∀ s ∈ Liveness.liveOut p t id n, Live p.outputs p.graph s id [] := by
  intro s hs
  rcases mem_liveOut.mp hs with ⟨rfl, houtput⟩ | ⟨next, hnext, hnextLive⟩ | hcondition
  · exact .output houtput
  · obtain ⟨m, hm⟩ := Graph.node?_eq_some_of_lt (hclosed id n hn next hnext)
    exact .edge hn hnext hm (h next m hm s hnextLive)
  · exact .condition hn hcondition

theorem Justified.update {t : Table} {id : Nat} (h : Justified p t)
    (hclosed : p.graph.EdgesInside) (hlen : t.length = p.graph.size) :
    Justified p (Liveness.update p id t) := by
  intro id' n hn s hs
  by_cases hid : id' = id
  · subst hid
    exact live_of_mem_throughBlock (h.liveOut hclosed hn) ((mem_liveIn_update hlen hn).mp hs)
  · exact h id' n hn s (liveIn_update_of_ne hid ▸ hs)

theorem justified_table (hclosed : p.graph.EdgesInside) : Justified p (table p) := by
  have hstart : Justified p (start p) := by
    intro id n _ s hs
    rw [liveIn_start] at hs
    cases hs
  exact ((roundsEnd_table p).preserves (P := fun t => Growing p t ∧ Justified p t)
    (fun id _ _ h => ⟨h.1.update id, h.2.update hclosed h.1.length⟩)
    ⟨growing_start p, hstart⟩).2

/-! ## What is live is found -/

theorem Live.mem_throughBlock {id : Nat} {rest : Block}
    (h : Live p.outputs p.graph s id rest) {n : Node} (hreach : p.graph.Reaches id)
    (hn : p.graph.node? id = some n) :
    s ∈ throughBlock rest (Liveness.liveOut p (table p) id n) := by
  induction h generalizing n with
  | output hs => exact mem_liveOut.mpr (.inl ⟨rfl, hs⟩)
  | condition hn' hs =>
      cases hn.symm.trans hn'
      exact mem_liveOut.mpr (.inr (.inr hs))
  | @edge id next n' m hn' hnext hm _ ih =>
      cases hn.symm.trans hn'
      have hreach' := hreach.successor hn hnext (Graph.lt_of_node? hm)
      exact mem_liveOut.mpr (.inr (.inl ⟨next, hnext, mem_liveIn_table hreach' hm (ih hreach' hm)⟩))
  | use huse => exact mem_transfer.mpr (.inr huse)
  | past hkept _ ih => exact mem_transfer.mpr (.inl ⟨ih hreach hn, hkept⟩)

theorem mem_throughBlock_iff_live (hclosed : p.graph.EdgesInside) {id : Nat} {n : Node}
    (hreach : p.graph.Reaches id) (hn : p.graph.node? id = some n)
    {rest : Block} :
    s ∈ throughBlock rest (Liveness.liveOut p (table p) id n) ↔
      Live p.outputs p.graph s id rest :=
  ⟨live_of_mem_throughBlock ((justified_table hclosed).liveOut hclosed hn),
    fun h => h.mem_throughBlock hreach hn⟩

end Liveness

end KernelAlgebra
