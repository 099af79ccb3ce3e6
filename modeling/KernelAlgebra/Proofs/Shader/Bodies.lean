import KernelAlgebra.Proofs.Shader.Expressions
import KernelAlgebra.Proofs.Validity
import Mathlib.Data.List.Perm.Subperm

/-!
# How wide the main function is

A graph without branches is written along its followers, any other node by node.  Either way the
reachable nodes are written, and what they need for it is what their instructions and conditions
need.
-/

namespace KernelAlgebra

/-! ## Nodes -/

namespace Node

def spelled (n : Node) : List View :=
  n.block.flatMap Instruction.spelled ++ n.branches.map Branch.cond

structure Lettered (n : Node) : Prop where
  block : ∀ i ∈ n.block, i.Lettered
  branches : ∀ b ∈ n.branches, b.Lettered

def Short (n : Node) : Prop := ∀ i ∈ n.block, i.Short

structure Writable (n : Node) : Prop where
  block : ∀ i ∈ n.block, i.Writable
  branches : ∀ b ∈ n.branches, b.cond.Shown

end Node

namespace Graph

/-- What holds of each node with one of these ids. -/
def Each (g : Graph) (ids : List Nat) (P : Node → Prop) : Prop :=
  ∀ id ∈ ids, ∀ n, g.node? id = some n → P n

theorem each_nil {g : Graph} {P : Node → Prop} : g.Each [] P := by simp [Each]

theorem each_cons {g : Graph} {id : Nat} {n : Node} (hn : g.node? id = some n) {rest : List Nat}
    {P : Node → Prop} : g.Each (id :: rest) P ↔ P n ∧ g.Each rest P := by
  simp [Each, hn]

def chain (g : Graph) : Nat → List Nat → Option Nat → List Nat
  | 0, _, _ => []
  | _ + 1, _, none => []
  | fuel + 1, seen, some id =>
      if id = nowhere || id ∈ seen then []
      else id :: chain g fuel (id :: seen) ((g.node? id).bind Node.follower)

def written (g : Graph) : List Nat :=
  if Shader.isSequence g then g.chain (g.size + 1) [] (some g.entry) else g.reachable

theorem reaches_of_mem_chain {g : Graph} (hsound : g.Sound) {fuel : Nat} {seen : List Nat}
    {next : Option Nat} (hnext : ∀ id ∈ next, g.Reaches id) {id : Nat}
    (h : id ∈ g.chain fuel seen next) : g.Reaches id := by
  fun_induction chain g fuel seen next with
  | case1 => simp at h
  | case2 => simp at h
  | case3 => simp at h
  | case4 fuel seen x hx ih =>
      have hreach := hnext x rfl
      rcases List.mem_cons.mp h with rfl | h
      · exact hreach
      · obtain ⟨n, hn⟩ := hreach.node
        refine ih (fun y hy => hreach.of_mem_successors hsound hn ?_) h
        have hfollower : n.follower = some y := by simpa [hn] using hy
        simp [Node.successors, hfollower]

theorem reaches_of_mem_written {g : Graph} (hsound : g.Sound) {id : Nat} (h : id ∈ g.written) :
    g.Reaches id := by
  unfold written at h
  split at h
  · refine reaches_of_mem_chain hsound ?_ h
    rintro _ ⟨⟩
    exact .entry hsound.entry_lt
  · exact mem_reachable.mp h

theorem branches_of_isSequence {g : Graph} (h : Shader.isSequence g = true) {id : Nat} {n : Node}
    (hreach : g.Reaches id) (hn : g.node? id = some n) : n.branches = [] := by
  simp only [Shader.isSequence, List.all_eq_true, List.isEmpty_iff] at h
  exact h (id, n) (mem_reachableNodes.mpr ⟨hreach, hn⟩)

theorem follower_mem_chain {g : Graph} (hsize : g.size ≤ nowhere) (fuel : Nat) (seen : List Nat)
    (next : Option Nat) (hfuel : g.size < fuel + seen.length) (hseen : seen.Nodup)
    (hinside : ∀ x ∈ seen, x < g.size) {y : Nat} (hy : y < g.size) :
    (next = some y → y ∈ seen ∨ y ∈ g.chain fuel seen next) ∧
      ∀ x ∈ g.chain fuel seen next, (g.node? x).bind Node.follower = some y →
        y ∈ seen ∨ y ∈ g.chain fuel seen next := by
  fun_induction chain g fuel seen next with
  | case1 seen next =>
      have hle := (List.subperm_of_subset hseen fun x hx =>
        List.mem_range.mpr (hinside x hx)).length_le
      rw [List.length_range] at hle
      omega
  | case2 => simp
  | case3 fuel seen id hid =>
      simp only [Option.some.injEq, List.not_mem_nil, or_false, false_implies, implies_true,
        and_true]
      rintro rfl
      have hnowhere : id ≠ nowhere := by omega
      simpa [hnowhere] using hid
  | case4 fuel seen id hid ih =>
      simp only [Bool.or_eq_true, decide_eq_true_eq, not_or] at hid
      by_cases hlt : id < g.size
      · obtain ⟨hhere, hrest⟩ := ih (by simp; omega) (List.nodup_cons.mpr ⟨hid.2, hseen⟩)
          (by simpa using ⟨hlt, hinside⟩)
        simp only [List.mem_cons] at hhere hrest ⊢
        grind
      · have hnone : g.node? id = none := List.getElem?_eq_none_iff.mpr (Nat.not_lt.mp hlt)
        have hend : g.chain fuel (id :: seen) none = [] := by cases fuel <;> rfl
        simp only [hnone, Option.bind_none, hend, List.mem_singleton, Option.some.injEq,
          forall_eq, reduceCtorEq, false_implies, and_true]
        rintro rfl
        exact absurd hy hlt

theorem mem_written_of_reaches {g : Graph} (hsize : g.size ≤ nowhere) {id : Nat}
    (h : g.Reaches id) : id ∈ g.written := by
  unfold written
  split
  · rename_i hsequence
    have hchain : ∀ y < g.size, _ := fun y hy =>
      follower_mem_chain hsize (g.size + 1) [] (some g.entry) (by simp) .nil (by simp) hy
    induction h with
    | entry hlt => simpa using (hchain g.entry hlt).1 rfl
    | @step x y hreach hnext ih =>
        obtain ⟨n, hn, hs, hlt⟩ := mem_targets.mp hnext
        have hfollower : (g.node? x).bind Node.follower = some y := by
          simpa [hn, Node.successors, branches_of_isSequence hsequence hreach hn] using hs
        simpa using (hchain y hlt).2 x ih hfollower
  · exact mem_reachable.mpr h

end Graph

/-! ## Lines -/

namespace Shader.Paragraph

section Narrow

variable {a b : Paragraph} {line : Phrase}

@[simp] theorem narrow_nil : Paragraph.Narrow [] := by simp [Narrow]

@[simp] theorem narrow_cons : Narrow (line :: a) ↔ line.Narrow ∧ a.Narrow := by simp [Narrow]

@[simp] theorem narrow_append : Narrow (a ++ b) ↔ a.Narrow ∧ b.Narrow := by
  simp [Narrow, or_imp, forall_and]

@[simp] theorem narrow_plain (lines : Lines) : Narrow (plain lines) := by
  simp [Narrow, plain, Piece.Narrow]

@[simp] theorem narrow_indented : Narrow (indented a) ↔ a.Narrow := by
  simp [Narrow, indented, Piece.Narrow]

@[simp] theorem narrow_flatten {parts : List Paragraph} :
    Narrow parts.flatten ↔ ∀ part ∈ parts, part.Narrow := by
  induction parts with
  | nil => simp
  | cons part rest ih => simp [ih]

end Narrow

variable (st : Style)

theorem delivers_blockLines (id : Nat) {block : Block} (h : ∀ i ∈ block, i.Writable) :
    Delivers (blockLines st id block) (∀ i ∈ block, i.Lettered)
      fun lines => lines.Narrow ↔ ∀ i ∈ block, i.Short := by
  unfold blockLines
  refine (Delivers.mapM fun i hi =>
    Phrase.delivers_statement st.names st.stage (h i hi)).bind_free_right fun statements hall =>
      delivers_ok trivial ?_
  rw [narrow_append, narrow_flatten, forall_mem_iff_of_forall₂ hall]
  split <;> simp

theorem delivers_branchLines (counter : String) {b : Branch} (h : b.cond.Shown) :
    Delivers (branchLines st counter b) b.Lettered Narrow := by
  unfold branchLines
  refine (Phrase.delivers_conditionExpr st.names h).bind_free_right fun e he =>
    delivers_ok trivial ?_
  simp [Piece.Narrow, he]

theorem delivers_caseLines (counter : String) (id : Nat) {n : Node} (h : n.Writable) :
    Delivers (caseLines st counter id n) n.Lettered fun lines => lines.Narrow ↔ n.Short := by
  unfold caseLines
  have hlettered : n.Lettered ↔ (∀ i ∈ n.block, i.Lettered) ∧ ∀ b ∈ n.branches, b.Lettered :=
    ⟨fun hn => ⟨hn.block, hn.branches⟩, fun hn => ⟨hn.1, hn.2⟩⟩
  refine ((delivers_blockLines st id h.block).bind fun block hblock => ?_).imp hlettered
    fun _ hl => hl
  refine (Delivers.mapM fun b hb =>
    delivers_branchLines st counter (h.branches b hb)).bind_free_right fun branches hbranches =>
      delivers_ok trivial ?_
  simp only [narrow_append, narrow_plain, narrow_indented, narrow_flatten, hblock, true_and,
    and_true]
  exact and_iff_left (forall_mem_of_forall₂ hbranches)

section Graphs

variable {g : Graph}

theorem delivers_chainLines (hsound : g.Sound) (hsequence : isSequence g = true)
    (h : g.Each g.reachable Node.Writable) (fuel : Nat) (seen : List Nat) {next : Option Nat}
    (hnext : ∀ id ∈ next, g.Reaches id) :
    Delivers (chainLines st g fuel seen next) (g.Each (g.chain fuel seen next) Node.Lettered)
      fun lines => lines.Narrow ↔ g.Each (g.chain fuel seen next) Node.Short := by
  induction fuel generalizing seen next with
  | zero => exact delivers_ok Graph.each_nil (iff_of_true narrow_nil Graph.each_nil)
  | succ fuel ih =>
      cases next with
      | none => exact delivers_ok Graph.each_nil (iff_of_true narrow_nil Graph.each_nil)
      | some id =>
          unfold chainLines Graph.chain
          split
          · exact delivers_ok Graph.each_nil (iff_of_true narrow_nil Graph.each_nil)
          have hreach := hnext id rfl
          obtain ⟨n, hn⟩ := hreach.node
          have hwritable := h id (Graph.mem_reachable.mpr hreach) n hn
          have hbranches := Graph.branches_of_isSequence hsequence hreach hn
          have hfollower : ∀ x ∈ n.follower, g.Reaches x := fun x hx =>
            hreach.of_mem_successors hsound hn (by simp_all [Node.successors])
          have hlettered : n.Lettered ↔ ∀ i ∈ n.block, i.Lettered :=
            ⟨Node.Lettered.block, fun hblock => ⟨hblock, by simp [hbranches]⟩⟩
          simp only [Graph.node, hn, Option.bind_some, Graph.each_cons hn, hlettered]
          refine (delivers_blockLines st id hwritable.block).bind fun here hhere => ?_
          refine (ih (id :: seen) hfollower).bind_free_right fun rest hrest =>
            delivers_ok trivial ?_
          rw [narrow_append, hhere, hrest]
          exact Iff.rfl

theorem delivers_switchLines (counter : String) (h : g.Each g.reachable Node.Writable) :
    Delivers (switchLines st counter g) (g.Each g.reachable Node.Lettered)
      fun lines => lines.Narrow ↔ g.Each g.reachable Node.Short := by
  have heach : ∀ P : Node → Prop, g.Each g.reachable P ↔ ∀ q ∈ g.reachableNodes, P q.2 := by
    intro P
    simp only [Graph.Each, Graph.mem_reachable, Prod.forall, Graph.mem_reachableNodes, and_imp]
    exact ⟨fun hall id n hreach hn => hall id hreach n hn,
      fun hall id hreach n hn => hall id n hreach hn⟩
  rw [heach] at h
  rw [heach]
  unfold switchLines
  refine (Delivers.mapM fun q hq => delivers_caseLines st counter q.1 (h q hq)).bind_free_right
    fun cases hcases => delivers_ok trivial ?_
  simp only [narrow_append, narrow_plain, narrow_indented, narrow_flatten, true_and, and_true,
    heach, forall_mem_iff_of_forall₂ hcases]

theorem delivers_graphLines (n : Namer) (hsound : g.Sound)
    (h : g.Each g.reachable Node.Writable) :
    Delivers (graphLines st n g) (g.Each g.written Node.Lettered)
      fun lines => lines.Narrow ↔ g.Each g.written Node.Short := by
  unfold graphLines Graph.written
  split
  · rename_i hsequence
    refine delivers_chainLines st hsound hsequence h _ _ ?_
    rintro _ ⟨⟩
    exact .entry hsound.entry_lt
  · exact delivers_switchLines st _ h

end Graphs

/-! ## The main function -/

theorem delivers_localLine (names : Names) (attrs : List Attribute) {s : Symbol}
    (hs : 1 ≤ s.size ∧ s.size ≤ 4) : Delivers (localLine names attrs s) True Phrase.Narrow := by
  unfold localLine
  simp only
  split
  · rename_i a ha
    have hsym : a.sym = s := by
      have := List.find?_some ha
      simp_all
    split
    · rename_i hwide
      simp only [Bool.and_eq_true, decide_eq_true_eq] at hwide
      omega
    · refine delivers_ok trivial ?_
      unfold inputExpr
      simp only [hsym]
      split
      · simp [Piece.Narrow, hs]
      · simp [Piece.Narrow, hs, View.selectorLetters]
  · refine delivers_ok trivial ?_
    have hzero := (Phrase.narrow_zero hs.1).mpr hs.2
    simp [Piece.Narrow, hs, hzero]

theorem narrow_outputLines (names : Names) (attrs : List Attribute) :
    (outputLines names attrs).Narrow := by
  intro line hline
  obtain ⟨a, _, rfl⟩ := List.mem_map.mp hline
  unfold outputExpr
  simp only
  split <;> simp [Piece.Narrow]

theorem delivers_mainLines {p : Program} (attrs : List Attribute) (n : Namer)
    (hsound : p.graph.Sound) (hlocals : ∀ s ∈ p.locals, 1 ≤ s.size ∧ s.size ≤ 4)
    (hnodes : p.graph.Each p.graph.reachable Node.Writable) :
    Delivers (mainLines p attrs st n) (p.graph.Each p.graph.written Node.Lettered)
      fun lines => lines.Narrow ↔ p.graph.Each p.graph.written Node.Short := by
  unfold mainLines
  have hlines : Delivers (p.locals.mapM (localLine st.names attrs)) True Narrow :=
    (Delivers.mapM fun s hs => delivers_localLine st.names attrs (hlocals s hs)).imp (by simp)
      fun _ hall => forall_mem_of_forall₂ hall
  refine hlines.bind_free_left fun locals hlocals => ?_
  refine (delivers_graphLines st n hsound hnodes).bind_free_right fun body hbody =>
    delivers_ok trivial ?_
  simp only [narrow_append, narrow_plain, narrow_indented, narrow_outputLines, hlocals, hbody,
    true_and, and_true]

end Shader.Paragraph

end KernelAlgebra
