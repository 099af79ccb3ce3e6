import KernelAlgebra.Proofs.Machine.Retracing
import KernelAlgebra.Proofs.Program.Copies

/-!
# Runs in lockstep

A copy of a program does what the program does at every step, also where that is to fail.  So
for all inputs and options it gives the result of the program, or fails for the same reason.
-/

namespace KernelAlgebra

/-! ## Reasons -/

/-- Why a run gives no result, whatever the symbols are called. -/
inductive Reason where
  | inputCount (expected actual : Nat)
  | inputSize (expected actual : Nat)
  | stepLimit (limit : Nat)
  | unsupported (node index : Nat) (op : Op)
  | noSuccessor (node : Nat)
  | noSuchNode (id count : Nat)
  | crash
  deriving DecidableEq

def Machine.RunError.reason : Machine.RunError → Reason
  | .inputCount expected actual => .inputCount expected actual
  | .inputSize s actual => .inputSize s.size actual
  | .stepLimit limit => .stepLimit limit
  | .unsupported node index i _ => .unsupported node index i.op
  | .noSuccessor node => .noSuccessor node
  | .noSuchNode id count => .noSuchNode id count
  | .crash => .crash

namespace Machine

/-- Both give related results, or both fail for the same reason. -/
inductive Level {α β : Type} (R : α → β → Prop) : Except RunError α → Except RunError β → Prop
  | ok {a : α} {b : β} : R a b → Level R (.ok a) (.ok b)
  | error {e e' : RunError} : e.reason = e'.reason → Level R (.error e) (.error e')

theorem Level.cases {α β : Type} {R : α → β → Prop} {x : Except RunError α}
    {y : Except RunError β} (h : Level R x y) :
    (∃ a b, x = .ok a ∧ y = .ok b ∧ R a b) ∨
      ∃ e e', x = .error e ∧ y = .error e' ∧ e.reason = e'.reason := by
  cases h with
  | ok hR => exact .inl ⟨_, _, rfl, rfl, hR⟩
  | error heq => exact .inr ⟨_, _, rfl, rfl, heq⟩

variable {u : Overrides} {D W : Symbol → Prop} {ρ : Symbol → Symbol} {st st' : Store}

/-! ## Instructions -/

def lacksMeaning : Op → Bool
  | .tex | .unknown _ => true
  | _ => false

theorem crash_iff_of_exec {i : Instruction} {f : ExecFault} (h : exec u st i = .error f) :
    f = .crash ↔ lacksMeaning i.op = false := by
  unfold exec at h
  split at h
  · cases h
  · rename_i hop
    split at h
    · cases h
    · cases h
      simp [hop, lacksMeaning]
  · rename_i hop
    cases h
    simp [hop, lacksMeaning]
  · rename_i hop
    cases h
    simp [hop, lacksMeaning]
  · have hop : lacksMeaning i.op = false := by
      unfold lacksMeaning
      split <;> simp_all
    split at h
    · cases h
      simp [hop]
    · split at h
      · cases h
      · cases h
        simp [hop]

/-! ## Blocks -/

/-- The same stop or the same way on, with the same numbers under the other names. -/
def Abreast (u : Overrides) (D : Symbol → Prop) (ρ : Symbol → Symbol) (o o' : Outcome) : Prop :=
  o'.killed = o.killed ∧ Agree u D ρ o.store o'.store

theorem execBlock_of_error {i : Instruction} {f : ExecFault} {node k : Nat} {rest : Block}
    (h : exec u st i = .error f) : ∃ e, execBlock u node k (i :: rest) st = .error e ∧
      e.reason = if lacksMeaning i.op then .unsupported node k i.op else .crash := by
  have hcrash := crash_iff_of_exec h
  rw [execBlock, h]
  cases f with
  | crash => exact ⟨_, rfl, by rw [hcrash.mp rfl]; rfl⟩
  | unsampled s => exact ⟨_, rfl, by simp_all [RunError.reason]⟩
  | noMeaning op => exact ⟨_, rfl, by simp_all [RunError.reason]⟩

theorem execBlock_level (hρ : Faithful D ρ) {block : Block} {mirror : Instruction → Instruction}
    (h : ∀ i ∈ block, Mirrors D W ρ i (mirror i)) (node k : Nat) (hagree : Agree u D ρ st st') :
    Level (Abreast u D ρ) (execBlock u node k block st)
      (execBlock u node k (block.map mirror) st') := by
  induction block generalizing k st st' with
  | nil => exact .ok ⟨rfl, hagree⟩
  | cons i rest ih =>
      have hi := h i (by simp)
      have hrest := fun j hj => h j (List.mem_cons_of_mem i hj)
      rw [List.map_cons]
      cases hexec : exec u st i with
      | ok o =>
          obtain ⟨st₁, killed⟩ := o
          obtain ⟨st₁', hexec', hagree', _⟩ := exec_mirrors hρ hi hagree hexec
          rw [execBlock, execBlock, hexec, hexec']
          cases killed with
          | true => exact .ok ⟨rfl, hagree'⟩
          | false => exact ih hrest (k + 1) hagree'
      | error f =>
          cases hexec' : exec u st' (mirror i) with
          | ok o =>
              obtain ⟨_, ho⟩ := exec_of_mirror hρ hi hagree hexec'
              cases hexec.symm.trans ho
          | error f' =>
              obtain ⟨e, he, hreason⟩ := execBlock_of_error hexec
              obtain ⟨e', he', hreason'⟩ := execBlock_of_error hexec'
              rw [he, he']
              exact .error (by rw [hreason, hreason', hi.op])

/-! ## Edges -/

theorem next_level {count id : Nat} {follower : Option Nat} {branches : List Branch}
    {mirror : Branch → Branch}
    (hread : ∀ b ∈ branches, read u st' (mirror b).cond = read u st b.cond)
    (htarget : ∀ b ∈ branches, (mirror b).target = b.target) :
    Level Eq (next u st count id follower branches)
      (next u st' count id follower (branches.map mirror)) := by
  induction branches with
  | nil =>
      cases follower with
      | none => exact .error rfl
      | some target => exact .ok rfl
  | cons b rest ih =>
      have htail := ih (fun c hc => hread c (by simp [hc])) (fun c hc => htarget c (by simp [hc]))
      have hholds : holds u st' (mirror b) = holds u st b := by
        simp only [holds, hread b (by simp)]
      rw [List.map_cons, next, next, hholds, htarget b (by simp)]
      cases holds u st b with
      | none => exact .error rfl
      | some way =>
          cases way with
          | false => exact htail
          | true =>
              cases Graph.follower? count b.target with
              | none => exact .error rfl
              | some target => exact .ok rfl

/-! ## Visits -/

section Visits

variable {declared : List Symbol} {g g' : Graph} {id : Nat} {n n' : Node}

theorem next_level_of_embeds {f : Nat → Nat} (hρ : Faithful D ρ) (hsound : g.Sound)
    (hreach : g.Reaches id) (hn : g.node? id = some n) (hagree : Agree u D ρ st st')
    (hfollower : n'.follower = n.follower) {mirror : Branch → Branch}
    (hbranches : n'.branches = n.branches.map mirror)
    (hbranch : ∀ b ∈ n.branches, Branches D ρ f g'.size b (mirror b)) (hf : ∀ k, f k = k) :
    Level (fun target target' => target' = target ∧ g.Reaches target)
      (next u st g.size id n.follower n.branches)
      (next u st' g.size id n'.follower n'.branches) := by
  have hlevel : Level Eq (next u st g.size id n.follower n.branches)
      (next u st' g.size id n'.follower n'.branches) := by
    rw [hfollower, hbranches]
    exact next_level
      (fun b hb => read_image hρ hagree (hbranch b hb).cond fun _ => (hbranch b hb).declared)
      fun b hb => (hbranch b hb).target.trans (hf b.target)
  rcases hlevel.cases with ⟨_, _, hto, hto', rfl⟩ | ⟨_, _, hto, hto', heq⟩
  · rw [hto, hto']
    exact .ok ⟨rfl, hreach.of_mem_successors hsound hn (mem_successors_of_next hto)⟩
  · rw [hto, hto']
    exact .error heq

def Level.Ends (u : Overrides) (D : Symbol → Prop) (ρ : Symbol → Symbol) (f f' : Final) : Prop :=
  f'.killed = f.killed ∧ f'.steps = f.steps ∧ Agree u D ρ f.store f'.store

theorem visit_level (hρ : Faithful (· ∈ declared) ρ) (h : Renders ρ g g') (hsound : g.Sound)
    (hfits : g.Fits declared) {limit fuel steps : Nat} (hreach : g.Reaches id)
    (hagree : Agree u (· ∈ declared) ρ st st') :
    Level (Level.Ends u (· ∈ declared) ρ) (visit g u limit fuel steps id st)
      (visit g' u limit fuel steps id st') := by
  induction fuel generalizing steps id st st' with
  | zero => exact .error rfl
  | succ fuel ih =>
      obtain ⟨n, hn⟩ := hreach.node
      obtain ⟨n', hn', ⟨mirror, hblock, hmirrors⟩, hedges⟩ :=
        (h.embeds hsound hfits).node id n hreach hn
      have hlevel := execBlock_level hρ hmirrors id 0 hagree
      rw [← hblock] at hlevel
      simp only [visit, hn, hn', h.shape.exit, h.shape.size]
      rcases hlevel.cases with ⟨⟨st₁, _⟩, ⟨st₁', killed⟩, hend, hend', rfl, hagree'⟩ |
        ⟨_, _, hend, hend', heq⟩
      case inr =>
        rw [hend, hend']
        exact .error heq
      rw [hend, hend']
      cases killed with
      | true => exact .ok ⟨rfl, rfl, hagree'⟩
      | false =>
          by_cases hexit : id = g.exit
          · simp only [if_pos hexit]
            exact .ok ⟨rfl, rfl, hagree'⟩
          obtain ⟨_, hfollower, _, hbranches, hbranch⟩ := hedges hexit
          have hnext := next_level_of_embeds hρ hsound hreach hn hagree'
            (hfollower.trans (by simp)) hbranches hbranch fun _ => rfl
          simp only [if_neg hexit]
          rcases hnext.cases with ⟨_, _, hto, hto', rfl, hreach'⟩ | ⟨_, _, hto, hto', heq⟩
          · rw [hto, hto']
            exact ih hreach' hagree'
          · rw [hto, hto']
            exact .error heq

end Visits

/-! ## Inputs -/

theorem load_level {inputs : List Symbol} {values : List (List Float)} {st st' : Store}
    (hsolid : ∀ s ∈ inputs, s.isHole = false ∧ (ρ s).isHole = false ∧ (ρ s).size = s.size) :
    Level (fun _ _ => True) (load inputs values st) (load (inputs.map ρ) values st') := by
  induction inputs generalizing values st st' with
  | nil => exact .ok trivial
  | cons s rest ih =>
      cases values with
      | nil => exact .ok trivial
      | cons xs more =>
          obtain ⟨hs, hs', hsize⟩ := hsolid s (by simp)
          rw [List.map_cons, load, load, hs, hs', hsize]
          simp only [Bool.false_eq_true, if_false]
          split
          · exact .error (congrArg (Reason.inputSize · xs.length) hsize.symm)
          · exact ih fun t ht => hsolid t (List.mem_cons_of_mem s ht)

end Machine

/-! ## Runs -/

namespace Copies

open Machine

variable {ρ : Symbol → Symbol} {p q : Program}

theorem start_level (h : Copies ρ p q) (hvalid : p.Valid) (values : List (List Float))
    (u : Overrides) :
    Level (Agree u (· ∈ p.symbols) ρ) (start p.toInterface values)
      (start q.toInterface values) := by
  have hin : ∀ s ∈ p.inputs, s ∈ p.symbols := fun s hs => Interface.mem_symbols.mpr (.inl hs)
  have hlevel : Level (fun _ _ => True) (start p.toInterface values)
      (start q.toInterface values) := by
    simp only [start, h.inputs, List.length_map]
    split
    · exact .error rfl
    · refine load_level fun s hs => ?_
      have hsolid := hvalid.orderly.inputs.solid s hs
      exact ⟨hsolid, h.solid s (hin s hs) hsolid, h.size_eq (hin s hs)⟩
  rcases hlevel.cases with ⟨st, _, hstart, _, _⟩ | ⟨_, _, hstart, hstart', heq⟩
  · obtain ⟨st', hstart', hagree⟩ := h.agree_start (u := u) hvalid hstart
    rw [hstart, hstart']
    exact .ok hagree
  · rw [hstart, hstart']
    exact .error heq

theorem runToEnd_level (h : Copies ρ p q) (hvalid : p.Valid) (values : List (List Float))
    (u : Overrides) (limit : Nat) :
    Level (Level.Ends u (· ∈ p.symbols) ρ) (Machine.runToEnd p values u limit)
      (Machine.runToEnd q values u limit) := by
  unfold Machine.runToEnd
  rcases (h.start_level hvalid values u).cases with
    ⟨_, _, hstart, hstart', hagree⟩ | ⟨_, _, hstart, hstart', heq⟩
  · simp only [hstart, hstart', h.graph.shape.entry]
    exact visit_level (h.relabels.faithful h.injective) h.graph hvalid.sound hvalid.fits
      (.entry hvalid.sound.entry_lt) hagree
  · rw [hstart, hstart']
    exact .error heq

theorem runWithin_eq (h : Copies ρ p q) (hvalid : p.Valid) (values : List (List Float))
    (u : Overrides) (limit : Nat) :
    (runWithin q values u limit).mapError RunError.reason =
      (runWithin p values u limit).mapError RunError.reason := by
  have hsolid : p.outputs.any (·.isHole) = false :=
    List.any_eq_false.mpr fun s hs => by simp [hvalid.orderly.outputs.solid s hs]
  have hsolid' : q.outputs.any (·.isHole) = false :=
    List.any_eq_false.mpr fun s hs => by simp [(h.orderly hvalid).outputs.solid s hs]
  unfold runWithin
  rcases (h.runToEnd_level hvalid values u limit).cases with
    ⟨f, f', hend, hend', hkilled, hsteps, hagree⟩ | ⟨_, _, hend, hend', heq⟩
  · have houtputs : resultOf q u f' = resultOf p u f := by
      rw [resultOf, resultOf, h.outputs, List.map_map, hkilled, hsteps]
      congr 1
      exact List.map_congr_left fun s hs => hagree s (Interface.mem_symbols.mpr (.inr (.inl hs)))
    simp only [hend, hend', result, hsolid, hsolid', Bool.false_eq_true, if_false, houtputs]
  · rw [hend, hend']
    exact congrArg Except.error heq.symm

end Copies

end KernelAlgebra
