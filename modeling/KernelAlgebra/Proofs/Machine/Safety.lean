import KernelAlgebra.Proofs.Machine.Simulation
import KernelAlgebra.Proofs.Machine.Start
import KernelAlgebra.Proofs.Machine.Views
import KernelAlgebra.Proofs.Validity

/-!
# Valid programs do not go wrong

In a store where every symbol has its numbers, a checked instruction can be executed unless it
samples a texture, and it leaves such a store behind.  A reachable node has a way on for every
outcome of its conditions.  So a run of a valid program ends, is cut off, or meets a texture.
-/

namespace KernelAlgebra

/-- Some declaration makes this symbol. -/
def Symbol.Declared (s : Symbol) : Prop :=
  ∃ (g : Supply) (d : Declaration) (g' : Supply), g.declare d = .ok (s, g')

theorem Symbol.Declared.size_pos {s : Symbol} (h : s.Declared) : 0 < s.size := by
  obtain ⟨g, d, g', h⟩ := h
  unfold Supply.declare at h
  split at h
  · cases h
  · split at h
    · cases h
    · cases h
      simp only
      omega

theorem Symbol.declared_of_no_value {list : List Symbol}
    (h : ∀ s ∈ list, 0 < s.size ∧ s.value = []) : ∀ s ∈ list, s.Declared := by
  rintro ⟨id, role, size, scalar, semantic, name, value⟩ hs
  obtain ⟨hsize, rfl⟩ := h _ hs
  have hlow : ¬ ((size : Int) < 1) := by
    have : 0 < size := hsize
    omega
  exact ⟨⟨id⟩, ⟨role, size, name, scalar, semantic, []⟩, ⟨id + 1⟩, by
    simp [Supply.declare, hlow]⟩

namespace Machine

variable {u : Overrides}

/-! ## Operands -/

theorem exists_mapM_eq_some {α β : Type} {f : α → Option β} {xs : List α}
    (h : ∀ x ∈ xs, ∃ y, f x = some y) : ∃ ys, xs.mapM f = some ys := by
  induction xs with
  | nil => exact ⟨[], by simp⟩
  | cons x xs ih =>
      obtain ⟨y, hy⟩ := h x (by simp)
      obtain ⟨ys, hys⟩ := ih fun z hz => h z (by simp [hz])
      exact ⟨y :: ys, by simp [hy, hys]⟩

theorem exists_element? {xs : List Float} {k : Int} (hlow : 0 ≤ k) (hhigh : k < xs.length) :
    ∃ x, element? xs k = some x := by
  have hlt : k.toNat < xs.length := by omega
  exact ⟨xs[k.toNat], by simp [element?, hlow, hlt]⟩

theorem exists_read {st : Store} {v : View} {dst : Bool} (hsized : st.Sized u)
    (hv : v.isAbsent = false) (hcheck : v.check dst = .ok ()) : ∃ xs, read u st v = some xs := by
  cases hselector : v.selector with
  | none => exact ⟨_, read_plain hsized hv hselector⟩
  | some idx =>
      obtain ⟨_, hindices, _⟩ := View.check_eq_ok_iff.mp hcheck
      rw [hselector] at hindices
      have hmapM : ∃ xs, idx.mapM (element? (st.get u v.sym)) = some xs := by
        apply exists_mapM_eq_some
        intro k hk
        obtain ⟨hlow, hhigh⟩ := mem_bounds_of_checkIndices hindices k hk
        exact exists_element? hlow (by rw [hsized]; exact hhigh)
      obtain ⟨xs, hxs⟩ := hmapM
      rw [read_picked hv hselector, hxs]
      exact ⟨_, rfl⟩

theorem exists_readAll {st : Store} {i : Instruction} (hsized : st.Sized u)
    (hcheck : i.check = .ok ()) : ∃ srcs, readAll u st i.src = some srcs := by
  apply exists_mapM_eq_some
  intro v hv
  obtain ⟨hpresent, hv⟩ := Instruction.check_src_of_check hcheck hv
  exact exists_read hsized hpresent hv

theorem map_length_readAll {st : Store} {views : List View} {srcs : List (List Float)}
    (h : readAll u st views = some srcs) : srcs.map List.length = views.map View.size := by
  unfold readAll at h
  induction views generalizing srcs with
  | nil =>
      simp only [List.mapM_nil, Option.pure_def, Option.some.injEq] at h
      simp [← h]
  | cons v rest ih =>
      simp only [List.mapM_cons, Option.bind_eq_bind, Option.bind_eq_some_iff, Option.pure_def,
        Option.some.injEq] at h
      obtain ⟨xs, hxs, more, hmore, rfl⟩ := h
      simp [length_read hxs, ih hmore]

theorem exists_place {v : View} {xs r : List Float} (hv : v.isAbsent = false)
    (hcheck : v.check true = .ok ()) (hxs : xs.length = v.sym.size) (hr : r.length = v.size) :
    ∃ ys, place v xs 0 r = some ys := by
  cases hselector : v.selector with
  | none =>
      have hlen : xs.length = r.length := by simp [hxs, hr, View.size, hv, hselector]
      exact ⟨r, @place_plain v [] xs r hselector hlen⟩
  | some idx =>
      obtain ⟨_, hindices, _⟩ := View.check_eq_ok_iff.mp hcheck
      rw [hselector] at hindices
      have hlen : r.length = idx.length := by simp [hr, View.size, hv, hselector]
      have hbounds : ∀ k ∈ idx, 0 ≤ k ∧ k < xs.length := by
        rw [hxs]
        exact mem_bounds_of_checkIndices hindices
      exact ⟨_, @place_picked v [] idx xs r hselector hlen hbounds⟩

/-! ## Opcodes -/

theorem exists_elementwise {op : Op} {args : List Float} (hrule : op.rule = .elementwise)
    (hlen : args.length = op.arity) : ∃ x, elementwise op args = some x := by
  cases op <;> simp only [Op.rule, reduceCtorEq] at hrule <;>
    simp only [Op.arity, List.length_eq_one_iff, List.length_eq_two, List.length_eq_three] at hlen
  case mad | lrp | cond =>
    obtain ⟨a, b, c, rfl⟩ := hlen
    exact ⟨_, rfl⟩
  case asn | abs | ceil | flr | frac | exp | log | sqrt | rsq | rcp | sin | cos | tan | sgn =>
    obtain ⟨a, rfl⟩ := hlen
    exact ⟨_, rfl⟩
  all_goals
    obtain ⟨a, b, rfl⟩ := hlen
    exact ⟨_, rfl⟩

theorem exists_broadcast {i size : Nat} {xs : List Float} (hi : i < size)
    (hlen : xs.length = 1 ∨ xs.length = size) : ∃ x, broadcast i xs = some x := by
  unfold broadcast
  split
  · exact ⟨_, rfl⟩
  · rename_i hne
    have hlt : i < xs.length := by
      rcases hlen with hone | hsize
      · obtain ⟨x, rfl⟩ := List.length_eq_one_iff.mp hone
        exact absurd rfl (hne x)
      · omega
    exact ⟨xs[i], by simp [hlt]⟩

theorem exists_dot {xs ys : List Float} {acc : Float} (h : xs.length = ys.length) :
    ∃ x, dot xs ys acc = some x := by
  induction xs generalizing ys acc with
  | nil => exact ⟨acc, by simp [dot]⟩
  | cons x xs ih =>
      cases ys with
      | nil => cases h
      | cons y ys => exact ih (by simpa using h)

theorem exists_compute {st : Store} {i : Instruction} {srcs : List (List Float)}
    (hcheck : i.check = .ok ()) (hdst : i.op.hasDst = true) (htex : i.op ≠ .tex)
    (hread : readAll u st i.src = some srcs) : ∃ r, compute i.op i.dst.size srcs = some r := by
  obtain ⟨_, harity, _, _, hrule⟩ := Instruction.check_eq_ok_iff.mp hcheck
  have hsizes := map_length_readAll hread
  have hcount : srcs.length = i.op.arity := (length_of_mapM_eq_some hread).trans harity
  cases hop : i.op.rule with
  | elementwise =>
      have hwidths : ∀ xs ∈ srcs, xs.length = 1 ∨ xs.length = i.dst.size := by
        simp only [Instruction.checkRule, hop] at hrule
        intro xs hxs
        have hmem : xs.length ∈ i.src.map View.size := hsizes ▸ List.mem_map_of_mem hxs
        obtain ⟨v, hv, hlen⟩ := List.mem_map.mp hmem
        rw [← hlen]
        exact Instruction.checkWidths_eq_ok_iff.mp hrule v hv
      simp only [compute, hop]
      apply exists_mapM_eq_some
      intro k hk
      obtain ⟨args, hargs⟩ := exists_mapM_eq_some fun xs hxs =>
        exists_broadcast (List.mem_range.mp hk) (hwidths xs hxs)
      obtain ⟨x, hx⟩ := exists_elementwise hop ((length_of_mapM_eq_some hargs).trans hcount)
      exact ⟨x, by simp [hargs, hx]⟩
  | dot =>
      have hdot : i.op = .dot := by cases h : i.op <;> simp_all [Op.rule]
      simp only [hdot, Op.arity] at hcount harity
      obtain ⟨a, b, rfl⟩ := List.length_eq_two.mp hcount
      obtain ⟨v, w, hsrc⟩ := List.length_eq_two.mp harity
      simp only [hsrc, List.map_cons, List.map_nil, List.cons.injEq, and_true] at hsizes
      obtain ⟨_, hsame⟩ := (Instruction.checkRule_dot hop).mp (hsrc ▸ hrule)
      obtain ⟨x, hx⟩ := @exists_dot a b 0 (by omega)
      exact ⟨[x], by simp [compute, hop, hx]⟩
  | cross =>
      have hcross : i.op = .xpd := by cases h : i.op <;> simp_all [Op.rule]
      simp only [hcross, Op.arity] at hcount harity
      obtain ⟨a, b, rfl⟩ := List.length_eq_two.mp hcount
      obtain ⟨v, w, hsrc⟩ := List.length_eq_two.mp harity
      simp only [hsrc, List.map_cons, List.map_nil, List.cons.injEq, and_true] at hsizes
      obtain ⟨_, hv, hw⟩ := (Instruction.checkRule_cross hop).mp (hsrc ▸ hrule)
      obtain ⟨a₀, a₁, a₂, rfl⟩ := List.length_eq_three.mp (hsizes.1.trans hv)
      obtain ⟨b₀, b₁, b₂, rfl⟩ := List.length_eq_three.mp (hsizes.2.trans hw)
      simp only [compute, hop]
      exact ⟨_, rfl⟩
  | norm =>
      have hnorm : i.op = .norm := by cases h : i.op <;> simp_all [Op.rule]
      simp only [hnorm, Op.arity] at hcount
      obtain ⟨a, rfl⟩ := List.length_eq_one_iff.mp hcount
      obtain ⟨x, hx⟩ := @exists_dot a a 0 rfl
      simp only [compute, hop, hx, Option.map_some]
      exact ⟨_, rfl⟩
  | tex => exact absurd (by cases h : i.op <;> simp_all [Op.rule]) htex
  | kill => cases h : i.op <;> simp_all [Op.rule, Op.hasDst]
  | none => cases h : i.op <;> simp_all [Op.rule, Op.hasDst]

/-! ## Instructions -/

theorem exec_checked {st : Store} {i : Instruction} (hsized : st.Sized u)
    (hcheck : i.check = .ok ()) :
    (∃ o, exec u st i = .ok o) ∨ i.op = .tex ∧ ∃ s, exec u st i = .error (.unsampled s) := by
  obtain ⟨srcs, hread⟩ := exists_readAll hsized hcheck
  by_cases htex : i.op = .tex
  · refine .inr ⟨htex, ?_⟩
    simp only [exec, htex]
    exact ⟨_, rfl⟩
  · left
    cases hdst : i.op.hasDst with
    | true =>
        have hpresent : i.dst.isAbsent = false := by
          simp [Instruction.isAbsent_dst_of_check hcheck, hdst]
        obtain ⟨r, hr⟩ := exists_compute hcheck hdst htex hread
        obtain ⟨ys, hys⟩ := exists_place hpresent (Instruction.check_dst_of_check hcheck hpresent)
          (hsized _) (length_compute hcheck hread hr)
        exact ⟨_, exec_eq_ok_iff.mpr (.assignment hread hr hpresent hys)⟩
    | false =>
        obtain ⟨hknown, harity, _⟩ := Instruction.check_eq_ok_iff.mp hcheck
        have hcases : i.op = .nop ∨ i.op = .kil := by
          cases h : i.op <;> simp_all [Op.hasDst, Op.isKnown]
        rcases hcases with hop | hop
        · exact ⟨_, exec_eq_ok_iff.mpr (.nothing hop)⟩
        · have hone : srcs.length = 1 := by
            rw [length_of_mapM_eq_some hread, harity, hop]
            rfl
          obtain ⟨xs, rfl⟩ := List.length_eq_one_iff.mp hone
          exact ⟨_, exec_eq_ok_iff.mpr (.test hop hread)⟩

/-! ## The way on -/

theorem View.size_pos_of_check {v : View} {dst : Bool} (hv : v.isAbsent = false)
    (hcheck : v.check dst = .ok ()) (hsize : 0 < v.sym.size) : 0 < v.size := by
  obtain ⟨hne, _, _⟩ := View.check_eq_ok_iff.mp hcheck
  cases hselector : v.selector with
  | none => simpa [View.size, hv, hselector] using hsize
  | some idx =>
      cases idx with
      | nil => exact absurd hselector hne
      | cons k rest => simp [View.size, hv, hselector]

theorem exists_holds {declared : List Symbol} {st : Store} {b : Branch} (hsized : st.Sized u)
    (hb : b.Fits declared) (hsize : 0 < b.cond.sym.size) : ∃ x, holds u st b = some x := by
  obtain ⟨xs, hxs⟩ := exists_read hsized hb.present hb.checked
  have hpos := View.size_pos_of_check hb.present hb.checked hsize
  cases xs with
  | nil =>
      have hlen := length_read hxs
      simp only [List.length_nil] at hlen
      omega
  | cons x rest =>
      simp only [holds, hxs]
      exact ⟨_, rfl⟩

theorem exists_next {st : Store} {count id : Nat} {follower : Option Nat}
    {branches : List Branch} (hfollower : follower.isSome)
    (hholds : ∀ b ∈ branches, ∃ x, holds u st b = some x)
    (htargets : ∀ b ∈ branches, b.target < count) :
    ∃ target, next u st count id follower branches = .ok target := by
  induction branches with
  | nil =>
      obtain ⟨f, rfl⟩ := Option.isSome_iff_exists.mp hfollower
      exact ⟨f, rfl⟩
  | cons b rest ih =>
      obtain ⟨x, hx⟩ := hholds b (by simp)
      cases x with
      | true => exact ⟨b.target, by simp [next, hx, Graph.follower?_of_lt (htargets b (by simp))]⟩
      | false =>
          simp only [next, hx]
          exact ih (fun c hc => hholds c (by simp [hc])) (fun c hc => htargets c (by simp [hc]))

theorem exists_edge {p : Program} (hvalid : p.Valid) (hdeclared : ∀ s ∈ p.symbols, 0 < s.size)
    {id : Nat} {n : Node} {st : Store} (hreach : p.graph.Reaches id)
    (hn : p.graph.node? id = some n) (hexit : id ≠ p.graph.exit) (hsized : st.Sized u) :
    ∃ target m, next u st p.graph.size id n.follower n.branches = .ok target ∧
      p.graph.node? target = some m ∧ p.graph.Reaches target := by
  have hbranches := (hvalid.fits id n hreach hn).branches
  obtain ⟨target, hnext⟩ := @exists_next u st p.graph.size id n.follower n.branches
    (hvalid.sound.follower id n hreach hn hexit)
    (fun b hb => exists_holds hsized (hbranches b hb) (hdeclared _ (hbranches b hb).declared))
    (fun b hb => hvalid.sound.closed id n hn _ (Graph.target_mem_successors hb))
  have htarget := hreach.of_mem_successors hvalid.sound hn (mem_successors_of_next hnext)
  obtain ⟨m, hm⟩ := htarget.node
  exact ⟨target, m, hnext, hm, htarget⟩

/-! ## Runs -/

/-- How a run that does not go wrong turns out when it may visit `fuel` nodes from a point on:
it ends, it is cut off at the next node, or it arrives at an instruction that samples. -/
inductive Safe (g : Graph) (u : Overrides) (limit fuel : Nat) (c : Point) :
    Except RunError Final → Prop
  | ends {k : Nat} {f : Final} : k < fuel → Ends g u k c f.store f.killed → f.store.Sized u →
      Safe g u limit fuel c (.ok f)
  | cutOff {d : Point} : Path g u fuel c d → Safe g u limit fuel c (.error (.stepLimit limit))
  | samples {k id index : Nat} {n : Node} {i : Instruction} {rest : Block} {st : Store}
      {s : Symbol} :
      k < fuel → Path g u k c ⟨id, i :: rest, st⟩ → g.node? id = some n →
      n.block.drop index = i :: rest → i.op = .tex →
      Safe g u limit fuel c (.error (.unsupported id index i (.unsampled s)))

theorem Safe.after {g : Graph} {limit fuel j : Nat} {c d : Point} {x : Except RunError Final}
    (hpath : Path g u j c d) (h : Safe g u limit fuel d x) : Safe g u limit (j + fuel) c x := by
  cases h with
  | ends hk hends hsized => exact .ends (by omega) (hpath.ends hends) hsized
  | cutOff hrest => exact .cutOff (hpath.trans hrest)
  | samples hk hrest hn hdrop hop => exact .samples (by omega) (hpath.trans hrest) hn hdrop hop

theorem safe_block {g : Graph} {limit fuel steps id : Nat} {n : Node}
    (hn : g.node? id = some n) (hchecked : ∀ i ∈ n.block, i.check = .ok ())
    (hbehind : ∀ index st, st.Sized u → Safe g u limit (fuel + 1) ⟨id, [], st⟩
      (resume g u limit fuel steps id index n [] st))
    {index : Nat} {rest : Block} {st : Store} (hrest : n.block.drop index = rest)
    (hsized : st.Sized u) :
    Safe g u limit (fuel + 1) ⟨id, rest, st⟩
      (resume g u limit fuel steps id index n rest st) := by
  induction rest generalizing index st with
  | nil => exact hbehind index st hsized
  | cons i rest ih =>
      have hi : i ∈ n.block := List.mem_of_mem_drop (hrest ▸ List.mem_cons_self)
      rcases exec_checked hsized (hchecked i hi) with ⟨⟨st', killed⟩, hexec⟩ | ⟨hop, s, hexec⟩
      · have hsized' := sized_exec hsized hexec
        cases killed with
        | true =>
            rw [resume_discard hexec]
            exact .ends (Nat.succ_pos fuel) (Stops.discard hexec).ends hsized'
        | false =>
            rw [resume_instruction hexec]
            have htail : n.block.drop (index + 1) = rest := by
              rw [← List.tail_drop, hrest]
              rfl
            simpa using (ih htail hsized').after (Path.instruction hexec (.done _))
      · have hresume : resume g u limit fuel steps id index n (i :: rest) st =
            .error (.unsupported id index i (.unsampled s)) := by
          simp [resume, execBlock, hexec]
        rw [hresume]
        exact .samples (Nat.succ_pos fuel) (.done _) hn hrest hop

theorem safe_visit {p : Program} (hvalid : p.Valid) (hdeclared : ∀ s ∈ p.symbols, 0 < s.size)
    {limit fuel steps id : Nat} {n : Node} {st : Store} (hreach : p.graph.Reaches id)
    (hn : p.graph.node? id = some n) (hsized : st.Sized u) :
    Safe p.graph u limit fuel ⟨id, n.block, st⟩ (visit p.graph u limit fuel steps id st) := by
  induction fuel generalizing steps id n st with
  | zero => exact .cutOff (.done _)
  | succ fuel ih =>
      rw [visit_succ hn]
      refine safe_block hn (fun i hi => ((hvalid.fits id n hreach hn).block i hi).checked) ?_
        List.drop_zero hsized
      intro index st hsized
      simp only [resume, execBlock]
      split
      · rename_i hexit
        exact .ends (Nat.succ_pos fuel) (Stops.at_exit hexit st).ends hsized
      · rename_i hexit
        obtain ⟨target, m, hnext, hm, htarget⟩ :=
          exists_edge hvalid hdeclared hreach hn hexit hsized
        rw [hnext, Nat.add_comm fuel 1]
        exact (ih htarget hm hsized).after (.edge hn hexit hnext hm (.done _))

/-- The run of a program on these inputs comes to this point after `k` edges. -/
def Passes (p : Program) (inputs : List (List Float)) (u : Overrides) (k : Nat) (c : Point) :
    Prop :=
  ∃ st n, start p.toInterface inputs = .ok st ∧ p.graph.node? p.graph.entry = some n ∧
    Path p.graph u k ⟨p.graph.entry, n.block, st⟩ c

/-- Within any limit the run gives outputs of the right sizes, or it is cut off with that many
nodes behind it, or it has arrived at an instruction that samples a texture. -/
theorem runWithin_cases {p : Program} (hvalid : p.issues = [])
    (hdeclared : ∀ s ∈ p.symbols, s.Declared) {inputs : List (List Float)}
    (hinputs : inputs.map List.length = p.inputs.map Symbol.size) (u : Overrides) (limit : Nat) :
    (∃ r, runWithin p inputs u limit = .ok r ∧
        r.outputs.map List.length = p.outputs.map Symbol.size) ∨
      (runWithin p inputs u limit = .error (.stepLimit limit) ∧
        ∃ c, Passes p inputs u limit c) ∨
      ∃ id index i s, runWithin p inputs u limit = .error (.unsupported id index i (.unsampled s)) ∧
        i.op = .tex ∧ ∃ k < limit, ∃ n rest st, p.graph.node? id = some n ∧
          n.block.drop index = i :: rest ∧ Passes p inputs u k ⟨id, i :: rest, st⟩ := by
  have hvalid := Program.issues_eq_nil_iff.mp hvalid
  obtain ⟨st, hst⟩ := (start_iff_sizes hvalid.orderly.inputs.solid).mpr hinputs
  have hreach := Graph.Reaches.entry hvalid.sound.entry_lt
  obtain ⟨n, hn⟩ := hreach.node
  have hsafe := @safe_visit u p hvalid (fun s hs => (hdeclared s hs).size_pos) limit limit 0 _ n
    st hreach hn (sized_start hst)
  have hpass : ∀ {k c}, Path p.graph u k ⟨p.graph.entry, n.block, st⟩ c →
      Passes p inputs u k c := fun hpath => ⟨st, n, hst, hn, hpath⟩
  have hrun : runToEnd p inputs u limit = visit p.graph u limit limit 0 p.graph.entry st := by
    simp only [runToEnd, hst]
  cases hout : visit p.graph u limit limit 0 p.graph.entry st with
  | ok f =>
      left
      rw [hout] at hsafe
      cases hsafe with
      | ends _ _ hsized =>
          have hholes : p.outputs.any (·.isHole) = false := by
            rw [List.any_eq_false]
            intro s hs
            simp [hvalid.orderly.outputs.solid s hs]
          refine ⟨resultOf p u f, by simp [runWithin, hrun, hout, result, hholes], ?_⟩
          simp only [resultOf, List.map_map]
          exact List.map_congr_left fun s _ => hsized s
  | error e =>
      right
      have herror : runWithin p inputs u limit = .error e := by simp only [runWithin, hrun, hout]
      rw [hout] at hsafe
      rw [herror]
      cases hsafe with
      | cutOff hpath => exact .inl ⟨rfl, _, hpass hpath⟩
      | samples hk hpath hn hdrop hop =>
          exact .inr ⟨_, _, _, _, rfl, hop, _, hk, _, _, _, hn, hdrop, hpass hpath⟩

/-- The answers of a run that does not go wrong: outputs of the right sizes, the step limit with as
many nodes behind the run, and an instruction at which the run has arrived and that samples. -/
inductive Tame (p : Program) (inputs : List (List Float)) (o : RunOptions) :
    Except RunError Result → Prop
  | result {r : Result} :
      r.outputs.map List.length = p.outputs.map Symbol.size → Tame p inputs o (.ok r)
  | cutOff {c : Point} :
      0 < o.maxSteps → Passes p inputs o.overrides o.maxSteps.toNat c →
      Tame p inputs o (.error (.stepLimit o.maxSteps.toNat))
  | samples {k id index : Nat} {n : Node} {i : Instruction} {rest : Block} {st : Store}
      {s : Symbol} :
      (0 < o.maxSteps → k < o.maxSteps) → i.op = .tex → p.graph.node? id = some n →
      n.block.drop index = i :: rest → Passes p inputs o.overrides k ⟨id, i :: rest, st⟩ →
      Tame p inputs o (.error (.unsupported id index i (.unsampled s)))

/-- A valid program of declared symbols never goes wrong on inputs of the right sizes, whatever is
overridden.  With a bound on the visited nodes its run comes to one answer, and that is a tame
one; without a bound it does so, too, unless it goes on for ever. -/
theorem valid_run_never_goes_wrong {p : Program} (hvalid : p.issues = [])
    (hdeclared : ∀ s ∈ p.symbols, s.Declared) {inputs : List (List Float)}
    (hinputs : inputs.map List.length = p.inputs.map Symbol.size) (o : RunOptions) :
    (∃ x, (∀ y, p.Answers inputs o y ↔ y = x) ∧ Tame p inputs o x) ∨
      o.maxSteps ≤ 0 ∧ (∀ x, ¬ p.Answers inputs o x) ∧
        ∀ k, ∃ c, Passes p inputs o.overrides k c := by
  have hcases := runWithin_cases hvalid hdeclared hinputs o.overrides
  have honly : ∀ {x}, p.Answers inputs o x → Tame p inputs o x →
      ∃ x, (∀ y, p.Answers inputs o y ↔ y = x) ∧ Tame p inputs o x :=
    fun hx htame => ⟨_, fun y => ⟨fun hy => hy.unique hx, fun heq => heq ▸ hx⟩, htame⟩
  by_cases hbound : 0 < o.maxSteps
  · left
    refine honly ((Program.Answers.iff_of_bound hbound).mpr rfl) ?_
    obtain ⟨r, hrun, hsizes⟩ | ⟨hrun, c, hpasses⟩ |
        ⟨id, index, i, s, hrun, hop, k, hk, n, rest, st, hn, hdrop, hpasses⟩ :=
      hcases o.maxSteps.toNat
    · exact hrun ▸ .result hsizes
    · exact hrun ▸ .cutOff hbound hpasses
    · exact hrun ▸ .samples (fun _ => by omega) hop hn hdrop hpasses
  · by_cases hends : ∃ limit, runWithin p inputs o.overrides limit ≠ .error (.stepLimit limit)
    · left
      obtain ⟨limit, hne⟩ := hends
      refine honly ((Program.Answers.iff_of_no_bound hbound).mpr ⟨limit, rfl, hne⟩) ?_
      obtain ⟨r, hrun, hsizes⟩ | ⟨hrun, _⟩ |
        ⟨id, index, i, s, hrun, hop, k, _, n, rest, st, hn, hdrop, hpasses⟩ := hcases limit
      · exact hrun ▸ .result hsizes
      · exact absurd hrun hne
      · exact hrun ▸ .samples (fun hpos => absurd hpos hbound) hop hn hdrop hpasses
    · right
      have hcut : ∀ limit, runWithin p inputs o.overrides limit = .error (.stepLimit limit) :=
        fun limit => Classical.not_not.mp fun hne => hends ⟨limit, hne⟩
      refine ⟨Int.not_lt.mp hbound, fun x hx => ?_, fun k => ?_⟩
      · obtain ⟨limit, rfl, hne⟩ := (Program.Answers.iff_of_no_bound hbound).mp hx
        exact hne (hcut limit)
      · obtain ⟨r, hrun, _⟩ | ⟨_, hpasses⟩ | ⟨id, index, i, s, hrun, _⟩ := hcases k
        · cases (hcut k).symm.trans hrun
        · exact hpasses
        · cases (hcut k).symm.trans hrun

/-- Copies its input as long as the first element is positive, and then samples a texture. -/
def loopThenSample : Program :=
  let x : Symbol := ⟨1, .input, 2, .float32, .attrib, "x", []⟩
  let y : Symbol := ⟨2, .output, 2, .float32, .attrib, "y", []⟩
  let t : Symbol := ⟨3, .texture, 4, .float32, .attrib, "t", []⟩
  { Interface.empty "" with
    inputs := [x], outputs := [y], textures := [t],
    graph :=
      ⟨[⟨[.copy y x], [⟨⟨y, some [0], false⟩, 0⟩], some 1⟩,
        .straight [⟨.tex, .full y, [.full t, .full x]⟩] 2, .empty], 0, 2⟩ }

theorem declared_loopThenSample {s : Symbol} (hs : s ∈ loopThenSample.symbols) : s.Declared :=
  Symbol.declared_of_no_value (by decide) s hs

theorem loopThenSample_never_goes_wrong :
    loopThenSample.issues = [] ∧ (∀ s ∈ loopThenSample.symbols, s.Declared) ∧
      ∀ bound : Int, (∃ x, (∀ y, loopThenSample.Answers [[1, 0]] ⟨bound, [("t", [])]⟩ y ↔ y = x) ∧
          Tame loopThenSample [[1, 0]] ⟨bound, [("t", [])]⟩ x) ∨
        bound ≤ 0 ∧ (∀ x, ¬ loopThenSample.Answers [[1, 0]] ⟨bound, [("t", [])]⟩ x) ∧
          ∀ k, ∃ c, Passes loopThenSample [[1, 0]] [("t", [])] k c :=
  ⟨rfl, fun _ => declared_loopThenSample, fun bound =>
    valid_run_never_goes_wrong rfl (fun _ => declared_loopThenSample) rfl ⟨bound, [("t", [])]⟩⟩

/-- Takes the branch from its first node back to it for ever. -/
def spinning : Program :=
  let y : Symbol := ⟨1, .output, 1, .float32, .attrib, "y", []⟩
  let one : Symbol := ⟨2, .const, 1, .float32, .attrib, "", [1]⟩
  { Interface.empty "" with
    outputs := [y], constants := [one],
    graph := ⟨[⟨[], [⟨.full one, 0⟩], some 1⟩, .empty], 0, 1⟩ }

theorem visit_spinning (limit fuel steps : Nat) :
    visit spinning.graph [] limit fuel steps 0 [] = .error (.stepLimit limit) := by
  induction fuel generalizing steps with
  | zero => rfl
  | succ fuel ih => exact ih (steps + 1)

/-- A run without a bound need not come to an answer. -/
theorem spinning_never_answers :
    spinning.issues = [] ∧ (∀ s ∈ spinning.symbols, s.Declared) ∧
      ∀ x, ¬ spinning.Answers [] { maxSteps := 0 } x := by
  refine ⟨rfl, fun s hs => ?_, ?_⟩
  · rcases List.mem_pair.mp (show s ∈ [_, _] from hs) with rfl | rfl
    · exact ⟨⟨1⟩, ⟨.output, 1, "y", .float32, .attrib, []⟩, ⟨2⟩, rfl⟩
    · exact ⟨⟨2⟩, ⟨.const, 1, "", .float32, .attrib, [1]⟩, ⟨3⟩, rfl⟩
  · rintro x ⟨limit, rfl, hne⟩
    have hend : runToEnd spinning [] [] limit = .error (.stepLimit limit) :=
      visit_spinning limit limit 0
    exact hne (by simp only [runWithin, hend])

end Machine

end KernelAlgebra
