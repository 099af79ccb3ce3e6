import KernelAlgebra.Proofs.Assembly.Operands
import KernelAlgebra.Proofs.Graph.Reachability
import KernelAlgebra.Proofs.Machine.Paths

/-!
# Graphs that carry structured code

Between two spots a graph implements a piece of code when its instructions and edges follow the
structure of the code.  A run from the first spot then does what the code does: it arrives at
the second spot, is discarded on the way, or goes on forever, exactly as the evaluation does.
-/

namespace KernelAlgebra.Assembly

open Machine

/-- A node and what is left of its block. -/
structure Spot where
  node : Nat
  rest : Block

def Spot.with (p : Spot) (st : Store) : Point := ⟨p.node, p.rest, st⟩

def Enters (g : Graph) (id : Nat) (p : Spot) : Prop :=
  ∃ n, g.node? id = some n ∧ p = ⟨id, n.block⟩

/-- The spot is the end of a node that only leads on. -/
structure Leads (g : Graph) (p : Spot) (target : Nat) : Prop where
  rest : p.rest = []
  inner : p.node ≠ g.exit
  node : ∃ block, g.node? p.node = some ⟨block, [], some target⟩

structure Forks (g : Graph) (p : Spot) (v : View) (yes no : Nat) : Prop where
  rest : p.rest = []
  inner : p.node ≠ g.exit
  node : ∃ block, g.node? p.node = some ⟨block, [⟨v, yes⟩], some no⟩

/-- From one spot only edges lead to the other. -/
inductive Slides (g : Graph) : Spot → Spot → Prop
  | refl (p : Spot) : Slides g p p
  | step {p p' q : Spot} {target : Nat} :
      Leads g p target → Enters g target p' → Slides g p' q → Slides g p q

/-- The code stretches from one spot to the other. -/
inductive Implements (g : Graph) (d : Dictionary) : Spot → Code → Spot → Prop
  | done {p q : Spot} : Slides g p q → Implements g d p .done q
  | assign {p q : Spot} {id : Nat} {i : Instruction} {rest : Block} {op : Op} {dst : Operand}
      {srcs : List Operand} {code : Code} :
      Slides g p ⟨id, i :: rest⟩ → Encodes d op dst srcs i →
      Implements g d ⟨id, rest⟩ code q → Implements g d p (.assign op dst srcs code) q
  | kill {p q : Spot} {id : Nat} {i : Instruction} {rest : Block} {src : Operand} {code : Code} :
      Slides g p ⟨id, i :: rest⟩ → Guards d src i →
      Implements g d ⟨id, rest⟩ code q → Implements g d p (.kill src code) q
  | choice {p fork yes no join q : Spot} {v : View} {a b : Nat} {cond : Operand}
      {inner other code : Code} :
      Slides g p fork → Forks g fork v a b → Denotes d cond v →
      Enters g a yes → Enters g b no → Implements g d yes inner join →
      Implements g d no other join → Implements g d join code q →
      Implements g d p (.choice cond inner other code) q
  | loop {p fork body after q : Spot} {v : View} {a b : Nat} {cond : Operand}
      {inner code : Code} :
      Slides g p fork → Forks g fork v a b → Denotes d cond v →
      Enters g a body → Enters g b after → Implements g d body inner fork →
      Implements g d after code q → Implements g d p (.loop cond inner code) q

variable {g : Graph} {u : Overrides} {d : Dictionary}

/-! ## Sliding -/

theorem Slides.trans {p q r : Spot} (h : Slides g p q) (h' : Slides g q r) : Slides g p r := by
  induction h with
  | refl => exact h'
  | step hleads henters _ ih => exact .step hleads henters (ih h')

theorem Implements.slide_end {p q q' : Spot} {code : Code} (h : Implements g d p code q)
    (h' : Slides g q q') : Implements g d p code q' := by
  induction h with
  | done hslides => exact .done (hslides.trans h')
  | assign hslides hi _ ih => exact .assign hslides hi (ih h')
  | kill hslides hi _ ih => exact .kill hslides hi (ih h')
  | choice hslides hforks hv ha hb hyes hno _ _ _ ih =>
      exact .choice hslides hforks hv ha hb hyes hno (ih h')
  | loop hslides hforks hv ha hb hbody _ _ ih =>
      exact .loop hslides hforks hv ha hb hbody (ih h')

theorem Implements.chosen {yes no join : Spot} {inner other : Code}
    (h : Implements g d yes inner join) (h' : Implements g d no other join) (t : Bool) :
    Implements g d (bif t then yes else no) (bif t then inner else other) join := by
  cases t with
  | true => exact h
  | false => exact h'

/-! ## Steps of a run -/

theorem next_forks {st : Store} {a : Nat} {v : View} {t : Bool}
    (h : holds u st ⟨v, a⟩ = some t) (ha : a < g.size) (id b : Nat) :
    next u st g.size id (some b) [⟨v, a⟩] = .ok (bif t then a else b) := by
  cases t with
  | true => simp [next, h, Graph.follower?_of_lt ha]
  | false => simp [next, h]

theorem Leads.path {p p' : Spot} {target : Nat} (h : Leads g p target)
    (h' : Enters g target p') (st : Store) : Path g u 1 (p.with st) (p'.with st) := by
  obtain ⟨block, hn⟩ := h.node
  obtain ⟨m, hm, rfl⟩ := h'
  obtain ⟨id, rest⟩ := p
  obtain rfl : rest = [] := h.rest
  exact .edge hn h.inner rfl hm (.done _)

theorem Slides.path {p q : Spot} (h : Slides g p q) (st : Store) :
    ∃ k, Path g u k (p.with st) (q.with st) := by
  induction h with
  | refl => exact ⟨0, .done _⟩
  | step hleads henters _ ih =>
      obtain ⟨k, hpath⟩ := ih
      exact ⟨1 + k, (hleads.path henters st).trans hpath⟩

theorem Forks.path {p yes no : Spot} {v : View} {a b : Nat} {t : Bool} {st : Store}
    (h : Forks g p v a b) (ha : Enters g a yes) (hb : Enters g b no)
    (ht : holds u st ⟨v, a⟩ = some t) :
    Path g u 1 (p.with st) ((bif t then yes else no).with st) := by
  obtain ⟨block, hn⟩ := h.node
  obtain ⟨ma, hma, rfl⟩ := ha
  obtain ⟨mb, hmb, rfl⟩ := hb
  obtain ⟨id, rest⟩ := p
  obtain rfl : rest = [] := h.rest
  have hnext := next_forks ht (Graph.lt_of_node? hma) id b
  cases t with
  | true => exact .edge hn h.inner hnext hma (.done _)
  | false => exact .edge hn h.inner hnext hmb (.done _)

theorem ends_edge {k id : Nat} {n : Node} {st fin : Store} {killed : Bool}
    (hn : g.node? id = some n) (hexit : id ≠ g.exit)
    (h : Ends g u k ⟨id, [], st⟩ fin killed) :
    ∃ j target p, k = j + 1 ∧ next u st g.size id n.follower n.branches = .ok target ∧
      Enters g target p ∧ Ends g u j (p.with st) fin killed := by
  obtain ⟨c, hpath, hstop⟩ := h
  cases hpath with
  | done =>
      cases hstop
      exact absurd rfl hexit
  | edge hn' _ hnext hm hpath =>
      cases hn.symm.trans hn'
      exact ⟨_, _, _, rfl, hnext, ⟨_, hm, rfl⟩, c, hpath, hstop⟩

theorem Enters.unique {id : Nat} {p p' : Spot} (h : Enters g id p) (h' : Enters g id p') :
    p = p' := by
  obtain ⟨n, hn, rfl⟩ := h
  obtain ⟨n', hn', rfl⟩ := h'
  cases hn.symm.trans hn'
  rfl

theorem Slides.ends {p q : Spot} (h : Slides g p q) {k : Nat} {st fin : Store} {killed : Bool}
    (hends : Ends g u k (p.with st) fin killed) :
    ∃ j ≤ k, Ends g u j (q.with st) fin killed := by
  induction h generalizing k with
  | refl => exact ⟨k, Nat.le_refl k, hends⟩
  | @step p p' q target hleads henters _ ih =>
      obtain ⟨block, hn⟩ := hleads.node
      obtain ⟨id, rest⟩ := p
      obtain rfl : rest = [] := hleads.rest
      obtain ⟨j, target', p₁, rfl, hnext, henters', hends'⟩ := ends_edge hn hleads.inner hends
      cases hnext
      cases henters.unique henters'
      obtain ⟨i, hi, hends''⟩ := ih hends'
      exact ⟨i, by omega, hends''⟩

theorem Forks.ends {p yes no : Spot} {v : View} {a b k : Nat} {st fin : Store} {killed : Bool}
    (h : Forks g p v a b) (ha : Enters g a yes) (hb : Enters g b no)
    (hends : Ends g u k (p.with st) fin killed) :
    ∃ t j, holds u st ⟨v, a⟩ = some t ∧ k = j + 1 ∧
      Ends g u j ((bif t then yes else no).with st) fin killed := by
  obtain ⟨block, hn⟩ := h.node
  obtain ⟨id, rest⟩ := p
  obtain rfl : rest = [] := h.rest
  obtain ⟨j, target, p₁, rfl, hnext, henters, hends'⟩ := ends_edge hn h.inner hends
  have hsize : a < g.size := by
    obtain ⟨n, hn, _⟩ := ha
    exact Graph.lt_of_node? hn
  cases ht : holds u st ⟨v, a⟩ with
  | none =>
      simp only [next, ht] at hnext
      cases hnext
  | some t =>
      cases (next_forks ht hsize id b).symm.trans hnext
      refine ⟨t, j, rfl, rfl, ?_⟩
      cases t with
      | true => exact ha.unique henters ▸ hends'
      | false => exact hb.unique henters ▸ hends'

theorem ends_cons {k id : Nat} {i : Instruction} {rest : Block} {st fin : Store}
    {killed : Bool} (h : Ends g u k ⟨id, i :: rest, st⟩ fin killed) :
    (∃ st', exec u st i = .ok ⟨st', false⟩ ∧ Ends g u k ⟨id, rest, st'⟩ fin killed) ∨
      exec u st i = .ok ⟨fin, true⟩ ∧ killed = true := by
  obtain ⟨c, hpath, hstop⟩ := h
  cases hpath with
  | done =>
      cases hstop with
      | discard hi => exact .inr ⟨hi, rfl⟩
  | instruction hi hpath => exact .inl ⟨_, hi, c, hpath, hstop⟩

/-! ## Runs follow evaluations -/

/-- Where a run from a spot gets to: the next spot, or its end where it is discarded. -/
def Follows (g : Graph) (u : Overrides) (p q : Spot) (st st' : Store) : Bool → Prop
  | false => ∃ k, Path g u k (p.with st) (q.with st')
  | true => ∃ k, Ends g u k (p.with st) st' true

theorem Follows.after {p p' q : Spot} {k : Nat} {st st' fin : Store} {killed : Bool}
    (h : Path g u k (p.with st) (p'.with st')) (h' : Follows g u p' q st' fin killed) :
    Follows g u p q st fin killed := by
  cases killed with
  | false =>
      obtain ⟨j, hpath⟩ := h'
      exact ⟨k + j, h.trans hpath⟩
  | true =>
      obtain ⟨j, hends⟩ := h'
      exact ⟨k + j, h.ends hends⟩

theorem follows_of_evaluates (hd : d.Proper) {code : Code} {m fin : Memory} {killed : Bool}
    (heval : Evaluates code m fin killed) {p q : Spot} (h : Implements g d p code q)
    {st : Store} (hshows : Shows u d st m) :
    ∃ st', Shows u d st' fin ∧ Follows g u p q st st' killed := by
  induction heval generalizing p q st with
  | done m =>
      cases h with
      | done hslides => exact ⟨st, hshows, hslides.path st⟩
  | assign hassign _ ih =>
      cases h with
      | assign hslides hi hrest =>
          obtain ⟨st₁, hexec, hshows₁⟩ := hi.exec_of_assign hd hshows hassign
          obtain ⟨st', hshows', hfollows⟩ := ih hrest hshows₁
          obtain ⟨k, hpath⟩ := hslides.path (u := u) st
          refine ⟨st', hshows', .after hpath ?_⟩
          exact .after (.instruction hexec (.done _)) hfollows
  | pass hvalue hnone _ ih =>
      cases h with
      | kill hslides hi hrest =>
          have hexec := (hi.exec_eq_ok_iff hd hshows).mpr ⟨_, hvalue, rfl, hnone.symm⟩
          obtain ⟨st', hshows', hfollows⟩ := ih hrest hshows
          obtain ⟨k, hpath⟩ := hslides.path (u := u) st
          refine ⟨st', hshows', .after hpath ?_⟩
          exact .after (.instruction hexec (.done _)) hfollows
  | discard hvalue hsome =>
      cases h with
      | kill hslides hi hrest =>
          have hexec := (hi.exec_eq_ok_iff hd hshows).mpr ⟨_, hvalue, rfl, hsome.symm⟩
          obtain ⟨k, hpath⟩ := hslides.path (u := u) st
          exact ⟨st, hshows, k + 0, hpath.ends (Stops.discard hexec).ends⟩
  | @choice cond yes no rest m mid fin t killed ht _ _ ihinner ihrest =>
      cases h with
      | choice hslides hforks hv ha hb hyes hno hrest =>
          obtain ⟨k, hpath⟩ := hslides.path (u := u) st
          have hfork := hforks.path ha hb ((holds_eq hd hv hshows _).trans ht)
          obtain ⟨st₁, hshows₁, j, hpath₁⟩ := ihinner (hyes.chosen hno t) hshows
          obtain ⟨st', hshows', hfollows⟩ := ihrest hrest hshows₁
          exact ⟨st', hshows', .after hpath (.after hfork (.after hpath₁ hfollows))⟩
  | @choiceDiscard cond yes no rest m fin t ht _ ihinner =>
      cases h with
      | choice hslides hforks hv ha hb hyes hno hrest =>
          obtain ⟨k, hpath⟩ := hslides.path (u := u) st
          have hfork := hforks.path ha hb ((holds_eq hd hv hshows _).trans ht)
          obtain ⟨st', hshows', j, hends⟩ := ihinner (hyes.chosen hno t) hshows
          exact ⟨st', hshows', _, hpath.ends (hfork.ends hends)⟩
  | leave ht _ ih =>
      cases h with
      | loop hslides hforks hv ha hb hbody hrest =>
          obtain ⟨k, hpath⟩ := hslides.path (u := u) st
          have hfork := hforks.path ha hb ((holds_eq hd hv hshows _).trans ht)
          obtain ⟨st', hshows', hfollows⟩ := ih hrest hshows
          exact ⟨st', hshows', .after hpath (.after hfork hfollows)⟩
  | again ht _ _ ihbody ihloop =>
      cases h with
      | loop hslides hforks hv ha hb hbody hrest =>
          obtain ⟨k, hpath⟩ := hslides.path (u := u) st
          have hfork := hforks.path ha hb ((holds_eq hd hv hshows _).trans ht)
          obtain ⟨st₁, hshows₁, j, hpath₁⟩ := ihbody hbody hshows
          -- the loop once more, from its test
          have hagain := Implements.loop (.refl _) hforks hv ha hb hbody hrest
          obtain ⟨st', hshows', hfollows⟩ := ihloop hagain hshows₁
          exact ⟨st', hshows', .after hpath (.after hfork (.after hpath₁ hfollows))⟩
  | loopDiscard ht _ ihbody =>
      cases h with
      | loop hslides hforks hv ha hb hbody hrest =>
          obtain ⟨k, hpath⟩ := hslides.path (u := u) st
          have hfork := hforks.path ha hb ((holds_eq hd hv hshows _).trans ht)
          obtain ⟨st', hshows', j, hends⟩ := ihbody hbody hshows
          exact ⟨st', hshows', _, hpath.ends (hfork.ends hends)⟩

/-! ## Evaluations follow runs -/

def Explains (g : Graph) (u : Overrides) (d : Dictionary) (code : Code) (m : Memory) (q : Spot)
    (k : Nat) (fin : Store) (killed : Bool) : Prop :=
  (∃ mid st' j, j ≤ k ∧ Evaluates code m mid false ∧ Shows u d st' mid ∧
    Ends g u j (q.with st') fin killed) ∨
  (killed = true ∧ ∃ mid, Evaluates code m mid true ∧ Shows u d fin mid)

theorem Explains.imp {code code' : Code} {m m' : Memory} {q : Spot} {j k : Nat} {fin : Store}
    {killed : Bool} (h : Explains g u d code m q j fin killed) (hle : j ≤ k)
    (hcode : ∀ mid killed, Evaluates code m mid killed → Evaluates code' m' mid killed) :
    Explains g u d code' m' q k fin killed := by
  rcases h with ⟨mid, st', i, hi, heval, hshows, hends⟩ | ⟨hkilled, mid, heval, hshows⟩
  · exact .inl ⟨mid, st', i, by omega, hcode _ _ heval, hshows, hends⟩
  · exact .inr ⟨hkilled, mid, hcode _ _ heval, hshows⟩

theorem explains_of_ends_le (hd : d.Proper) (k : Nat) {p q : Spot} {code : Code}
    (h : Implements g d p code q) {c : Nat} (hc : c ≤ k) {m : Memory} {st fin : Store}
    {killed : Bool} (hshows : Shows u d st m) (hends : Ends g u c (p.with st) fin killed) :
    Explains g u d code m q c fin killed := by
  -- the code gets smaller except at the end of a loop body, where edges have been used up
  induction k using Nat.strongRecOn generalizing p q code c m st with
  | ind k ihk =>
  induction h generalizing c m st with
  | done hslides =>
      obtain ⟨j, hj, hends⟩ := hslides.ends hends
      exact .inl ⟨m, st, j, hj, .done m, hshows, hends⟩
  | assign hslides hi _ ih =>
      obtain ⟨j, hj, hends⟩ := hslides.ends hends
      rcases ends_cons hends with ⟨st₁, hexec, hends⟩ | ⟨hexec, _⟩
      · obtain ⟨_, m₁, hassign, hshows₁⟩ := hi.assign_of_exec hd hshows hexec
        refine (ih (Nat.le_trans hj hc) hshows₁ hends).imp hj ?_
        exact fun _ _ heval => .assign hassign heval
      · exact absurd (hi.assign_of_exec hd hshows hexec).1 Bool.true_eq_false.mp
  | kill hslides hi _ ih =>
      obtain ⟨j, hj, hends⟩ := hslides.ends hends
      rcases ends_cons hends with ⟨st₁, hexec, hrest⟩ | ⟨hexec, hkilled⟩
      · obtain ⟨xs, hvalue, rfl, hany⟩ := (hi.exec_eq_ok_iff hd hshows).mp hexec
        refine (ih (Nat.le_trans hj hc) hshows hrest).imp hj ?_
        exact fun _ _ heval => .pass hvalue hany.symm heval
      · obtain ⟨xs, hvalue, rfl, hany⟩ := (hi.exec_eq_ok_iff hd hshows).mp hexec
        exact .inr ⟨hkilled, m, .discard hvalue hany.symm, hshows⟩
  | @choice p fork yes no join q v a b cond inner other code hslides hforks hv ha hb _ _ _
      ihyes ihno ihrest =>
      obtain ⟨j, hj, hends⟩ := hslides.ends hends
      obtain ⟨t, i, ht, rfl, hends⟩ := hforks.ends ha hb hends
      rw [holds_eq hd hv hshows] at ht
      have hinner : Explains g u d (bif t then inner else other) m join i fin killed := by
        cases t with
        | true => exact ihyes (by omega) hshows hends
        | false => exact ihno (by omega) hshows hends
      rcases hinner with ⟨mid, st₁, i₁, hi₁, heval, hshows₁, hends⟩ | ⟨hkilled, mid, heval, hfin⟩
      · refine (ihrest (by omega) hshows₁ hends).imp (by omega) ?_
        exact fun _ _ hrest => .choice ht heval hrest
      · exact .inr ⟨hkilled, mid, .choiceDiscard ht heval, hfin⟩
  | loop hslides hforks hv ha hb hbody hrest ihbody ihrest =>
      obtain ⟨j, hj, hends⟩ := hslides.ends hends
      obtain ⟨t, i, ht, rfl, hends⟩ := hforks.ends ha hb hends
      rw [holds_eq hd hv hshows] at ht
      cases t with
      | false =>
          refine (ihrest (by omega) hshows hends).imp (by omega) ?_
          exact fun _ _ heval => .leave ht heval
      | true =>
          rcases ihbody (by omega) hshows hends with
            ⟨mid, st₁, i₁, hi₁, heval, hshows₁, hends⟩ | ⟨hkilled, mid, heval, hfin⟩
          · have hagain := Implements.loop (.refl _) hforks hv ha hb hbody hrest
            refine (ihk i₁ (by omega) hagain (Nat.le_refl _) hshows₁ hends).imp (by omega) ?_
            exact fun _ _ hloop => .again ht heval hloop
          · exact .inr ⟨hkilled, mid, .loopDiscard ht heval, hfin⟩

theorem explains_of_ends (hd : d.Proper) {p q : Spot} {code : Code}
    (h : Implements g d p code q) {k : Nat} {m : Memory} {st fin : Store} {killed : Bool}
    (hshows : Shows u d st m) (hends : Ends g u k (p.with st) fin killed) :
    Explains g u d code m q k fin killed :=
  explains_of_ends_le hd k h (Nat.le_refl k) hshows hends

/-! ## From the beginning to the exit -/

theorem evaluates_of_ends (hd : d.Proper) {p : Spot} {code : Code}
    (h : Implements g d p code ⟨g.exit, []⟩) {k : Nat} {m : Memory} {st fin : Store}
    {killed : Bool} (hshows : Shows u d st m) (hends : Ends g u k (p.with st) fin killed) :
    ∃ m', Evaluates code m m' killed ∧ Shows u d fin m' := by
  rcases explains_of_ends hd h hshows hends with
    ⟨m', st', j, _, heval, hshows', hend⟩ | ⟨rfl, m', heval, hshows'⟩
  · obtain ⟨rfl, rfl⟩ := eq_of_ends_exit hend
    exact ⟨m', heval, hshows'⟩
  · exact ⟨m', heval, hshows'⟩

theorem ends_of_evaluates (hd : d.Proper) {p : Spot} {code : Code}
    (h : Implements g d p code ⟨g.exit, []⟩) {m m' : Memory} {st : Store} {killed : Bool}
    (hshows : Shows u d st m) (heval : Evaluates code m m' killed) :
    ∃ k fin, Ends g u k (p.with st) fin killed ∧ Shows u d fin m' := by
  obtain ⟨st', hshows', hfollows⟩ := follows_of_evaluates hd heval h hshows
  cases killed with
  | false =>
      obtain ⟨k, hpath⟩ := hfollows
      exact ⟨k + 0, st', hpath.ends Stops.exit.ends, hshows'⟩
  | true =>
      obtain ⟨k, hends⟩ := hfollows
      exact ⟨k, st', hends, hshows'⟩

end KernelAlgebra.Assembly
