import KernelAlgebra.Proofs.Assembly.Blueprint
import KernelAlgebra.Proofs.Assembly.Statements

/-!
# Nested statements

Statements that are accepted one after the other, with every frame closed in the end, have a
structure, and the graph that comes of them implements the code of that structure.
-/

namespace KernelAlgebra.Assembly

/-- Statements take one draft to another, step by step. -/
inductive Progress (d : Dictionary) : List Statement → Draft → Draft → Prop
  | nil (b : Draft) : Progress d [] b b
  | cons {s : Statement} {stmts : List Statement} {b b₁ b' : Draft} :
      Advances b b₁ d s → Progress d stmts b₁ b' → Progress d (s :: stmts) b b'

variable {d d' : Dictionary} {b b' b'' : Draft} {g : Graph} {stmts : List Statement}

theorem Advances.extend {s : Statement} (h : Advances b b' d s) (hext : d.Extends d') :
    Advances b b' d' s := by
  cases h with
  | decl hb => exact .decl hb
  | instr hi hb => exact .instr (hi.extend hext) hb
  | kill hi hb => exact .kill (hi.extend hext) hb
  | openIf hv hb => exact .openIf (hv.extend hext) hb
  | openElse hframes hb => exact .openElse hframes hb
  | closeIf hframes hkind hb => exact .closeIf hframes hkind hb
  | openWhile hv hb => exact .openWhile (hv.extend hext) hb
  | closeWhile hframes hb => exact .closeWhile hframes hb

theorem Advances.ready {s : Statement} (h : Advances b b' d s) (hready : b.Ready) : b'.Ready := by
  cases h with
  | decl hb => exact hb ▸ hready
  | instr _ hb => exact hb ▸ hready.append _
  | kill _ hb => exact hb ▸ hready.append _
  | openIf _ hb => exact hb ▸ hready.openIf _
  | openElse hframes hb => exact hb ▸ Draft.Ready.openElse hframes hready
  | closeIf hframes _ hb => exact hb ▸ Draft.Ready.close hframes _ hready
  | openWhile _ hb => exact hb ▸ hready.openWhile _
  | @closeWhile _ head join _ hframes hb => exact hb ▸ Draft.Ready.close hframes head hready

theorem Advances.grows {s : Statement} (h : Advances b b' d s) (hready : b.Ready)
    (hgrows : b'.Grows g) : b.Grows g := by
  cases h with
  | decl hb => exact hb ▸ hgrows
  | instr _ hb => exact (hb ▸ hgrows).of_append hready
  | kill _ hb => exact (hb ▸ hgrows).of_append hready
  | openIf _ hb => exact (hb ▸ hgrows).of_openIf hready
  | openElse hframes hb => exact Draft.Grows.of_openElse hframes hready (hb ▸ hgrows)
  | closeIf hframes _ hb => exact Draft.Grows.of_close hframes _ hready (hb ▸ hgrows)
  | openWhile _ hb => exact (hb ▸ hgrows).of_openWhile hready
  | @closeWhile _ head join _ hframes hb =>
      exact Draft.Grows.of_close hframes head hready (hb ▸ hgrows)

theorem Progress.ready (h : Progress d stmts b b') (hready : b.Ready) : b'.Ready := by
  induction h with
  | nil => exact hready
  | cons hs _ ih => exact ih (hs.ready hready)

theorem Progress.grows (h : Progress d stmts b b') (hready : b.Ready) (hgrows : b'.Grows g) :
    b.Grows g := by
  induction h with
  | nil => exact hgrows
  | cons hs _ ih => exact hs.grows hready (ih (hs.ready hready) hgrows)

theorem Progress.split {more : List Statement} (h : Progress d (stmts ++ more) b b'') :
    ∃ b', Progress d stmts b b' ∧ Progress d more b' b'' := by
  induction stmts generalizing b with
  | nil => exact ⟨b, .nil b, h⟩
  | cons s stmts ih =>
      cases h with
      | cons hs hrest =>
          obtain ⟨b', hfirst, hsecond⟩ := ih hrest
          exact ⟨b', .cons hs hfirst, hsecond⟩

/-! ## Every accepted list has a structure -/

theorem Reads.append {more : List Statement} {code code' : Code} (h : Reads stmts code)
    (h' : Reads more code') : ∃ code'', Reads (stmts ++ more) code'' := by
  induction h with
  | done => exact ⟨code', h'⟩
  | decl _ ih =>
      obtain ⟨rest, hrest⟩ := ih
      exact ⟨rest, .decl hrest⟩
  | assign _ ih =>
      obtain ⟨rest, hrest⟩ := ih
      exact ⟨_, .assign hrest⟩
  | kill _ ih =>
      obtain ⟨rest, hrest⟩ := ih
      exact ⟨_, .kill hrest⟩
  | @choice cond _ _ _ _ yes _ hbody _ _ ih =>
      obtain ⟨rest, hrest⟩ := ih
      refine ⟨.choice cond yes .done rest, ?_⟩
      rw [List.cons_append, List.append_assoc]
      exact .choice hbody hrest
  | @alternative cond _ _ _ _ _ _ yes no _ hbody hother _ _ _ ih =>
      obtain ⟨rest, hrest⟩ := ih
      refine ⟨.choice cond yes no rest, ?_⟩
      rw [List.cons_append, List.append_assoc, List.cons_append, List.append_assoc]
      exact .alternative hbody hother hrest
  | @loop cond _ _ _ _ inner _ hbody _ _ ih =>
      obtain ⟨rest, hrest⟩ := ih
      refine ⟨.loop cond inner rest, ?_⟩
      rw [List.cons_append, List.append_assoc]
      exact .loop hbody hrest

/-- Statements with frames of these kinds still open, the innermost first. -/
inductive Unclosed : List FrameKind → List Statement → Prop
  | flat {stmts : List Statement} {code : Code} : Reads stmts code → Unclosed [] stmts
  | conditional {kinds : List FrameKind} {before body : List Statement} {cond : Operand}
      {span : Span} {code : Code} :
      Unclosed kinds before → Reads body code →
      Unclosed (.conditional :: kinds) (before ++ .openIf cond span :: body)
  | alternative {kinds : List FrameKind} {before body other : List Statement} {cond : Operand}
      {span span' : Span} {yes no : Code} :
      Unclosed kinds before → Reads body yes → Reads other no →
      Unclosed (.alternative :: kinds)
        (before ++ .openIf cond span :: (body ++ .openElse span' :: other))
  | loop {kinds : List FrameKind} {before body : List Statement} {cond : Operand}
      {span : Span} {code : Code} :
      Unclosed kinds before → Reads body code →
      Unclosed (.loop :: kinds) (before ++ .openWhile cond span :: body)

theorem Unclosed.append {kinds : List FrameKind} {more : List Statement} {code : Code}
    (h : Unclosed kinds stmts) (h' : Reads more code) : Unclosed kinds (stmts ++ more) := by
  cases h with
  | flat hflat =>
      obtain ⟨rest, hrest⟩ := hflat.append h'
      exact .flat hrest
  | conditional hbefore hbody =>
      obtain ⟨rest, hrest⟩ := hbody.append h'
      rw [List.append_assoc, List.cons_append]
      exact .conditional hbefore hrest
  | alternative hbefore hbody hother =>
      obtain ⟨rest, hrest⟩ := hother.append h'
      rw [List.append_assoc, List.cons_append, List.append_assoc, List.cons_append]
      exact .alternative hbefore hbody hrest
  | loop hbefore hbody =>
      obtain ⟨rest, hrest⟩ := hbody.append h'
      rw [List.append_assoc, List.cons_append]
      exact .loop hbefore hrest

def kinds (b : Draft) : List FrameKind := b.frames.map Frame.kind

theorem Advances.unclosed {s : Statement} (h : Advances b b' d s)
    (hbefore : Unclosed (kinds b) stmts) : Unclosed (kinds b') (stmts ++ [s]) := by
  cases h with
  | decl hb =>
      rw [hb]
      exact hbefore.append (.decl .done)
  | instr _ hb =>
      rw [hb]
      exact hbefore.append (.assign .done)
  | kill _ hb =>
      rw [hb]
      exact hbefore.append (.kill .done)
  | openIf _ hb =>
      rw [hb]
      exact .conditional hbefore .done
  | @openElse span head join outer hframes hb =>
      have hopen : Unclosed (.conditional :: outer.map Frame.kind) stmts := by
        rw [kinds, hframes] at hbefore
        exact hbefore
      rw [hb]
      cases hopen with
      | conditional houter hbody =>
          rw [List.append_assoc, List.cons_append]
          exact .alternative houter hbody .done
  | @closeIf span f outer hframes hkind hb =>
      have hopen : Unclosed (f.kind :: outer.map Frame.kind) stmts := by
        rw [kinds, hframes] at hbefore
        exact hbefore
      rw [hb]
      generalize hf : f.kind = kind at hopen
      cases hopen with
      | conditional houter hbody =>
          rw [List.append_assoc, List.cons_append]
          exact houter.append (.choice hbody .done)
      | alternative houter hbody hother =>
          rw [List.append_assoc, List.cons_append, List.append_assoc, List.cons_append]
          exact houter.append (.alternative hbody hother .done)
      | loop => exact absurd hf hkind
  | openWhile _ hb =>
      rw [hb]
      exact .loop hbefore .done
  | @closeWhile span head join outer hframes hb =>
      have hopen : Unclosed (.loop :: outer.map Frame.kind) stmts := by
        rw [kinds, hframes] at hbefore
        exact hbefore
      rw [hb]
      cases hopen with
      | loop houter hbody =>
          rw [List.append_assoc, List.cons_append]
          exact houter.append (.loop hbody .done)

theorem Progress.unclosed {before : List Statement} (h : Progress d stmts b b')
    (hbefore : Unclosed (kinds b) before) : Unclosed (kinds b') (before ++ stmts) := by
  induction h generalizing before with
  | nil => simpa using hbefore
  | @cons s stmts b b₁ b' hs _ ih =>
      have := ih (hs.unclosed hbefore)
      rwa [List.append_assoc] at this

theorem Progress.exists_reads (h : Progress d stmts b b') (hb : b.frames = [])
    (hb' : b'.frames = []) : ∃ code, Reads stmts code := by
  have hclosed : Unclosed [] ([] ++ stmts) := by
    have hstart : Unclosed (kinds b) [] := by
      rw [kinds, hb]
      exact .flat .done
    have hend := h.unclosed hstart
    rw [kinds, hb'] at hend
    exact hend
  cases hclosed with
  | flat hreads => exact ⟨_, hreads⟩

/-! ## The graph implements the code -/

/-- What a stretch of statements becomes in the finished graph. -/
structure Builds (d : Dictionary) (b b' : Draft) (code : Code) : Prop where
  frames : b'.frames = b.frames
  ready : b'.Ready
  grows : ∀ {g : Graph}, b'.Grows g → b.Grows g
  implements : ∀ {g : Graph} {rest' : Block}, b'.Grows g → b'.Rest g rest' →
    ∃ rest, b.Rest g rest ∧ Implements g d ⟨b.current, rest⟩ code ⟨b'.current, rest'⟩

theorem enters_of_rest {rest : Block} (h : b.graph.node? b.current = some Node.empty)
    (hrest : b.Rest g rest) : Enters g b.current ⟨b.current, rest⟩ := by
  obtain ⟨block, n, hblock, hn, hsplit⟩ := hrest
  cases h.symm.trans hblock
  exact ⟨n, hn, by rw [hsplit]; rfl⟩

theorem inner_of_grows (hready : b.Ready) (hgrows : b.Grows g) : b.current ≠ g.exit := by
  rw [hgrows.exit]
  exact Ne.symm (hready.current_ne List.mem_cons_self)

theorem builds_assign {op : Op} {dst : Operand} {srcs : List Operand} {i : Instruction}
    {code : Code} (hready : b.Ready) (hi : Encodes d op dst srcs i)
    (h : Builds d (b.append i) b' code) : Builds d b b' (.assign op dst srcs code) := by
  refine ⟨h.frames, h.ready, fun hgrows => (h.grows hgrows).of_append hready, ?_⟩
  intro g rest' hgrows hrest'
  obtain ⟨rest, hrest, himpl⟩ := h.implements hgrows hrest'
  exact ⟨i :: rest, hrest.of_append hready, .assign (.refl _) hi himpl⟩

theorem builds_kill {src : Operand} {i : Instruction} {code : Code} (hready : b.Ready)
    (hi : Guards d src i) (h : Builds d (b.append i) b' code) :
    Builds d b b' (.kill src code) := by
  refine ⟨h.frames, h.ready, fun hgrows => (h.grows hgrows).of_append hready, ?_⟩
  intro g rest' hgrows hrest'
  obtain ⟨rest, hrest, himpl⟩ := h.implements hgrows hrest'
  exact ⟨i :: rest, hrest.of_append hready, .kill (.refl _) hi himpl⟩

theorem slides_of_close {f : Frame} {outer : List Frame} {target : Nat} {q : Spot}
    (hframes : b.frames = f :: outer) (hready : b.Ready)
    (hgrows : (b.close target f.join outer).Grows g) (hq : Enters g target q) :
    ∃ rest, b.Rest g rest ∧ Slides g ⟨b.current, rest⟩ q := by
  have hgrows' := Draft.Grows.of_close hframes target hready hgrows
  obtain ⟨rest, hrest⟩ := hgrows'.exists_rest hready
  obtain ⟨rfl, hnode⟩ := Draft.Grows.node?_of_close hframes target hready hgrows hrest
  exact ⟨[], hrest, .step ⟨rfl, inner_of_grows hready hgrows', hnode⟩ hq (.refl _)⟩

theorem forks_of_openIf {v : View} {no : Nat} {n : Node} (hready : b.Ready)
    (hgrows : (b.openIf v).Grows g) (hn : g.node? b.current = some n)
    (hno : n.follower = some no) :
    ∃ rest, b.Rest g rest ∧ Forks g ⟨b.current, rest⟩ v b.graph.size no := by
  have hgrows' := hgrows.of_openIf hready
  obtain ⟨rest, hrest⟩ := hgrows'.exists_rest hready
  obtain ⟨rfl, n', hn', hbranches⟩ := hgrows.node?_of_openIf hready hrest
  cases hn.symm.trans hn'
  refine ⟨[], hrest, rfl, inner_of_grows hready hgrows', n.block, ?_⟩
  obtain ⟨block, branches, follower⟩ := n
  simp only at hbranches hno
  rw [hn, hbranches, hno]

theorem builds_choice {cond : Operand} {v : View} {b₂ : Draft} {f : Frame} {outer : List Frame}
    {yes code : Code} (hready : b.Ready) (hv : Denotes d cond v)
    (hbody : Builds d (b.openIf v) b₂ yes) (hframes : b₂.frames = f :: outer)
    (hrest : Builds d (b₂.close f.join f.join outer) b' code) :
    Builds d b b' (.choice cond yes .done code) := by
  have hopen := hframes.symm.trans hbody.frames
  obtain ⟨rfl, rfl⟩ : f = ⟨.conditional, b.current, b.graph.size + 1⟩ ∧ outer = b.frames :=
    List.cons.inj hopen
  refine ⟨hrest.frames, hrest.ready, ?_, ?_⟩
  · intro g hgrows
    exact (hbody.grows (.of_close hframes _ hbody.ready (hrest.grows hgrows))).of_openIf hready
  intro g rest' hgrows hrest'
  have hgrows₃ := hrest.grows hgrows
  have hgrows₂ := Draft.Grows.of_close hframes _ hbody.ready hgrows₃
  obtain ⟨rest₃, hrest₃, himpl₃⟩ := hrest.implements hgrows hrest'
  have hjoin := enters_of_rest (Draft.node?_close_join hframes _ hbody.ready) hrest₃
  obtain ⟨rest₂, hrest₂, hslides⟩ := slides_of_close hframes hbody.ready hgrows₃ hjoin
  obtain ⟨rest₁, hrest₁, himpl₁⟩ := hbody.implements hgrows₂ hrest₂
  have hyes := enters_of_rest (Draft.node?_openIf_new hready (.inl rfl)) hrest₁
  obtain ⟨n, hn, hno⟩ := Draft.Grows.follower_of_close hframes hbody.ready hgrows₃
  obtain ⟨rest, hrest, hforks⟩ := forks_of_openIf hready (hbody.grows hgrows₂) hn hno
  exact ⟨rest, hrest, .choice (.refl _) hforks hv hyes hjoin (himpl₁.slide_end hslides)
    (.done (.refl _)) himpl₃⟩

theorem builds_alternative {cond : Operand} {v : View} {b₂ b₄ : Draft} {head join : Nat}
    {f : Frame} {outer outer' : List Frame} {yes no code : Code} (hready : b.Ready)
    (hv : Denotes d cond v) (hbody : Builds d (b.openIf v) b₂ yes)
    (hframes : b₂.frames = ⟨.conditional, head, join⟩ :: outer)
    (hother : Builds d (b₂.openElse head join outer) b₄ no) (hframes' : b₄.frames = f :: outer')
    (hrest : Builds d (b₄.close f.join f.join outer') b' code) :
    Builds d b b' (.choice cond yes no code) := by
  have hopen := hframes.symm.trans hbody.frames
  obtain ⟨hframe, rfl⟩ := List.cons.inj hopen
  cases hframe
  have hopen' := hframes'.symm.trans hother.frames
  obtain ⟨rfl, rfl⟩ : f = ⟨.alternative, b.current, b.graph.size + 1⟩ ∧ outer' = b.frames :=
    List.cons.inj hopen'
  refine ⟨hrest.frames, hrest.ready, ?_, ?_⟩
  · intro g hgrows
    have hgrows₃ := hother.grows (.of_close hframes' _ hother.ready (hrest.grows hgrows))
    exact (hbody.grows (.of_openElse hframes hbody.ready hgrows₃)).of_openIf hready
  intro g rest' hgrows hrest'
  have hgrows₅ := hrest.grows hgrows
  have hgrows₄ := Draft.Grows.of_close hframes' _ hother.ready hgrows₅
  have hgrows₃ := hother.grows hgrows₄
  have hgrows₂ := Draft.Grows.of_openElse hframes hbody.ready hgrows₃
  obtain ⟨rest₅, hrest₅, himpl₅⟩ := hrest.implements hgrows hrest'
  have hjoin := enters_of_rest (Draft.node?_close_join hframes' _ hother.ready) hrest₅
  -- the alternative
  obtain ⟨rest₄, hrest₄, hslides₄⟩ := slides_of_close hframes' hother.ready hgrows₅ hjoin
  obtain ⟨rest₃, hrest₃, himpl₃⟩ := hother.implements hgrows₄ hrest₄
  have hno := enters_of_rest (Draft.node?_openElse_new hframes hbody.ready) hrest₃
  -- the body
  obtain ⟨rest₂, hrest₂⟩ := hgrows₂.exists_rest hbody.ready
  obtain ⟨rfl, hnode⟩ := Draft.Grows.node?_of_openElse hframes hbody.ready hgrows₃ hrest₂
  have hslides₂ : Slides g ⟨b₂.current, []⟩ _ :=
    .step ⟨rfl, inner_of_grows hbody.ready hgrows₂, hnode⟩ hjoin (.refl _)
  obtain ⟨rest₁, hrest₁, himpl₁⟩ := hbody.implements hgrows₂ hrest₂
  have hyes := enters_of_rest (Draft.node?_openIf_new hready (.inl rfl)) hrest₁
  -- the test
  obtain ⟨n, hn, hfollower⟩ := Draft.Grows.follower_of_openElse hframes hbody.ready hgrows₃
  obtain ⟨rest, hrest, hforks⟩ := forks_of_openIf hready (hbody.grows hgrows₂) hn hfollower
  exact ⟨rest, hrest, .choice (.refl _) hforks hv hyes hno (himpl₁.slide_end hslides₂)
    (himpl₃.slide_end hslides₄) himpl₅⟩

theorem builds_loop {cond : Operand} {v : View} {b₂ : Draft} {head join : Nat}
    {outer : List Frame} {inner code : Code} (hready : b.Ready) (hv : Denotes d cond v)
    (hbody : Builds d (b.openWhile v) b₂ inner)
    (hframes : b₂.frames = ⟨.loop, head, join⟩ :: outer)
    (hrest : Builds d (b₂.close head join outer) b' code) :
    Builds d b b' (.loop cond inner code) := by
  have hopen := hframes.symm.trans hbody.frames
  obtain ⟨hframe, rfl⟩ := List.cons.inj hopen
  cases hframe
  refine ⟨hrest.frames, hrest.ready, ?_, ?_⟩
  · intro g hgrows
    exact (hbody.grows (.of_close hframes _ hbody.ready (hrest.grows hgrows))).of_openWhile hready
  intro g rest' hgrows hrest'
  have hgrows₃ := hrest.grows hgrows
  have hgrows₂ := Draft.Grows.of_close hframes _ hbody.ready hgrows₃
  have hgrows₁ := hbody.grows hgrows₂
  have htest := hgrows₁.test_of_openWhile hready
  have hhead : Enters g b.graph.size ⟨b.graph.size, []⟩ := ⟨_, htest, rfl⟩
  obtain ⟨rest₃, hrest₃, himpl₃⟩ := hrest.implements hgrows hrest'
  have hafter := enters_of_rest (Draft.node?_close_join hframes _ hbody.ready) hrest₃
  obtain ⟨rest₂, hrest₂, hslides₂⟩ := slides_of_close hframes hbody.ready hgrows₃ hhead
  obtain ⟨rest₁, hrest₁, himpl₁⟩ := hbody.implements hgrows₂ hrest₂
  have hinner := enters_of_rest (Draft.node?_openWhile_new hready (.inl rfl)) hrest₁
  obtain ⟨rest, hrest⟩ := (hgrows₁.of_openWhile hready).exists_rest hready
  obtain ⟨rfl, hnode⟩ := hgrows₁.node?_of_openWhile hready hrest
  have hslides : Slides g ⟨b.current, []⟩ ⟨b.graph.size, []⟩ :=
    .step ⟨rfl, inner_of_grows hready (hgrows₁.of_openWhile hready), hnode⟩ hhead (.refl _)
  have hexit : b.graph.size ≠ g.exit := by
    have hlt := hready.lt_size (List.mem_cons_of_mem _ List.mem_cons_self)
    rw [hgrows₁.exit]
    exact Ne.symm (Nat.ne_of_lt hlt)
  exact ⟨[], hrest, .loop hslides ⟨rfl, hexit, [], htest⟩ hv hinner hafter
    (himpl₁.slide_end hslides₂) himpl₃⟩

theorem Progress.builds {code : Code} (hreads : Reads stmts code) (h : Progress d stmts b b')
    (hready : b.Ready) : Builds d b b' code := by
  induction hreads generalizing b b' with
  | done =>
      cases h
      exact ⟨rfl, hready, fun hgrows => hgrows, fun _ hrest => ⟨_, hrest, .done (.refl _)⟩⟩
  | decl _ ih =>
      cases h with
      | cons hs hrest =>
          cases hs with
          | decl hb => exact ih (hb ▸ hrest) hready
  | assign _ ih =>
      cases h with
      | cons hs hrest =>
          cases hs with
          | instr hi hb => exact builds_assign hready hi (ih (hb ▸ hrest) (hready.append _))
  | kill _ ih =>
      cases h with
      | cons hs hrest =>
          cases hs with
          | kill hi hb => exact builds_kill hready hi (ih (hb ▸ hrest) (hready.append _))
  | choice _ _ ihbody ihrest =>
      cases h with
      | cons hopen hinner =>
          obtain ⟨b₂, hbody, hclosing⟩ := hinner.split
          cases hclosing with
          | cons hclose hrest =>
              cases hopen with
              | openIf hv hb =>
                  cases hclose with
                  | closeIf hframes _ hb' =>
                      have hbuilt := ihbody (hb ▸ hbody) (hready.openIf _)
                      exact builds_choice hready hv.denotes hbuilt hframes
                        (ihrest (hb' ▸ hrest) (.close hframes _ hbuilt.ready))
  | alternative _ _ _ ihbody ihother ihrest =>
      cases h with
      | cons hopen hinner =>
          obtain ⟨b₂, hbody, helse⟩ := hinner.split
          cases helse with
          | cons hswitch hinner' =>
              obtain ⟨b₄, hother, hclosing⟩ := hinner'.split
              cases hclosing with
              | cons hclose hrest =>
                  cases hopen with
                  | openIf hv hb =>
                      cases hswitch with
                      | openElse hframes hb' =>
                          cases hclose with
                          | closeIf hframes' _ hb'' =>
                              have hbuilt := ihbody (hb ▸ hbody) (hready.openIf _)
                              have hbuilt' := ihother (hb' ▸ hother)
                                (.openElse hframes hbuilt.ready)
                              exact builds_alternative hready hv.denotes hbuilt hframes hbuilt'
                                hframes' (ihrest (hb'' ▸ hrest) (.close hframes' _ hbuilt'.ready))
  | loop _ _ ihbody ihrest =>
      cases h with
      | cons hopen hinner =>
          obtain ⟨b₂, hbody, hclosing⟩ := hinner.split
          cases hclosing with
          | cons hclose hrest =>
              cases hopen with
              | openWhile hv hb =>
                  cases hclose with
                  | @closeWhile _ head join outer hframes hb' =>
                      have hbuilt := ihbody (hb ▸ hbody) (hready.openWhile _)
                      exact builds_loop hready hv.denotes hbuilt hframes
                        (ihrest (hb' ▸ hrest) (.close hframes head hbuilt.ready))

end KernelAlgebra.Assembly
