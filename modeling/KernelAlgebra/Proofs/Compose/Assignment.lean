import KernelAlgebra.Compose.Record
import KernelAlgebra.Proofs.Builder.Inlining
import KernelAlgebra.Proofs.Compose.Call
import KernelAlgebra.Proofs.Compose.Closure

/-!
# Programs inside kernels

A program is assigned to a record at the current position of a kernel under construction: its
call becomes part of the kernel's code.  Whatever the kernel grows to, a run that comes to the
call behaves as if the program were run there, as long as the call finds its symbols as they are
at the start.
-/

namespace KernelAlgebra

open Machine

/-! ## Connecting without optimization -/

theorem sizes_of_checkPairs {pairs : List (Symbol × Symbol)} {i : Nat}
    (h : checkPairs i pairs = .ok ()) :
    (∀ q ∈ pairs, q.1.isHole = false ∧ q.2.isHole = false) ∧ ∀ q ∈ pairs, q.1.size = q.2.size := by
  induction pairs generalizing i with
  | nil => simp
  | cons q rest ih =>
      obtain ⟨o, n⟩ := q
      simp only [checkPairs] at h
      split at h
      · cases h
      rename_i hholes
      split at h
      · cases h
      rename_i hsize
      obtain ⟨hsolid, hsizes⟩ := ih h
      have hsolid' : o.isHole = false ∧ n.isHole = false := by simpa using hholes
      have hsize' : o.size = n.size := by simpa using hsize
      exact ⟨List.forall_mem_cons.mpr ⟨hsolid', hsolid⟩,
        List.forall_mem_cons.mpr ⟨hsize', hsizes⟩⟩

theorem Compose.yields_ofFresh_bind_iff {α β : Type} {x : Fresh ComposeError α}
    {f : α → Compose β} {env env' : Env} {y : β} :
    Yields (ofFresh x >>= f) env (.ok y) env' ↔
      ∃ a g, Yields x env.supply (.ok a) g ∧
        Yields (f a) { env with supply := g } (.ok y) env' := by
  rw [yields_bind_ok_iff]
  constructor
  · rintro ⟨a, env₁, hx, hf⟩
    obtain ⟨g, hg, rfl⟩ := yields_ofFresh_iff.mp hx
    exact ⟨a, g, hg, hf⟩
  · rintro ⟨a, g, hx, hf⟩
    exact ⟨a, _, yields_ofFresh_iff.mpr ⟨g, hx, rfl⟩, hf⟩

theorem splitInputs_eq_ok {p : Program} {bound : Nat} {g g' : Supply}
    {parts : List Symbol × List Symbol} (h : Yields (splitInputs p bound) g (.ok parts) g') :
    bound ≤ p.inputs.length ∧ parts = (p.inputs.take bound, p.inputs.drop bound) ∧ g' = g := by
  by_cases hbound : bound ≤ p.inputs.length
  · obtain ⟨heq, rfl⟩ := (yields_splitInputs hbound).unique h
    cases heq
    exact ⟨hbound, rfl, rfl⟩
  · unfold splitInputs at h
    rw [if_neg hbound] at h
    cases h

namespace Composer

variable {c : Composer} {env env' : Env}

theorem supply_of_yields_assemble {a b code : Program}
    (h : Yields (assemble c a b) env (.ok code) env') :
    code = sequenced a b ∧ env'.supply = env.supply := by
  unfold assemble at h
  split at h
  · cases h
  · split at h
    · obtain ⟨_, env₁, hlog, h⟩ := yields_bind_ok_iff.mp h
      obtain ⟨heq, rfl⟩ := yields_pure.mp h
      cases heq
      exact ⟨rfl, (Compose.supply_of_yields_log hlog).2⟩
    · obtain ⟨heq, rfl⟩ := yields_pure.mp h
      cases heq
      exact ⟨rfl, rfl⟩

theorem yields_operands_of_apart {ap bp : Program} {g : Supply}
    (hapart : ap.sharesLocals bp.toInterface = false) :
    Yields (operands ap.sketch bp.sketch) g (.ok (ap.copied, bp.copied)) g := by
  unfold operands
  refine (yields_bind Fresh.yields_copyOf).mpr ?_
  rw [show ap.sketch.sharesLocals bp.sketch.toInterface = false from hapart]
  refine (yields_bind Fresh.yields_copyOf).mpr ?_
  exact yields_pure.mpr ⟨rfl, rfl⟩

theorem wires_of_connectBoth {a b h : Handle} {ap bp : Program} (hraw : c.optimize = false)
    (ha : a.sketch = ap.sketch) (hb : b.sketch = bp.sketch)
    (hapart : ap.sharesLocals bp.toInterface = false)
    (hrun : Yields (connectBoth c a b) env (.ok h) env') :
    ∃ ws, Wire.Drawn env.supply env'.supply (ap.outputs.zip (bp.inputs.drop b.bindings.length))
        ws ∧
      (∀ w ∈ ws, w.output.size = w.input.size) ∧
      h.sketch = (Connection.program ap.copied bp.copied a.bindings.length b.bindings.length
        ws).collect.sketch ∧
      h.bindings = a.bindings ++ b.bindings := by
  unfold connectBoth at hrun
  rw [ha, hb] at hrun
  have hrun := (yields_bind (Compose.yields_ofFresh_iff.mpr
    ⟨_, yields_operands_of_apart hapart, rfl⟩)).mp hrun
  obtain ⟨parts, g₁, hfirst, hrun⟩ := Compose.yields_ofFresh_bind_iff.mp hrun
  obtain ⟨htaken, rfl, rfl⟩ := splitInputs_eq_ok hfirst
  obtain ⟨parts, g₁, hsecond, hrun⟩ := Compose.yields_ofFresh_bind_iff.mp hrun
  obtain ⟨hbound, rfl, rfl⟩ := splitInputs_eq_ok hsecond
  obtain ⟨_, g₁, hcheck, hrun⟩ := Compose.yields_ofFresh_bind_iff.mp hrun
  cases hpairs : checkPairs 0 (ap.copied.outputs.zip (bp.copied.inputs.drop b.bindings.length)) with
  | error f =>
      rw [hpairs] at hcheck
      cases hcheck
  | ok _ =>
      rw [hpairs] at hcheck
      obtain ⟨_, rfl⟩ := yields_pure.mp hcheck
      obtain ⟨hsolid, hsizes⟩ := sizes_of_checkPairs hpairs
      obtain ⟨ws, g, hdrawing, hdrawn⟩ := Wire.exists_drawn hsolid env.supply
      have hrun := (yields_bind (Compose.yields_ofFresh_iff.mpr ⟨_, hdrawing, rfl⟩)).mp hrun
      obtain ⟨code, env₁, hassemble, hrun⟩ := yields_bind_ok_iff.mp hrun
      obtain ⟨rfl, hsupply₁⟩ := supply_of_yields_assemble hassemble
      split at hrun
      · cases hrun
      obtain ⟨q, env₂, hfinish, hrun⟩ := yields_bind_ok_iff.mp hrun
      simp only [Compose.finish, hraw, Bool.false_eq_true, if_false] at hfinish
      obtain ⟨hq, rfl⟩ := yields_pure.mp hfinish
      cases hq
      obtain ⟨hh, rfl⟩ := Compose.yields_newHandle_iff.mp hrun
      cases hh
      refine ⟨ws, ?_, ?_, rfl, rfl⟩
      · change Wire.Drawn env.supply env₂.supply _ ws
        rw [hsupply₁]
        exact hdrawn
      · intro w hw
        refine hsizes (w.output, w.input) ?_
        rw [← hdrawn.ends]
        exact List.mem_map.mpr ⟨w, hw, rfl⟩

end Composer

/-! ## The steps of an assignment -/

theorem Record.sizes_of_checkSizes {fault : Nat → Symbol → Symbol → ComposeError} {i : Nat}
    {xs ys : Record} (h : checkSizes fault i xs ys = .ok ()) (hlen : xs.length = ys.length) :
    xs.map Symbol.size = ys.map Symbol.size ∧ ∀ s ∈ ys, s.isHole = false := by
  induction xs generalizing ys i with
  | nil =>
      cases ys with
      | nil => simp
      | cons y ys => cases hlen
  | cons x xs ih =>
      cases ys with
      | nil => cases hlen
      | cons y ys =>
          simp only [checkSizes] at h
          split at h
          · cases h
          rename_i hholes
          split at h
          · cases h
          rename_i hsize
          obtain ⟨hsizes, hsolid⟩ := ih h (Nat.succ.inj hlen)
          have hsize' : x.size = y.size := by simpa using hsize
          have hsolid' : y.isHole = false := by
            simp only [Bool.or_eq_true, not_or, Bool.not_eq_true] at hholes
            exact hholes.2
          exact ⟨by rw [List.map_cons, List.map_cons, hsizes, hsize'],
            List.forall_mem_cons.mpr ⟨hsolid', hsolid⟩⟩

theorem zipWith_copy (xs ys : List Symbol) :
    List.zipWith Instruction.copy xs ys = copyBlock (xs.zip ys) := by
  rw [copyBlock, List.zip, List.map_zipWith]

theorem Channels.of_yields_like {role : Role} {templates list : List Symbol} {env env' : Env}
    (habove : env.supply.Above templates) (hsolid : ∀ s ∈ templates, s.isHole = false)
    (h : Yields (like role templates) env (.ok list) env') :
    Likenesses role templates list env'.supply ∧ (∀ s ∈ list, env.supply.next ≤ s.id) ∧
      env.supply.next ≤ env'.supply.next := by
  obtain ⟨g, hcopied, rfl⟩ := Compose.yields_ofFresh_iff.mp h
  obtain ⟨heq, rfl⟩ := (Fresh.yields_copyAll hsolid).unique hcopied
  cases heq
  refine ⟨likenesses_copyAll habove hsolid, fun s hs => (Supply.fresh_of_mem_copyAll hs).1, ?_⟩
  exact Nat.le_trans (Nat.le_add_right _ _) (Nat.le_of_eq (Supply.next_copyAll _).symm)

namespace Composer

variable {c : Composer} {env env' : Env} {h : Handle} {p : Program} {r args : Record}

theorem of_yields_ofExcept {ε α : Type} {x : Except (Fault ε) α} {a : α} {g g' : Supply}
    (h : Yields (Fresh.ofExcept x) g (.ok a) g') : x = .ok a ∧ g' = g := by
  cases x with
  | ok a =>
      obtain ⟨heq, rfl⟩ := yields_pure.mp h
      cases heq
      exact ⟨rfl, rfl⟩
  | error f => cases h

theorem of_yields_argumentFeeder {target : String} {free : List Symbol} {feeder : Handle}
    (habove : env.supply.Above free) (hsolid : ∀ s ∈ free, s.isHole = false)
    (hrun : Yields (argumentFeeder target free args) env (.ok feeder) env') :
    ∃ outs, Likenesses .output free outs env'.supply ∧ (∀ s ∈ outs, env.supply.next ≤ s.id) ∧
      env.supply.next ≤ env'.supply.next ∧
      feeder.sketch = (bridge target [] outs (outs.zip args)).sketch ∧ feeder.bindings = [] := by
  obtain ⟨outs, env₁, hlike, hrun⟩ := yields_bind_ok_iff.mp hrun
  obtain ⟨houts, hnew, hlater⟩ := Channels.of_yields_like habove hsolid hlike
  obtain ⟨heq, rfl⟩ := Compose.yields_newHandle_iff.mp hrun
  cases heq
  refine ⟨outs, houts, hnew, hlater, ?_, rfl⟩
  rw [zipWith_copy]
  rfl

theorem of_yields_resultCapture {target : String} {outputs : List Symbol} {capture : Handle}
    (habove : env.supply.Above outputs) (hsolid : ∀ s ∈ outputs, s.isHole = false)
    (hrun : Yields (resultCapture target outputs r) env (.ok capture) env') :
    ∃ ins, Likenesses .input outputs ins env'.supply ∧ (∀ s ∈ ins, env.supply.next ≤ s.id) ∧
      env.supply.next ≤ env'.supply.next ∧
      capture.sketch = (bridge target ins [] (r.zip ins)).sketch ∧ capture.bindings = [] := by
  obtain ⟨ins, env₁, hlike, hrun⟩ := yields_bind_ok_iff.mp hrun
  obtain ⟨hins, hnew, hlater⟩ := Channels.of_yields_like habove hsolid hlike
  obtain ⟨heq, rfl⟩ := Compose.yields_newHandle_iff.mp hrun
  cases heq
  refine ⟨ins, hins, hnew, hlater, ?_, rfl⟩
  rw [zipWith_copy]
  rfl

theorem sizes_of_checkAssignment {free : List Symbol}
    (hcheck : checkAssignment h free r args = .ok ()) :
    args.map Symbol.size = free.map Symbol.size ∧ r.map Symbol.size = h.outputs.map Symbol.size ∧
      ∀ s ∈ args ++ r, s.isHole = false := by
  unfold checkAssignment at hcheck
  split at hcheck
  · cases hcheck
  rename_i hargs
  split at hcheck
  · cases hcheck
  rename_i hresults
  have hargs' : free.length = args.length := by simpa using hargs
  have hresults' : h.outputs.length = r.length := by simpa using hresults
  split at hcheck
  · cases hcheck
  rename_i hfirst
  obtain ⟨hsizes, hsolid⟩ := Record.sizes_of_checkSizes hfirst hargs'
  obtain ⟨hsizes', hsolid'⟩ := Record.sizes_of_checkSizes hcheck hresults'
  exact ⟨hsizes.symm, hsizes'.symm, List.forall_mem_append.mpr ⟨hsolid, hsolid'⟩⟩

theorem sharesLocals_eq_false {i j : Interface} (h : ∀ s ∈ j.locals, s ∉ i.locals) :
    i.sharesLocals j = false := by
  rw [Interface.sharesLocals, List.any_eq_false]
  intro s hs hcontains
  exact h s hs (List.contains_iff_mem.mp hcontains)

theorem uniform_of_not_hasStreams (hproper : ∀ b ∈ h.bindings, b.Proper)
    (hstreams : h.hasStreams = false) : ∀ b ∈ h.bindings, b.kind = .uniform := by
  intro b hb
  have hkind : b.kind ≠ .stream := by simpa using List.any_eq_false.mp hstreams b hb
  have htakes := (hproper b hb).2
  cases heq : b.kind with
  | uniform => rfl
  | stream => exact absurd heq hkind
  | other code =>
      rw [heq] at htakes
      simp [BindingKind.takes] at htakes

theorem of_yields_freeInputs {free : List Symbol} {g g' : Supply}
    (hp : h.Holds Binding.Proper g p) (hrun : Yields h.freeInputs g (.ok free) g') :
    free = p.inputs.drop h.bindings.length ∧ g' = g := by
  have hinputs : h.sketch.inputs = p.inputs := by rw [hp.sketch]; rfl
  unfold Handle.freeInputs at hrun
  rw [if_pos (hinputs ▸ hp.fed.length_le)] at hrun
  obtain ⟨heq, rfl⟩ := yields_pure.mp hrun
  cases heq
  exact ⟨by rw [Handle.free, hinputs], rfl⟩

theorem of_yields_inlineInto {b b' : Builder} {q : Program}
    (hrun : Yields (inlineInto b q) env (.ok b') env') : b.inline q = .ok b' ∧ env' = env := by
  unfold inlineInto at hrun
  split at hrun
  · rename_i hinline
    obtain ⟨heq, rfl⟩ := yields_pure.mp hrun
    cases heq
    exact ⟨hinline, rfl⟩
  · cases hrun

section Steps

variable {target : String} {feeder capture fed whole : Handle} {env₁ env₂ env₃ env₄ : Env}

/-- The channels on both sides of a call, and the handles that lead to them. -/
structure Sides (p : Program) (bound : Nat) (target : String) (args r : Record)
    (feeder capture : Handle) (g g₁ g₂ : Supply) (outs ins : List Symbol) : Prop where
  outs_like : Likenesses .output (p.inputs.drop bound) outs g₁
  outs_new : ∀ s ∈ outs, g.next ≤ s.id
  later₁ : g.next ≤ g₁.next
  feeder_sketch : feeder.sketch = (bridge target [] outs (outs.zip args)).sketch
  feeder_bindings : feeder.bindings = []
  ins_like : Likenesses .input p.outputs ins g₂
  ins_new : ∀ s ∈ ins, g₁.next ≤ s.id
  later₂ : g₁.next ≤ g₂.next
  capture_sketch : capture.sketch = (bridge target ins [] (r.zip ins)).sketch
  capture_bindings : capture.bindings = []
  apart : (bridge target [] outs (outs.zip args)).sharesLocals p.toInterface = false

theorem exists_sides (hp : h.Holds Binding.Proper env.supply p)
    (hfeeder : Yields (argumentFeeder target (p.inputs.drop h.bindings.length) args) env
      (.ok feeder) env₁)
    (hcapture : Yields (resultCapture target p.outputs r) env₁ (.ok capture) env₂) :
    ∃ outs ins, Sides p h.bindings.length target args r feeder capture env.supply env₁.supply
      env₂.supply outs ins := by
  have hinputs : ∀ s ∈ p.inputs.drop h.bindings.length, s ∈ p.inputs :=
    fun s hs => List.mem_of_mem_drop hs
  obtain ⟨outs, houts, houts_new, hlater₁, hfeeder_sketch, hfeeder_bindings⟩ :=
    of_yields_argumentFeeder
      (fun s hs => hp.above s (Interface.mem_symbols.mpr (.inl (hinputs s hs))))
      (fun s hs => hp.valid.orderly.inputs.solid s (hinputs s hs)) hfeeder
  obtain ⟨ins, hins, hins_new, hlater₂, hcapture_sketch, hcapture_bindings⟩ :=
    of_yields_resultCapture
      (fun s hs => hp.above.mono hlater₁ s (Interface.mem_symbols.mpr (.inr (.inl hs))))
      hp.valid.orderly.outputs.solid hcapture
  have hapart : ∀ s ∈ p.locals, s ∉ (bridge target [] outs (outs.zip args)).locals := by
    intro s hs hmem
    rcases mem_channels_of_mem_bridge (Interface.mem_symbols_of_mem_locals hmem) with hin | hout
    · cases hin
    · have hold := hp.above s (Interface.mem_symbols_of_mem_locals hs)
      exact absurd (houts_new s hout) (Nat.not_le_of_lt hold)
  exact ⟨outs, ins, houts, houts_new, hlater₁, hfeeder_sketch, hfeeder_bindings, hins, hins_new,
    hlater₂, hcapture_sketch, hcapture_bindings, sharesLocals_eq_false hapart⟩

theorem Sides.exists_front {outs ins : List Symbol} {g g₁ : Supply}
    (hp : h.Holds Binding.Proper env.supply p)
    (hs : Sides p h.bindings.length target args r feeder capture g g₁ env₂.supply outs ins)
    (hfed : Yields (connectBoth c.raw feeder h) env₂ (.ok fed) env₃) :
    ∃ front, Wire.Drawn env₂.supply env₃.supply
        (outs.zip (p.inputs.drop h.bindings.length)) front ∧
      (∀ w ∈ front, w.output.size = w.input.size) ∧
      fed.sketch = (Connection.program (bridge target [] outs (outs.zip args)) p.copied 0
        h.bindings.length front).collect.sketch ∧
      fed.bindings = h.bindings := by
  obtain ⟨front, hfront, hfront_sizes, hfed_sketch, hfed_bindings⟩ :=
    wires_of_connectBoth rfl hs.feeder_sketch hp.sketch hs.apart hfed
  rw [copied_bridge, hs.feeder_bindings] at hfed_sketch
  rw [hs.feeder_bindings, List.nil_append] at hfed_bindings
  exact ⟨front, hfront, hfront_sizes, hfed_sketch, hfed_bindings⟩

theorem exists_entry (hp : h.Holds Binding.Proper env.supply p)
    (hspared : p.Spares env.supply (args ++ r)) (hsolid : ∀ s ∈ args ++ r, s.isHole = false)
    (hsizes : args.map Symbol.size = (p.inputs.drop h.bindings.length).map Symbol.size)
    (hfeeder : Yields (argumentFeeder target (p.inputs.drop h.bindings.length) args) env
      (.ok feeder) env₁)
    (hcapture : Yields (resultCapture target p.outputs r) env₁ (.ok capture) env₂)
    (hfed : Yields (connectCore c.raw (some feeder) (some h)) env₂ (.ok fed) env₃) :
    ∃ e : Entry p h.bindings.length r args env.supply env₃.supply,
      fed.sketch = e.fed.sketch ∧ fed.bindings = h.bindings ∧
      capture.sketch = (bridge e.target e.ins [] (r.zip e.ins)).sketch ∧
      capture.bindings = [] := by
  obtain ⟨outs, ins, hsides⟩ := exists_sides hp hfeeder hcapture
  obtain ⟨front, hfront, hfront_sizes, hfed_sketch, hfed_bindings⟩ := hsides.exists_front hp hfed
  exact ⟨{
    target := target, outs := outs, ins := ins, front := front, valid := hp.valid,
    above := hp.above, spared := hspared, solid := hsolid, argument_sizes := hsizes,
    outs_like := hsides.outs_like, outs_new := hsides.outs_new, ins_like := hsides.ins_like,
    ins_new := hsides.ins_new, later₁ := hsides.later₁, later₂ := hsides.later₂,
    front_drawn := hfront, front_sizes := hfront_sizes },
    hfed_sketch, hfed_bindings, hsides.capture_sketch, hsides.capture_bindings⟩

theorem exists_call {g : Supply} (e : Entry p h.bindings.length r args g env₃.supply)
    (hnodup : r.Nodup) (hlocal : ∀ s ∈ r, s.isLocal = true)
    (hsizes : r.map Symbol.size = p.outputs.map Symbol.size)
    (hfed : fed.sketch = e.fed.sketch) (hfed_bindings : fed.bindings = h.bindings)
    (hcapture : capture.sketch = (bridge e.target e.ins [] (r.zip e.ins)).sketch)
    (hcapture_bindings : capture.bindings = [])
    (hwhole : Yields (connectCore c.raw (some fed) (some capture)) env₃ (.ok whole) env₄) :
    ∃ k : Call p h.bindings.length r args g env₃.supply env₄.supply,
      whole.sketch = k.whole.sketch ∧ whole.bindings = h.bindings := by
  have hapart : ∀ s ∈ (bridge e.target e.ins [] (r.zip e.ins)).locals, s ∉ e.fed.locals :=
    fun s hs hmem => e.not_mem_symbols_fed (e.mem_ins (Interface.mem_symbols_of_mem_locals hs))
      (Interface.mem_symbols_of_mem_locals hmem)
  obtain ⟨back, hback, hback_sizes, hwhole_sketch, hwhole_bindings⟩ :=
    wires_of_connectBoth rfl hfed hcapture (sharesLocals_eq_false hapart) hwhole
  rw [hcapture_bindings] at hback
  rw [copied_bridge, hcapture_bindings, hfed_bindings] at hwhole_sketch
  rw [hcapture_bindings, hfed_bindings, List.append_nil] at hwhole_bindings
  exact ⟨{
    toEntry := e, back := back, isLocal := hlocal, nodup := hnodup, result_sizes := hsizes,
    back_drawn := hback, back_sizes := hback_sizes }, hwhole_sketch, hwhole_bindings⟩

end Steps

theorem performs_of_assignProgramOf {b b' : Builder}
    (hp : h.Holds Binding.Proper env.supply p) (hspared : p.Spares env.supply (args ++ r))
    (hnodup : r.Nodup) (hlocal : ∀ s ∈ r, s.isLocal = true)
    (hrun : Yields (assignProgramOf c r b h args) env (.ok b') env') :
    (∀ x ∈ h.bindings, x.kind = .uniform) ∧
      ∃ q, b.inline q = .ok b' ∧ Performs p h.bindings r args env.supply env'.supply q := by
  unfold assignProgramOf at hrun
  split at hrun
  · cases hrun
  rename_i hstreams
  have huniform := uniform_of_not_hasStreams hp.all (Bool.eq_false_iff.mpr hstreams)
  have houtputs : h.outputs = p.outputs := by rw [Handle.outputs, hp.sketch]; rfl
  obtain ⟨free, g₀, hfree, hrun⟩ := Compose.yields_ofFresh_bind_iff.mp hrun
  obtain ⟨rfl, rfl⟩ := of_yields_freeInputs hp hfree
  obtain ⟨_, g₀, hcheck, hrun⟩ := Compose.yields_ofFresh_bind_iff.mp hrun
  obtain ⟨hchecked, rfl⟩ := of_yields_ofExcept hcheck
  obtain ⟨hargs, hresults, hsolid⟩ := sizes_of_checkAssignment hchecked
  obtain ⟨feeder, env₁, hfeeder, hrun⟩ := yields_bind_ok_iff.mp hrun
  obtain ⟨capture, env₂, hcapture, hrun⟩ := yields_bind_ok_iff.mp hrun
  obtain ⟨fed, env₃, hfed, hrun⟩ := yields_bind_ok_iff.mp hrun
  rw [houtputs] at hcapture hresults
  obtain ⟨e, hfed_sketch, hfed_bindings, hcapture_sketch, hcapture_bindings⟩ :=
    exists_entry hp hspared hsolid hargs hfeeder hcapture hfed
  obtain ⟨whole, env₄, hwhole, hrun⟩ := yields_bind_ok_iff.mp hrun
  obtain ⟨k, hwhole_sketch, hwhole_bindings⟩ := exists_call e hnodup hlocal hresults hfed_sketch
    hfed_bindings hcapture_sketch hcapture_bindings hwhole
  obtain ⟨q, g₅, hresolve, hrun⟩ := Compose.yields_ofFresh_bind_iff.mp hrun
  obtain ⟨_, hperforms⟩ :=
    k.performs_resolve hwhole_sketch hwhole_bindings hp.fed hp.all huniform hresolve
  obtain ⟨env₆, _, hsupply₆, hrun⟩ :=
    (Compose.yields_bind_quiet Compose.supply_of_yields_debug).mp hrun
  obtain ⟨hinline, rfl⟩ := of_yields_inlineInto hrun
  rw [hsupply₆]
  exact ⟨huniform, q, hinline, hperforms⟩

theorem of_yields_assignProgram {b b' : Builder}
    (hrun : Yields (assignProgram c r b (some h) args) env (.ok b') env') :
    ∃ env₁, Yields (assignProgramOf c r b h args) env (.ok b') env₁ ∧
      env₁.supply = env'.supply := by
  obtain ⟨result, env₁, hattempt, hrun⟩ := yields_bind_ok_iff.mp hrun
  cases result with
  | ok b₁ =>
      obtain ⟨env₂, _, hsupply, hrun⟩ :=
        (Compose.yields_bind_quiet Compose.supply_of_yields_count).mp hrun
      obtain ⟨heq, rfl⟩ := yields_pure.mp hrun
      cases heq
      exact ⟨env₁, Compose.yields_of_attempt hattempt, hsupply.symm⟩
  | error e =>
      obtain ⟨_, _, _, hrefuse⟩ := yields_bind_ok_iff.mp hrun
      cases (yields_throw.mp hrefuse).1

end Composer

/-! ## Calls in a finished kernel -/

/-- A handle and symbols of a kernel that it can be called with. -/
structure Handle.Callable (h : Handle) (g : Supply) (r args : Record) : Prop where
  wellFormed : h.WellFormed
  above : g.Above h.sketch.symbols
  proper : ∀ b ∈ h.bindings, b.Proper
  spared : h.sketch.Spares g (args ++ r)
  nodup : r.Nodup
  isLocal : ∀ s ∈ r, s.isLocal = true

namespace Composer

variable {c : Composer} {env env' : Env} {h : Handle} {r args : Record}

theorem performs_of_assignProgram {p : Program} {b b' : Builder}
    (hh : h.Callable env.supply r args) (hp : h.Holds Binding.Proper env.supply p)
    (hcall : (assignProgram c r b (some h) args).run.run env = (.ok b', env')) :
    (∀ x ∈ h.bindings, x.kind = .uniform) ∧
      ∃ q, b.inline q = .ok b' ∧ Performs p h.bindings r args env.supply env'.supply q := by
  have hspared := hh.spared
  rw [show h.sketch.toInterface = p.toInterface from congrArg Sketch.toInterface hp.sketch]
    at hspared
  obtain ⟨env₁, hassign, hsupply⟩ := of_yields_assignProgram hcall
  rw [← hsupply]
  exact performs_of_assignProgramOf hp hspared hh.nodup hh.isLocal hassign

theorem step_of_assignProgram {b b' : Builder} (hh : h.Callable env.supply r args)
    (hcall : (assignProgram c r b (some h) args).run.run env = (.ok b', env')) :
    Builder.Step b b' := by
  obtain ⟨p, hp⟩ := hh.wellFormed.inOrder hh.above hh.proper
  obtain ⟨_, q, hinline, hperforms⟩ := performs_of_assignProgram hh hp hcall
  exact .inline ((Program.copies_copied hperforms.valid).valid hperforms.valid).sound hinline

/-- Inlining a program behaves like calling it where nothing has been written to its temporaries
and to what was drawn for the call.  Whatever is done to the kernel before and after the call: in
the program that it becomes, a run that comes to the call goes on with the code behind it, the
record holds what the resolved program gives on what the arguments held, and no other symbol that
was there has changed unless it is local to the program. -/
theorem call_of_assignProgram {target : String} {b b' last ended : Builder} {q kernel : Program}
    {g : Supply} {u : Overrides} {st : Store} {outputs : List (List Float)}
    (hbefore : Builder.Calls (Builder.start target) b) (hh : h.Callable env.supply r args)
    (hcall : (assignProgram c r b (some h) args).run.run env = (.ok b', env'))
    (hafter : Builder.Calls b' last) (hfinish : last.finish = .ok (kernel, ended))
    (hresolve : h.resolve.run.run env.supply = (.ok q, g))
    (huntouched : h.sketch.Untouched env.supply env'.supply u st)
    (hgives : Gives q u (args.map (st.get u)) outputs) :
    ∃ steps rest fin, b'.draft.Rest kernel.graph rest ∧
      Path kernel.graph u steps ⟨b.current, [], st⟩ ⟨b'.current, rest, fin⟩ ∧
      r.map (fin.get u) = outputs ∧
      ∀ t, t ∉ r → t ∉ h.sketch.locals → t.id < env.supply.next → fin.get u t = st.get u t := by
  obtain ⟨p, hp⟩ := hh.wellFormed.inOrder hh.above hh.proper
  obtain ⟨huniform, code, hinline, hperforms⟩ := performs_of_assignProgram hh hp hcall
  rw [show h.sketch.toInterface = p.toInterface from congrArg Sketch.toInterface hp.sketch]
    at huntouched ⊢
  obtain ⟨sp, finp, hsp, hrun, _, rfl⟩ :=
    gives_iff.mp ((hp.gives_resolve_iff huniform hresolve).mp hgives)
  obtain ⟨fin, hfin, hresults, hframe⟩ := hperforms.runs huntouched hsp hrun
  obtain ⟨fin', hfin', hsame⟩ := hperforms.valid.computes_copied hfin
  have hready := Builder.ready_of_calls hbefore
  have hsound := ((Program.copies_copied hperforms.valid).valid hperforms.valid).sound
  obtain ⟨_, _, hdraft⟩ := Builder.inline_cases hready.alive hinline
  have hready' := ((step_of_assignProgram hh hcall).ready hready).1
  have hgrows := hafter.grows_finish hready' hfinish
  obtain ⟨rest, hrest⟩ := hgrows.exists_rest hready'
  obtain ⟨steps, hpath⟩ := Draft.path_inline hready hsound (hdraft ▸ hgrows) (hdraft ▸ hrest) hfin'
  rw [← hdraft] at hpath
  refine ⟨steps, rest, fin', hrest, hpath, ?_, fun t ht hforeign hold => ?_⟩
  · rw [← hresults]
    exact List.map_congr_left fun s _ => hsame s
  · rw [hsame t, hframe t ht hforeign hold]

def callerInput : Symbol := ⟨4, .input, 1, .float32, .attrib, "i", []⟩

def callerTemp : Symbol := ⟨5, .temp, 1, .float32, .attrib, "t", []⟩

def callCopying (b : Builder) : Compose Builder :=
  assignProgram {} [callerTemp] b (some ⟨1, 1, Program.copying.sketch, [], []⟩) [callerInput]

/-- A kernel with an input and a temporary, before any code. -/
def caller : Builder :=
  let b := Builder.start ""
  { b with program := (b.program.declare callerInput).declare callerTemp }

def finishes (x : Compose Builder) (env : Env) : Bool :=
  match (x.run.run env).1 with
  | .ok b => b.finish.isOk
  | .error _ => false

theorem exists_of_finishes {x : Compose Builder} {env : Env} (h : finishes x env = true) :
    ∃ b env' kernel ended, x.run.run env = (.ok b, env') ∧ b.finish = .ok (kernel, ended) := by
  obtain ⟨r, env', hrun⟩ := yields_self x env
  have hrun : x.run.run env = (r, env') := hrun
  rw [finishes, hrun] at h
  cases r with
  | error f => cases h
  | ok b =>
      cases hfinish : b.finish with
      | ok result => exact ⟨b, env', result.1, result.2, hrun, hfinish⟩
      | error e =>
          simp only [hfinish] at h
          cases h

theorem calls_caller : Builder.Calls (Builder.start "") caller :=
  (Relation.ReflTransGen.single
    (.declare (g := ⟨4⟩) (d := ⟨.input, 1, "i", .float32, .attrib, []⟩) rfl)).tail
    (.declare (g := ⟨5⟩) (d := ⟨.temp, 1, "t", .float32, .attrib, []⟩) rfl)

theorem callable_copying :
    Handle.Callable ⟨1, 1, Program.copying.sketch, [], []⟩ ⟨6⟩ [callerTemp] [callerInput] where
  wellFormed := ⟨⟨_, rfl, rfl⟩, by decide, by decide⟩
  above := by decide
  proper := by simp
  spared := ⟨by decide, by decide⟩
  nodup := by decide
  isLocal := by decide

theorem get_caller {u : Overrides} {s : Symbol} (h : s ≠ callerInput) :
    Store.get u (Store.set [] callerInput [3]) s = startValue u s := by
  rw [Store.get_set, if_neg h]
  rfl

theorem call_of_assignProgram_copying : ∃ b' env' kernel ended steps rest fin,
    (callCopying caller).run.run { Env.start with supply := ⟨6⟩ } = (.ok b', env') ∧
    b'.finish = .ok (kernel, ended) ∧
    Path kernel.graph [] steps ⟨caller.current, [], Store.set [] callerInput [3]⟩
      ⟨b'.current, rest, fin⟩ ∧ Store.get [] fin callerTemp = [3] := by
  have hfinishes : finishes (callCopying caller) { Env.start with supply := ⟨6⟩ } = true := by
    decide +kernel
  obtain ⟨b', env', kernel, ended, hcall, hfinish⟩ := exists_of_finishes hfinishes
  have huntouched : Program.copying.sketch.Untouched ⟨6⟩ env'.supply []
      (Store.set [] callerInput [3]) := by
    refine ⟨(Store.sized_empty []).set rfl, fun s hs => get_caller ?_, fun s hs => get_caller ?_,
      fun s hle _ => get_caller ?_⟩
    · rintro rfl
      cases hs
    · rw [List.mem_singleton.mp hs]
      decide
    · rintro rfl
      exact absurd hle (by decide)
  have hgives : Gives Program.copying.copied [] [[3]] [[3]] := ⟨2, 2, rfl⟩
  obtain ⟨steps, rest, fin, _, hpath, hresults, _⟩ := call_of_assignProgram calls_caller
    callable_copying hcall .refl hfinish rfl huntouched hgives
  exact ⟨b', env', kernel, ended, steps, rest, fin, hcall, hfinish, hpath,
    List.head_eq_of_cons_eq hresults⟩

end Composer

end KernelAlgebra
