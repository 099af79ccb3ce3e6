import KernelAlgebra.Proofs.Compose.Assignment

/-!
# Which assignments go well

An assignment asks that its arguments and its record have the sizes of the channels that they
meet.  Whatever else they are, symbols of the program itself or one symbol in several places, the
bridges to them can be connected, what comes out resolves, and it has no interface left that would
keep it from being inlined.
-/

namespace KernelAlgebra

open Machine

/-! ## Resolving -/

theorem Handle.exists_resolve_closed {h : Handle} {q : Program} {g : Supply}
    (hsketch : h.sketch = q.sketch) (hfed : Fed h.bindings q.inputs)
    (hall : q.inputs.length = h.bindings.length) (houtputs : q.outputs = [])
    (hproper : ∀ b ∈ h.bindings, b.Proper) (huniform : ∀ b ∈ h.bindings, b.kind = .uniform)
    (habove : g.Above q.inputs) (hsolid : ∀ s ∈ q.inputs, s.isHole = false) :
    ∃ p g', Yields h.resolve g (.ok p) g' ∧ p.inputs = [] ∧ p.outputs = [] := by
  unfold resolve
  rw [hsketch]
  by_cases hnone : h.bindings.isEmpty = true
  · refine ⟨q.copied, g, (yields_bind Fresh.yields_copyOf).mpr ?_, ?_, houtputs⟩
    · rw [if_pos hnone]
      exact yields_pure.mpr ⟨rfl, rfl⟩
    · rw [List.isEmpty_iff.mp hnone] at hall
      exact List.length_eq_zero_iff.mp hall
  · obtain ⟨m, block, g', hyields, _⟩ :=
      yields_resolveBindings hfed hproper huniform habove hsolid
    have hempty : ∀ {list : List Symbol}, list = [] → m.onList list = [] := by
      rintro _ rfl
      unfold Renaming.onList
      split <;> rfl
    refine ⟨(resolution q.copied h.bindings.length m block).collect, g',
      (yields_bind Fresh.yields_copyOf).mpr ?_, ?_, hempty houtputs⟩
    · rw [if_neg hnone]
      exact (yields_bind hyields).mpr (yields_pure.mpr ⟨rfl, rfl⟩)
    · exact hempty (List.drop_eq_nil_of_le (Nat.le_of_eq hall))

/-! ## What is asked of an assignment -/

/-- The arguments and the record fit the program, and nothing is bound to streams. -/
structure Handle.Takes (h : Handle) (args r : Record) : Prop where
  streams : h.hasStreams = false
  arguments : h.free.length = args.length
  results : h.outputs.length = r.length
  argument_sizes : ∀ q ∈ h.free.zip args, q.1.size = q.2.size
  result_sizes : ∀ q ∈ h.outputs.zip r, q.1.size = q.2.size

theorem Handle.not_takes_iff {h : Handle} {args r : Record} :
    ¬ h.Takes args r ↔ h.hasStreams = true ∨ h.free.length ≠ args.length ∨
      h.outputs.length ≠ r.length ∨ (∃ q ∈ h.free.zip args, q.1.size ≠ q.2.size) ∨
      ∃ q ∈ h.outputs.zip r, q.1.size ≠ q.2.size := by
  have htakes : h.Takes args r ↔ h.hasStreams = false ∧ h.free.length = args.length ∧
      h.outputs.length = r.length ∧ (∀ q ∈ h.free.zip args, q.1.size = q.2.size) ∧
      ∀ q ∈ h.outputs.zip r, q.1.size = q.2.size :=
    ⟨fun ht => ⟨ht.1, ht.2, ht.3, ht.4, ht.5⟩, fun ⟨h₁, h₂, h₃, h₄, h₅⟩ => ⟨h₁, h₂, h₃, h₄, h₅⟩⟩
  rw [htakes]
  simp only [not_and_or, Bool.not_eq_false, not_forall, exists_prop]

theorem Record.checkSizes_cases {fault : Nat → Symbol → Symbol → ComposeError} {xs ys : Record}
    (hxs : ∀ s ∈ xs, s.isHole = false) (hys : ∀ s ∈ ys, s.isHole = false) (i : Nat) :
    (checkSizes fault i xs ys = .ok () ∧ ∀ q ∈ xs.zip ys, q.1.size = q.2.size) ∨
      (∃ e, checkSizes fault i xs ys = .error (.error e)) ∧
        ¬ ∀ q ∈ xs.zip ys, q.1.size = q.2.size := by
  induction xs generalizing ys i with
  | nil => exact .inl ⟨rfl, by simp⟩
  | cons x xs ih =>
      cases ys with
      | nil => exact .inl ⟨rfl, by simp⟩
      | cons y ys =>
          obtain ⟨hx, hxs⟩ := List.forall_mem_cons.mp hxs
          obtain ⟨hy, hys⟩ := List.forall_mem_cons.mp hys
          simp only [checkSizes, hx, hy, Bool.or_self, Bool.false_eq_true, if_false,
            List.zip_cons_cons, List.forall_mem_cons]
          by_cases hsize : x.size = y.size
          · simpa only [hsize, bne_self_eq_false, Bool.false_eq_true, if_false, true_and] using
              ih hxs hys (i + 1)
          · exact .inr ⟨⟨fault i x y, by simp [hsize]⟩, fun h => hsize h.1⟩

namespace Composer

theorem checkAssignment_cases {h : Handle} {args r : Record} (hstreams : h.hasStreams = false)
    (hfree : ∀ s ∈ h.free, s.isHole = false) (houtputs : ∀ s ∈ h.outputs, s.isHole = false)
    (hsolid : ∀ s ∈ args ++ r, s.isHole = false) :
    (checkAssignment h h.free r args = .ok () ∧ h.Takes args r) ∨
      (∃ e, checkAssignment h h.free r args = .error (.error e)) ∧ ¬ h.Takes args r := by
  obtain ⟨hargs, hr⟩ := List.forall_mem_append.mp hsolid
  unfold checkAssignment
  by_cases hcount : h.free.length = args.length
  · by_cases hresults : h.outputs.length = r.length
    · simp only [hcount, hresults, bne_self_eq_false, Bool.false_eq_true, if_false]
      rcases Record.checkSizes_cases hfree hargs 0 with ⟨hok, hsizes⟩ | ⟨⟨e, he⟩, hsizes⟩
      · rw [hok]
        rcases Record.checkSizes_cases houtputs hr 0 with ⟨hok', hsizes'⟩ | ⟨⟨e, he⟩, hsizes'⟩
        · exact .inl ⟨hok', hstreams, hcount, hresults, hsizes, hsizes'⟩
        · exact .inr ⟨⟨e, he⟩, fun ht => hsizes' ht.result_sizes⟩
      · rw [he]
        exact .inr ⟨⟨e, rfl⟩, fun ht => hsizes ht.argument_sizes⟩
    · simp only [hcount, bne_self_eq_false, Bool.false_eq_true, if_false]
      rw [if_pos (bne_iff_ne.mpr hresults)]
      exact .inr ⟨⟨_, rfl⟩, fun ht => hresults ht.results⟩
  · rw [if_pos (bne_iff_ne.mpr hcount)]
    exact .inr ⟨⟨_, rfl⟩, fun ht => hcount ht.arguments⟩

end Composer

/-! ## The steps of an assignment that goes well -/

theorem Channels.exists_like {role : Role} {templates : List Symbol} {env : Env}
    (hsolid : ∀ s ∈ templates, s.isHole = false) :
    ∃ list env', Yields (like role templates) env (.ok list) env' :=
  ⟨_, _, Compose.yields_ofFresh_iff.mpr ⟨_, Fresh.yields_copyAll hsolid, rfl⟩⟩

theorem Compose.yields_finish_raw {c : Composer} {env : Env} {p : Program}
    (hraw : c.optimize = false) : Yields (finish c p) env (.ok p.collect) env := by
  simp only [finish, hraw, Bool.false_eq_true, if_false]
  exact yields_pure.mpr ⟨rfl, rfl⟩

namespace Composer

variable {c : Composer} {env : Env} {h : Handle} {p : Program} {r args : Record}

theorem exists_argumentFeeder {target : String} {free : List Symbol}
    (hsolid : ∀ s ∈ free, s.isHole = false) :
    ∃ feeder env', Yields (argumentFeeder target free args) env (.ok feeder) env' := by
  obtain ⟨outs, env₁, hlike⟩ := Channels.exists_like hsolid
  exact ⟨_, _, (yields_bind hlike).mpr (Compose.yields_newHandle_iff.mpr ⟨rfl, rfl⟩)⟩

theorem exists_resultCapture {target : String} {outputs : List Symbol}
    (hsolid : ∀ s ∈ outputs, s.isHole = false) :
    ∃ capture env', Yields (resultCapture target outputs r) env (.ok capture) env' := by
  obtain ⟨ins, env₁, hlike⟩ := Channels.exists_like hsolid
  exact ⟨_, _, (yields_bind hlike).mpr (Compose.yields_newHandle_iff.mpr ⟨rfl, rfl⟩)⟩

theorem exists_connectBoth {a b : Handle} {ap bp : Program} (hraw : c.optimize = false)
    (ha : a.sketch = ap.sketch) (hb : b.sketch = bp.sketch)
    (hapart : ap.sharesLocals bp.toInterface = false)
    (htaken : a.bindings.length ≤ ap.inputs.length)
    (hbound : b.bindings.length ≤ bp.inputs.length)
    (hsolid : ∀ q ∈ ap.outputs.zip (bp.inputs.drop b.bindings.length),
      q.1.isHole = false ∧ q.2.isHole = false)
    (hsizes : ∀ q ∈ ap.outputs.zip (bp.inputs.drop b.bindings.length), q.1.size = q.2.size)
    (hfirst : ap.copied.graph.Sound) (hsecond : bp.copied.graph.Sound) :
    ∃ h env', Yields (connectBoth c a b) env (.ok h) env' := by
  obtain ⟨r, env', hstart⟩ := yields_self (connectBoth c a b) env
  have hrun := hstart
  unfold connectBoth at hrun
  rw [ha, hb] at hrun
  have hrun := (yields_bind (Compose.yields_ofFresh_iff.mpr
    ⟨_, yields_operands_of_apart hapart, rfl⟩)).mp hrun
  have hrun := (yields_bind (Compose.yields_ofFresh_iff.mpr
    ⟨_, yields_splitInputs htaken, rfl⟩)).mp hrun
  have hrun := (yields_bind (Compose.yields_ofFresh_iff.mpr
    ⟨_, yields_splitInputs hbound, rfl⟩)).mp hrun
  have hcheck : Yields (Fresh.ofExcept (checkPairs 0 (ap.copied.outputs.zip
      (bp.copied.inputs.drop b.bindings.length)))) env.supply (.ok ()) env.supply := by
    rw [show checkPairs 0 (ap.copied.outputs.zip (bp.copied.inputs.drop b.bindings.length)) = _ from
      checkPairs_of_sizes hsolid hsizes 0]
    exact yields_pure.mpr ⟨rfl, rfl⟩
  have hrun := (yields_bind (Compose.yields_ofFresh_iff.mpr ⟨_, hcheck, rfl⟩)).mp hrun
  obtain ⟨ws, g, hdrawing, _⟩ := Wire.exists_drawn hsolid env.supply
  have hrun := (yields_bind (Compose.yields_ofFresh_iff.mpr ⟨_, hdrawing, rfl⟩)).mp hrun
  obtain ⟨env₁, hassemble, _⟩ := yields_assemble c { env with supply := g } (b := bp.copied) hfirst
  have hrun := (yields_bind hassemble).mp hrun
  have htakes : takesEpilogue (sequenced ap.copied bp.copied) ws = true :=
    takesEpilogue_of_sound (sound_withPrologue
      ((Graph.sequel_append hfirst hsecond).sound hfirst hsecond) _) _
  simp only [htakes, Bool.not_true, Bool.false_eq_true, if_false] at hrun
  have hrun := (yields_bind (Compose.yields_finish_raw hraw)).mp hrun
  obtain ⟨rfl, _⟩ := Compose.yields_newHandle_iff.mp hrun
  exact ⟨_, env', hstart⟩

section Steps

variable {target : String} {feeder capture fed : Handle} {env₁ env₂ env₃ : Env}

theorem exists_feed (hp : h.Holds Binding.Proper env.supply p) (hold : env.supply.Above args)
    (hsolid : ∀ s ∈ args, s.isHole = false)
    (hsizes : args.map Symbol.size = (p.inputs.drop h.bindings.length).map Symbol.size)
    (hfeeder : Yields (argumentFeeder target (p.inputs.drop h.bindings.length) args) env
      (.ok feeder) env₁)
    (hcapture : Yields (resultCapture target p.outputs r) env₁ (.ok capture) env₂) :
    ∃ fed env₃ ins, ∃ k : Feed p h.bindings.length args env.supply env₃.supply,
      Yields (connectBoth c.raw feeder h) env₂ (.ok fed) env₃ ∧
      fed.sketch = k.fed.sketch ∧ fed.bindings = h.bindings ∧
      Likenesses .input p.outputs ins k.g₂ ∧ (∀ s ∈ ins, k.g₁.next ≤ s.id) ∧
      capture.sketch = (bridge k.target ins [] (r.zip ins)).sketch ∧ capture.bindings = [] := by
  obtain ⟨outs, ins, hsides⟩ := exists_sides hp hfeeder hcapture
  have hsolid_pairs : ∀ q ∈ outs.zip (p.inputs.drop h.bindings.length),
      q.1.isHole = false ∧ q.2.isHole = false := fun q hq =>
    ⟨hsides.outs_like.solid _ (List.of_mem_zip hq).1,
      hp.valid.orderly.inputs.solid _ (List.mem_of_mem_drop (List.of_mem_zip hq).2)⟩
  obtain ⟨fed, env₃, hfed⟩ := exists_connectBoth (c := c.raw) rfl hsides.feeder_sketch hp.sketch
    hsides.apart (by rw [hsides.feeder_bindings]; exact Nat.zero_le _) hp.fed.length_le
    hsolid_pairs (map_eq_map_iff_zip.mp hsides.outs_like.sizes).2 sound_copied_bridge
    ((Program.copies_copied hp.valid).valid hp.valid).sound
  obtain ⟨front, hfront, hfront_sizes, hfed_sketch, hfed_bindings⟩ := hsides.exists_front hp hfed
  exact ⟨fed, env₃, ins, {
    target := target, outs := outs, front := front, valid := hp.valid, above := hp.above,
    old := hold, solid := hsolid, sizes := hsizes, outs_like := hsides.outs_like,
    outs_new := hsides.outs_new, later₁ := hsides.later₁, later₂ := hsides.later₂,
    drawn := hfront, wired := hfront_sizes },
    hfed, hfed_sketch, hfed_bindings, hsides.ins_like, hsides.ins_new, hsides.capture_sketch,
    hsides.capture_bindings⟩

theorem exists_service {bound : Nat} {g : Supply} {ins : List Symbol}
    (k : Feed p bound args g env₃.supply) (hins : Likenesses .input p.outputs ins k.g₂)
    (hins_new : ∀ s ∈ ins, k.g₁.next ≤ s.id) (hfed : fed.sketch = k.fed.sketch)
    (hbindings : fed.bindings.length = bound) (hbound : bound ≤ p.inputs.length)
    (hcapture : capture.sketch = (bridge k.target ins [] (r.zip ins)).sketch)
    (hcapture_bindings : capture.bindings = []) :
    ∃ whole env₄, ∃ s : Service p bound args r g env₃.supply env₄.supply,
      Yields (connectBoth c.raw fed capture) env₃ (.ok whole) env₄ ∧
      whole.sketch = s.whole.sketch ∧ whole.bindings = fed.bindings := by
  have hapart : ∀ s ∈ (bridge k.target ins [] (r.zip ins)).locals, s ∉ k.fed.locals := by
    intro s hs hmem
    have hin := (mem_channels_of_mem_bridge (Interface.mem_symbols_of_mem_locals hs)).resolve_right
      List.not_mem_nil
    have hnew := hins_new s hin
    have habove := hins.above s hin
    have hid := k.id_of_mem_symbols_fed (Interface.mem_symbols_of_mem_locals hmem)
    omega
  obtain ⟨whole, env₄, hwhole⟩ := exists_connectBoth (c := c.raw) rfl hfed hcapture
    (sharesLocals_eq_false hapart)
    (Nat.le_of_eq (by rw [hbindings, k.inputs_fed, List.length_take_of_le hbound]))
    (by rw [hcapture_bindings]; exact Nat.zero_le _)
    (by
      rw [hcapture_bindings]
      exact fun q hq => ⟨k.valid_fed.orderly.outputs.solid _ (List.of_mem_zip hq).1,
        hins.solid _ (List.of_mem_zip hq).2⟩)
    (by
      rw [hcapture_bindings]
      exact (map_eq_map_iff_zip.mp (k.sizes_outputs_fed.trans hins.sizes.symm)).2)
    ((Program.copies_copied k.valid_fed).valid k.valid_fed).sound sound_copied_bridge
  obtain ⟨back, hback, hback_sizes, hwhole_sketch, hwhole_bindings⟩ :=
    wires_of_connectBoth rfl hfed hcapture (sharesLocals_eq_false hapart) hwhole
  rw [hcapture_bindings] at hback
  rw [copied_bridge, hcapture_bindings, hbindings] at hwhole_sketch
  rw [hcapture_bindings, List.append_nil] at hwhole_bindings
  exact ⟨whole, env₄, {
    toFeed := k, ins := ins, back := back, ins_like := hins, ins_new := hins_new,
    back_drawn := hback, back_wired := hback_sizes }, hwhole, hwhole_sketch, hwhole_bindings⟩

end Steps

/-! ## The call and its place -/

def callCode (c : Composer) (target : String) (r : Record) (h : Handle) (args : Record) :
    Compose Program := do
  if h.hasStreams then Compose.refuse (.streamsInAssignment h.summary)
  else
    let free ← Compose.ofFresh h.freeInputs
    Compose.ofFresh (Fresh.ofExcept (checkAssignment h free r args))
    let feeder ← argumentFeeder target free args
    let capture ← resultCapture target h.outputs r
    let fed ← connectCore c.raw (some feeder) (some h)
    let whole ← connectCore c.raw (some fed) (some capture)
    let p ← Compose.ofFresh whole.resolve
    let names := String.intercalate ", " (r.map Symbol.label)
    Compose.debug c s!"assign_program: inlining {p.summary} into {names}"
    return p

theorem assignProgramOf_eq_bind (b : Builder) :
    assignProgramOf c r b h args =
      callCode c b.program.target r h args >>= fun p => inlineInto b p := by
  unfold assignProgramOf callCode
  cases h.hasStreams with
  | true => rfl
  | false => simp only [Bool.false_eq_true, if_false, bind_assoc, pure_bind]

theorem yields_freeInputs {g : Supply} (hp : h.Holds Binding.Proper g p) :
    Yields h.freeInputs g (.ok h.free) g := by
  unfold Handle.freeInputs
  rw [if_pos (by rw [hp.sketch]; exact hp.fed.length_le)]
  exact yields_pure.mpr ⟨rfl, rfl⟩

theorem exists_code {target : String} (hp : h.Holds Binding.Proper env.supply p)
    (hold : env.supply.Above args) (hsolid : ∀ s ∈ args, s.isHole = false)
    (htakes : h.Takes args r) (hchecked : checkAssignment h h.free r args = .ok ()) :
    ∃ q env', Yields (callCode c target r h args) env (.ok q) env' ∧
      q.inputs = [] ∧ q.outputs = [] := by
  have hfree : h.free = p.inputs.drop h.bindings.length := by
    rw [Handle.free, hp.sketch]
    rfl
  have houtputs : h.outputs = p.outputs := by
    rw [Handle.outputs, hp.sketch]
    rfl
  have hsizes : args.map Symbol.size = (p.inputs.drop h.bindings.length).map Symbol.size :=
    hfree ▸ (map_eq_map_iff_zip.mpr ⟨htakes.arguments, htakes.argument_sizes⟩).symm
  obtain ⟨feeder, env₁, hfeeder⟩ : ∃ feeder env₁, Yields (argumentFeeder target
      (p.inputs.drop h.bindings.length) args) env (.ok feeder) env₁ := exists_argumentFeeder
    fun s hs => hp.valid.orderly.inputs.solid s (List.mem_of_mem_drop hs)
  obtain ⟨capture, env₂, hcapture⟩ : ∃ capture env₂, Yields (resultCapture target p.outputs r)
      env₁ (.ok capture) env₂ := exists_resultCapture hp.valid.orderly.outputs.solid
  obtain ⟨fed, env₃, ins, k, hfed, hfed_sketch, hfed_bindings, hins, hins_new, hcapture_sketch,
    hcapture_bindings⟩ := exists_feed (c := c) hp hold hsolid hsizes hfeeder hcapture
  obtain ⟨whole, env₄, s, hwhole, hwhole_sketch, hwhole_bindings⟩ := exists_service (c := c) k
    hins hins_new hfed_sketch (by rw [hfed_bindings]) hp.fed.length_le hcapture_sketch
    hcapture_bindings
  rw [hfed_bindings] at hwhole_bindings
  have huniform := uniform_of_not_hasStreams hp.all htakes.streams
  obtain ⟨q, g, hresolve, hq⟩ := Handle.exists_resolve_closed hwhole_sketch
    (by rw [hwhole_bindings]; exact s.fed_whole hp.fed rfl)
    (by rw [hwhole_bindings, s.inputs_whole, List.length_map,
      List.length_take_of_le hp.fed.length_le])
    s.outputs_whole (hwhole_bindings ▸ hp.all) (hwhole_bindings ▸ huniform) s.above_inputs_whole
    s.roleList_inputs_whole.solid
  obtain ⟨result, env₅, hrun⟩ := yields_self (callCode c target r h args) env
  have hcode := hrun
  unfold callCode at hcode
  rw [if_neg (by simp [htakes.streams])] at hcode
  have hcode := (yields_bind (Compose.yields_ofFresh_iff.mpr
    ⟨_, yields_freeInputs hp, rfl⟩)).mp hcode
  rw [hchecked] at hcode
  have hcode := (yields_bind (Compose.yields_ofFresh_iff.mpr
    ⟨_, yields_pure.mpr ⟨rfl, rfl⟩, rfl⟩)).mp hcode
  rw [hfree, houtputs] at hcode
  have hcode := (yields_bind hfeeder).mp hcode
  have hcode := (yields_bind hcapture).mp hcode
  have hcode := (yields_bind hfed).mp hcode
  have hcode := (yields_bind hwhole).mp hcode
  have hcode := (yields_bind (Compose.yields_ofFresh_iff.mpr ⟨_, hresolve, rfl⟩)).mp hcode
  obtain ⟨_, _, _, hcode⟩ := (Compose.yields_bind_quiet Compose.supply_of_yields_debug).mp hcode
  obtain ⟨rfl, rfl⟩ := yields_pure.mp hcode
  exact ⟨q, env₅, hrun, hq⟩

theorem callCode_cases {target : String} (hp : h.Holds Binding.Proper env.supply p)
    (hold : env.supply.Above args) (hsolid : ∀ s ∈ args ++ r, s.isHole = false)
    {result : Except (Fault ComposeError) Program} {env' : Env}
    (hrun : Yields (callCode c target r h args) env result env') :
    (h.Takes args r ∧ ∃ q, result = .ok q ∧ q.inputs = [] ∧ q.outputs = []) ∨
      ¬ h.Takes args r ∧ ∃ e, result = .error (.error e) := by
  cases hstreams : h.hasStreams with
  | true =>
      unfold callCode at hrun
      rw [if_pos hstreams] at hrun
      refine .inr ⟨fun ht => ?_, _, (yields_throw.mp hrun).1⟩
      rw [ht.streams] at hstreams
      cases hstreams
  | false =>
      have hfree : ∀ s ∈ h.free, s.isHole = false := by
        intro s hs
        rw [Handle.free, hp.sketch] at hs
        exact hp.valid.orderly.inputs.solid s (List.mem_of_mem_drop hs)
      have houtputs : ∀ s ∈ h.outputs, s.isHole = false := by
        intro s hs
        rw [Handle.outputs, hp.sketch] at hs
        exact hp.valid.orderly.outputs.solid s hs
      rcases checkAssignment_cases hstreams hfree houtputs hsolid with
        ⟨hchecked, htakes⟩ | ⟨⟨e, he⟩, htakes⟩
      · obtain ⟨q, env₁, hcode, hq⟩ := exists_code (c := c) hp hold
          (List.forall_mem_append.mp hsolid).1 htakes hchecked
        obtain ⟨rfl, _⟩ := hcode.unique hrun
        exact .inl ⟨htakes, q, rfl, hq⟩
      · unfold callCode at hrun
        rw [if_neg (by simp [hstreams])] at hrun
        have hrun := (yields_bind (Compose.yields_ofFresh_iff.mpr
          ⟨_, yields_freeInputs hp, rfl⟩)).mp hrun
        rw [he] at hrun
        exact .inr ⟨htakes, e, ((yields_bind_error (Compose.yields_ofFresh_iff.mpr
          ⟨_, yields_throw.mpr ⟨rfl, rfl⟩, rfl⟩)).mp hrun).1⟩

theorem assignProgramOf_cases {b : Builder} (halive : b.ended = false)
    (hp : h.Holds Binding.Proper env.supply p) (hold : env.supply.Above args)
    (hsolid : ∀ s ∈ args ++ r, s.isHole = false) {result : Except (Fault ComposeError) Builder}
    {env' : Env} (hrun : Yields (assignProgramOf c r b h args) env result env') :
    (h.Takes args r ∧ ∃ b', result = .ok b') ∨
      ¬ h.Takes args r ∧ ∃ e, result = .error (.error e) := by
  rw [assignProgramOf_eq_bind] at hrun
  obtain ⟨code, env₁, hcode⟩ := yields_self (callCode c b.program.target r h args) env
  rcases callCode_cases hp hold hsolid hcode with
    ⟨htakes, q, rfl, hinputs, houtputs⟩ | ⟨htakes, e, rfl⟩
  · have hinline : b.inline q = .ok (b.withCode q.copied) := by
      simp [Builder.inline, Builder.checkInline, halive, hinputs, houtputs, Except.map]
    have hrun := (yields_bind hcode).mp hrun
    unfold inlineInto at hrun
    rw [hinline] at hrun
    exact .inl ⟨htakes, _, (yields_pure.mp hrun).1⟩
  · exact .inr ⟨htakes, e, ((yields_bind_error hcode).mp hrun).1⟩

theorem assignProgram_cases {b : Builder} (halive : b.ended = false) {oh : Option Handle}
    (hh : ∀ h ∈ oh, h.InOrder Binding.Proper env.supply) (hold : env.supply.Above args)
    (hsolid : ∀ s ∈ args ++ r, s.isHole = false) :
    (∃ h, oh = some h ∧ h.Takes args r ∧
        ∃ b' env', Yields (assignProgram c r b oh args) env (.ok b') env') ∨
      (∀ h, oh = some h → ¬ h.Takes args r) ∧
        ∃ e env', Yields (assignProgram c r b oh args) env (.error (.error e)) env' := by
  obtain ⟨result, env₁, hcore⟩ := yields_self (assignProgramCore c r b oh args) env
  have hcases : (∃ h, oh = some h ∧ h.Takes args r ∧ ∃ b', result = .ok b') ∨
      (∀ h, oh = some h → ¬ h.Takes args r) ∧ ∃ e, result = .error (.error e) := by
    cases oh with
    | none => exact .inr ⟨by simp, _, (yields_throw.mp hcore).1⟩
    | some h =>
        obtain ⟨p, hp⟩ := hh h rfl
        rcases assignProgramOf_cases halive hp hold hsolid hcore with ⟨ht, hok⟩ | ⟨ht, he⟩
        · exact .inl ⟨h, rfl, ht, hok⟩
        · exact .inr ⟨by rintro _ ⟨⟩; exact ht, he⟩
  rcases hcases with ⟨h, hoh, htakes, b', rfl⟩ | ⟨htakes, e, rfl⟩
  · obtain ⟨_, env₂, hcount⟩ := yields_self
      (Compose.count c fun m => m.countSuccess "assign_program" none) env₁
    obtain ⟨rfl, _⟩ := Compose.supply_of_yields_count hcount
    refine .inl ⟨h, hoh, htakes, b', env₂, (yields_bind (Compose.yields_attempt_ok hcore)).mpr ?_⟩
    exact (yields_bind hcount).mpr (yields_pure.mpr ⟨rfl, rfl⟩)
  · obtain ⟨_, env₂, hcount⟩ := yields_self (Compose.countFailure c "assign_program" e) env₁
    obtain ⟨rfl, _⟩ := Compose.supply_of_yields_countFailure hcount
    refine .inr ⟨htakes, e, env₂, (yields_bind (Compose.yields_attempt_refused hcore)).mpr ?_⟩
    exact (yields_bind hcount).mpr (yields_throw.mpr ⟨rfl, rfl⟩)

end Composer

end KernelAlgebra
