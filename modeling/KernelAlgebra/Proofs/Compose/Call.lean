import KernelAlgebra.Proofs.Compose.Bridges
import KernelAlgebra.Proofs.Compose.Currying

/-!
# Calls

A call feeds a program with copies of its arguments and leaves the outputs in a record.  Its code
is a copy of the program's code on the program's own temporaries, so it does what the program
does from the start as long as nothing has been written to them.  The code is in order whatever
symbols the arguments and the record are; what a run of it does is said where none of them is local
to the program.
-/

namespace KernelAlgebra

open Machine

/-! ## Stores -/

theorem mem_zip_self {α : Type} {xs : List α} {x : α} (h : x ∈ xs) : (x, x) ∈ xs.zip xs := by
  obtain ⟨k, hk, rfl⟩ := List.getElem_of_mem h
  exact List.mem_iff_getElem.mpr ⟨k, by simpa using hk, List.getElem_zip⟩

theorem Machine.exists_load {u : Overrides} (list : List Symbol) {values : List (List Float)}
    {st : Store} (hnodup : list.Nodup) (hsolid : ∀ s ∈ list, s.isHole = false)
    (hsizes : values.map List.length = list.map Symbol.size) (hsized : st.Sized u) :
    ∃ st' : Store, st'.Sized u ∧ (∀ q ∈ list.zip values, st'.get u q.1 = q.2) ∧
      ∀ s, s ∉ list → st'.get u s = st.get u s := by
  have hload : ∃ st', load list values st = .ok st' := by
    rw [load_eq_ok_iff]
    intro s xs hmem
    exact ⟨hsolid s (List.of_mem_zip hmem).1,
      ((map_eq_map_iff_zip.mp hsizes.symm).2 (s, xs) hmem).symm⟩
  obtain ⟨st', hst'⟩ := hload
  exact ⟨st', sized_load hsized hst', fun q hq => get_load_of_mem hnodup hst' hq,
    fun s hs => get_load_of_not_mem hst' hs⟩

/-! ## Merging whatever there is -/

namespace Connection

variable {a b : Program} {bound : Nat} {ws : List Wire} {g g' : Supply}

theorem merging_cases (h : Connection a b bound ws g g') (s : Symbol) :
    (∃ w ∈ ws, (s = w.output ∨ s = w.input) ∧ (Wire.merging ws).apply s = w.temp) ∨
      (Wire.merging ws).apply s = s := by
  by_cases hout : ∃ w ∈ ws, s = w.output
  · obtain ⟨w, hw, rfl⟩ := hout
    exact .inl ⟨w, hw, .inl rfl, Wire.apply_merging_output h.separate hw⟩
  by_cases hin : ∃ w ∈ ws, s = w.input
  · obtain ⟨w, hw, rfl⟩ := hin
    exact .inl ⟨w, hw, .inr rfl, Wire.apply_merging_input h.separate hw⟩
  · refine .inr (Wire.apply_merging_of_ne fun w hw => ⟨?_, ?_⟩)
    · exact fun heq => hout ⟨w, hw, heq⟩
    · exact fun heq => hin ⟨w, hw, heq⟩

theorem relabels_merging (h : Connection a b bound ws g g') (declared : List Symbol) :
    Relabels declared (Wire.merging ws).apply where
  fixed := by
    intro s _ hlocal
    rcases h.merging_cases s with ⟨w, hw, rfl | rfl, _⟩ | hsame
    · rw [h.first.orderly.isLocal_of_mem_locals (h.output_mem_locals hw)] at hlocal
      cases hlocal
    · rw [h.second.orderly.isLocal_of_mem_locals (h.input_mem_locals hw)] at hlocal
      cases hlocal
    · exact hsame
  stays := by
    intro s _ hlocal
    rcases h.merging_cases s with ⟨w, hw, _, htemp⟩ | hsame
    · rw [htemp, h.temp_local hw]
    · rwa [hsame]
  size := by
    intro s _
    rcases h.merging_cases s with ⟨w, hw, rfl | rfl, htemp⟩ | hsame
    · rw [htemp, h.temp_size hw]
    · rw [htemp, h.temp_size hw, h.sizes w hw]
    · rw [hsame]
  solid := by
    intro s _ hsolid
    rcases h.merging_cases s with ⟨w, hw, _, htemp⟩ | hsame
    · rw [htemp]
      exact h.solid_new hw w.temp_mem_news
    · rwa [hsame]

end Connection

theorem sound_copied_bridge {target : String} {ins outs : List Symbol}
    {pairs : List (Symbol × Symbol)} : (bridge target ins outs pairs).copied.graph.Sound := by
  rw [copied_bridge]
  exact sound_bridge

/-! ## The program with its arguments -/

/-- What a call begins with, whatever symbols its arguments are. -/
structure Feed (p : Program) (bound : Nat) (args : List Symbol) (g g₃ : Supply) where
  target : String
  outs : List Symbol
  front : List Wire
  {g₁ : Supply}
  {g₂ : Supply}
  valid : p.Valid
  above : g.Above p.symbols
  old : g.Above args
  solid : ∀ s ∈ args, s.isHole = false
  sizes : args.map Symbol.size = (p.inputs.drop bound).map Symbol.size
  outs_like : Likenesses .output (p.inputs.drop bound) outs g₁
  outs_new : ∀ s ∈ outs, g.next ≤ s.id
  later₁ : g.next ≤ g₁.next
  later₂ : g₁.next ≤ g₂.next
  drawn : Wire.Drawn g₂ g₃ (outs.zip (p.inputs.drop bound)) front
  wired : ∀ w ∈ front, w.output.size = w.input.size

namespace Feed

variable {p : Program} {bound : Nat} {args : List Symbol} {g g₃ : Supply}
  (k : Feed p bound args g g₃)

def feeder : Program := bridge k.target [] k.outs (k.outs.zip args)

def mouth : Program := bridge k.target [] k.outs []

def fed : Program := (Connection.program k.feeder p.copied 0 bound k.front).collect

theorem mem_outs {s : Symbol} (hs : s ∈ k.mouth.symbols) : s ∈ k.outs := by
  rcases mem_channels_of_mem_bridge hs with hin | hout
  · cases hin
  · exact hout

theorem connection : Connection k.mouth p.copied bound k.front k.g₂ g₃ where
  first := show (bridge k.target [] k.outs []).collect.Valid from
    valid_bridge ⟨.nil, by simp, by simp⟩ (k.outs_like.roleList (by simp))
      ⟨by simp, by simp, by simp, by simp⟩ (by simp)
  second := (Program.copies_copied k.valid).valid k.valid
  apart := by
    intro s hs hmem
    have hnew := k.outs_new s (k.mem_outs (Interface.mem_symbols_of_mem_locals hmem))
    have hold := k.above s (Interface.mem_symbols_of_mem_locals hs)
    omega
  above := by
    intro s hs
    have hlater := k.later₂
    have hout := k.outs_like.above s (k.mem_outs hs)
    omega
  above' := (k.above.mono k.later₁).mono k.later₂
  drawn := k.drawn
  sizes := k.wired

theorem length_outs : k.outs.length = (p.inputs.drop bound).length := by
  have hlen := congrArg List.length k.outs_like.sizes
  rwa [List.length_map, List.length_map] at hlen

theorem inputs_fed : k.fed.inputs = p.inputs.take bound := by
  have hleft : Connection.inputs k.mouth p.copied 0 bound = p.inputs.take bound := by
    change p.inputs.take bound ++ [] ++ (p.inputs.drop bound).drop k.outs.length = _
    rw [List.drop_eq_nil_of_le (Nat.le_of_eq k.length_outs.symm), List.append_nil,
      List.append_nil]
  calc k.fed.inputs
      = (Connection.inputs k.mouth p.copied 0 bound).map (Wire.entering k.front) :=
        k.connection.inputs_program
    _ = p.inputs.take bound := by
        rw [hleft]
        refine (List.map_congr_left fun s hs => ?_).trans (List.map_id _)
        exact k.connection.entering_second
          (Interface.mem_locals.mpr (.inl (List.mem_of_mem_take hs)))

theorem outputs_fed : k.fed.outputs = p.outputs.map (Wire.leavingFor k.front) := by
  have hleft : Connection.outputs k.mouth p.copied bound = p.outputs := by
    change p.outputs ++ k.outs.drop (p.inputs.drop bound).length = _
    rw [List.drop_eq_nil_of_le (Nat.le_of_eq k.length_outs), List.append_nil]
  have houtputs : (Connection.program k.mouth p.copied 0 bound k.front).outputs = _ :=
    k.connection.outputs_program
  rw [hleft] at houtputs
  exact houtputs

theorem sizes_outputs_fed : k.fed.outputs.map Symbol.size = p.outputs.map Symbol.size := by
  rw [k.outputs_fed, List.map_map]
  refine List.map_congr_left fun s _ => ?_
  rcases k.connection.leaving_cases s with ⟨w, hw, rfl, hl⟩ | ⟨hsame, _⟩
  · rw [Function.comp_apply, (k.drawn.shaped w hw).leaving _ hl]
  · rw [Function.comp_apply, hsame]

/-! ### Its code -/

def words : List Symbol :=
  (k.outs ++ args ++ p.symbols).map (Wire.merging k.front).apply ++ k.front.flatMap Wire.news

theorem fits_feeder : k.feeder.graph.Fits (k.outs ++ args) := by
  have hsizes : k.outs.map Symbol.size = args.map Symbol.size :=
    k.outs_like.sizes.trans k.sizes.symm
  have hblock : ∀ i ∈ copyBlock (k.outs.zip args), i.Fits (k.outs ++ args) := by
    intro i hi
    obtain ⟨q, hq, rfl⟩ := List.mem_map.mp hi
    obtain ⟨hdst, hsrc⟩ := List.of_mem_zip hq
    exact fits_copy (k.outs_like.solid _ hdst) (k.solid _ hsrc)
      ((map_eq_map_iff_zip.mp hsizes).2 q hq).symm
      ⟨List.mem_append.mpr (.inl hdst), k.outs_like.isLocal rfl hdst⟩
      (List.mem_append.mpr (.inr hsrc))
  exact (Graph.sequel_epilogue (Graph.sound_single _) []).fits (Graph.sound_single _)
    (Graph.sound_single []) (Graph.fits_single hblock) (Graph.fits_single (by simp))

theorem mem_words {s : Symbol} (hs : s ∈ k.outs ++ args ++ p.symbols) :
    (Wire.merging k.front).apply s ∈ k.words :=
  List.mem_append.mpr (.inl (List.mem_map_of_mem hs))

theorem words_of_vocabulary {s : Symbol}
    (hs : s ∈ Connection.vocabulary k.mouth p.copied k.front) : s ∈ k.words := by
  rcases List.mem_append.mp hs with hs | hs
  · obtain ⟨t, ht, rfl⟩ := List.mem_map.mp hs
    refine k.mem_words ?_
    rcases List.mem_append.mp ht with ht | ht
    · exact List.mem_append.mpr (.inl (List.mem_append.mpr (.inl (k.mem_outs ht))))
    · exact List.mem_append.mpr (.inr ht)
  · exact List.mem_append.mpr (.inr hs)

theorem sound_fits_code : (Connection.code k.feeder p.copied k.front).Sound ∧
    (Connection.code k.feeder p.copied k.front).Fits k.words := by
  have hc := k.connection
  have hfirst := renders_onGraph k.fits_feeder (Wire.merging k.front)
  have hsound := sound_bridge.of_sameShape hfirst.shape
  have hsequel := (Graph.sequel_append (g := k.feeder.graph) sound_bridge hc.second.sound).onGraph
    (Wire.merging k.front)
  have hcore : (Connection.core k.feeder p.copied k.front).Fits k.words :=
    hsequel.fits hsound hc.sound_second
      (hfirst.fits (hc.relabels_merging _).conforms
        (fun s hs => k.mem_words (List.mem_append.mpr (.inl hs))) k.fits_feeder)
      (hc.renders_second.fits (hc.relabels_merging _).conforms
        (fun s hs => k.mem_words (List.mem_append.mpr (.inr hs))) hc.second.fits)
  have hsound_core := hsequel.sound hsound hc.sound_second
  have hprologue : ∀ i ∈ Wire.prologue k.front, i.Fits k.words :=
    fun i hi => (hc.fits_prologue i hi).mono fun _ => k.words_of_vocabulary
  have hepilogue : ∀ i ∈ Wire.epilogue k.front, i.Fits k.words :=
    fun i hi => (hc.fits_epilogue i hi).mono fun _ => k.words_of_vocabulary
  exact ⟨sound_withEpilogue (sound_withPrologue hsound_core _) _,
    fits_withEpilogue (sound_withPrologue hsound_core _)
      (fits_withPrologue hsound_core hcore hprologue) hepilogue⟩

theorem valid_fed : k.fed.Valid := by
  have hlists : (Connection.program k.feeder p.copied 0 bound k.front).toInterface.Collectable :=
    k.connection.collectable_program
  exact Program.valid_collect hlists k.sound_fits_code.1 k.sound_fits_code.2

theorem id_of_mem_symbols_fed {s : Symbol} (hs : s ∈ k.fed.symbols) :
    s.id < k.g₁.next ∨ k.g₂.next ≤ s.id ∧ s.id < g₃.next := by
  have hlater := k.later₁
  have hnew : ∀ {t}, t ∈ k.front.flatMap Wire.news → k.g₂.next ≤ t.id ∧ t.id < g₃.next :=
    fun ht => k.drawn.fresh _ ht
  have hold : ∀ {t}, t ∈ k.outs ++ args ++ p.symbols → t.id < k.g₁.next := by
    intro t ht
    rcases List.mem_append.mp ht with ht | ht
    · rcases List.mem_append.mp ht with ht | ht
      · exact k.outs_like.above t ht
      · exact k.old.mono hlater t ht
    · exact k.above.mono hlater t ht
  rcases Program.mem_of_mem_symbols_collect hs with hs | hs
  · have hs : s ∈ (Connection.program k.mouth p.copied 0 bound k.front).symbols := hs
    rcases k.connection.mem_of_mem_symbols_program hs with (hs | hs) | hs
    · exact .inl (k.outs_like.above s (k.mem_outs hs))
    · exact .inl (k.above.mono hlater s hs)
    · exact .inr (hnew hs)
  · rcases List.mem_append.mp (Program.mem_of_mem_mentions k.sound_fits_code.2 hs) with hs | hs
    · obtain ⟨t, ht, rfl⟩ := List.mem_map.mp hs
      rcases k.connection.merging_cases t with ⟨w, hw, _, htemp⟩ | hsame
      · rw [htemp]
        exact .inr (hnew (List.mem_flatMap.mpr ⟨w, hw, w.temp_mem_news⟩))
      · rw [hsame]
        exact .inl (hold ht)
    · exact .inr (hnew hs)

end Feed

/-! ## The program with its arguments and the record -/

/-- A whole call, whatever the symbols of its record are. -/
structure Service (p : Program) (bound : Nat) (args r : List Symbol) (g g₃ g' : Supply) extends
    Feed p bound args g g₃ where
  ins : List Symbol
  back : List Wire
  ins_like : Likenesses .input p.outputs ins g₂
  ins_new : ∀ s ∈ ins, g₁.next ≤ s.id
  back_drawn : Wire.Drawn g₃ g' (toFeed.fed.outputs.zip ins) back
  back_wired : ∀ w ∈ back, w.output.size = w.input.size

namespace Service

variable {p : Program} {bound : Nat} {args r : List Symbol} {g g₃ g' : Supply}
  (k : Service p bound args r g g₃ g')

def whole : Program :=
  (Connection.program k.fed.copied (bridge k.target k.ins [] (r.zip k.ins)) bound 0 k.back).collect

theorem connection_back :
    Connection k.fed.copied (bridge k.target k.ins [] []) 0 k.back g₃ g' where
  first := (Program.copies_copied k.valid_fed).valid k.valid_fed
  second := show (bridge k.target k.ins [] []).collect.Valid from
    valid_bridge (k.ins_like.roleList (by simp)) ⟨.nil, by simp, by simp⟩
      ⟨by simp, by simp, by simp, by simp⟩ (by simp)
  apart := by
    intro s hs hmem
    have hin := (mem_channels_of_mem_bridge (Interface.mem_symbols_of_mem_locals hs)).resolve_right
      List.not_mem_nil
    have hnew := k.ins_new s hin
    have habove := k.ins_like.above s hin
    have hfed := k.id_of_mem_symbols_fed (Interface.mem_symbols_of_mem_locals hmem)
    omega
  above := by
    intro s hs
    have hlater₂ := k.later₂
    have hlater₃ := k.drawn.later
    have hfed := k.id_of_mem_symbols_fed hs
    omega
  above' := by
    intro s hs
    have hin := (mem_channels_of_mem_bridge hs).resolve_right List.not_mem_nil
    have hlater₃ := k.drawn.later
    have habove := k.ins_like.above s hin
    omega
  drawn := k.back_drawn
  sizes := k.back_wired

theorem length_ins : k.ins.length = k.fed.outputs.length := by
  have hsizes := congrArg List.length (k.ins_like.sizes.trans k.sizes_outputs_fed.symm)
  rwa [List.length_map, List.length_map] at hsizes

theorem inputs_whole : k.whole.inputs = (p.inputs.take bound).map (Wire.entering k.back) := by
  have hinputs : (Connection.program k.fed.copied (bridge k.target k.ins [] []) bound 0
    k.back).inputs = _ := k.connection_back.inputs_program
  have hleft : Connection.inputs k.fed.copied (bridge k.target k.ins [] []) bound 0 =
      p.inputs.take bound := by
    change k.fed.inputs.take bound ++ [] ++ k.fed.inputs.drop bound ++
      k.ins.drop k.fed.outputs.length = _
    rw [List.drop_eq_nil_of_le (Nat.le_of_eq k.length_ins), List.append_nil, List.append_nil,
      List.take_append_drop, k.inputs_fed]
  rw [hleft] at hinputs
  exact hinputs

theorem outputs_whole : k.whole.outputs = [] := by
  have houtputs : (Connection.program k.fed.copied (bridge k.target k.ins [] []) bound 0
    k.back).outputs = _ := k.connection_back.outputs_program
  have hleft : Connection.outputs k.fed.copied (bridge k.target k.ins [] []) 0 = [] := by
    change [] ++ k.fed.outputs.drop k.ins.length = _
    rw [List.nil_append, List.drop_eq_nil_of_le (Nat.le_of_eq k.length_ins.symm)]
  rw [hleft] at houtputs
  exact houtputs

theorem fed_whole {bindings : List Binding} (hfed : Fed bindings p.inputs)
    (hbound : bindings.length = bound) : Fed bindings k.whole.inputs := by
  rw [k.inputs_whole]
  have htaken : Fed bindings (p.inputs.take bound) := by
    unfold Fed at hfed ⊢
    rw [hfed, ← hbound, List.take_take, Nat.min_self]
  exact htaken.map fun s _ => k.connection_back.entering_size s

theorem roleList_inputs_whole : RoleList [.input, .inout] k.whole.inputs :=
  show RoleList _ (Connection.program k.fed.copied (bridge k.target k.ins [] []) bound 0
    k.back).inputs from k.connection_back.roleList_inputs

theorem above_inputs_whole : g'.Above k.whole.inputs := fun s hs =>
  (k.connection_back.above_program : g'.Above (Connection.program _ _ bound _ _).symbols) s
    (Interface.mem_symbols.mpr (.inl hs))

end Service

/-! ## Calls with symbols of the kernel -/

/-- Symbols that were drawn before and are not local to a program with this interface. -/
structure Interface.Spares (i : Interface) (g : Supply) (list : List Symbol) : Prop where
  old : g.Above list
  apart : ∀ s ∈ list, s ∉ i.locals

/-- A store in which nothing that a call needs has been written: no temporary of the program, and
no symbol that was drawn for the call. -/
structure Interface.Untouched (i : Interface) (g g' : Supply) (u : Overrides) (st : Store) :
    Prop where
  sized : st.Sized u
  shared : ∀ s, s.isLocal = false → st.get u s = startValue u s
  temps : ∀ s ∈ i.temps, st.get u s = startValue u s
  drawn : ∀ s, g.next ≤ s.id → s.id < g'.next → st.get u s = startValue u s

theorem Interface.Untouched.mono {i : Interface} {g g' g'' : Supply} {u : Overrides} {st : Store}
    (h : i.Untouched g g'' u st) (hle : g'.next ≤ g''.next) : i.Untouched g g' u st :=
  ⟨h.sized, h.shared, h.temps, fun s hlow hhigh => h.drawn s hlow (Nat.lt_of_lt_of_le hhigh hle)⟩

/-- What a call of a program begins with: channels for the arguments and for the results, and
the wires that lead from the arguments to the program. -/
structure Entry (p : Program) (bound : Nat) (r args : List Symbol) (g g₃ : Supply) where
  target : String
  outs : List Symbol
  ins : List Symbol
  front : List Wire
  {g₁ : Supply}
  {g₂ : Supply}
  valid : p.Valid
  above : g.Above p.symbols
  spared : p.Spares g (args ++ r)
  solid : ∀ s ∈ args ++ r, s.isHole = false
  argument_sizes : args.map Symbol.size = (p.inputs.drop bound).map Symbol.size
  outs_like : Likenesses .output (p.inputs.drop bound) outs g₁
  outs_new : ∀ s ∈ outs, g.next ≤ s.id
  ins_like : Likenesses .input p.outputs ins g₂
  ins_new : ∀ s ∈ ins, g₁.next ≤ s.id
  later₁ : g.next ≤ g₁.next
  later₂ : g₁.next ≤ g₂.next
  front_drawn : Wire.Drawn g₂ g₃ (outs.zip (p.inputs.drop bound)) front
  front_sizes : ∀ w ∈ front, w.output.size = w.input.size

namespace Entry

variable {p : Program} {bound : Nat} {r args : List Symbol} {g g₃ : Supply}
  (k : Entry p bound r args g g₃)

def feeder : Program := bridge k.target [] k.outs (k.outs.zip args)

def fed : Program := (Connection.program k.feeder p.copied 0 bound k.front).collect

/-- The arguments of a call are no symbols of the program, but a feed asks less of them. -/
def toFeed : Feed p bound args g g₃ where
  target := k.target
  outs := k.outs
  front := k.front
  valid := k.valid
  above := k.above
  old := fun s hs => k.spared.old s (List.mem_append_left _ hs)
  solid := fun s hs => k.solid s (List.mem_append_left _ hs)
  sizes := k.argument_sizes
  outs_like := k.outs_like
  outs_new := k.outs_new
  later₁ := k.later₁
  later₂ := k.later₂
  drawn := k.front_drawn
  wired := k.front_sizes

theorem outs_length : args.length = k.outs.length := by
  have hargs := congrArg List.length k.argument_sizes
  rw [List.length_map, List.length_map] at hargs
  rw [hargs, k.outs_like.length_eq]

theorem independent_arguments : Independent (k.outs.zip args) where
  solid := by
    intro q hq
    obtain ⟨hdst, hsrc⟩ := List.of_mem_zip hq
    exact ⟨k.outs_like.solid _ hdst, k.solid _ (List.mem_append.mpr (.inl hsrc))⟩
  sizes := by
    have hsizes : k.outs.map Symbol.size = args.map Symbol.size :=
      k.outs_like.sizes.trans k.argument_sizes.symm
    exact fun q hq => ((map_eq_map_iff_zip.mp hsizes).2 q hq).symm
  nodup := by
    rw [map_fst_zip]
    exact k.outs_like.nodup.sublist (List.take_sublist _ _)
  apart := by
    intro q hq q' hq' heq
    have hnew := k.outs_new _ (List.of_mem_zip hq).1
    have hold := k.spared.old _ (List.mem_append.mpr (.inl (List.of_mem_zip hq').2))
    rw [heq] at hnew
    omega

theorem isLocal_arguments : ∀ q ∈ k.outs.zip args, q.1.isLocal = true :=
  fun _ hq => k.outs_like.isLocal rfl (List.of_mem_zip hq).1

theorem mem_symbols_feeder {s : Symbol} (hs : s ∈ k.feeder.collect.symbols) :
    s ∈ k.outs ∨ s ∈ args := by
  rcases mem_symbols_bridge k.independent_arguments k.isLocal_arguments hs with hs | hs | hs | hs
  · cases hs
  · exact .inl hs
  · rw [map_fst_zip] at hs
    exact .inl (List.mem_of_mem_take hs)
  · rw [map_snd_zip] at hs
    exact .inr (List.mem_of_mem_take hs)

theorem connection_front :
    Connection k.feeder.collect p.copied bound k.front k.g₂ g₃ where
  first := valid_bridge ⟨.nil, by simp, by simp⟩ (k.outs_like.roleList (by simp))
    k.independent_arguments k.isLocal_arguments
  second := k.toFeed.connection.second
  apart := by
    intro s hs hmem
    rcases k.mem_symbols_feeder (Interface.mem_symbols_of_mem_locals hmem) with hout | harg
    · have hnew := k.outs_new s hout
      have hold := k.above s (Interface.mem_symbols_of_mem_locals hs)
      omega
    · exact k.spared.apart s (List.mem_append.mpr (.inl harg)) hs
  above := by
    intro s hs
    have hlater₁ := k.later₁
    have hlater₂ := k.later₂
    rcases k.mem_symbols_feeder hs with hout | harg
    · have := k.outs_like.above s hout
      omega
    · have := k.spared.old s (List.mem_append.mpr (.inl harg))
      omega
  above' := (k.above.mono k.later₁).mono k.later₂
  drawn := k.front_drawn
  sizes := k.front_sizes

theorem valid_fed : k.fed.Valid := k.toFeed.valid_fed

/-! ### The program with its arguments -/

theorem free_length : (p.inputs.drop bound).length = k.outs.length := k.toFeed.length_outs.symm

theorem inputs_fed : k.fed.inputs = p.inputs.take bound := k.toFeed.inputs_fed

theorem outputs_fed : k.fed.outputs = p.outputs.map (Wire.leavingFor k.front) :=
  k.toFeed.outputs_fed

theorem mem_outputs_fed {s : Symbol} (hs : s ∈ k.fed.outputs) :
    s ∈ p.outputs ∨ k.g₂.next ≤ s.id ∧ s.id < g₃.next := by
  rw [k.outputs_fed] at hs
  obtain ⟨t, ht, rfl⟩ := List.mem_map.mp hs
  rcases k.connection_front.leaving_cases t with ⟨w, hw, _, hl⟩ | ⟨hsame, _⟩
  · exact .inr (k.front_drawn.fresh _
      (List.mem_flatMap.mpr ⟨w, hw, Wire.leaving_mem_news hl⟩))
  · rw [hsame]
    exact .inl ht

theorem not_mem_outputs_fed {s : Symbol} (hold : s.id < g.next) (hs : s ∉ p.locals) :
    s ∉ k.fed.outputs := by
  intro hout
  have hlater₁ := k.later₁
  have hlater₂ := k.later₂
  rcases k.mem_outputs_fed hout with hout | hnew
  · exact hs (Interface.mem_locals.mpr (.inr (.inl hout)))
  · omega

theorem mem_outputs_fed_of_mem {s : Symbol} (hs : s ∈ p.outputs)
    (hfree : s ∉ p.inputs.drop bound) : s ∈ k.fed.outputs := by
  rw [k.outputs_fed, List.mem_map]
  refine ⟨s, hs, Wire.leavingFor_of_ne fun w hw heq => absurd heq ?_⟩
  rintro rfl
  exact hfree (List.of_mem_zip (k.connection_front.ends_mem hw)).2

theorem mem_ins {s : Symbol} {pairs : List (Symbol × Symbol)}
    (hs : s ∈ (bridge k.target k.ins [] pairs).symbols) : s ∈ k.ins := by
  rcases mem_channels_of_mem_bridge hs with hin | hout
  · exact hin
  · cases hout

theorem not_mem_symbols_fed {s : Symbol} (hs : s ∈ k.ins) : s ∉ k.fed.symbols := by
  intro hmem
  have hnew := k.ins_new s hs
  have habove := k.ins_like.above s hs
  have hfed : s.id < k.g₁.next ∨ k.g₂.next ≤ s.id ∧ s.id < g₃.next :=
    k.toFeed.id_of_mem_symbols_fed hmem
  omega

end Entry

/-- A whole call, with the wires that lead from the program to the record. -/
structure Call (p : Program) (bound : Nat) (r args : List Symbol) (g g₃ g' : Supply) extends
    Entry p bound r args g g₃ where
  back : List Wire
  isLocal : ∀ s ∈ r, s.isLocal = true
  nodup : r.Nodup
  result_sizes : r.map Symbol.size = p.outputs.map Symbol.size
  back_drawn : Wire.Drawn g₃ g' (toEntry.fed.outputs.zip ins) back
  back_sizes : ∀ w ∈ back, w.output.size = w.input.size

namespace Call

variable {p : Program} {bound : Nat} {r args : List Symbol} {g g₃ g' : Supply}
  (k : Call p bound r args g g₃ g')

def whole : Program :=
  (Connection.program k.fed.copied (bridge k.target k.ins [] (r.zip k.ins)) bound 0 k.back).collect

/-! ### The program with its arguments and the record -/

def toService : Service p bound args r g g₃ g' where
  toFeed := k.toFeed
  ins := k.ins
  back := k.back
  ins_like := k.ins_like
  ins_new := k.ins_new
  back_drawn := k.back_drawn
  back_wired := k.back_sizes

theorem connection_back :
    Connection k.fed.copied (bridge k.target k.ins [] []) 0 k.back g₃ g' :=
  k.toService.connection_back

theorem receives : Connection.Receives k.fed.copied k.ins r g₃ where
  nodup := k.nodup
  isLocal := k.isLocal
  solid := fun s hs => k.solid s (List.mem_append.mpr (.inr hs))
  old := by
    intro s hs
    have hold := k.spared.old s (List.mem_append.mpr (.inr hs))
    have hlater₁ := k.later₁
    have hlater₂ := k.later₂
    have hlater₃ := k.front_drawn.later
    omega
  apart := by
    intro s hs
    have hrecord : s ∈ args ++ r := List.mem_append.mpr (.inr hs)
    have hold := k.spared.old s hrecord
    refine ⟨k.not_mem_outputs_fed hold (k.spared.apart s hrecord), fun hin => ?_⟩
    have hnew := k.ins_new s hin
    have hlater₁ := k.later₁
    omega
  sizes := k.result_sizes.trans k.ins_like.sizes.symm
  role := k.ins_like.role
  count := by
    change k.fed.outputs.length = _
    rw [k.outputs_fed, List.length_map, k.ins_like.length_eq]

include k in
theorem later : g.next ≤ g'.next :=
  calc g.next ≤ k.g₁.next := k.later₁
    _ ≤ k.g₂.next := k.later₂
    _ ≤ g₃.next := k.front_drawn.later
    _ ≤ g'.next := k.back_drawn.later

theorem valid_whole : k.whole.Valid :=
  Connection.valid_results k.connection_back k.receives

theorem inputs_whole : k.whole.inputs = (p.inputs.take bound).map (Wire.entering k.back) :=
  k.toService.inputs_whole

theorem take_inputs_whole : k.whole.inputs.take bound = k.whole.inputs := by
  rw [k.inputs_whole, ← List.map_take, List.take_take, Nat.min_self]

theorem not_mem_inputs_whole {s : Symbol} (hold : s.id < g.next) (hs : s ∉ p.locals) :
    s ∉ k.whole.inputs := by
  intro hmem
  rw [k.inputs_whole] at hmem
  obtain ⟨t, ht, rfl⟩ := List.mem_map.mp hmem
  have hlater₁ := k.later₁
  have hlater₂ := k.later₂
  have hlater₃ := k.front_drawn.later
  rcases k.connection_back.entering_cases t with ⟨w, hw, _, he⟩ | ⟨hsame, _⟩
  · have hnew := k.back_drawn.fresh _
      (List.mem_flatMap.mpr ⟨w, hw, Wire.entrance_mem_news he⟩)
    omega
  · rw [hsame] at hs
    exact hs (Interface.mem_locals.mpr (.inl (List.mem_of_mem_take ht)))

theorem above_whole : g'.Above k.whole.symbols := by
  intro s hs
  rcases Connection.mem_symbols_results k.connection_back k.receives hs with hs | hs
  · exact k.connection_back.above_of_cases hs
  · exact k.receives.old.mono k.back_drawn.later s hs

/-! ### Runs -/

section Runs

variable {u : Overrides} {st st₁ st₂ sp finp : Store} {vs : List (List Float)}

/-- The store that the program with its arguments runs on. -/
structure Prepares (vs : List (List Float)) (u : Overrides) (st st₁ : Store) : Prop where
  sized : st₁.Sized u
  inputs : ∀ q ∈ (p.inputs.take bound).zip vs, st₁.get u q.1 = q.2
  outputs : ∀ s ∈ k.fed.outputs, s ∉ p.inputs.take bound → st₁.get u s = startValue u s
  other : ∀ s, s ∉ p.inputs.take bound → s ∉ k.fed.outputs → st₁.get u s = st.get u s

theorem exists_prepares (hsized : st.Sized u)
    (hvs : vs.map List.length = (p.inputs.take bound).map Symbol.size) :
    ∃ st₁, k.Prepares vs u st st₁ := by
  have hstart : (k.fed.outputs.map (startValue u)).map List.length =
      k.fed.outputs.map Symbol.size := by
    rw [List.map_map]
    exact List.map_congr_left fun s _ => Store.sized_empty u s
  obtain ⟨st₀, hsized₀, hreset, hkept₀⟩ := exists_load k.fed.outputs
    k.valid_fed.orderly.outputs.nodup k.valid_fed.orderly.outputs.solid hstart hsized
  obtain ⟨st₁, hsized₁, hloaded, hkept₁⟩ := exists_load (p.inputs.take bound)
    (k.valid.orderly.inputs.nodup.sublist (List.take_sublist _ _))
    (fun s hs => k.valid.orderly.inputs.solid s (List.mem_of_mem_take hs)) hvs hsized₀
  refine ⟨st₁, hsized₁, hloaded, fun s hs hnot => ?_, fun s hnot hs => ?_⟩
  · rw [hkept₁ s hnot]
    refine hreset (s, startValue u s) ?_
    rw [List.zip_map_right, List.mem_map]
    exact ⟨(s, s), mem_zip_self hs, rfl⟩
  · rw [hkept₁ s hnot, hkept₀ s hs]

theorem Prepares.get_drawn (h : k.Prepares vs u st st₁) (huntouched : p.Untouched g g' u st)
    {s : Symbol} (hle : g.next ≤ s.id) (hlt : s.id < g'.next) :
    st₁.get u s = startValue u s := by
  have htaken : s ∉ p.inputs.take bound := by
    intro hmem
    have hold := k.above s (Interface.mem_symbols.mpr (.inl (List.mem_of_mem_take hmem)))
    omega
  by_cases hout : s ∈ k.fed.outputs
  · exact h.outputs s hout htaken
  · rw [h.other s htaken hout, huntouched.drawn s hle hlt]

theorem Prepares.get_spared (h : k.Prepares vs u st st₁) {s : Symbol} (hold : s.id < g.next)
    (hs : s ∉ p.locals) : st₁.get u s = st.get u s :=
  h.other s (fun hmem => hs (Interface.mem_locals.mpr (.inl (List.mem_of_mem_take hmem))))
    (k.not_mem_outputs_fed hold hs)

theorem Prepares.get_start (h : k.Prepares vs u st st₁) (huntouched : p.Untouched g g' u st)
    (hvs : vs.length = (p.inputs.take bound).length)
    (hsp : start p.toInterface (vs ++ args.map (st.get u)) = .ok sp) {s : Symbol}
    (hs : s ∈ p.symbols) (hfree : s ∉ p.inputs.drop bound) : sp.get u s = st₁.get u s := by
  by_cases htaken : s ∈ p.inputs.take bound
  · have hzip : s ∈ ((p.inputs.take bound).zip vs).map Prod.fst := by
      rw [List.map_fst_zip (Nat.le_of_eq hvs.symm)]
      exact htaken
    obtain ⟨q, hq, rfl⟩ := List.mem_map.mp hzip
    rw [h.inputs q hq]
    refine get_start_of_mem k.valid.orderly.inputs.nodup hsp ?_
    rw [zip_of_split hvs]
    exact List.mem_append.mpr (.inl hq)
  · have hin : s ∉ p.inputs := by
      rw [← List.take_append_drop bound p.inputs, List.mem_append]
      exact not_or.mpr ⟨htaken, hfree⟩
    rw [get_start_of_not_mem hsp hin]
    by_cases hout : s ∈ k.fed.outputs
    · rw [h.outputs s hout htaken]
    · rw [h.other s htaken hout]
      cases hlocal : s.isLocal with
      | false => rw [huntouched.shared s hlocal]
      | true =>
          rcases Interface.mem_locals.mp ((k.valid.orderly.mem_locals_iff hs).mpr hlocal) with
            hmem | hmem | hmem
          · exact absurd hmem hin
          · exact absurd (k.mem_outputs_fed_of_mem hmem hfree) hout
          · rw [huntouched.temps s hmem]

theorem computes_fed (h : k.Prepares vs u st st₁) (huntouched : p.Untouched g g' u st)
    (hvs : vs.length = (p.inputs.take bound).length)
    (hsp : start p.toInterface (vs ++ args.map (st.get u)) = .ok sp)
    (hrun : Computes p.graph u sp finp false) :
    ∃ fin, Computes k.fed.graph u st₁ fin false ∧
      k.fed.outputs.map (fin.get u) = p.outputs.map (finp.get u) ∧
      ∀ t, t ∉ p.locals → t.id < g.next → fin.get u t = st.get u t := by
  have hlater₁ := k.later₁
  have hlater₂ := k.later₂
  have hlater₃ := k.front_drawn.later
  have hlater₄ := k.back_drawn.later
  obtain ⟨finp', hrun', hsame⟩ := k.valid.computes_copied hrun
  have htemps : ∀ w ∈ k.front, st₁.get u w.temp = st₁.get u w.output := by
    intro w hw
    have htemp := k.front_drawn.fresh w.temp (List.mem_flatMap.mpr ⟨w, hw, w.temp_mem_news⟩)
    have hout : w.output ∈ k.outs := k.connection_front.output_mem hw
    have hnew := k.outs_new _ hout
    have habove := k.outs_like.above _ hout
    rw [h.get_drawn k huntouched (by omega) (by omega),
      h.get_drawn k huntouched (by omega) (by omega), k.connection_front.startValue_temp hw]
  have hargs : (p.inputs.drop bound).map (sp.get u) = args.map (st₁.get u) := by
    have hvalues : p.inputs.map (sp.get u) = vs ++ args.map (st.get u) :=
      map_get_start k.valid.orderly.inputs.nodup hsp
    have hlen : vs.length = ((p.inputs.take bound).map (sp.get u)).length := by
      rw [hvs, List.length_map]
    rw [← List.take_append_drop bound p.inputs, List.map_append] at hvalues
    rw [(List.append_inj hvalues hlen.symm).2]
    refine List.map_congr_left fun s hs => ?_
    have harg : s ∈ args ++ r := List.mem_append.mpr (.inl hs)
    exact (h.get_spared k (k.spared.old s harg) (k.spared.apart s harg)).symm
  obtain ⟨fin, hfin, houtputs, hframe⟩ := k.connection_front.computes_arguments
    k.independent_arguments k.outs_length k.free_length h.sized hrun' htemps hargs
    fun s hs hfree => h.get_start k huntouched hvs hsp hs hfree
  refine ⟨fin, hfin, houtputs.trans (List.map_congr_left fun s _ => hsame s), ?_⟩
  intro t ht hold
  rw [hframe t ht, h.get_spared k hold ht]
  · intro hout
    have := k.outs_new t hout
    omega
  · intro hnew
    have := k.front_drawn.fresh t hnew
    omega

theorem computes_whole (huntouched : p.Untouched g g' u st)
    (hvs : vs.map List.length = (p.inputs.take bound).map Symbol.size)
    (hsp : start p.toInterface (vs ++ args.map (st.get u)) = .ok sp)
    (hrun : Computes p.graph u sp finp false) (hsized : st₂.Sized u)
    (hbound : ∀ q ∈ k.whole.inputs.zip vs, st₂.get u q.1 = q.2)
    (hother : ∀ s, s ∉ k.whole.inputs → st₂.get u s = st.get u s) :
    ∃ fin, Computes k.whole.graph u st₂ fin false ∧
      r.map (fin.get u) = p.outputs.map (finp.get u) ∧
      ∀ t, t ∉ r → t ∉ p.locals → t.id < g.next → fin.get u t = st.get u t := by
  have hlater₁ := k.later₁
  have hlater₂ := k.later₂
  have hlater₃ := k.front_drawn.later
  have hlen : vs.length = (p.inputs.take bound).length := by simpa using congrArg List.length hvs
  obtain ⟨st₁, hst₁⟩ := k.exists_prepares huntouched.sized hvs
  obtain ⟨fin₁, hfed, houtputs, hframe⟩ := k.computes_fed hst₁ huntouched hlen hsp hrun
  obtain ⟨fin₁', hfed', hsame⟩ := k.valid_fed.computes_copied hfed
  have hin : ∀ s ∈ k.fed.copied.inputs, st₂.get u (Wire.entering k.back s) = st₁.get u s := by
    intro s hs
    have hzip : s ∈ ((p.inputs.take bound).zip vs).map Prod.fst := by
      rw [List.map_fst_zip (Nat.le_of_eq hlen.symm), ← k.inputs_fed]
      exact hs
    obtain ⟨q, hq, rfl⟩ := List.mem_map.mp hzip
    rw [hst₁.inputs q hq]
    refine hbound (Wire.entering k.back q.1, q.2) ?_
    rw [k.inputs_whole, List.zip_map_left]
    exact List.mem_map.mpr ⟨q, hq, rfl⟩
  have hmerged : ∀ s ∈ k.fed.copied.symbols, s ∉ k.fed.copied.inputs →
      st₂.get u ((Wire.merging k.back).apply s) = st₁.get u s := by
    intro s hs hnot
    have htaken : s ∉ p.inputs.take bound := k.inputs_fed ▸ hnot
    rcases k.connection_back.tapped_first.cases s hs with ⟨w, hw, rfl, htemp⟩ | ⟨hne, hfixed⟩
    · have hnew := k.back_drawn.fresh w.temp (List.mem_flatMap.mpr ⟨w, hw, w.temp_mem_news⟩)
      have hunread : w.temp ∉ k.whole.inputs := k.connection_back.temp_not_mem_inputs hw
      rw [htemp, hother _ hunread,
        huntouched.drawn _ (by omega) hnew.2, k.connection_back.startValue_temp hw,
        hst₁.outputs _ (k.connection_back.output_mem hw) htaken]
    · have hout : s ∉ k.fed.outputs := by
        intro hmem
        have hmem' : s ∈ k.fed.copied.outputs := hmem
        rw [← Connection.outputs_results k.connection_back k.receives] at hmem'
        obtain ⟨w, hw, rfl⟩ := List.mem_map.mp hmem'
        exact hne w hw rfl
      have hunread : s ∉ k.whole.inputs := k.connection_back.not_mem_inputs_first hs hnot
      rw [hfixed, hst₁.other s htaken hout, hother s hunread]
  obtain ⟨fin, hfin, hresults, hback⟩ := Connection.computes_results k.connection_back k.receives
    hsized hfed' hin hmerged
  refine ⟨fin, hfin, ?_, ?_⟩
  · rw [hresults, ← houtputs]
    exact List.map_congr_left fun s _ => hsame s
  · intro t hrecord ht hold
    have hnew : t ∉ k.back.flatMap Wire.news := by
      intro hmem
      have := k.back_drawn.fresh t hmem
      omega
    obtain ⟨hinside, houtside⟩ := hback t hrecord (k.not_mem_outputs_fed hold ht) hnew
    by_cases hmem : t ∈ k.fed.copied.symbols
    · rw [hinside hmem, hsame t, hframe t ht hold]
    · rw [houtside hmem, hother t (k.not_mem_inputs_whole hold ht)]

end Runs

end Call

/-- The code of a call that leaves in the record what the program gives, from every store in
which nothing that it needs has been written. -/
structure Performs (p : Program) (bindings : List Binding) (r args : List Symbol) (g g' : Supply)
    (q : Program) : Prop where
  valid : q.Valid
  runs : ∀ {u : Overrides} {st sp finp : Store}, p.Untouched g g' u st →
    start p.toInterface (bindings.map (fun b => startValue u b.source) ++ args.map (st.get u)) =
      .ok sp →
    Computes p.graph u sp finp false →
    ∃ fin, Computes q.graph u st fin false ∧ r.map (fin.get u) = p.outputs.map (finp.get u) ∧
      ∀ t, t ∉ r → t ∉ p.locals → t.id < g.next → fin.get u t = st.get u t

namespace Call

variable {p : Program} {bindings : List Binding} {r args : List Symbol} {g g₃ g' g'' : Supply}
  {h : Handle} {q : Program}

theorem fed_whole (k : Call p bindings.length r args g g₃ g') (hfed : Fed bindings p.inputs) :
    Fed bindings k.whole.inputs :=
  k.toService.fed_whole hfed rfl

section Resolution

variable {u : Overrides} {st sp finp : Store} {m : Renaming} {block : Block}

theorem sizes_sources (hfed : Fed bindings p.inputs) :
    (bindings.map fun b => startValue u b.source).map List.length =
      (p.inputs.take bindings.length).map Symbol.size := by
  rw [← hfed, List.map_map]
  exact List.map_congr_left fun b _ => Store.sized_empty u b.source

theorem computes_resolution (k : Call p bindings.length r args g g₃ g')
    (hresolved : Resolved k.whole.copied.inputs bindings g' g'' m block)
    (hfed : Fed bindings p.inputs) (hproper : ∀ b ∈ bindings, b.Proper)
    (huniform : ∀ b ∈ bindings, b.kind = .uniform) (huntouched : p.Untouched g g'' u st)
    (hsp : start p.toInterface
      (bindings.map (fun b => startValue u b.source) ++ args.map (st.get u)) = .ok sp)
    (hrun : Computes p.graph u sp finp false) :
    ∃ fin, Computes (resolution k.whole.copied bindings.length m block).graph u st fin false ∧
      r.map (fin.get u) = p.outputs.map (finp.get u) ∧
      ∀ t, t ∉ r → t ∉ p.locals → t.id < g.next → fin.get u t = st.get u t := by
  have hvalid := k.valid_whole
  have hsizes : (bindings.map fun b => startValue u b.source).map List.length =
      k.whole.inputs.map Symbol.size := by
    rw [sizes_sources (k.fed_whole hfed), k.take_inputs_whole]
  obtain ⟨st₂, hsized₂, hloaded, hkept⟩ := exists_load k.whole.inputs hvalid.orderly.inputs.nodup
    hvalid.orderly.inputs.solid hsizes huntouched.sized
  obtain ⟨fin₂, hwhole, hresults, hframe⟩ := k.computes_whole (huntouched.mono hresolved.later)
    (sizes_sources hfed) hsp hrun hsized₂ hloaded hkept
  obtain ⟨fin₂', hwhole', hsame⟩ := hvalid.computes_copied hwhole
  have hbound : ∀ q ∈ k.whole.inputs.zip (bindings.map Binding.source),
      st₂.get u q.1 = st.get u q.2 := by
    rintro ⟨s, t⟩ hq
    obtain ⟨b, hb, rfl⟩ := List.mem_map.mp (List.of_mem_zip hq).2
    rw [huntouched.shared _ ((hproper b hb).isLocal_source (huniform b hb))]
    refine hloaded (s, startValue u b.source) ?_
    rw [show (bindings.map fun b => startValue u b.source) =
      (bindings.map Binding.source).map (startValue u) by rw [List.map_map]; rfl,
      List.zip_map_right]
    exact List.mem_map.mpr ⟨(s, b.source), hq, rfl⟩
  have hother : ∀ s ∈ k.whole.symbols, s ∉ k.whole.inputs.take bindings.length →
      st₂.get u s = st.get u s := by
    intro s _ hs
    rw [k.take_inputs_whole] at hs
    exact hkept s hs
  obtain ⟨fin, hfin, hagree, hunwritten⟩ := hresolved.computes_resolution
    ((Program.copies_copied hvalid).valid hvalid) k.above_whole hproper huniform huntouched.sized
    hbound hother hwhole'
  have hold : ∀ t, t.id < g.next → t ∉ p.locals → fin.get u t = fin₂.get u t := by
    intro t hid ht
    have hin := k.not_mem_inputs_whole hid ht
    by_cases hmem : t ∈ k.whole.symbols
    · have hvalue := hagree t hmem
      rcases hresolved.apply_cases t with ⟨htaken, _⟩ | ⟨_, hfixed⟩
      · exact absurd (List.mem_of_mem_take htaken) hin
      · rw [hfixed] at hvalue
        rw [hvalue, hsame t]
    · have hnew : t ∉ m.map Prod.snd := by
        intro hmem
        obtain ⟨q, hq, rfl⟩ := List.mem_map.mp hmem
        have hfresh := (hresolved.draws.fresh q hq).1
        have hlater := k.later
        omega
      rw [hunwritten t hmem hnew, hvalid.get_of_computes hwhole fun h => absurd h hmem, hkept t hin]
  refine ⟨fin, hfin, ?_, fun t ht hlocal hid => ?_⟩
  · rw [← hresults]
    refine List.map_congr_left fun s hs => ?_
    have hrecord : s ∈ args ++ r := List.mem_append.mpr (.inr hs)
    exact hold s (k.spared.old s hrecord) (k.spared.apart s hrecord)
  · rw [hold t hid hlocal, hframe t ht hlocal hid]

end Resolution

theorem performs_resolve (k : Call p bindings.length r args g g₃ g')
    (hsketch : h.sketch = k.whole.sketch) (hbindings : h.bindings = bindings)
    (hfed : Fed bindings p.inputs) (hproper : ∀ b ∈ bindings, b.Proper)
    (huniform : ∀ b ∈ bindings, b.kind = .uniform) (hrun : Yields h.resolve g' (.ok q) g'') :
    g'.next ≤ g''.next ∧ Performs p bindings r args g g'' q := by
  subst hbindings
  have hholds : h.Holds Binding.Proper g' k.whole :=
    ⟨hsketch, k.valid_whole, k.above_whole, k.fed_whole hfed, hproper⟩
  have hcopied : k.whole.copied.Valid := (Program.copies_copied k.valid_whole).valid k.valid_whole
  rcases hholds.yields_resolve huniform with ⟨hyields, hnone⟩ | ⟨m, block, g₅, hresolved, hyields⟩
  · obtain ⟨heq, rfl⟩ := hyields.unique hrun
    cases heq
    refine ⟨Nat.le_refl _, hcopied, fun {u st sp finp} huntouched hsp hcomputes => ?_⟩
    obtain ⟨fin, hfin, hresults, hframe⟩ := k.computes_whole huntouched (sizes_sources hfed) hsp
      hcomputes huntouched.sized (by simp [hnone]) fun _ _ => rfl
    obtain ⟨fin', hfin', hsame⟩ := k.valid_whole.computes_copied hfin
    refine ⟨fin', hfin', ?_, fun t ht hlocal hold => ?_⟩
    · rw [← hresults]
      exact List.map_congr_left fun s _ => hsame s
    · rw [hsame t, hframe t ht hlocal hold]
  · obtain ⟨heq, rfl⟩ := hyields.unique hrun
    cases heq
    exact ⟨hresolved.later, hresolved.valid hcopied k.above_whole hproper,
      fun huntouched hsp hcomputes =>
        k.computes_resolution hresolved hfed hproper huniform huntouched hsp hcomputes⟩

end Call

end KernelAlgebra
