import KernelAlgebra.Proofs.Compose.Binding

/-!
# Resolving bindings

A handle in order that is bound to nothing but uniforms and constants resolves to a valid
program.
-/

namespace KernelAlgebra

open Machine (copyBlock)

/-- The new symbols, each with the source that feeds it. -/
def feeds (m : Renaming) (bindings : List Binding) : List (Symbol × Symbol) :=
  (m.reverse.map Prod.snd).zip (bindings.map Binding.source)

/-- Fresh symbols take the places of the bound inputs, and each is assigned from its source. -/
structure Resolved (inputs : List Symbol) (bindings : List Binding) (g g' : Supply)
    (m : Renaming) (block : Block) : Prop where
  later : g.next ≤ g'.next
  draws : m.Draws g g'
  keys : m.map Prod.fst = (inputs.take bindings.length).reverse
  values : ∀ q ∈ m, q.2 = { q.1 with id := q.2.id, role := Handle.resolvedRole q.1 }
  order : List.Forall₂ (fun b q => b.source.size = q.2.size) bindings m.reverse
  code : block = copyBlock (feeds m bindings)

theorem Instruction.assign_full {d s : Symbol} (hd : d.isHole = false) (hs : s.isHole = false)
    (hsize : s.size = d.size) : assign (View.full d) (View.full s) = .ok (copy d s) :=
  assign_of_check (check_copy hd hs hsize)

theorem Renaming.Draws.append_first {m : Renaming} {g g' : Supply}
    (h : m.Draws ⟨g.next + 1⟩ g') (hlt : g.next < g'.next) {s t : Symbol} (ht : t.id = g.next) :
    Draws (m ++ [(s, t)]) g g' where
  fresh := by
    intro q hq
    rcases List.mem_append.mp hq with hq | hq
    · have := h.fresh q hq
      simp only at this
      omega
    · rw [List.mem_singleton.mp hq]
      simp only
      omega
  apart := by
    have hapart : ∀ q ∈ m, q.2 ≠ t := by
      intro q hq heq
      have := h.fresh q hq
      simp only [heq] at this
      omega
    intro q hq q' hq' heq
    simp only [List.mem_append, List.mem_singleton] at hq hq'
    rcases hq with hq | rfl <;> rcases hq' with hq' | rfl
    · exact h.apart q hq q' hq' heq
    · exact absurd heq (hapart q hq)
    · exact absurd heq.symm (hapart q' hq')
    · rfl

theorem Resolved.cons {inputs : List Symbol} {bindings : List Binding} {g g' : Supply}
    {m : Renaming} {block : Block} (h : Resolved inputs bindings ⟨g.next + 1⟩ g' m block)
    {s r : Symbol} {b : Binding} (hr : r = { s with id := g.next, role := Handle.resolvedRole s })
    (hsize : b.source.size = s.size) :
    Resolved (s :: inputs) (b :: bindings) g g' (m ++ [(s, r)]) (.copy r b.source :: block) where
  later := Nat.le_of_succ_le h.later
  draws := h.draws.append_first h.later (by rw [hr])
  keys := by simp [h.keys]
  values := by
    intro q hq
    rcases List.mem_append.mp hq with hq | hq
    · exact h.values q hq
    · rw [List.mem_singleton.mp hq, hr]
  order := by
    rw [List.reverse_append]
    exact .cons (by rw [hsize, hr]) h.order
  code := by
    rw [feeds, List.reverse_append, h.code]
    rfl

theorem Resolved.copies {inputs : List Symbol} {bindings : List Binding} {g g' : Supply}
    {m : Renaming} {block : Block} (h : Resolved inputs bindings g g' m block) :
    List.Forall₂ (fun b i => ∃ q ∈ m, b.source.size = q.2.size ∧ i = .copy q.2 b.source)
      bindings block := by
  have hmem : ∀ q ∈ m.reverse, q ∈ m := fun q hq => List.mem_reverse.mp hq
  have horder := h.order
  rw [h.code, feeds]
  clear h
  generalize m.reverse = qs at hmem horder
  induction horder with
  | nil => exact .nil
  | cons hsize _ ih =>
      exact .cons ⟨_, hmem _ (by simp), hsize, rfl⟩ (ih fun q hq => hmem q (by simp [hq]))

namespace Handle

theorem yields_resolveBindings_cons {inputs : List Symbol} {bindings : List Binding}
    {s : Symbol} {b : Binding} {g g' : Supply}
    {r : Except (Fault ComposeError) (Renaming × Block)} (hid : s.id < g.next)
    (hs : s.isHole = false) (hproper : b.Proper) (huniform : b.kind = .uniform)
    (hsize : b.source.size = s.size)
    (hrest : Yields (resolveBindings inputs bindings) ⟨g.next + 1⟩ r g') :
    let t : Symbol := { s with id := g.next, role := resolvedRole s }
    Yields (resolveBindings (s :: inputs) (b :: bindings)) g
      (r.map fun q => (q.1 ++ [(s, t)], .copy t b.source :: q.2)) g' := by
  intro t
  have ht : t.isHole = false := by
    simp only [t, Symbol.isHole, decide_eq_false_iff_not] at hs ⊢
    omega
  have hassign := Instruction.assign_full ht hproper.1 hsize
  unfold resolveBindings
  simp only [huniform, bne_self_eq_false, Bool.false_eq_true, if_false]
  refine (yields_bind (Fresh.yields_copy hs)).mpr ?_
  simp only [t] at hassign
  simp only [hassign]
  cases r with
  | error f => exact (yields_bind_error hrest).mpr ⟨rfl, rfl⟩
  | ok q => exact (yields_bind hrest).mpr (yields_pure.mpr ⟨rfl, rfl⟩)

theorem yields_resolveBindings {inputs : List Symbol} {bindings : List Binding} {g : Supply}
    (hfed : Fed bindings inputs) (hproper : ∀ b ∈ bindings, b.Proper)
    (huniform : ∀ b ∈ bindings, b.kind = .uniform) (habove : g.Above inputs)
    (hsolid : ∀ s ∈ inputs, s.isHole = false) :
    ∃ m block g', Yields (resolveBindings inputs bindings) g (.ok (m, block)) g' ∧
      Resolved inputs bindings g g' m block := by
  induction bindings generalizing inputs g with
  | nil =>
      refine ⟨[], [], g, ?_, Nat.le_refl _, .nil _ _, rfl, by simp, .nil, rfl⟩
      unfold resolveBindings
      exact yields_pure.mpr ⟨rfl, rfl⟩
  | cons b bindings ih =>
      cases inputs with
      | nil => simp [Fed] at hfed
      | cons s inputs =>
          simp only [Fed, List.map_cons, List.length_cons, List.take_succ_cons,
            List.cons.injEq] at hfed
          have hnext : Supply.Above ⟨g.next + 1⟩ inputs :=
            fun t ht => Nat.lt_succ_of_lt (habove t (by simp [ht]))
          obtain ⟨m, block, g', hrest, hresolved⟩ := ih (g := ⟨g.next + 1⟩) hfed.2
            (fun b hb => hproper b (by simp [hb])) (fun b hb => huniform b (by simp [hb])) hnext
            fun t ht => hsolid t (by simp [ht])
          exact ⟨_, _, g', yields_resolveBindings_cons (habove s (by simp)) (hsolid s (by simp))
            (hproper b (by simp)) (huniform b (by simp)) hfed.1 hrest,
            hresolved.cons rfl hfed.1⟩

end Handle

/-! ## The resolved program -/

theorem Renaming.mem_onList {m : Renaming} {list : List Symbol} {t : Symbol} :
    t ∈ m.onList list ↔ ∃ s ∈ list, m.apply s = t := by
  unfold onList
  split
  · rename_i hempty
    rw [List.isEmpty_iff.mp hempty]
    simp [apply_nil]
  · simp [mem_dedup]

theorem Renaming.onList_of_fixed {m : Renaming} {list : List Symbol}
    (h : ∀ s ∈ list, m.apply s = s) (hnodup : list.Nodup) : m.onList list = list := by
  have hmap : list.map m.apply = list := by
    rw [List.map_congr_left h, List.map_id']
  rw [onList_eq_map, hmap]
  rwa [hmap]

def resolution (p : Program) (taken : Nat) (m : Renaming) (block : Block) : Program :=
  let q := { p with inputs := p.inputs.drop taken }.rename m
  { q with graph := q.graph.prependEntry.setBlock q.graph.size block }

namespace Resolved

variable {p : Program} {bindings : List Binding} {g g' : Supply} {m : Renaming} {block : Block}

theorem apply_cases (h : Resolved p.inputs bindings g g' m block) (s : Symbol) :
    s ∈ p.inputs.take bindings.length ∧
        m.apply s = { s with id := (m.apply s).id, role := Handle.resolvedRole s } ∨
      s ∉ p.inputs.take bindings.length ∧ m.apply s = s := by
  have hkeys : s ∈ m.map Prod.fst ↔ s ∈ p.inputs.take bindings.length := by
    rw [h.keys, List.mem_reverse]
  rcases m.apply_cases s with hkey | ⟨hsame, hnot⟩
  · exact .inl ⟨hkeys.mp (List.mem_map.mpr ⟨_, hkey, rfl⟩), h.values _ hkey⟩
  · exact .inr ⟨mt hkeys.mpr hnot, hsame⟩

theorem apply_of_not_isLocal (h : Resolved p.inputs bindings g g' m block) (hp : p.Valid)
    {s : Symbol} (hlocal : s.isLocal = false) : m.apply s = s := by
  rcases h.apply_cases s with ⟨hs, _⟩ | ⟨_, hsame⟩
  · have hinput : s.isLocal = true :=
      hp.orderly.inputs.isLocal (by decide) (List.mem_of_mem_take hs)
    rw [hinput] at hlocal
    cases hlocal
  · exact hsame

theorem apply_of_mem_drop (h : Resolved p.inputs bindings g g' m block) (hp : p.Valid)
    {s : Symbol} (hs : s ∈ p.inputs.drop bindings.length) : m.apply s = s := by
  rcases h.apply_cases s with ⟨htaken, _⟩ | ⟨_, hsame⟩
  · have hnodup := hp.orderly.inputs.nodup
    rw [← List.take_append_drop bindings.length p.inputs, List.nodup_append] at hnodup
    exact absurd rfl (hnodup.2.2 s htaken s hs)
  · exact hsame

theorem relabels (h : Resolved p.inputs bindings g g' m block) (hp : p.Valid)
    (habove : g.Above p.symbols) : Relabels p.symbols m.apply where
  fixed := fun _ _ hlocal => h.apply_of_not_isLocal hp hlocal
  stays := by
    intro s _ hlocal
    rcases h.apply_cases s with ⟨_, hnew⟩ | ⟨_, hsame⟩
    · rw [hnew, Symbol.isLocal, Handle.resolvedRole]
      split <;> rfl
    · rwa [hsame]
  size := by
    intro s _
    rcases h.apply_cases s with ⟨_, hnew⟩ | ⟨_, hsame⟩
    · rw [hnew]
    · rw [hsame]
  solid := fun s hs => h.draws.solid habove hs

theorem inputs_resolution (h : Resolved p.inputs bindings g g' m block) (hp : p.Valid) :
    (resolution p bindings.length m block).inputs = p.inputs.drop bindings.length :=
  Renaming.onList_of_fixed (fun _ hs => h.apply_of_mem_drop hp hs)
    (hp.orderly.inputs.nodup.sublist (List.drop_sublist _ _))

theorem nodup_outputs (h : Resolved p.inputs bindings g g' m block) (hp : p.Valid)
    (habove : g.Above p.symbols) : (p.outputs.map m.apply).Nodup := by
  have hout : ∀ s ∈ p.outputs, s ∈ p.symbols := fun s hs => Interface.mem_symbols.mpr (by simp [hs])
  apply nodup_map hp.orderly.outputs.nodup
  intro s hs t ht
  exact h.draws.injective habove s (hout s hs) t (hout t ht)

theorem outputs_resolution (h : Resolved p.inputs bindings g g' m block) (hp : p.Valid)
    (habove : g.Above p.symbols) :
    (resolution p bindings.length m block).outputs = p.outputs.map m.apply :=
  Renaming.onList_eq_map (h.nodup_outputs hp habove)

/-- A bound input that is an output too becomes an output only. -/
theorem role_of_output (h : Resolved p.inputs bindings g g' m block) (hp : p.Valid) {s : Symbol}
    (hs : s ∈ p.outputs) :
    s ∈ p.inputs.take bindings.length ∧ (m.apply s).role = .output ∨
      s ∉ p.inputs.take bindings.length ∧ m.apply s = s := by
  rcases h.apply_cases s with ⟨htaken, hnew⟩ | hsame
  · refine .inl ⟨htaken, ?_⟩
    have hin := hp.orderly.inputs.role s (List.mem_of_mem_take htaken)
    have hout := hp.orderly.outputs.role s hs
    have hinout : s.isInOut = true := by
      cases hrole : s.role <;> simp_all [Symbol.isInOut]
    rw [hnew, Handle.resolvedRole, if_pos hinout]
  · exact .inr hsame

theorem collectable (h : Resolved p.inputs bindings g g' m block) (hp : p.Valid)
    (habove : g.Above p.symbols) :
    (resolution p bindings.length m block).toInterface.Collectable := by
  have horderly := hp.orderly
  have hshared : ∀ {roles : List Role} {list : List Symbol}, RoleList roles list →
      (∀ r ∈ roles, r.isLocal = false) →
        ∀ t ∈ m.onList list, t.role ∈ roles ∧ t.isHole = false := by
    intro roles list hlist hroles t ht
    obtain ⟨s, hs, rfl⟩ := Renaming.mem_onList.mp ht
    rw [h.apply_of_not_isLocal hp (hlist.isLocal hroles hs)]
    exact ⟨hlist.role s hs, hlist.solid s hs⟩
  refine ⟨?_, ?_, hshared horderly.constants (by decide), hshared horderly.uniforms (by decide),
    hshared horderly.textures (by decide), ?_, ?_⟩
  · rw [h.inputs_resolution hp]
    exact ⟨horderly.inputs.nodup.sublist (List.drop_sublist _ _),
      fun s hs => horderly.inputs.role s (List.mem_of_mem_drop hs),
      fun s hs => horderly.inputs.solid s (List.mem_of_mem_drop hs)⟩
  · rw [h.outputs_resolution hp habove]
    refine ⟨h.nodup_outputs hp habove, ?_, ?_⟩
    · intro t ht
      obtain ⟨s, hs, rfl⟩ := List.mem_map.mp ht
      rcases h.role_of_output hp hs with ⟨_, hrole⟩ | ⟨_, hsame⟩
      · simp [hrole]
      · rw [hsame]
        exact horderly.outputs.role s hs
    · intro t ht
      obtain ⟨s, hs, rfl⟩ := List.mem_map.mp ht
      exact h.draws.solid habove (Interface.mem_symbols.mpr (by simp [hs]))
        (horderly.outputs.solid s hs)
  · rw [h.inputs_resolution hp, h.outputs_resolution hp habove]
    intro s hs hinout
    exact List.mem_map.mpr ⟨s, horderly.inout_output s (List.mem_of_mem_drop hs) hinout,
      h.apply_of_mem_drop hp hs⟩
  · rw [h.inputs_resolution hp, h.outputs_resolution hp habove]
    intro t ht hinout
    obtain ⟨s, hs, rfl⟩ := List.mem_map.mp ht
    rcases h.role_of_output hp hs with ⟨_, hrole⟩ | ⟨hnot, hsame⟩
    · simp [Symbol.isInOut, hrole] at hinout
    · rw [hsame] at hinout ⊢
      have hin := horderly.inout_input s hs hinout
      rw [← List.take_append_drop bindings.length p.inputs, List.mem_append] at hin
      exact hin.resolve_left hnot

theorem solid_new (h : Resolved p.inputs bindings g g' m block)
    (habove : g.Above p.symbols) {q : Symbol × Symbol} (hq : q ∈ m) : q.2.isHole = false := by
  have hkey : q.1 ∈ (p.inputs.take bindings.length).reverse := h.keys ▸ List.mem_map_of_mem hq
  have hin := List.mem_of_mem_take (List.mem_reverse.mp hkey)
  have hold := habove q.1 (Interface.mem_symbols.mpr (.inl hin))
  have hnew := (h.draws.fresh q hq).1
  simp only [Symbol.isHole, decide_eq_false_iff_not]
  omega

theorem isLocal_new (h : Resolved p.inputs bindings g g' m block) {q : Symbol × Symbol}
    (hq : q ∈ m) : q.2.isLocal = true := by
  rw [h.values q hq, Symbol.isLocal, Handle.resolvedRole]
  split <;> rfl

theorem exists_of_mem_block (h : Resolved p.inputs bindings g g' m block) {i : Instruction}
    (hi : i ∈ block) : ∃ b ∈ bindings, ∃ q ∈ m, b.source.size = q.2.size ∧
      i = .copy q.2 b.source := by
  obtain ⟨k, hk⟩ := List.getElem?_of_mem hi
  have hlen := h.copies.length_eq
  obtain ⟨hlt, rfl⟩ := List.getElem?_eq_some_iff.mp hk
  exact ⟨bindings[k], List.getElem_mem _, h.copies.get (by omega) hlt⟩

theorem fits (h : Resolved p.inputs bindings g g' m block) (hp : p.Valid)
    (habove : g.Above p.symbols) (hproper : ∀ b ∈ bindings, b.Proper) :
    (resolution p bindings.length m block).graph.Sound ∧
      (resolution p bindings.length m block).graph.Fits
        (p.symbols.map m.apply ++ (m.map Prod.snd ++ bindings.map Binding.source)) := by
  have hrenders := renders_onGraph hp.fits m
  have hsound : (m.onGraph p.graph).Sound := hp.sound.of_sameShape hrenders.shape
  have hsequel := Graph.sequel_prologue hsound block
  have hsingle := Graph.sound_single block
  have hfits : (m.onGraph p.graph).Fits
      (p.symbols.map m.apply ++ (m.map Prod.snd ++ bindings.map Binding.source)) :=
    hrenders.fits (h.relabels hp habove).conforms
      (fun s hs => List.mem_append.mpr (.inl (List.mem_map_of_mem hs))) hp.fits
  refine ⟨hsequel.sound hsingle hsound,
    hsequel.fits hsingle hsound (Graph.fits_single ?_) hfits⟩
  intro i hi
  obtain ⟨b, hb, q, hq, hsize, rfl⟩ := h.exists_of_mem_block hi
  refine Machine.fits_copy (h.solid_new habove hq) (hproper b hb).1 hsize ⟨?_, h.isLocal_new hq⟩ ?_
  · exact List.mem_append.mpr (.inr (List.mem_append.mpr (.inl (List.mem_map_of_mem hq))))
  · exact List.mem_append.mpr (.inr (List.mem_append.mpr (.inr (List.mem_map_of_mem hb))))

theorem valid (h : Resolved p.inputs bindings g g' m block) (hp : p.Valid)
    (habove : g.Above p.symbols) (hproper : ∀ b ∈ bindings, b.Proper) :
    (resolution p bindings.length m block).collect.Valid := by
  obtain ⟨hsound, hfits⟩ := h.fits hp habove hproper
  exact Program.valid_collect (h.collectable hp habove) hsound hfits

end Resolved

theorem Handle.Holds.yields_resolve {g : Supply} {h : Handle} {p : Program}
    (hp : h.Holds Binding.Proper g p) (huniform : ∀ b ∈ h.bindings, b.kind = .uniform) :
    Yields h.resolve g (.ok p.copied) g ∧ h.bindings = [] ∨
      ∃ m block g', Resolved p.copied.inputs h.bindings g g' m block ∧
        Yields h.resolve g (.ok (resolution p.copied h.bindings.length m block).collect) g' := by
  have hvalid : p.copied.Valid := (Program.copies_copied hp.valid).valid hp.valid
  have hinputs : ∀ s ∈ p.inputs, s ∈ p.symbols := fun s hs => Interface.mem_symbols.mpr (.inl hs)
  unfold resolve
  rw [hp.sketch]
  by_cases hnone : h.bindings.isEmpty = true
  · refine .inl ⟨(yields_bind Fresh.yields_copyOf).mpr ?_, List.isEmpty_iff.mp hnone⟩
    rw [if_pos hnone]
    exact yields_pure.mpr ⟨rfl, rfl⟩
  · have hfed : Fed h.bindings p.copied.inputs := hp.fed
    obtain ⟨m, block, g', hyields, hresolved⟩ := yields_resolveBindings hfed hp.all huniform
      (fun s hs => hp.above s (hinputs s hs)) hvalid.orderly.inputs.solid
    refine .inr ⟨m, block, g', hresolved, (yields_bind Fresh.yields_copyOf).mpr ?_⟩
    rw [if_neg hnone]
    exact (yields_bind hyields).mpr (yields_pure.mpr ⟨rfl, rfl⟩)

theorem Handle.Holds.exists_resolve {g : Supply} {h : Handle} {p : Program}
    (hp : h.Holds Binding.Proper g p) (huniform : ∀ b ∈ h.bindings, b.kind = .uniform) :
    ∃ q g', Yields h.resolve g (.ok q) g' ∧ q.Valid := by
  have hvalid : p.copied.Valid := (Program.copies_copied hp.valid).valid hp.valid
  rcases hp.yields_resolve huniform with ⟨hyields, _⟩ | ⟨m, block, g', hresolved, hyields⟩
  · exact ⟨p.copied, g, hyields, hvalid⟩
  · exact ⟨_, g', hyields, hresolved.valid hvalid hp.above hp.all⟩

end KernelAlgebra
