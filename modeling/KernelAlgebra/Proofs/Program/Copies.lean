import KernelAlgebra.Proofs.Machine.Sequence
import KernelAlgebra.Proofs.Machine.Start
import KernelAlgebra.Proofs.Program.Renaming
import KernelAlgebra.Proofs.Symbol

/-!
# Copies of programs

A copy of a program, with the same or with fresh local symbols, is as valid as the original and
computes the same.
-/

namespace KernelAlgebra

open Machine

/-! ## Renamed graphs -/

theorem Graph.sameShape_map {g : Graph} {onNode : Node → Node}
    (hsuccessors : ∀ n, (onNode n).successors = n.successors)
    (hfollower : ∀ n, (onNode n).follower = n.follower) :
    SameShape g { g with nodes := g.nodes.map onNode } where
  size := by simp [size]
  entry := rfl
  exit := rfl
  node := by
    intro id n hn
    refine ⟨onNode n, ?_, hsuccessors n, hfollower n⟩
    change (g.nodes.map onNode)[id]? = _
    rw [List.getElem?_map, show g.nodes[id]? = some n from hn]
    rfl

theorem Graph.node?_map {g : Graph} {onNode : Node → Node} {id : Nat} {n : Node}
    (h : g.node? id = some n) :
    ({ g with nodes := g.nodes.map onNode } : Graph).node? id = some (onNode n) := by
  change (g.nodes.map onNode)[id]? = _
  rw [List.getElem?_map, show g.nodes[id]? = some n from h]
  rfl

theorem image_copied {v : View} (h : v.isAbsent = false → v.selector ≠ some []) :
    Image (fun s => s) v v.copied := by
  constructor
  · intro hv
    unfold View.copied
    split <;> exact hv
  · intro hv
    have hsel := h hv
    unfold View.copied
    split
    · rename_i hempty
      exact absurd hempty hsel
    · rfl

theorem renders_copied {g : Graph} {declared : List Symbol} (hfits : g.Fits declared) :
    Renders (fun s => s) g { g with nodes := g.nodes.map Program.copiedNode } where
  shape := by
    apply Graph.sameShape_map
    · intro n
      simp [Program.copiedNode, Node.successors]
    · exact fun _ => rfl
  node := by
    intro id n hreach hn
    refine ⟨_, Graph.node?_map hn, ⟨_, rfl, ?_⟩, ⟨_, rfl, ?_⟩, rfl⟩
    · intro i hi
      have hcheck := ((hfits id n hreach hn).block i hi).checked
      refine ⟨rfl, image_copied fun hdst => ?_, _, rfl, fun v hv => image_copied fun _ => ?_⟩
      · exact (View.check_eq_ok_iff.mp (Instruction.check_dst_of_check hcheck hdst)).1
      · exact (View.check_eq_ok_iff.mp (Instruction.check_src_of_check hcheck hv).2).1
    · intro b hb
      have hcheck := ((hfits id n hreach hn).branches b hb).checked
      exact ⟨image_copied fun _ => (View.check_eq_ok_iff.mp hcheck).1, rfl⟩

theorem renders_onGraph {g : Graph} {declared : List Symbol} (hfits : g.Fits declared)
    (m : Renaming) : Renders m.apply g (m.onGraph g) where
  shape := by
    apply Graph.sameShape_map
    · intro n
      simp [Renaming.onNode, Renaming.onBranch, Node.successors]
    · exact fun _ => rfl
  node := by
    intro id n hreach hn
    have himage : ∀ v : View, Image m.apply v (m.onOperand v) := by
      intro v
      unfold Renaming.onOperand
      constructor
      · intro hv
        simp [hv]
      · intro hv
        simp [hv, Renaming.onView]
    refine ⟨_, Graph.node?_map hn, ⟨_, rfl, fun i _ => ⟨rfl, himage _, _, rfl, fun v _ => himage v⟩⟩,
      ⟨_, rfl, ?_⟩, rfl⟩
    intro b hb
    have hpresent := ((hfits id n hreach hn).branches b hb).present
    exact ⟨⟨fun habsent => absurd habsent (by simp [hpresent]), fun _ => rfl⟩, rfl⟩

/-! ## Lists -/

theorem Renaming.onList_eq_map {m : Renaming} {list : List Symbol}
    (h : (list.map m.apply).Nodup) : m.onList list = list.map m.apply := by
  unfold onList
  split
  · rename_i hempty
    rw [List.isEmpty_iff.mp hempty]
    exact (List.map_id list).symm
  · exact dedup_of_nodup h

theorem Renaming.apply_cases (m : Renaming) (s : Symbol) :
    (s, m.apply s) ∈ m ∨ m.apply s = s ∧ s ∉ m.map Prod.fst := by
  induction m with
  | nil => simp [apply]
  | cons q rest ih =>
      rw [show q :: rest = (q.1, q.2) :: rest from rfl, apply_cons]
      by_cases h : s = q.1
      · simp [h]
      · rcases ih with ih | ih
        · simp [h, ih]
        · right
          rw [if_neg h, List.map_cons, List.mem_cons, not_or]
          exact ⟨ih.1, h, ih.2⟩

/-! ## Renamings to fresh symbols -/

/-- Every new symbol was drawn on the way from one supply to another, for one old symbol. -/
structure Renaming.Draws (m : Renaming) (g g' : Supply) : Prop where
  fresh : ∀ q ∈ m, g.next ≤ q.2.id ∧ q.2.id < g'.next
  apart : ∀ q ∈ m, ∀ q' ∈ m, q.2 = q'.2 → q.1 = q'.1

namespace Renaming.Draws

variable {m : Renaming} {g g' : Supply} {list : List Symbol}

theorem injective (h : m.Draws g g') (habove : g.Above list) :
    ∀ s ∈ list, ∀ t ∈ list, m.apply s = m.apply t → s = t := by
  intro s hs t ht heq
  have hs' := habove s hs
  have ht' := habove t ht
  rcases m.apply_cases s with hkey | ⟨hsame, _⟩ <;>
    rcases m.apply_cases t with hkey' | ⟨hsame', _⟩
  · exact h.apart _ hkey _ hkey' heq
  · have hnew := (h.fresh _ hkey).1
    simp only [heq, hsame'] at hnew
    omega
  · have hnew := (h.fresh _ hkey').1
    simp only [← heq, hsame] at hnew
    omega
  · rwa [hsame, hsame'] at heq

theorem above (h : m.Draws g g') (habove : g.Above list) (hle : g.next ≤ g'.next) :
    g'.Above (list.map m.apply) := by
  intro t ht
  obtain ⟨s, hs, rfl⟩ := List.mem_map.mp ht
  have hs' := habove s hs
  rcases m.apply_cases s with hkey | ⟨hsame, _⟩
  · exact (h.fresh _ hkey).2
  · rw [hsame]
    omega

theorem solid (h : m.Draws g g') (habove : g.Above list) {s : Symbol} (hs : s ∈ list)
    (hsolid : s.isHole = false) : (m.apply s).isHole = false := by
  have hs' := habove s hs
  rcases m.apply_cases s with hkey | ⟨hsame, _⟩
  · have hnew := (h.fresh _ hkey).1
    simp only [Symbol.isHole, decide_eq_false_iff_not] at hsolid hnew ⊢
    omega
  · rwa [hsame]

end Renaming.Draws

/-! ## Copies -/

/-- The second program is the first one with its local symbols under other ids and names. -/
structure Copies (ρ : Symbol → Symbol) (p q : Program) : Prop where
  graph : Renders ρ p.graph q.graph
  inputs : q.inputs = p.inputs.map ρ
  outputs : q.outputs = p.outputs.map ρ
  temps : q.temps = p.temps.map ρ
  constants : q.constants = p.constants
  uniforms : q.uniforms = p.uniforms
  textures : q.textures = p.textures
  fixed : ∀ s ∈ p.symbols, s.isLocal = false → ρ s = s
  twin : ∀ s ∈ p.symbols, ρ s = { s with id := (ρ s).id, name := (ρ s).name }
  solid : ∀ s ∈ p.symbols, s.isHole = false → (ρ s).isHole = false
  injective : ∀ s ∈ p.symbols, ∀ t ∈ p.symbols, ρ s = ρ t → s = t

namespace Copies

variable {ρ : Symbol → Symbol} {p q : Program}

theorem role_eq (h : Copies ρ p q) {s : Symbol} (hs : s ∈ p.symbols) : (ρ s).role = s.role := by
  rw [h.twin s hs]

theorem size_eq (h : Copies ρ p q) {s : Symbol} (hs : s ∈ p.symbols) : (ρ s).size = s.size := by
  rw [h.twin s hs]

theorem startValue_eq (h : Copies ρ p q) {s : Symbol} (hs : s ∈ p.symbols) (u : Overrides) :
    startValue u (ρ s) = startValue u s := by
  cases hlocal : s.isLocal with
  | false => rw [h.fixed s hs hlocal]
  | true =>
      have hstays : (ρ s).isLocal = true := by
        rw [Symbol.isLocal, h.role_eq hs]
        exact hlocal
      rw [startValue_of_isLocal hlocal, startValue_of_isLocal hstays, h.twin s hs]

theorem relabels (h : Copies ρ p q) : Relabels p.symbols ρ where
  fixed := h.fixed
  stays := by
    intro s hs hlocal
    rw [Symbol.isLocal, h.role_eq hs]
    exact hlocal
  size := fun s hs => h.size_eq hs
  solid := h.solid

theorem mem_symbols (h : Copies ρ p q) (hvalid : p.Valid) {s : Symbol} (hs : s ∈ p.symbols) :
    ρ s ∈ q.symbols := by
  have hfixed : s ∈ p.constants ∨ s ∈ p.uniforms ∨ s ∈ p.textures → ρ s = s :=
    fun hshared => h.fixed s hs (hvalid.orderly.isLocal_of_mem_shared hshared)
  rw [Interface.mem_symbols, h.inputs, h.outputs, h.temps, h.constants, h.uniforms, h.textures]
  rcases Interface.mem_symbols.mp hs with hs | hs | hs | hs
  · exact .inl (List.mem_map.mpr ⟨s, hs, rfl⟩)
  · exact .inr (.inl (List.mem_map.mpr ⟨s, hs, rfl⟩))
  · exact .inr (.inr (.inl (List.mem_map.mpr ⟨s, hs, rfl⟩)))
  · rw [hfixed hs]
    exact .inr (.inr (.inr hs))

private theorem roleList_map (h : Copies ρ p q) {roles : List Role} {list : List Symbol}
    (hsub : ∀ s ∈ list, s ∈ p.symbols) (hlist : RoleList roles list) :
    RoleList roles (list.map ρ) where
  nodup := nodup_map hlist.nodup fun s hs t ht => h.injective s (hsub s hs) t (hsub t ht)
  role := by
    intro t ht
    obtain ⟨s, hs, rfl⟩ := List.mem_map.mp ht
    rw [h.role_eq (hsub s hs)]
    exact hlist.role s hs
  solid := by
    intro t ht
    obtain ⟨s, hs, rfl⟩ := List.mem_map.mp ht
    exact h.solid s (hsub s hs) (hlist.solid s hs)

private theorem mem_of_mem_map (h : Copies ρ p q) {list : List Symbol}
    (hsub : ∀ s ∈ list, s ∈ p.symbols) {s : Symbol} (hs : s ∈ p.symbols)
    (hmem : ρ s ∈ list.map ρ) : s ∈ list := by
  obtain ⟨t, ht, heq⟩ := List.mem_map.mp hmem
  exact h.injective t (hsub t ht) s hs heq ▸ ht

theorem orderly (h : Copies ρ p q) (hvalid : p.Valid) : q.toInterface.Orderly := by
  have hin : ∀ s ∈ p.inputs, s ∈ p.symbols := fun s hs => Interface.mem_symbols.mpr (.inl hs)
  have hout : ∀ s ∈ p.outputs, s ∈ p.symbols :=
    fun s hs => Interface.mem_symbols.mpr (.inr (.inl hs))
  have htemp : ∀ s ∈ p.temps, s ∈ p.symbols :=
    fun s hs => Interface.mem_symbols.mpr (.inr (.inr (.inl hs)))
  have horderly := hvalid.orderly
  refine ⟨?_, ?_, ?_, ?_, ?_, ?_, ?_, ?_, ?_⟩
  · rw [h.inputs]
    exact h.roleList_map hin horderly.inputs
  · rw [h.outputs]
    exact h.roleList_map hout horderly.outputs
  · rw [h.temps]
    exact h.roleList_map htemp horderly.temps
  · rw [h.constants]
    exact horderly.constants
  · rw [h.uniforms]
    exact horderly.uniforms
  · rw [h.textures]
    exact horderly.textures
  · rw [h.inputs, h.outputs]
    intro t ht hinout
    obtain ⟨s, hs, rfl⟩ := List.mem_map.mp ht
    rw [Symbol.isInOut, h.role_eq (hin s hs)] at hinout
    exact List.mem_map.mpr ⟨s, horderly.inout_output s hs hinout, rfl⟩
  · rw [h.inputs, h.outputs]
    intro t ht hinout
    obtain ⟨s, hs, rfl⟩ := List.mem_map.mp ht
    rw [Symbol.isInOut, h.role_eq (hout s hs)] at hinout
    exact List.mem_map.mpr ⟨s, horderly.inout_input s hs hinout, rfl⟩
  · rw [h.inputs, h.outputs, h.temps]
    intro t ht
    obtain ⟨s, hs, rfl⟩ := List.mem_map.mp ht
    obtain ⟨hnotIn, hnotOut⟩ := horderly.temps_apart s hs
    exact ⟨fun hmem => hnotIn (h.mem_of_mem_map hin (htemp s hs) hmem),
      fun hmem => hnotOut (h.mem_of_mem_map hout (htemp s hs) hmem)⟩

theorem valid (h : Copies ρ p q) (hvalid : p.Valid) : q.Valid where
  orderly := h.orderly hvalid
  sound := hvalid.sound.of_sameShape h.graph.shape
  fits := h.graph.fits h.relabels.conforms (fun _ hs => h.mem_symbols hvalid hs) hvalid.fits

/-! ## Runs of copies -/

theorem zip_map_left_mem {inputs : List Symbol} {values : List (List Float)} {ρ : Symbol → Symbol}
    {t : Symbol} {xs : List Float} :
    (t, xs) ∈ (inputs.map ρ).zip values ↔ ∃ s, (s, xs) ∈ inputs.zip values ∧ ρ s = t := by
  rw [List.zip_map_left, List.mem_map]
  constructor
  · rintro ⟨⟨s, ys⟩, hmem, heq⟩
    cases heq
    exact ⟨s, hmem, rfl⟩
  · rintro ⟨s, hmem, rfl⟩
    exact ⟨(s, xs), hmem, rfl⟩

theorem agree_start (h : Copies ρ p q) (hvalid : p.Valid) {values : List (List Float)}
    {u : Overrides} {st : Store} (hstart : start p.toInterface values = .ok st) :
    ∃ st', start q.toInterface values = .ok st' ∧ Agree u (· ∈ p.symbols) ρ st st' := by
  have hin : ∀ s ∈ p.inputs, s ∈ p.symbols := fun s hs => Interface.mem_symbols.mpr (.inl hs)
  obtain ⟨hlen, hsizes⟩ := start_eq_ok_iff.mp ⟨st, hstart⟩
  have hstart' : ∃ st', start q.toInterface values = .ok st' := by
    rw [start_eq_ok_iff, h.inputs]
    refine ⟨by simpa using hlen, ?_⟩
    intro t xs ht
    obtain ⟨s, hmem, rfl⟩ := zip_map_left_mem.mp ht
    have hs := hin s (List.of_mem_zip hmem).1
    obtain ⟨hsolid, hsize⟩ := hsizes s xs hmem
    exact ⟨h.solid s hs hsolid, by rw [h.size_eq hs, hsize]⟩
  obtain ⟨st', hst'⟩ := hstart'
  refine ⟨st', hst', ?_⟩
  intro s hs
  by_cases hinput : s ∈ p.inputs
  · obtain ⟨xs, hmem⟩ := exists_value_of_mem hstart hinput
    rw [get_start_of_mem hvalid.orderly.inputs.nodup hstart hmem]
    refine get_start_of_mem (h.orderly hvalid).inputs.nodup hst' ?_
    rw [h.inputs]
    exact zip_map_left_mem.mpr ⟨s, hmem, rfl⟩
  · have hinput' : ρ s ∉ q.inputs := by
      rw [h.inputs]
      exact fun hmem => hinput (h.mem_of_mem_map hin hs hmem)
    rw [get_start_of_not_mem hstart hinput, get_start_of_not_mem hst' hinput',
      h.startValue_eq hs]

theorem completes (h : Copies ρ p q) (hvalid : p.Valid) {values outputs : List (List Float)}
    {u : Overrides} {killed : Bool}
    (hrun : ∃ steps, Completes p values u ⟨outputs, killed, steps⟩) :
    ∃ steps, Completes q values u ⟨outputs, killed, steps⟩ := by
  obtain ⟨st, fin, hstart, hcomputes, _, houtputs⟩ := completes_iff.mp hrun
  obtain ⟨st', hstart', hagree⟩ := h.agree_start (u := u) hvalid hstart
  have hembeds := h.graph.embeds hvalid.sound hvalid.fits
  obtain ⟨fin', hcomputes', hagree', _⟩ := hembeds.computes (h.relabels.faithful h.injective)
    hvalid.sound h.graph.shape.entry h.graph.shape.exit hagree hcomputes
  refine completes_iff.mpr ⟨st', fin', hstart', hcomputes', ?_, ?_⟩
  · intro s hs
    simp [(h.orderly hvalid).outputs.solid s hs]
  · rw [houtputs, h.outputs, List.map_map]
    apply List.map_congr_left
    intro s hs
    exact (hagree' s (Interface.mem_symbols.mpr (.inr (.inl hs)))).symm

end Copies

/-! ## The two ways to copy -/

namespace Program

variable {p : Program}

theorem copies_copied (hvalid : p.Valid) : Copies (fun s => s) p p.copied where
  graph := renders_copied hvalid.fits
  inputs := by simp [copied]
  outputs := by simp [copied]
  temps := by simp [copied]
  constants := rfl
  uniforms := rfl
  textures := rfl
  fixed := fun _ _ _ => rfl
  twin := fun _ _ => rfl
  solid := fun _ _ h => h
  injective := fun _ _ _ _ h => h

theorem copies_rename (hvalid : p.Valid) {m : Renaming} {g g' : Supply}
    (habove : g.Above p.symbols) (hdraws : m.Draws g g')
    (hkeys : ∀ q ∈ m, q.1.isLocal = true ∧ q.2 = { q.1 with id := q.2.id, name := q.2.name }) :
    Copies m.apply p (p.copied.rename m) := by
  have hinj := hdraws.injective habove
  have hfixed : ∀ s ∈ p.symbols, s.isLocal = false → m.apply s = s := by
    intro s _ hlocal
    rcases m.apply_cases s with hkey | ⟨hsame, _⟩
    · simp [(hkeys _ hkey).1] at hlocal
    · exact hsame
  have hlist : ∀ list, list.Nodup → (∀ s ∈ list, s ∈ p.symbols) →
      m.onList list = list.map m.apply := by
    intro list hnodup hsub
    exact Renaming.onList_eq_map
      (nodup_map hnodup fun s hs t ht => hinj s (hsub s hs) t (hsub t ht))
  have hkept : ∀ list, list.Nodup → (∀ s ∈ list, s ∈ p.symbols ∧ s.isLocal = false) →
      m.onList list = list := by
    intro list hnodup hsub
    rw [hlist list hnodup fun s hs => (hsub s hs).1]
    have hmap : list.map m.apply = list.map fun s => s :=
      List.map_congr_left fun s hs => hfixed s (hsub s hs).1 (hsub s hs).2
    rw [hmap, List.map_id']
  have horderly := hvalid.orderly
  refine ⟨?_, ?_, ?_, ?_, ?_, ?_, ?_, hfixed, ?_, fun s hs => hdraws.solid habove hs, hinj⟩
  · have hid : Relabels p.symbols fun s => s := (copies_copied hvalid).relabels
    have hfits := (copies_copied hvalid).valid hvalid
    exact (renders_copied hvalid.fits).trans (renders_onGraph hfits.fits _) hid hvalid.fits
  · exact hlist _ horderly.inputs.nodup fun s hs => Interface.mem_symbols.mpr (.inl hs)
  · exact hlist _ horderly.outputs.nodup fun s hs => Interface.mem_symbols.mpr (.inr (.inl hs))
  · exact hlist _ horderly.temps.nodup
      fun s hs => Interface.mem_symbols.mpr (.inr (.inr (.inl hs)))
  · exact hkept _ horderly.constants.nodup fun s hs =>
      ⟨Interface.mem_symbols.mpr (.inr (.inr (.inr (.inl hs)))),
        horderly.isLocal_of_mem_shared (.inl hs)⟩
  · exact hkept _ horderly.uniforms.nodup fun s hs =>
      ⟨Interface.mem_symbols.mpr (.inr (.inr (.inr (.inr (.inl hs))))),
        horderly.isLocal_of_mem_shared (.inr (.inl hs))⟩
  · exact hkept _ horderly.textures.nodup fun s hs =>
      ⟨Interface.mem_symbols.mpr (.inr (.inr (.inr (.inr (.inr hs))))),
        horderly.isLocal_of_mem_shared (.inr (.inr hs))⟩
  · intro s _
    rcases m.apply_cases s with hkey | ⟨hsame, _⟩
    · exact (hkeys _ hkey).2
    · rw [hsame]

def freshening (p : Program) (g : Supply) : Renaming :=
  p.locals.zip (g.copyAll Symbol.role p.locals).1

theorem mem_freshening {g : Supply} {s : Symbol} (hs : s ∈ p.locals) :
    (s, (p.freshening g).apply s) ∈ p.freshening g := by
  have hkeys : (p.freshening g).map Prod.fst = p.locals :=
    List.map_fst_zip (Nat.le_of_eq (Supply.forall₂_copyAll g).length_eq)
  rcases (p.freshening g).apply_cases s with hkey | ⟨_, hnot⟩
  · exact hkey
  · exact absurd (hkeys ▸ hs) hnot

theorem draws_freshening {g : Supply} :
    (p.freshening g).Draws g (g.copyAll Symbol.role p.locals).2 where
  fresh := fun _ hq => Supply.fresh_of_mem_copyAll (List.of_mem_zip hq).2
  apart := by
    intro q hq q' hq' heq
    have hvalues : ((p.freshening g).map Prod.snd).Nodup := by
      rw [freshening, List.map_snd_zip (Nat.le_of_eq (Supply.forall₂_copyAll g).length_eq.symm)]
      exact Supply.nodup_copyAll g
    rw [List.inj_on_of_nodup_map hvalues hq hq' heq]

theorem name_freshening {g : Supply} (s : Symbol) : ((p.freshening g).apply s).name = s.name := by
  rcases (p.freshening g).apply_cases s with hkey | ⟨hsame, _⟩
  · rw [(List.forall₂_iff_zip.mp (Supply.forall₂_copyAll g)).2 hkey]
  · rw [hsame]

theorem copies_freshening (hvalid : p.Valid) {g : Supply} (habove : g.Above p.symbols) :
    Copies (p.freshening g).apply p (p.withLocals (g.copyAll Symbol.role p.locals).1) := by
  refine copies_rename hvalid habove draws_freshening ?_
  intro q hq
  refine ⟨hvalid.orderly.isLocal_of_mem_locals (List.of_mem_zip hq).1, ?_⟩
  rw [(List.forall₂_iff_zip.mp (Supply.forall₂_copyAll g)).2 hq]

end Program

end KernelAlgebra
