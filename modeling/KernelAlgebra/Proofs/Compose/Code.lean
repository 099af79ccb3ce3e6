import KernelAlgebra.Proofs.Compose.Connection
import KernelAlgebra.Proofs.Machine.Copying

/-!
# The code of a connection

The code of two connected programs runs a block that reads entrances into temporaries, the first
program, the second program, and a block that writes temporaries to the outputs that stand in
for inputs.
-/

namespace KernelAlgebra

open Machine

/-! ## Graphs with a block in front or behind -/

theorem Graph.node?_onGraph {g : Graph} {m : Renaming} {id : Nat} {n' : Node}
    (h : (m.onGraph g).node? id = some n') : ∃ n, g.node? id = some n ∧ n' = m.onNode n := by
  change (g.nodes.map m.onNode)[id]? = some n' at h
  rw [List.getElem?_map, Option.map_eq_some_iff] at h
  obtain ⟨n, hn, rfl⟩ := h
  exact ⟨n, hn, rfl⟩

theorem Graph.size_onGraph (g : Graph) (m : Renaming) : (m.onGraph g).size = g.size := by
  simp [size, Renaming.onGraph]

theorem onNode_relocated (m : Renaming) (f : Nat → Nat) (n : Node) :
    m.onNode (Graph.relocated f n) = Graph.relocated f (m.onNode n) := by
  simp [Renaming.onNode, Graph.relocated, Renaming.onBranch]

theorem Graph.Sequel.onGraph {f₁ f₂ : Nat → Nat} {g₁ g₂ g : Graph}
    (h : Sequel f₁ f₂ g₁ g₂ g) (m : Renaming) :
    Sequel f₁ f₂ (m.onGraph g₁) (m.onGraph g₂) (m.onGraph g) where
  entry := h.entry
  exit := h.exit
  first := by
    intro id n' hn' hexit
    obtain ⟨n, hn, rfl⟩ := node?_onGraph hn'
    rw [← onNode_relocated]
    exact node?_map (h.first id n hn hexit)
  link := by
    intro n' hn'
    obtain ⟨n, hn, rfl⟩ := node?_onGraph hn'
    exact node?_map (h.link n hn)
  second := by
    intro id n' hn'
    obtain ⟨n, hn, rfl⟩ := node?_onGraph hn'
    rw [← onNode_relocated]
    exact node?_map (h.second id n hn)
  cover := by
    intro x hx
    rw [size_onGraph] at hx
    simpa [size_onGraph] using h.cover x hx
  apart := by
    simpa [size_onGraph] using h.apart
  injective := by
    simpa [size_onGraph] using h.injective

variable {g : Graph} {block : Block} {declared : List Symbol} {u : Overrides}

theorem sound_withPrologue (hsound : g.Sound) (block : Block) :
    (Program.withPrologue g block).Sound := by
  unfold Program.withPrologue
  split
  · exact hsound
  · exact (Graph.sequel_prologue hsound block).sound (Graph.sound_single block) hsound

theorem sound_withEpilogue (hsound : g.Sound) (block : Block) :
    (Program.withEpilogue g block).Sound := by
  unfold Program.withEpilogue
  split
  · exact hsound
  · exact (Graph.sequel_epilogue hsound block).sound hsound (Graph.sound_single block)

theorem fits_withPrologue (hsound : g.Sound) (hfits : g.Fits declared)
    (hblock : ∀ i ∈ block, i.Fits declared) : (Program.withPrologue g block).Fits declared := by
  unfold Program.withPrologue
  split
  · exact hfits
  · exact (Graph.sequel_prologue hsound block).fits (Graph.sound_single block) hsound
      (Graph.fits_single hblock) hfits

theorem fits_withEpilogue (hsound : g.Sound) (hfits : g.Fits declared)
    (hblock : ∀ i ∈ block, i.Fits declared) : (Program.withEpilogue g block).Fits declared := by
  unfold Program.withEpilogue
  split
  · exact hfits
  · exact (Graph.sequel_epilogue hsound block).fits hsound (Graph.sound_single block) hfits
      (Graph.fits_single hblock)

theorem eq_of_computes_single_nil {st fin : Store} {killed : Bool}
    (h : Computes (Graph.single []) u st fin killed) : fin = st ∧ killed = false := by
  obtain ⟨k, n, hn, d, hpath, hstop⟩ := h
  obtain rfl := (Graph.node?_single hn).2
  cases hpath with
  | done =>
      cases hstop with
      | exit => exact ⟨rfl, rfl⟩
  | edge _ hexit => exact absurd rfl hexit

theorem computes_withPrologue (hsound : g.Sound) {st mid fin : Store} {killed : Bool}
    (hblock : Computes (Graph.single block) u st mid false)
    (hcode : Computes g u mid fin killed) :
    ∃ fin', Computes (Program.withPrologue g block) u st fin' killed ∧ Alike u fin fin' := by
  unfold Program.withPrologue
  split
  · rename_i hempty
    rw [List.isEmpty_iff.mp hempty] at hblock
    obtain ⟨rfl, _⟩ := eq_of_computes_single_nil hblock
    exact ⟨fin, hcode, fun _ => rfl⟩
  · exact computes_sequel (Graph.sequel_prologue hsound block) (Graph.sound_single block) hsound
      hblock (fun _ => rfl) hcode

theorem computes_withEpilogue (hsound : g.Sound) {st mid mid' fin : Store}
    (hcode : Computes g u st mid false) (hmid : Alike u mid mid')
    (hblock : Computes (Graph.single block) u mid' fin false) :
    ∃ fin', Computes (Program.withEpilogue g block) u st fin' false ∧ Alike u fin fin' := by
  unfold Program.withEpilogue
  split
  · rename_i hempty
    rw [List.isEmpty_iff.mp hempty] at hblock
    obtain ⟨rfl, _⟩ := eq_of_computes_single_nil hblock
    exact ⟨mid, hcode, fun s => (hmid s).symm⟩
  · exact computes_sequel (Graph.sequel_epilogue hsound block) hsound (Graph.sound_single block)
      hcode hmid hblock

/-! ## The blocks around the code -/

namespace Wire

def entrances (ws : List Wire) : List (Symbol × Symbol) :=
  ws.filterMap fun w => w.entrance.map fun e => (w.temp, e)

def leavings (ws : List Wire) : List (Symbol × Symbol) :=
  ws.filterMap fun w => w.leaving.map fun l => (l, w.temp)

theorem prologue_eq (ws : List Wire) : prologue ws = copyBlock (entrances ws) := by
  unfold prologue entrances copyBlock
  rw [List.map_filterMap]
  congr 1
  funext w
  cases w.entrance <;> rfl

theorem epilogue_eq (ws : List Wire) : epilogue ws = copyBlock (leavings ws) := by
  unfold epilogue leavings copyBlock
  rw [List.map_filterMap]
  congr 1
  funext w
  cases w.leaving <;> rfl

theorem mem_entrances {ws : List Wire} {q : Symbol × Symbol} :
    q ∈ entrances ws ↔ ∃ w ∈ ws, w.entrance = some q.2 ∧ w.temp = q.1 := by
  simp only [entrances, List.mem_filterMap, Option.map_eq_some_iff]
  constructor
  · rintro ⟨w, hw, e, he, rfl⟩
    exact ⟨w, hw, he, rfl⟩
  · rintro ⟨w, hw, he, ht⟩
    exact ⟨w, hw, q.2, he, by rw [ht]⟩

theorem mem_leavings {ws : List Wire} {q : Symbol × Symbol} :
    q ∈ leavings ws ↔ ∃ w ∈ ws, w.leaving = some q.1 ∧ w.temp = q.2 := by
  simp only [leavings, List.mem_filterMap, Option.map_eq_some_iff]
  constructor
  · rintro ⟨w, hw, l, hl, rfl⟩
    exact ⟨w, hw, hl, rfl⟩
  · rintro ⟨w, hw, hl, ht⟩
    exact ⟨w, hw, q.1, hl, by rw [ht]⟩

theorem not_mem_entrances {ws : List Wire} {s : Symbol} (h : ∀ w ∈ ws, s ∉ w.news) :
    s ∉ (entrances ws).map Prod.fst := by
  intro hmem
  obtain ⟨q, hq, rfl⟩ := List.mem_map.mp hmem
  obtain ⟨w, hw, _, ht⟩ := mem_entrances.mp hq
  exact h w hw (ht ▸ w.temp_mem_news)

theorem not_mem_leavings {ws : List Wire} {s : Symbol} (h : ∀ w ∈ ws, s ∉ w.news) :
    s ∉ (leavings ws).map Prod.fst := by
  intro hmem
  obtain ⟨q, hq, rfl⟩ := List.mem_map.mp hmem
  obtain ⟨w, hw, hl, _⟩ := mem_leavings.mp hq
  exact h w hw (leaving_mem_news hl)

private theorem filterMap_sublist_news {ws : List Wire} {f : Wire → Option Symbol}
    (h : ∀ w ∈ ws, List.Sublist (f w).toList w.news) :
    List.Sublist (ws.filterMap f) (ws.flatMap news) := by
  induction ws with
  | nil => exact List.Sublist.refl []
  | cons w rest ih =>
      have htail := ih fun w' hw' => h w' (by simp [hw'])
      have hhead := h w (by simp)
      have hcons : (w :: rest).filterMap f = (f w).toList ++ rest.filterMap f := by
        cases hf : f w <;> simp [hf]
      rw [hcons, List.flatMap_cons]
      exact hhead.append htail

theorem nodup_entrances {ws : List Wire} (h : (ws.flatMap news).Nodup) :
    ((entrances ws).map Prod.fst).Nodup := by
  rw [entrances, List.map_filterMap]
  refine h.sublist (filterMap_sublist_news ?_)
  intro w _
  cases w.entrance <;> simp [news]

theorem nodup_leavings {ws : List Wire} (h : (ws.flatMap news).Nodup) :
    ((leavings ws).map Prod.fst).Nodup := by
  rw [leavings, List.map_filterMap]
  refine h.sublist (filterMap_sublist_news ?_)
  intro w _
  cases hl : w.leaving <;> simp [news, hl]

end Wire

namespace Connection

variable {a b : Program} {bound : Nat} {ws : List Wire} {g g' : Supply}

theorem entrance_size (h : Connection a b bound ws g g') {w : Wire} (hw : w ∈ ws) {e : Symbol}
    (he : w.entrance = some e) : e.size = w.temp.size := by
  rw [(h.drawn.shaped w hw).entrance e he, h.temp_size hw]

theorem leaving_size (h : Connection a b bound ws g g') {w : Wire} (hw : w ∈ ws) {l : Symbol}
    (hl : w.leaving = some l) : w.temp.size = l.size := by
  rw [(h.drawn.shaped w hw).leaving l hl, h.temp_size hw, h.sizes w hw]

theorem temp_ne_entrance (h : Connection a b bound ws g g') {w w' : Wire} (hw : w ∈ ws)
    (hw' : w' ∈ ws) {e : Symbol} (he : w'.entrance = some e) : w.temp ≠ e := by
  intro heq
  have hrole := congrArg Symbol.role heq
  rw [(h.drawn.shaped w hw).temp, (h.drawn.shaped w' hw').entrance e he] at hrole
  cases hrole

theorem temp_ne_leaving (h : Connection a b bound ws g g') {w w' : Wire} (hw : w ∈ ws)
    (hw' : w' ∈ ws) {l : Symbol} (hl : w'.leaving = some l) : w.temp ≠ l := by
  intro heq
  have hrole := congrArg Symbol.role heq
  rw [(h.drawn.shaped w hw).temp, (h.drawn.shaped w' hw').leaving l hl] at hrole
  cases hrole

theorem independent_entrances (h : Connection a b bound ws g g') :
    Independent (Wire.entrances ws) where
  solid := by
    intro q hq
    obtain ⟨w, hw, he, ht⟩ := Wire.mem_entrances.mp hq
    exact ⟨ht ▸ h.solid_new hw w.temp_mem_news, h.solid_new hw (Wire.entrance_mem_news he)⟩
  sizes := by
    intro q hq
    obtain ⟨w, hw, he, ht⟩ := Wire.mem_entrances.mp hq
    rw [h.entrance_size hw he, ht]
  nodup := Wire.nodup_entrances h.drawn.nodup
  apart := by
    intro q hq q' hq'
    obtain ⟨w, hw, _, ht⟩ := Wire.mem_entrances.mp hq
    obtain ⟨w', hw', he', _⟩ := Wire.mem_entrances.mp hq'
    exact ht ▸ h.temp_ne_entrance hw hw' he'

theorem independent_leavings (h : Connection a b bound ws g g') :
    Independent (Wire.leavings ws) where
  solid := by
    intro q hq
    obtain ⟨w, hw, hl, ht⟩ := Wire.mem_leavings.mp hq
    exact ⟨h.solid_new hw (Wire.leaving_mem_news hl), ht ▸ h.solid_new hw w.temp_mem_news⟩
  sizes := by
    intro q hq
    obtain ⟨w, hw, hl, ht⟩ := Wire.mem_leavings.mp hq
    rw [← h.leaving_size hw hl, ht]
  nodup := Wire.nodup_leavings h.drawn.nodup
  apart := by
    intro q hq q' hq'
    obtain ⟨w, hw, hl, _⟩ := Wire.mem_leavings.mp hq
    obtain ⟨w', hw', _, ht'⟩ := Wire.mem_leavings.mp hq'
    exact fun heq => h.temp_ne_leaving hw' hw hl (ht'.trans heq.symm)

/-! ## Validity -/

def vocabulary (a b : Program) (ws : List Wire) : List Symbol :=
  (a.symbols ++ b.symbols).map (Wire.merging ws).apply ++ ws.flatMap Wire.news

theorem apply_mem_first {s : Symbol} (hs : s ∈ a.symbols) :
    (Wire.merging ws).apply s ∈ vocabulary a b ws :=
  List.mem_append.mpr (.inl (List.mem_map.mpr ⟨s, List.mem_append.mpr (.inl hs), rfl⟩))

theorem apply_mem_second {s : Symbol} (hs : s ∈ b.symbols) :
    (Wire.merging ws).apply s ∈ vocabulary a b ws :=
  List.mem_append.mpr (.inl (List.mem_map.mpr ⟨s, List.mem_append.mpr (.inr hs), rfl⟩))

theorem new_mem {w : Wire} (hw : w ∈ ws) {s : Symbol} (hs : s ∈ w.news) :
    s ∈ vocabulary a b ws :=
  List.mem_append.mpr (.inr (List.mem_flatMap.mpr ⟨w, hw, hs⟩))

def core (a b : Program) (ws : List Wire) : Graph :=
  (Wire.merging ws).onGraph (a.graph.append b.graph)

def code (a b : Program) (ws : List Wire) : Graph :=
  Program.withEpilogue (Program.withPrologue (core a b ws) (Wire.prologue ws)) (Wire.epilogue ws)

theorem renders_first (h : Connection a b bound ws g g') :
    Renders (Wire.merging ws).apply a.graph ((Wire.merging ws).onGraph a.graph) :=
  renders_onGraph h.first.fits _

theorem renders_second (h : Connection a b bound ws g g') :
    Renders (Wire.merging ws).apply b.graph ((Wire.merging ws).onGraph b.graph) :=
  renders_onGraph h.second.fits _

theorem sound_first (h : Connection a b bound ws g g') :
    ((Wire.merging ws).onGraph a.graph).Sound :=
  h.first.sound.of_sameShape h.renders_first.shape

theorem sound_second (h : Connection a b bound ws g g') :
    ((Wire.merging ws).onGraph b.graph).Sound :=
  h.second.sound.of_sameShape h.renders_second.shape

theorem sequel_core (h : Connection a b bound ws g g') :
    Graph.Sequel (fun id => id) (· + a.graph.size) ((Wire.merging ws).onGraph a.graph)
      ((Wire.merging ws).onGraph b.graph) (core a b ws) :=
  (Graph.sequel_append h.first.sound h.second.sound).onGraph _

theorem sound_core (h : Connection a b bound ws g g') : (core a b ws).Sound :=
  h.sequel_core.sound h.sound_first h.sound_second

theorem fits_core (h : Connection a b bound ws g g') :
    (core a b ws).Fits (vocabulary a b ws) :=
  h.sequel_core.fits h.sound_first h.sound_second
    (h.renders_first.fits h.tapped_first.relabels.conforms (fun _ hs => apply_mem_first hs)
      h.first.fits)
    (h.renders_second.fits h.tapped_second.relabels.conforms (fun _ hs => apply_mem_second hs)
      h.second.fits)

theorem fits_prologue (h : Connection a b bound ws g g') :
    ∀ i ∈ Wire.prologue ws, i.Fits (vocabulary a b ws) := by
  rw [Wire.prologue_eq]
  apply fits_copyBlock h.independent_entrances
  · intro q hq
    obtain ⟨w, hw, _, ht⟩ := Wire.mem_entrances.mp hq
    rw [← ht]
    exact ⟨new_mem hw w.temp_mem_news, h.temp_local hw⟩
  · intro q hq
    obtain ⟨w, hw, he, _⟩ := Wire.mem_entrances.mp hq
    exact new_mem hw (Wire.entrance_mem_news he)

theorem fits_epilogue (h : Connection a b bound ws g g') :
    ∀ i ∈ Wire.epilogue ws, i.Fits (vocabulary a b ws) := by
  rw [Wire.epilogue_eq]
  apply fits_copyBlock h.independent_leavings
  · intro q hq
    obtain ⟨w, hw, hl, _⟩ := Wire.mem_leavings.mp hq
    refine ⟨new_mem hw (Wire.leaving_mem_news hl), ?_⟩
    rw [(h.drawn.shaped w hw).leaving _ hl]
    rfl
  · intro q hq
    obtain ⟨w, hw, _, ht⟩ := Wire.mem_leavings.mp hq
    rw [← ht]
    exact new_mem hw w.temp_mem_news

theorem sound_code (h : Connection a b bound ws g g') : (code a b ws).Sound :=
  sound_withEpilogue (sound_withPrologue h.sound_core _) _

theorem fits_code (h : Connection a b bound ws g g') :
    (code a b ws).Fits (vocabulary a b ws) :=
  fits_withEpilogue (sound_withPrologue h.sound_core _)
    (fits_withPrologue h.sound_core h.fits_core h.fits_prologue) h.fits_epilogue

end Connection

end KernelAlgebra
