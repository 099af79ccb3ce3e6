import KernelAlgebra.Program.Renaming
import KernelAlgebra.Proofs.Machine.Embedding

/-!
# Code under a renaming

A renaming that keeps sizes and the kinds of symbols that instructions ask for keeps the graph
sound and the code fitting.  Where it changes local symbols only and keeps different ones apart,
the renamed graph runs like the original one.
-/

namespace KernelAlgebra

open Machine

/-- A change of symbols that the check of instructions does not notice. -/
structure Conforms (declared : List Symbol) (ρ : Symbol → Symbol) : Prop where
  stays : ∀ s ∈ declared, s.isLocal = true → (ρ s).isLocal = true
  size : ∀ s ∈ declared, (ρ s).size = s.size
  solid : ∀ s ∈ declared, s.isHole = false → (ρ s).isHole = false
  texture : ∀ s ∈ declared, s.role = .texture → (ρ s).role = .texture

structure Relabels (declared : List Symbol) (ρ : Symbol → Symbol) : Prop where
  fixed : ∀ s ∈ declared, s.isLocal = false → ρ s = s
  stays : ∀ s ∈ declared, s.isLocal = true → (ρ s).isLocal = true
  size : ∀ s ∈ declared, (ρ s).size = s.size
  solid : ∀ s ∈ declared, s.isHole = false → (ρ s).isHole = false

/-- The same node on symbols with other names. -/
structure Portrays (ρ : Symbol → Symbol) (n n' : Node) : Prop where
  block : ∃ mirror, n'.block = n.block.map mirror ∧ ∀ i ∈ n.block, Imitates ρ i (mirror i)
  branches : ∃ mirror, n'.branches = n.branches.map mirror ∧
    ∀ b ∈ n.branches, Image ρ b.cond (mirror b).cond ∧ (mirror b).target = b.target
  follower : n'.follower = n.follower

structure Renders (ρ : Symbol → Symbol) (g g' : Graph) : Prop where
  shape : Graph.SameShape g g'
  node : ∀ id n, g.Reaches id → g.node? id = some n → ∃ n', g'.node? id = some n' ∧ Portrays ρ n n'

variable {declared declared' : List Symbol} {ρ σ : Symbol → Symbol} {g g' g'' : Graph}

/-! ## Fitting code -/

theorem Relabels.conforms (hρ : Relabels declared ρ) : Conforms declared ρ where
  stays := hρ.stays
  size := hρ.size
  solid := hρ.solid
  texture := by
    intro s hs hrole
    rw [hρ.fixed s hs (by simp [Symbol.isLocal, hrole, Role.isLocal]), hrole]

theorem Conforms.alike (hρ : Conforms declared ρ) {v w : View} (h : Image ρ v w)
    (hv : v.isAbsent = false) (hD : v.sym ∈ declared) : View.Alike v w := by
  obtain rfl := h.present hv
  exact ⟨rfl, rfl, hρ.size _ hD, (hρ.solid _ hD hv).trans hv.symm⟩

theorem Instruction.Fits.sym_mem {i : Instruction} (h : i.Fits declared) {v : View}
    (hv : v ∈ i.src) : v.sym ∈ declared :=
  h.uses v.sym (mem_uses.mpr ⟨v, hv, (Instruction.check_src_of_check h.checked hv).1, rfl⟩)

theorem Instruction.Fits.dst_mem {i : Instruction} (h : i.Fits declared)
    (hdst : i.dst.isAbsent = false) : i.dst.sym ∈ declared ∧ i.dst.sym.isLocal = true :=
  h.defines i.dst.sym (by simp [Instruction.defines, hdst])

theorem Instruction.Fits.imitated (hρ : Conforms declared ρ)
    (hmem : ∀ s ∈ declared, ρ s ∈ declared') {i i' : Instruction} (h : i.Fits declared)
    (himage : Imitates ρ i i') : i'.Fits declared' := by
  obtain ⟨image, hsrc, hsources⟩ := himage.src
  have hpresent : ∀ v ∈ i.src, v.isAbsent = false :=
    fun v hv => (Instruction.check_src_of_check h.checked hv).1
  have hsym : ∀ v ∈ i.src, (image v).sym = ρ v.sym := by
    intro v hv
    rw [(hsources v hv).present (hpresent v hv)]
  refine ⟨?_, ?_, ?_⟩
  · refine Instruction.check_map himage.op himage.dst.absent ?_ hsrc ?_ ?_ h.checked
    · exact fun hdst => hρ.alike himage.dst hdst (h.dst_mem hdst).1
    · exact fun v hv => hρ.alike (hsources v hv) (hpresent v hv) (h.sym_mem hv)
    · intro v hv hrole
      rw [hsym v hv]
      exact hρ.texture _ (h.sym_mem hv) hrole
  · intro s hs
    obtain ⟨w, hw, _, rfl⟩ := mem_uses.mp hs
    rw [hsrc] at hw
    obtain ⟨v, hv, rfl⟩ := List.mem_map.mp hw
    rw [hsym v hv]
    exact hmem _ (h.sym_mem hv)
  · intro s hs
    cases hdst : i.dst.isAbsent with
    | true => simp [Instruction.defines, himage.dst.absent hdst] at hs
    | false =>
        obtain ⟨hD, hlocal⟩ := h.dst_mem hdst
        have hs : s = ρ i.dst.sym := by
          unfold Instruction.defines at hs
          split at hs
          · cases hs
          · rw [← Option.some.inj hs, himage.dst.present hdst]
        rw [hs]
        exact ⟨hmem _ hD, hρ.stays _ hD hlocal⟩

theorem Node.Fits.portrayed (hρ : Conforms declared ρ)
    (hmem : ∀ s ∈ declared, ρ s ∈ declared') {n n' : Node} (h : n.Fits declared)
    (himage : Portrays ρ n n') : n'.Fits declared' := by
  obtain ⟨mirror, hblock, himitates⟩ := himage.block
  obtain ⟨mirror', hbranches, himages⟩ := himage.branches
  constructor
  · intro i' hi'
    rw [hblock] at hi'
    obtain ⟨i, hi, rfl⟩ := List.mem_map.mp hi'
    exact (h.block i hi).imitated hρ hmem (himitates i hi)
  · intro b' hb'
    rw [hbranches] at hb'
    obtain ⟨b, hb, rfl⟩ := List.mem_map.mp hb'
    have hfits := h.branches b hb
    have halike := hρ.alike (himages b hb).1 hfits.present hfits.declared
    refine ⟨halike.absent.trans hfits.present, halike.check hfits.checked, ?_⟩
    rw [(himages b hb).1.present hfits.present]
    exact hmem _ hfits.declared

theorem Renders.fits (h : Renders ρ g g') (hρ : Conforms declared ρ)
    (hmem : ∀ s ∈ declared, ρ s ∈ declared') (hfits : g.Fits declared) : g'.Fits declared' := by
  intro id n' hreach hn'
  have hreach := h.shape.reaches_iff.mp hreach
  obtain ⟨n, hn⟩ := hreach.node
  obtain ⟨m, hm, hportrays⟩ := h.node id n hreach hn
  cases hn'.symm.trans hm
  exact (hfits id n hreach hn).portrayed hρ hmem hportrays

/-! ## Runs -/

theorem Relabels.faithful (hρ : Relabels declared ρ)
    (hinj : ∀ s ∈ declared, ∀ t ∈ declared, ρ s = ρ t → s = t) : Faithful (· ∈ declared) ρ :=
  ⟨fun s t hs ht => hinj s hs t ht, hρ.size, hρ.solid⟩

theorem Renders.embeds (h : Renders ρ g g') (hsound : g.Sound) (hfits : g.Fits declared) :
    Embeds (· ∈ declared) (fun s => s ∈ declared ∧ s.isLocal = true) ρ (fun id => id) g g' where
  node := by
    intro id n hreach hn
    obtain ⟨n', hn', hportrays⟩ := h.node id n hreach hn
    obtain ⟨mirror, hblock, himitates⟩ := hportrays.block
    obtain ⟨mirror', hbranches, himages⟩ := hportrays.branches
    have hnode := hfits id n hreach hn
    refine ⟨n', hn', ⟨mirror, hblock, ?_⟩, ?_⟩
    · intro i hi
      have hi' := hnode.block i hi
      exact ⟨himitates i hi, hi'.uses, fun s hs => ⟨(hi'.defines s hs).1, hi'.defines s hs⟩⟩
    · intro hexit
      refine ⟨h.shape.exit.symm ▸ hexit, by simp [hportrays.follower], mirror', hbranches, ?_⟩
      intro b hb
      obtain ⟨himage, htarget⟩ := himages b hb
      refine ⟨himage, (hnode.branches b hb).declared, htarget, ?_⟩
      rw [htarget, h.shape.size]
      exact hsound.closed id n hn _ (Graph.target_mem_successors hb)

theorem Renders.refl (g : Graph) : Renders (fun s => s) g g where
  shape := ⟨rfl, rfl, rfl, fun _ n hn => ⟨n, hn, rfl, rfl⟩⟩
  node := by
    intro id n _ hn
    refine ⟨n, hn, ⟨fun i => i, by simp, fun i _ => ?_⟩, ⟨fun b => b, by simp, fun b _ => ?_⟩, rfl⟩
    · exact ⟨rfl, .id _, fun v => v, by simp, fun v _ => .id v⟩
    · exact ⟨.id _, rfl⟩

/-! ## Renamings one after the other -/

theorem Machine.Image.trans {v w x : View} (h : Image ρ v w) (h' : Image σ w x)
    (hsolid : v.isAbsent = false → (ρ v.sym).isHole = false) :
    Image (fun s => σ (ρ s)) v x := by
  refine ⟨fun hv => h'.absent (h.absent hv), ?_⟩
  intro hv
  have hw := h.present hv
  subst hw
  rw [h'.present (hsolid hv)]

theorem Machine.Imitates.trans {i i' i'' : Instruction} (h : Imitates ρ i i') (h' : Imitates σ i' i'')
    (hρ : Relabels declared ρ) (hfits : i.Fits declared) :
    Imitates (fun s => σ (ρ s)) i i'' := by
  obtain ⟨image, hsrc, himage⟩ := h.src
  obtain ⟨image', hsrc', himage'⟩ := h'.src
  refine ⟨h'.op.trans h.op, h.dst.trans h'.dst ?_, fun v => image' (image v), ?_, ?_⟩
  · exact fun hdst => hρ.solid _ (hfits.dst_mem hdst).1 hdst
  · rw [hsrc', hsrc, List.map_map]
    rfl
  · intro v hv
    refine (himage v hv).trans (himage' (image v) ?_)
      fun hpresent => hρ.solid _ (hfits.sym_mem hv) hpresent
    rw [hsrc]
    exact List.mem_map.mpr ⟨v, hv, rfl⟩

theorem Portrays.trans {n n' n'' : Node} (h : Portrays ρ n n') (h' : Portrays σ n' n'')
    (hρ : Relabels declared ρ) (hfits : n.Fits declared) :
    Portrays (fun s => σ (ρ s)) n n'' := by
  obtain ⟨mirror, hblock, himitates⟩ := h.block
  obtain ⟨mirror', hblock', himitates'⟩ := h'.block
  obtain ⟨branch, hbranches, himages⟩ := h.branches
  obtain ⟨branch', hbranches', himages'⟩ := h'.branches
  refine ⟨⟨fun i => mirror' (mirror i), ?_, ?_⟩, ⟨fun b => branch' (branch b), ?_, ?_⟩,
    h'.follower.trans h.follower⟩
  · rw [hblock', hblock, List.map_map]
    rfl
  · intro i hi
    refine (himitates i hi).trans (himitates' (mirror i) ?_) hρ (hfits.block i hi)
    rw [hblock]
    exact List.mem_map.mpr ⟨i, hi, rfl⟩
  · rw [hbranches', hbranches, List.map_map]
    rfl
  · intro b hb
    have hmem : branch b ∈ n'.branches := hbranches ▸ List.mem_map.mpr ⟨b, hb, rfl⟩
    obtain ⟨himage, htarget⟩ := himages b hb
    obtain ⟨himage', htarget'⟩ := himages' (branch b) hmem
    exact ⟨himage.trans himage'
      fun hpresent => hρ.solid _ (hfits.branches b hb).declared hpresent, htarget'.trans htarget⟩

theorem Renders.trans (h : Renders ρ g g') (h' : Renders σ g' g'') (hρ : Relabels declared ρ)
    (hfits : g.Fits declared) : Renders (fun s => σ (ρ s)) g g'' where
  shape := h.shape.trans h'.shape
  node := by
    intro id n hreach hn
    obtain ⟨n', hn', hportrays⟩ := h.node id n hreach hn
    obtain ⟨n'', hn'', hportrays'⟩ := h'.node id n' (h.shape.reaches_iff.mpr hreach) hn'
    exact ⟨n'', hn'', hportrays.trans hportrays' hρ (hfits id n hreach hn)⟩

end KernelAlgebra
