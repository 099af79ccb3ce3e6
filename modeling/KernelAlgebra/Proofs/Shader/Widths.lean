import KernelAlgebra.Proofs.Machine.Safety
import KernelAlgebra.Proofs.Shader.Bodies
import KernelAlgebra.Proofs.Shader.Declarations

/-!
# How wide shaders are

The compiler limits symbols to four elements, but not textures and not the operands of `dot` and
`kil`.  An element of a texture behind the fourth has no letter, which stops the compiler, and a
wide operand of the two opcodes gives a shader that the language does not have.
-/

namespace KernelAlgebra

/-! ## Symbols and instructions -/

/-- The symbol has elements, and four at most if it is no texture. -/
def Symbol.Typed (s : Symbol) : Prop := 1 ≤ s.size ∧ (s.role = .texture ∨ s.size ≤ 4)

theorem Symbol.Typed.size_le {s : Symbol} (h : s.Typed) (hrole : s.role ≠ .texture) :
    1 ≤ s.size ∧ s.size ≤ 4 :=
  ⟨h.1, h.2.resolve_left hrole⟩

theorem Symbol.role_ne_texture {s : Symbol} (h : s.isLocal = true) : s.role ≠ .texture := by
  intro hrole
  simp [Symbol.isLocal, hrole, Role.isLocal] at h

theorem View.Inside.size_le {v : View} (h : v.Inside) (hpresent : v.isAbsent = false)
    (hdistinct : v.Distinct) : v.size ≤ v.sym.size := by
  cases hselector : v.selector with
  | none => simp [View.size, hpresent, hselector]
  | some idx =>
      have hbounds : ∀ k ∈ idx, 0 ≤ k ∧ k < v.sym.size := by simpa [hselector] using h.bounds
      have hnodup : idx.Nodup := by simpa [View.Distinct, hselector] using hdistinct
      have hsubset : idx ⊆ (List.range v.sym.size).map Int.ofNat := by
        intro k hk
        have := hbounds k hk
        exact List.mem_map.mpr ⟨k.toNat, List.mem_range.mpr (by omega), Int.toNat_of_nonneg this.1⟩
      have hle := (List.subperm_of_subset hnodup hsubset).length_le
      simpa [View.size, hpresent, hselector] using hle

section Declared

variable {declared : List Symbol} (htyped : ∀ s ∈ declared, s.Typed)

include htyped

theorem Instruction.Fits.writable {i : Instruction} (h : i.Fits declared) (hsampled : i.Sampled) :
    i.Writable := by
  obtain ⟨hadmits, hmask⟩ := Instruction.check_iff_admits.mp h.checked
  refine ⟨hadmits, fun v hv => ?_, fun hdst => ?_, hsampled⟩
  · have hpresent := hadmits.present v hv
    have hdeclared := h.uses v.sym (Machine.mem_uses.mpr ⟨v, hv, hpresent, rfl⟩)
    exact View.shown_of_inside hpresent (hadmits.sources v hv) (htyped _ hdeclared).1
  · obtain ⟨hdeclared, hlocal⟩ := h.defines i.dst.sym (by simp [Instruction.defines, hdst])
    obtain ⟨hpos, hsize⟩ := (htyped _ hdeclared).size_le (Symbol.role_ne_texture hlocal)
    have hinside := hadmits.inside hdst
    have hlimit : (i.dst.sym.size : Int) ≤ View.maskLimit := by
      simp only [View.maskLimit]
      omega
    have hdistinct := (hinside.distinctBelow_iff hlimit).mp (hmask hdst)
    exact ⟨View.shown_of_inside hdst hinside hpos, (hinside.size_le hdst hdistinct).trans hsize,
      hsize⟩

theorem Branch.Fits.shown {b : Branch} (h : b.Fits declared) : b.cond.Shown :=
  View.shown_of_inside h.present (View.check_source_iff.mp h.checked) (htyped _ h.declared).1

theorem Node.Fits.writable {n : Node} (h : n.Fits declared)
    (hsampled : ∀ i ∈ n.block, i.Sampled) : n.Writable :=
  ⟨fun i hi => (h.block i hi).writable htyped (hsampled i hi),
    fun b hb => (h.branches b hb).shown htyped⟩

theorem View.Shown.role_of_wide {v : View} (h : v.Shown) (hv : v.sym ∈ declared) {k : Int}
    (hk : k ∈ v.elements) (hwide : 4 ≤ k) : v.sym.role = .texture := by
  by_contra hrole
  have := (h.bounds k hk).2
  have := ((htyped _ hv).size_le hrole).2
  omega

theorem Instruction.Fits.exists_texture {i : Instruction} (h : i.Fits declared)
    (hlettered : ¬ i.Lettered) :
    ∃ v ∈ i.spelled, v.sym.role = .texture ∧ ∃ k ∈ v.elements, 4 ≤ k := by
  simp only [Instruction.Lettered, not_forall] at hlettered
  obtain ⟨v, hv, hlettered⟩ := hlettered
  simp only [View.Lettered, not_or, not_forall, Int.not_lt] at hlettered
  obtain ⟨_, _, k, hk, hwide⟩ := hlettered
  have hsrc : v ∈ i.src := by
    unfold Instruction.spelled at hv
    split at hv
    · exact List.mem_of_mem_tail hv
    · exact hv
  have hadmits := (Instruction.check_iff_admits.mp h.checked).1
  have hpresent := hadmits.present v hsrc
  have hmem := h.uses v.sym (Machine.mem_uses.mpr ⟨v, hsrc, hpresent, rfl⟩)
  have hshown := View.shown_of_inside hpresent (hadmits.sources v hsrc) (htyped _ hmem).1
  exact ⟨v, hv, hshown.role_of_wide htyped hmem hk hwide, k, hk, hwide⟩

theorem Branch.Fits.exists_texture {b : Branch} (h : b.Fits declared) (hlettered : ¬ b.Lettered) :
    b.cond.sym.role = .texture ∧ ∃ k ∈ b.cond.elements, 4 ≤ k := by
  simp only [Branch.Lettered, not_forall, not_or, Int.not_lt] at hlettered
  obtain ⟨_, k, hhead, hwide⟩ := hlettered
  have hk := List.mem_of_head? hhead
  exact ⟨(h.shown htyped).role_of_wide htyped h.declared hk hwide, k, hk, hwide⟩

theorem Node.Fits.exists_texture {n : Node} (h : n.Fits declared) (hlettered : ¬ n.Lettered) :
    ∃ v ∈ n.spelled, v.sym.role = .texture ∧ ∃ k ∈ v.elements, 4 ≤ k := by
  by_cases hblock : ∀ i ∈ n.block, i.Lettered
  · have hbranches : ¬ ∀ b ∈ n.branches, b.Lettered := fun hall => hlettered ⟨hblock, hall⟩
    simp only [not_forall] at hbranches
    obtain ⟨b, hb, hbranch⟩ := hbranches
    exact ⟨b.cond, List.mem_append_right _ (List.mem_map_of_mem hb),
      (h.branches b hb).exists_texture htyped hbranch⟩
  · simp only [not_forall] at hblock
    obtain ⟨i, hi, hinstruction⟩ := hblock
    obtain ⟨v, hv, htexture⟩ := (h.block i hi).exists_texture htyped hinstruction
    exact ⟨v, List.mem_append_left _ (List.mem_flatMap.mpr ⟨i, hi, hv⟩), htexture⟩

end Declared

/-! ## Checks -/

namespace Shader

section Folds

variable {α σ : Type} {good : α → Prop}

theorem Delivers.forM {f : α → Except ShaderError Unit} {xs : List α}
    (h : ∀ x ∈ xs, Delivers (f x) True fun _ => good x) :
    Delivers (xs.forM f) True fun _ => ∀ x ∈ xs, good x := by
  induction xs with
  | nil => exact delivers_ok trivial (by simp)
  | cons x rest ih =>
      have hrest := ih fun y hy => h y (by simp [hy])
      refine (h x (by simp)).bind_free_left fun _ hx => hrest.imp .rfl fun _ hall => ?_
      exact List.forall_mem_cons.mpr ⟨hx, hall⟩

theorem Delivers.foldlM {f : σ → α → Except ShaderError σ} {xs : List α}
    (h : ∀ m, ∀ x ∈ xs, Delivers (f m x) True fun _ => good x) (m : σ) :
    Delivers (xs.foldlM f m) True fun _ => ∀ x ∈ xs, good x := by
  induction xs generalizing m with
  | nil => exact delivers_ok trivial (by simp)
  | cons x rest ih =>
      rw [List.foldlM_cons]
      have hrest := ih fun m y hy => h m y (by simp [hy])
      refine (h m x (by simp)).bind_free_left fun m' hx => (hrest m').imp .rfl fun _ hall => ?_
      exact List.forall_mem_cons.mpr ⟨hx, hall⟩

end Folds

theorem delivers_checkSymbols (v : Version) {i : Interface}
    (hsolid : ∀ s ∈ i.symbols, s.isHole = false) :
    Delivers (checkSymbols v i) True fun _ => ∀ s ∈ i.symbols, s.role = .texture ∨ s.size ≤ 4 := by
  refine Delivers.forM fun s hs => ?_
  unfold checkSymbol
  simp only [hsolid s hs, Bool.false_eq_true, if_false]
  split
  · rename_i hrole
    exact delivers_ok trivial (.inl hrole)
  split
  · exact delivers_refused rfl
  split
  · exact delivers_refused rfl
  · rename_i hsize
    split
    · exact delivers_refused rfl
    · exact delivers_ok trivial (.inr (Nat.not_lt.mp hsize))

theorem delivers_addSampler (v : Version) (m : Samplers) {i : Instruction}
    (hpresent : ∀ s ∈ i.src, s.isAbsent = false) :
    Delivers (addSampler v m i) True fun _ => i.Sampled := by
  unfold addSampler
  split
  · rename_i t coord hop hsrc
    have ht := hpresent t (by simp [hsrc])
    have hsampled : ¬ 3 < coord.size → i.Sampled := by
      rintro hcoord t' coord' _ hsrc'
      cases hsrc.symm.trans hsrc'
      exact Nat.not_lt.mp hcoord
    simp only [ht, Bool.false_eq_true, if_false]
    split
    · exact delivers_refused rfl
    · rename_i hcoord
      have hsampled := hsampled hcoord
      split
      · exact delivers_refused rfl
      split
      · split
        · exact delivers_ok trivial hsampled
        · exact delivers_refused rfl
      · exact delivers_ok trivial hsampled
  · rename_i htex
    exact delivers_ok trivial fun t coord hop hsrc => absurd hsrc (htex t coord hop)

theorem delivers_samplers (v : Version) {p : Program} (hp : p.Valid) :
    Delivers (samplers v p) True fun _ =>
      ∀ i ∈ p.graph.reachableNodes.flatMap fun q => q.2.block, i.Sampled := by
  unfold samplers
  refine Delivers.foldlM (fun m i hi => ?_) []
  refine delivers_addSampler v m ?_
  obtain ⟨q, hq, hi⟩ := List.mem_flatMap.mp hi
  obtain ⟨hreach, hn⟩ := Graph.mem_reachableNodes.mp hq
  exact (Instruction.check_iff_admits.mp ((hp.fits q.1 q.2 hreach hn).block i hi).checked).1.present

theorem delivers_attributes {p : Program} {t : Target} (hp : p.Valid)
    (ht : Target.parse p.target = .ok t) :
    Delivers (p.attributes.mapError ShaderError.ofAttributes) True
      fun attrs => p.attributes = .ok attrs := by
  rw [hp.attributes_eq ht]
  cases t.attributes p.inputs p.outputs p.resources with
  | error e => exact delivers_refused rfl
  | ok attrs => exact delivers_ok trivial rfl

theorem delivers_stageLayout (t : Target) (v : Version) :
    Delivers (stageLayout t v) True fun _ => True := by
  unfold stageLayout
  split
  · exact delivers_ok trivial trivial
  split
  · exact delivers_refused rfl
  · exact delivers_ok trivial trivial

/-! ## Declarations -/

theorem sym_of_mem_attributes {p : Program} {t : Target} {attrs : List Attribute} (hp : p.Valid)
    (ht : Target.parse p.target = .ok t) (h : p.attributes = .ok attrs) {a : Attribute}
    (ha : a ∈ attrs) :
    a.sym ∈ p.symbols ∧ (a.direction ≠ .resource → a.sym.role ≠ .texture) := by
  obtain ⟨res, rfl, hres⟩ := attributes_cases hp ht h
  simp only [List.mem_append] at ha
  have hlocal : a.sym ∈ p.inputs ∨ a.sym ∈ p.outputs → a.sym ∈ p.locals :=
    fun hmem => Interface.mem_locals.mpr (hmem.imp_right .inl)
  have hstage : a.sym ∈ p.inputs ∨ a.sym ∈ p.outputs → a.sym ∈ p.symbols ∧ a.sym.role ≠ .texture :=
    fun hmem => ⟨Interface.mem_symbols_of_mem_locals (hlocal hmem),
      Symbol.role_ne_texture (hp.orderly.isLocal_of_mem_locals (hlocal hmem))⟩
  rcases ha with (ha | ha) | ha
  · exact (hstage (.inl (Target.sym_mem_of_mem_stageAttributes ha))).imp_right fun hrole _ => hrole
  · exact (hstage (.inr (Target.sym_mem_of_mem_stageAttributes ha))).imp_right fun hrole _ => hrole
  · obtain ⟨hdirection, hmem⟩ := hres a ha
    refine ⟨Interface.mem_symbols.mpr ?_, fun hne => absurd hdirection hne⟩
    tauto

namespace Paragraph

theorem narrow_literal {values : List Float} {n : Nat} (hn : 1 ≤ n ∧ n ≤ 4) :
    (Phrase.literal values n).Narrow := by
  unfold Phrase.literal
  simp only
  split <;> simp [Piece.Narrow, hn]

theorem narrow_constantLines (names : Names) {constants : List Symbol}
    (h : ∀ s ∈ constants, 1 ≤ s.size ∧ s.size ≤ 4) : (constantLines names constants).Narrow := by
  unfold constantLines
  split
  · simp
  · rw [narrow_append]
    refine ⟨?_, narrow_plain _⟩
    intro line hline
    obtain ⟨s, hs, rfl⟩ := List.mem_map.mp hline
    simp [Piece.Narrow, h s hs, narrow_literal (h s hs)]

theorem narrow_resourceLines (v : Version) (m : Samplers) {a : Attribute} (h : a.sym.Typed) :
    (resourceLines v m a).Narrow := by
  have hsize := h.size_le
  unfold resourceLines
  simp only
  split
  · exact narrow_plain _
  · simp_all [streamLines, Piece.Narrow]
  · rename_i hrole _
    have hsize := hsize hrole
    split
    · simp [Piece.Narrow, hsize, narrow_literal hsize]
    · simp [Piece.Narrow, hsize]

theorem narrow_interfaceLines (v : Version) (m : Samplers) {attrs : List Attribute}
    (h : ∀ a ∈ attrs, a.sym.Typed ∧ (a.direction ≠ .resource → a.sym.role ≠ .texture)) :
    (interfaceLines v m attrs).Narrow := by
  have hattribute : ∀ a ∈ attrs, (attributeLines v m a).Narrow := by
    intro a ha
    obtain ⟨htyped, hrole⟩ := h a ha
    unfold attributeLines
    split
    · simp
    split
    · exact narrow_resourceLines v m htyped
    · rename_i hdirection
      have hsize := htyped.size_le (hrole hdirection)
      simp [Piece.Narrow, hsize]
  have hlines : Narrow (attrs.flatMap (attributeLines v m)) := by
    intro line hline
    obtain ⟨a, ha, hline⟩ := List.mem_flatMap.mp hline
    exact hattribute a ha line hline
  unfold interfaceLines
  simp only
  split
  · simp
  · exact narrow_append.mpr ⟨hlines, narrow_plain _⟩

theorem delivers_shaderLines {p : Program} {t : Target} (o : Options) (hp : p.Valid)
    (ht : Target.parse p.target = .ok t) (htyped : ∀ s ∈ p.symbols, s.Typed) :
    Delivers (shaderLines p t o) (p.graph.Each p.graph.written Node.Lettered)
      fun lines => lines.Narrow ↔ p.graph.Each p.graph.written Node.Short := by
  unfold shaderLines
  refine (delivers_samplers o.version hp).bind_free_left fun m hsampled => ?_
  refine (delivers_attributes hp ht).bind_free_left fun attrs hattrs => ?_
  refine (delivers_stageLayout t o.version).bind_free_left fun layout _ => ?_
  have hlocals : ∀ s ∈ p.locals, 1 ≤ s.size ∧ s.size ≤ 4 := fun s hs =>
    (htyped s (Interface.mem_symbols_of_mem_locals hs)).size_le
      (Symbol.role_ne_texture (hp.orderly.isLocal_of_mem_locals hs))
  have hnodes : p.graph.Each p.graph.reachable Node.Writable := by
    intro id hid n hn
    have hreach := Graph.mem_reachable.mp hid
    exact (hp.fits id n hreach hn).writable htyped fun i hi => hsampled i
      (List.mem_flatMap.mpr ⟨(id, n), Graph.mem_reachableNodes.mpr ⟨hreach, hn⟩, hi⟩)
  have hconstants : ∀ names, (constantLines names p.constants).Narrow := by
    refine fun names => narrow_constantLines names fun s hs => ?_
    have hrole : s.role = .const := by simpa using hp.orderly.constants.role s hs
    exact (htyped s (Interface.mem_symbols.mpr (by simp [hs]))).size_le (by simp [hrole])
  have hinterface : ∀ m, (interfaceLines o.version m attrs).Narrow := fun m =>
    narrow_interfaceLines _ m fun a ha =>
      (sym_of_mem_attributes hp ht hattrs ha).imp_left (htyped a.sym)
  refine (delivers_mainLines _ attrs _ hp.sound hlocals hnodes).bind_free_right fun main hmain =>
    delivers_ok trivial ?_
  simp only [narrow_append, narrow_plain, hconstants, hinterface, hmain, true_and]

end Paragraph

/-! ## Shaders -/

theorem compile_cases {p : Program} {o : Options} {r : Except ShaderError Output} (hp : p.Valid)
    (h : compile p.sketch o = r) :
    (∃ e, r = .error e ∧ e.toError?.isSome = true) ∨
      ∃ t, Target.parse p.target = .ok t ∧
        (∀ s ∈ p.symbols, s.role = .texture ∨ s.size ≤ 4) ∧ emit p t o.filled = r := by
  have htarget : Target.parse p.sketch.target = Target.parse p.target := rfl
  simp only [compile, htarget, Program.program?_sketch] at h
  cases ht : Target.parse p.target with
  | error e => exact .inl ⟨_, by rw [← h, ht], rfl⟩
  | ok t =>
      rw [ht] at h
      simp only at h
      split at h
      · exact .inl ⟨_, h.symm, rfl⟩
      have hcheck := delivers_checkSymbols o.filled.version fun s hs => hp.orderly.solid hs
      cases hsymbols : checkSymbols o.filled.version p.sketch.toInterface with
      | error e =>
          rw [hsymbols] at h
          exact .inl ⟨e, h.symm, hcheck.2 e hsymbols trivial⟩
      | ok _ =>
          rw [hsymbols] at h
          exact .inr ⟨t, rfl, (hcheck.1 _ hsymbols).2, h⟩

section Widths

variable {p : Program} {o : Options}

theorem exists_texture_of_compile (hp : p.Valid) (hdeclared : ∀ s ∈ p.symbols, s.Declared)
    {e : ShaderError} (h : compile p.sketch o = .error e) (he : e.toError? = none) :
    ∃ id n v, p.graph.Reaches id ∧ p.graph.node? id = some n ∧ v ∈ n.spelled ∧
      v.sym.role = .texture ∧ ∃ k ∈ v.elements, 4 ≤ k := by
  obtain ⟨e', heq, hsome⟩ | ⟨t, ht, hsizes, hemit⟩ := compile_cases hp h
  · cases heq
    simp [he] at hsome
  have htyped : ∀ s ∈ p.symbols, s.Typed := fun s hs => ⟨(hdeclared s hs).size_pos, hsizes s hs⟩
  have hunlettered : ¬ p.graph.Each p.graph.written Node.Lettered := by
    intro hlettered
    have hsome := (Paragraph.delivers_shaderLines o.filled hp ht htyped).2 e
      (Paragraph.shaderLines_of_emit_error hemit) hlettered
    simp [he] at hsome
  simp only [Graph.Each, not_forall] at hunlettered
  obtain ⟨id, hid, n, hn, hnode⟩ := hunlettered
  have hreach := Graph.reaches_of_mem_written hp.sound hid
  obtain ⟨v, hv, htexture⟩ := (hp.fits id n hreach hn).exists_texture htyped hnode
  exact ⟨id, n, v, hreach, hn, hv, htexture⟩

theorem exists_lines_of_compile (hp : p.Valid) (hdeclared : ∀ s ∈ p.symbols, s.Declared)
    {out : Output} (h : compile p.sketch o = .ok out) :
    ∃ t lines, Target.parse p.target = .ok t ∧
      Paragraph.shaderLines p t o.filled = .ok lines ∧ out.source = Paragraph.source lines ∧
      p.graph.Each p.graph.written Node.Lettered ∧
      (lines.Narrow ↔ p.graph.Each p.graph.written Node.Short) := by
  obtain ⟨e, heq, _⟩ | ⟨t, ht, hsizes, hemit⟩ := compile_cases hp h
  · cases heq
  have htyped : ∀ s ∈ p.symbols, s.Typed := fun s hs => ⟨(hdeclared s hs).size_pos, hsizes s hs⟩
  obtain ⟨lines, hlines, hsource⟩ := Paragraph.exists_lines_of_emit hemit
  exact ⟨t, lines, ht, hlines, hsource,
    (Paragraph.delivers_shaderLines o.filled hp ht htyped).1 lines hlines⟩

end Widths

/--
The compiler stops without a category only where a texture has to be spelled with an element behind
the fourth.  A shader has no wide vector types and selections if the operands of `dot` and `kil`
are short; if every node has an id, it has some exactly if they are not, and there was nothing
without letters.
-/
theorem compile_widths {p : Program} {o : Options} (hp : p.issues = [])
    (hdeclared : ∀ s ∈ p.symbols, s.Declared) :
    (∀ e, compile p.sketch o = .error e → e.toError? = none →
        ∃ id n v, p.graph.Reaches id ∧ p.graph.node? id = some n ∧ v ∈ n.spelled ∧
          v.sym.role = .texture ∧ ∃ k ∈ v.elements, 4 ≤ k) ∧
      ∀ out, compile p.sketch o = .ok out → ∃ t lines, Target.parse p.target = .ok t ∧
        Paragraph.shaderLines p t o.filled = .ok lines ∧ out.source = Paragraph.source lines ∧
        (p.graph.Each p.graph.reachable Node.Short → lines.Narrow) ∧
        (p.graph.size ≤ Graph.nowhere → p.graph.Each p.graph.reachable Node.Lettered ∧
          (lines.Narrow → p.graph.Each p.graph.reachable Node.Short)) := by
  have hvalid := Program.issues_eq_nil_iff.mp hp
  refine ⟨fun e he hcategory => exists_texture_of_compile hvalid hdeclared he hcategory,
    fun out hout => ?_⟩
  obtain ⟨t, lines, ht, hlines, hsource, hlettered, hnarrow⟩ :=
    exists_lines_of_compile hvalid hdeclared hout
  refine ⟨t, lines, ht, hlines, hsource, fun hshort => ?_, fun hsize => ?_⟩
  · exact hnarrow.mpr fun id hid =>
      hshort id (Graph.mem_reachable.mpr (Graph.reaches_of_mem_written hvalid.sound hid))
  · have hall : ∀ id ∈ p.graph.reachable, id ∈ p.graph.written := fun id hid =>
      Graph.mem_written_of_reaches hsize (Graph.mem_reachable.mp hid)
    exact ⟨fun id hid => hlettered id (hall id hid),
      fun hl id hid => hnarrow.mp hl id (hall id hid)⟩

/-- A product of two selections with five elements each. -/
def wideProduct : Program :=
  let a : Symbol := ⟨1, .input, 4, .float32, .attrib, "a", []⟩
  let y : Symbol := ⟨2, .output, 1, .float32, .attrib, "y", []⟩
  let v : View := ⟨a, some [0, 1, 2, 3, 0], false⟩
  { Interface.empty "glsl:fragment" with
    inputs := [a], outputs := [y],
    graph := ⟨[.straight [⟨.dot, .full y, [v, v]⟩] 1, .empty], 0, 1⟩ }

/-- The sixth element of a texture is copied. -/
def deepTexel : Program :=
  let t : Symbol := ⟨1, .texture, 8, .float32, .attrib, "t", []⟩
  let y : Symbol := ⟨2, .output, 1, .float32, .attrib, "y", []⟩
  { Interface.empty "glsl:fragment" with
    outputs := [y], textures := [t],
    graph := ⟨[.straight [⟨.asn, .full y, [⟨t, some [5], false⟩]⟩] 1, .empty], 0, 1⟩ }

theorem compile_widths_overrun :
    (∃ out lines, compile wideProduct.sketch {} = .ok out ∧
        out.source = Paragraph.source lines ∧ ¬ lines.Narrow) ∧
      ∃ e, compile deepTexel.sketch {} = .error e ∧ e.toError? = none ∧
        ∃ id n v, deepTexel.graph.Reaches id ∧ deepTexel.graph.node? id = some n ∧
          v ∈ n.spelled ∧ v.sym.role = .texture ∧ ∃ k ∈ v.elements, 4 ≤ k := by
  constructor
  · have hok : (compile wideProduct.sketch {}).isOk = true := by decide +kernel
    obtain ⟨out, hout⟩ : ∃ out, compile wideProduct.sketch {} = .ok out := by
      cases hcompile : compile wideProduct.sketch {} with
      | error e =>
          rw [hcompile] at hok
          cases hok
      | ok out => exact ⟨out, rfl⟩
    obtain ⟨_, lines, _, _, hsource, _, hconverse⟩ := (compile_widths (p := wideProduct) rfl
      (Symbol.declared_of_no_value (by decide))).2 out hout
    refine ⟨out, lines, hout, hsource, fun hnarrow => ?_⟩
    have hshort := (hconverse (by decide)).2 hnarrow 0 (by decide) _ rfl
    have hwide := (hshort _ (List.mem_singleton.mpr rfl)).dot rfl _ List.mem_cons_self
    rcases hwide with hsize | hall
    · exact absurd hsize (by decide)
    · exact absurd hall (by decide)
  · have hcrash : (match compile deepTexel.sketch {} with
        | .error e => e.toError?.isNone
        | .ok _ => false) = true := by decide +kernel
    cases hcompile : compile deepTexel.sketch {} with
    | ok out =>
        rw [hcompile] at hcrash
        cases hcrash
    | error e =>
        rw [hcompile] at hcrash
        have hnone : e.toError? = none := Option.isNone_iff_eq_none.mp hcrash
        exact ⟨e, rfl, hnone, (compile_widths (p := deepTexel) rfl
          (Symbol.declared_of_no_value (by decide))).1 e hcompile hnone⟩

end Shader

end KernelAlgebra
