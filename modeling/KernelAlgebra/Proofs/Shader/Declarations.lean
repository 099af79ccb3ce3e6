import KernelAlgebra.Proofs.Binding.Slots
import KernelAlgebra.Proofs.Shader.Lines
import KernelAlgebra.Proofs.Shader.Names

/-!
# What a shader declares

A shader declares its constants, its interface, and in the main function the local variables and,
if the graph branches, a counter.  Each has one line, and no other line declares anything.  Names
that the shader makes differ from each other and from those of the interface, and none is a
keyword.  So a shader declares a name twice exactly if two entries of its interface have the same
identifier.
-/

namespace KernelAlgebra.Shader

/-! ## What a shader declares -/

def constantVariable (names : Names) (s : Symbol) : Variable :=
  ⟨["const"], typeName s.size, names.of s, " = " ++ literal s.value s.size⟩

def resourceVariable (v : Version) (m : Samplers) (a : Attribute) : Variable :=
  let s := a.sym
  let qualifier := if v.supportsResourceLayouts then a.decoration else "uniform"
  match s.role with
  | .texture => ⟨[qualifier], s!"sampler{(m.lookup s).getD 2}D", a.identifier, ""⟩
  | .stream => ⟨[], typeName s.size, a.identifier, "[]"⟩
  | _ =>
      ⟨[qualifier], typeName s.size, a.identifier,
        if s.hasValue && !v.es then " = " ++ literal s.value s.size else ""⟩

def attributeVariable (v : Version) (m : Samplers) (a : Attribute) : Variable :=
  match a.direction with
  | .resource => resourceVariable v m a
  | dir =>
      ⟨[if v.supportsStageLocations then a.decoration else dir.name], typeName a.sym.size,
        a.identifier, ""⟩

def localVariable (names : Names) (attrs : List Attribute) (s : Symbol) : Variable :=
  ⟨[], typeName s.size, names.of s,
    " = " ++ ((inputAttribute? attrs s).map inputExpr).getD (zero s.size)⟩

def counterVariable (g : Graph) (counter : String) : Variable :=
  ⟨[], "int", counter, " = " ++ toString g.entry⟩

/-- Constants, the interface without its builtins, local variables, and the counter. -/
def declaredVariables (v : Version) (m : Samplers) (p : Program) (attrs : List Attribute)
    (names : Names) (counter : Option String) : List Variable :=
  p.constants.map (constantVariable names) ++
    (attrs.filter (!·.isBuiltin)).map (attributeVariable v m) ++
    (p.locals.map (localVariable names attrs) ++ counter.toList.map (counterVariable p.graph))

@[simp] theorem name_attributeVariable (v : Version) (m : Samplers) (a : Attribute) :
    (attributeVariable v m a).name = a.identifier := by
  unfold attributeVariable resourceVariable
  split
  · simp only
    split <;> rfl
  · rfl

def interfaceNames (attrs : List Attribute) : List String :=
  (attrs.filter (!·.isBuiltin)).map Attribute.identifier

/-! ## The lines in front of the main function -/

section Front

variable {known : List String}

theorem declaring_directive (t : Target) (o : Options) : Declaring known (directive t o) [] := by
  have hversion : Silent known s!"#version {o.version.text}" := .version _
  have hcomment : Silent known s!"// program {Interface.serial}, target {t.text}" := .program t
  unfold directive
  refine hversion.cons ?_
  split
  · exact hcomment.cons .blank
  · exact .blank

theorem declaring_stageLayout {t : Target} {v : Version} {lines : Lines}
    (h : stageLayout t v = .ok lines) : Declaring known lines [] := by
  unfold stageLayout at h
  split at h
  · cases h
    exact .nil
  split at h
  · cases h
  · cases h
    exact (Silent.mark (by decide)).cons .blank

theorem declaring_precisionLines (o : Options) : Declaring known (precisionLines o) [] := by
  unfold precisionLines
  split
  · exact .nil
  · refine (declaring_silent fun line hline => ?_).append .blank
    obtain ⟨type, htype, rfl⟩ := List.mem_map.mp hline
    exact .precision (by split <;> simp [toString]) htype

theorem declaring_constantLines (names : Names) (constants : List Symbol) :
    Declaring known (constantLines names constants)
      (constants.map (constantVariable names)) := by
  unfold constantLines
  split
  · rename_i hempty
    rw [List.isEmpty_iff.mp hempty]
    exact .nil
  · have hlines : constants.map (fun s =>
        s!"const {typeName s.size} {names.of s} = {literal s.value s.size};") =
          (constants.map (constantVariable names)).map Variable.written := by
      rw [List.map_map]
      refine List.map_congr_left fun s _ => ?_
      simp [constantVariable, Variable.written, toString, String.append_assoc]
    have hall := (declaring_map (constants.map (constantVariable names))).append
      (@Declaring.blank known)
    rwa [List.append_nil, ← hlines] at hall

theorem declaring_resourceLines (v : Version) (m : Samplers) (a : Attribute) :
    Declaring known (resourceLines v m a) [resourceVariable v m a] := by
  cases hrole : a.sym.role
  case texture =>
    simp only [resourceLines, resourceVariable, hrole]
    refine declaring_singleton (String.toList_inj.mp ?_)
    simp [Variable.written, toString]
  case stream =>
    simp only [resourceLines, resourceVariable, hrole, streamLines]
    have hline : s!"    {typeName a.sym.size} {a.identifier}[];" =
        spaces 4 ++ Variable.written ⟨[], typeName a.sym.size, a.identifier, "[]"⟩ :=
      String.toList_inj.mp (by simp [Variable.written, spaces, toString])
    rw [hline]
    exact (Silent.buffer a).cons (.declared 4 _ (declaring_mark (by decide)))
  all_goals
    simp only [resourceLines, resourceVariable, hrole]
    split <;> refine declaring_singleton (String.toList_inj.mp ?_) <;>
      simp [Variable.written, toString]

theorem declaring_attributeLines (v : Version) (m : Samplers) (a : Attribute) :
    Declaring known (attributeLines v m a)
      (if a.isBuiltin then [] else [attributeVariable v m a]) := by
  unfold attributeLines attributeVariable
  split
  · exact .nil
  cases a.direction
  case resource => exact declaring_resourceLines v m a
  all_goals
    refine declaring_singleton (String.toList_inj.mp ?_)
    simp [Variable.written, toString]

theorem declaring_interfaceLines (v : Version) (m : Samplers) (attrs : List Attribute) :
    Declaring known (interfaceLines v m attrs)
      ((attrs.filter (!·.isBuiltin)).map (attributeVariable v m)) := by
  have hlines : Declaring known (attrs.flatMap (attributeLines v m))
      ((attrs.filter (!·.isBuiltin)).map (attributeVariable v m)) := by
    induction attrs with
    | nil => exact .nil
    | cons a rest ih =>
        have hsplit : ((a :: rest).filter (!·.isBuiltin)).map (attributeVariable v m) =
            (if a.isBuiltin then [] else [attributeVariable v m a]) ++
              (rest.filter (!·.isBuiltin)).map (attributeVariable v m) := by
          by_cases ha : a.isBuiltin <;> simp [ha]
        rw [List.flatMap_cons, hsplit]
        exact (declaring_attributeLines v m a).append ih
  unfold interfaceLines
  simp only
  split
  · rename_i hempty
    rwa [List.isEmpty_iff.mp hempty] at hlines
  · simpa using hlines.append .blank

end Front

/-! ## The main function -/

theorem written_localVariable {names : Names} {attrs : List Attribute} {s : Symbol}
    {line : String} (h : localLine names attrs s = .ok line) :
    line = (localVariable names attrs s).written := by
  have hline : ∀ start : String, s!"{typeName s.size} {names.of s} = {start};" =
      Variable.written ⟨[], typeName s.size, names.of s, " = " ++ start⟩ := by
    simp [Variable.written, toString, String.append_assoc]
  unfold localLine at h
  simp only at h
  split at h
  · rename_i a hattr
    split at h
    · cases h
    · cases h
      rw [hline, localVariable, hattr]
      rfl
  · rename_i hattr
    cases h
    rw [hline, localVariable, hattr]
    rfl

section Bodies

variable {known : List String} {st : Style} {g : Graph} {lines : Lines}

def EachWrites (known : List String) (names : Names) (g : Graph) : Prop :=
  ∀ id n, g.Reaches id → g.node? id = some n → ∀ i ∈ n.block, Writes known names i

variable (hnames : ∀ s, Unbroken known (st.names.of s))

include hnames

theorem declaring_blockLines {id : Nat} {block : Block}
    (hblock : ∀ i ∈ block, Writes known st.names i) (h : blockLines st id block = .ok lines) :
    Declaring known lines [] := by
  obtain ⟨statements, hstatements, h⟩ := exists_of_bind_eq_ok h
  cases h
  have hcomment : Silent known s!"// node {id}" := .node id
  have hfront : Declaring known
      (if st.debugInfo && !block.isEmpty then [s!"// node {id}"] else []) [] := by
    split
    · exact hcomment.cons .nil
    · exact .nil
  exact hfront.append (declaring_flatten (forall_of_mapM_eq_ok hstatements fun i hi _ hstatement =>
    declaring_silent (silent_statement hnames (hblock i hi) hstatement)))

theorem declaring_chainLines (hsound : g.Sound) (hg : EachWrites known st.names g) {fuel : Nat}
    {seen : List Nat} {next : Option Nat} (hnext : ∀ id ∈ next, g.Reaches id)
    (h : chainLines st g fuel seen next = .ok lines) : Declaring known lines [] := by
  induction fuel generalizing seen next lines with
  | zero =>
      cases h
      exact .nil
  | succ fuel ih =>
      cases next with
      | none =>
          cases h
          exact .nil
      | some id =>
          unfold chainLines at h
          split at h
          · cases h
            exact .nil
          have hreach := hnext id rfl
          obtain ⟨n, hn⟩ := hreach.node
          simp only [Graph.node, hn] at h
          obtain ⟨here, hhere, h⟩ := exists_of_bind_eq_ok h
          obtain ⟨rest, hrest, h⟩ := exists_of_bind_eq_ok h
          cases h
          refine (declaring_blockLines hnames (hg id n hreach hn) hhere).append
            (ih (fun x hx => ?_) hrest)
          exact hreach.of_mem_successors hsound hn (by simp_all [Node.successors])

theorem declaring_branchLines {counter : String} (hcounter : counter ∈ known) {b : Branch}
    (h : branchLines st counter b = .ok lines) : Declaring known lines [] := by
  obtain ⟨e, he, h⟩ := exists_of_bind_eq_ok h
  cases h
  have hcondition : Unbroken known (e ++ " > 0.0") :=
    (unbroken_of_conditionExpr hnames he).append (.text (by decide))
  have hopening : s!"if ({e} > 0.0) " ++ "\x7b" = "if" ++ " (" ++ (e ++ " > 0.0") ++ ") \x7b" :=
    String.toList_inj.mp (by simp [toString])
  have hjump : s!"    {counter} = {b.target};" =
      spaces 4 ++ (counter ++ " = " ++ toString b.target ++ ";") :=
    String.toList_inj.mp (by simp [toString, spaces])
  have hbreak : "    break;" = spaces 4 ++ "break;" := rfl
  rw [hopening, hjump, hbreak]
  exact (Silent.control (by simp) hcondition).cons
    (.silent 4 (.assignment hcounter (unbroken_toString _))
      (.silent 4 (.mark (by decide)) (declaring_mark (by decide))))

theorem declaring_caseLines {counter : String} (hcounter : counter ∈ known) {id : Nat} {n : Node}
    (hn : ∀ i ∈ n.block, Writes known st.names i) (h : caseLines st counter id n = .ok lines) :
    Declaring known lines [] := by
  obtain ⟨block, hblock, h⟩ := exists_of_bind_eq_ok h
  obtain ⟨branches, hbranches, h⟩ := exists_of_bind_eq_ok h
  cases h
  have hflat : Declaring known branches.flatten [] := declaring_flatten
    (forall_of_mapM_eq_ok hbranches fun _ _ _ hb => declaring_branchLines hnames hcounter hb)
  have hlabel : Silent known s!"case {id}:" := .label id
  have hend : ∀ {next : String}, Unbroken known next →
      Declaring known [s!"{counter} = {next};", "break;"] [] :=
    fun hnext => (Silent.assignment hcounter hnext).cons (declaring_mark (by decide))
  refine hlabel.cons
    (((declaring_blockLines hnames hn hblock).append hflat).append (hend ?_)).indented
  split
  · exact unbroken_toString _
  · exact .text (by decide)

theorem declaring_switchLines {counter : String} (hcounter : counter ∈ known)
    (hg : EachWrites known st.names g) (h : switchLines st counter g = .ok lines) :
    Declaring known lines [counterVariable g counter] := by
  obtain ⟨cases, hcases, h⟩ := exists_of_bind_eq_ok h
  cases h
  have hflat : Declaring known cases.flatten [] := by
    refine declaring_flatten (forall_of_mapM_eq_ok hcases fun q hq _ hcase => ?_)
    obtain ⟨hreach, hn⟩ := Graph.mem_reachableNodes.mp (show (q.1, q.2) ∈ _ from hq)
    exact declaring_caseLines hnames hcounter (hg q.1 q.2 hreach hn) hcase
  have hcounter' : s!"int {counter} = {g.entry};" = (counterVariable g counter).written :=
    String.toList_inj.mp (by simp [counterVariable, Variable.written, toString])
  have hwhile : Silent known (s!"while ({counter} >= 0) " ++ "\x7b") := by
    have hline : s!"while ({counter} >= 0) " ++ "\x7b" =
        "while" ++ " (" ++ (counter ++ " >= 0") ++ ") \x7b" :=
      String.toList_inj.mp (by simp [toString])
    rw [hline]
    exact .control (by simp) ((Unbroken.name hcounter).append (.text (by decide)))
  have hswitch : Silent known (s!"switch ({counter}) " ++ "\x7b") := by
    have hline : s!"switch ({counter}) " ++ "\x7b" = "switch" ++ " (" ++ counter ++ ") \x7b" :=
      String.toList_inj.mp (by simp [toString])
    rw [hline]
    exact .control (by simp) (.name hcounter)
  have hjump : s!"    {counter} = -1;" = spaces 4 ++ (counter ++ " = " ++ "-1" ++ ";") :=
    String.toList_inj.mp (by simp [toString, spaces])
  have hbreak : "    break;" = spaces 4 ++ "break;" := rfl
  have hdefault :
      Declaring known ["default:", s!"    {counter} = -1;", "    break;", "\x7d"] [] := by
    rw [hjump, hbreak]
    exact (Silent.mark (by decide)).cons (.silent 4 (.assignment hcounter (.text (by decide)))
      (.silent 4 (.mark (by decide)) (declaring_mark (by decide))))
  rw [hcounter']
  have hinner := ((hswitch.cons .nil).append hflat).append hdefault
  exact .cons _ (hwhile.cons (hinner.indented.append (declaring_mark (by decide))))

def counterName? (n : Namer) (g : Graph) : Option String :=
  if isSequence g then none else some (n.fresh "node").1

theorem declaring_graphLines {n : Namer} (hsound : g.Sound) (hg : EachWrites known st.names g)
    (hcounter : ∀ counter ∈ counterName? n g, counter ∈ known)
    (h : graphLines st n g = .ok lines) :
    Declaring known lines ((counterName? n g).toList.map (counterVariable g)) := by
  unfold counterName? graphLines at *
  split at h
  · rename_i hsequence
    rw [if_pos hsequence]
    refine declaring_chainLines hnames hsound hg (fun id hid => ?_) h
    cases hid
    exact .entry hsound.entry_lt
  · rename_i hsequence
    rw [if_neg hsequence] at hcounter ⊢
    exact declaring_switchLines hnames (hcounter _ rfl) hg h

theorem declaring_outputLines {attrs : List Attribute}
    (hattrs : ∀ a ∈ attrs, a.identifier ∈ known) :
    Declaring known (outputLines st.names attrs) [] := by
  refine declaring_silent fun line hline => ?_
  obtain ⟨a, ha, rfl⟩ := List.mem_map.mp hline
  exact .assignment (hattrs a (List.mem_of_mem_filter ha)) (unbroken_outputExpr hnames a)

theorem declaring_mainLines {p : Program} {attrs : List Attribute} {n : Namer} (hp : p.Valid)
    (hlocals : ∀ s ∈ p.locals, st.names.of s ∈ known)
    (hattrs : ∀ a ∈ attrs, a.identifier ∈ known)
    (hcounter : ∀ counter ∈ counterName? n p.graph, counter ∈ known)
    (h : mainLines p attrs st n = .ok lines) :
    Declaring known lines (p.locals.map (localVariable st.names attrs) ++
      (counterName? n p.graph).toList.map (counterVariable p.graph)) := by
  obtain ⟨locals, hwritten, h⟩ := exists_of_bind_eq_ok h
  obtain ⟨body, hbody, h⟩ := exists_of_bind_eq_ok h
  cases h
  have hg : EachWrites known st.names p.graph := by
    intro id n hreach hn i hi hdst
    obtain ⟨hdeclared, hlocal⟩ := ((hp.fits id n hreach hn).block i hi).defines i.dst.sym
      (by simp [Instruction.defines, hdst])
    exact hlocals _ ((hp.orderly.mem_locals_iff hdeclared).mpr hlocal)
  have hstart : Declaring known locals (p.locals.map (localVariable st.names attrs)) := by
    have hlines : locals = p.locals.map (Variable.written ∘ localVariable st.names attrs) :=
      eq_map_of_mapM_eq_ok hwritten fun _ _ => written_localVariable
    have hall := @declaring_map known (p.locals.map (localVariable st.names attrs))
    rwa [List.map_map, ← hlines] at hall
  have hend := (hstart.append (declaring_graphLines hnames hp.sound hg hcounter hbody)).append
    (declaring_outputLines hnames hattrs)
  rw [List.append_nil] at hend
  have hclosing : Declaring known ["\x7d"] [] := declaring_mark (by decide)
  have hopening : Silent known "void main() \x7b" := .mark (by decide)
  have hall := (hopening.cons hend.indented).append hclosing
  rwa [List.append_nil] at hall

end Bodies

/-! ## The names of the variables -/

/-- The declared names that do not come from the interface. -/
def made (p : Program) (name : Symbol → String) (counter : Option String) : List String :=
  (p.constants ++ p.locals).map name ++ counter.toList

section Names

variable {v : Version} {m : Samplers} {p : Program} {attrs : List Attribute} {names : Names}
  {counter : Option String}

theorem name_declaredVariables :
    (declaredVariables v m p attrs names counter).map Variable.name =
      p.constants.map names.of ++ interfaceNames attrs ++
        (p.locals.map names.of ++ counter.toList) := by
  simp [declaredVariables, interfaceNames, constantVariable, localVariable, counterVariable,
    Function.comp_def]

theorem name_declaredVariables_perm :
    ((declaredVariables v m p attrs names counter).map Variable.name).Perm
      (interfaceNames attrs ++ made p names.of counter) := by
  simp only [name_declaredVariables, made, List.map_append, ← List.append_assoc]
  exact (List.perm_append_comm.append_right _).append_right _

end Names

/-! ## Identifiers of the interface -/

theorem identifier_of_mem_stageAttributes {t : Target} {dir : Direction} {list : List Symbol}
    {builtin : Bool} {i n : Nat} {a : Attribute}
    (h : a ∈ t.stageAttributes dir builtin i n list) (hbuiltin : a.isBuiltin = false) :
    ∃ k s, a.identifier = t.identifier dir k s := by
  induction list generalizing builtin i n with
  | nil => simp [Target.stageAttributes] at h
  | cons s rest ih =>
      simp only [Target.stageAttributes] at h
      split at h <;> rcases List.mem_cons.mp h with rfl | h
      · simp [Attribute.isBuiltin] at hbuiltin
      · exact ih h
      · exact ⟨i, s, rfl⟩
      · exact ih h

theorem attributes_cases {p : Program} {t : Target} {attrs : List Attribute} (hp : p.Valid)
    (ht : Target.parse p.target = .ok t) (h : p.attributes = .ok attrs) :
    ∃ res, attrs = t.stageAttributes .input (t.stage = .fragment) 0 0 p.inputs ++
        t.stageAttributes .output (t.stage = .vertex) 0 0 p.outputs ++ res ∧
      ∀ a ∈ res, a.direction = .resource ∧ (a.sym ∈ p.uniforms ∨ a.sym ∈ p.textures) := by
  rw [hp.attributes_eq ht] at h
  cases hattrs : t.attributes p.inputs p.outputs p.resources with
  | error e =>
      rw [hattrs] at h
      cases h
  | ok attrs' =>
      rw [hattrs] at h
      cases h
      obtain ⟨res, hres, rfl⟩ := Target.attributes_eq_ok hattrs
      refine ⟨res, rfl, fun a ha => ⟨(Target.of_mem_resourceAttributes hres ha).1, ?_⟩⟩
      have hmem := Target.sym_mem_of_mem_resourceAttributes hres ha
      exact List.mem_append.mp (mem_dedup.mp hmem)

theorem sym_of_resource {p : Program} {t : Target} {attrs : List Attribute} (hp : p.Valid)
    (ht : Target.parse p.target = .ok t) (h : p.attributes = .ok attrs) {a : Attribute}
    (ha : a ∈ attrs) (hresource : a.direction = .resource) :
    a.sym ∈ p.uniforms ∨ a.sym ∈ p.textures := by
  obtain ⟨res, rfl, hres⟩ := attributes_cases hp ht h
  simp only [List.mem_append] at ha
  rcases ha with (ha | ha) | ha
  · simp [(Target.of_mem_stageAttributes ha).1] at hresource
  · simp [(Target.of_mem_stageAttributes ha).1] at hresource
  · exact (hres a ha).2

theorem head_identifier {t : Target} (ht : t.backend = .glsl) (k : Nat) (s : Symbol) :
    (t.identifier .input k s).toList.head? = some 'i' ∧
      (t.identifier .output k s).toList.head? = some 'o' := by
  unfold Target.identifier
  split <;> simp [ht, Direction.shortName, toString]

theorem identifier_ne {p : Program} {t : Target} {attrs : List Attribute} (hp : p.Valid)
    (ht : Target.parse p.target = .ok t) (hglsl : t.backend = .glsl)
    (h : p.attributes = .ok attrs) {a b : Attribute} (ha : a ∈ attrs) (hb : b ∈ attrs)
    (hin : a.direction = .input) (hout : b.direction = .output) (ha' : a.isBuiltin = false)
    (hb' : b.isBuiltin = false) : a.identifier ≠ b.identifier := by
  obtain ⟨res, rfl, hres⟩ := attributes_cases hp ht h
  simp only [List.mem_append] at ha hb
  have ha : a ∈ t.stageAttributes .input (t.stage = .fragment) 0 0 p.inputs := by
    rcases ha with (ha | ha) | ha
    · exact ha
    · simp [(Target.of_mem_stageAttributes ha).1] at hin
    · simp [(hres a ha).1] at hin
  have hb : b ∈ t.stageAttributes .output (t.stage = .vertex) 0 0 p.outputs := by
    rcases hb with (hb | hb) | hb
    · simp [(Target.of_mem_stageAttributes hb).1] at hout
    · exact hb
    · simp [(hres b hb).1] at hout
  obtain ⟨k, s, hk⟩ := identifier_of_mem_stageAttributes ha ha'
  obtain ⟨k', s', hk'⟩ := identifier_of_mem_stageAttributes hb hb'
  intro heq
  have hhead := congrArg (fun name => name.toList.head?) heq
  simp only [hk, hk', (head_identifier hglsl k s).1, (head_identifier hglsl k' s').2] at hhead
  cases hhead

/-! ## Names of symbols -/

section Symbols

variable {p : Program} {t : Target} {attrs : List Attribute}

theorem lookup_resourceNames (hp : p.Valid) (ht : Target.parse p.target = .ok t)
    (h : p.attributes = .ok attrs) {s : Symbol}
    (hs : s ∈ p.inputs ++ p.outputs ++ p.temps ++ p.constants) :
    (resourceNames attrs).lookup s = none := by
  rw [List.lookup_eq_none_iff]
  intro q hq
  obtain ⟨a, ha, rfl⟩ := List.mem_map.mp hq
  rw [List.mem_reverse, List.mem_filter, decide_eq_true_eq] at ha
  have horderly := hp.orderly
  have hresource := sym_of_resource hp ht h ha.1 ha.2
  rw [bne_iff_ne]
  rintro rfl
  rcases List.mem_append.mp hs with hs | hs
  · have hlocal := horderly.isLocal_of_mem_locals (mem_dedup.mpr hs)
    rw [horderly.isLocal_of_mem_shared (.inr hresource)] at hlocal
    cases hlocal
  · have hconst : a.sym.role = .const := by simpa using horderly.constants.role _ hs
    rcases hresource with hmem | hmem
    · exact horderly.uniforms.not_mem (by simp [hconst]) hmem
    · exact horderly.textures.not_mem (by simp [hconst]) hmem

theorem named_namesFor (p : Program) (attrs : List Attribute) :
    Named (resourceNames attrs) (reserved attrs) (p.inputs ++ p.outputs ++ p.temps ++ p.constants)
      (namesFor p attrs).1 (namesFor p attrs).2 :=
  named_nameAll _ _ _

theorem mem_named_iff {s : Symbol} :
    s ∈ p.inputs ++ p.outputs ++ p.temps ++ p.constants ↔ s ∈ p.constants ++ p.locals := by
  simp only [List.mem_append, Interface.mem_locals]
  tauto

theorem nodup_constants_locals (hp : p.Valid) : (p.constants ++ p.locals).Nodup := by
  rw [List.nodup_append]
  refine ⟨hp.orderly.constants.nodup, nodup_dedup _, ?_⟩
  rintro s hs _ ht rfl
  have hlocal := hp.orderly.isLocal_of_mem_locals ht
  rw [hp.orderly.isLocal_of_mem_shared (.inl hs)] at hlocal
  cases hlocal

theorem made_namesFor (hp : p.Valid) (ht : Target.parse p.target = .ok t)
    (h : p.attributes = .ok attrs) (g : Graph) :
    let names := (namesFor p attrs).1
    let counter := counterName? (namesFor p attrs).2 g
    (made p names.of counter).Nodup ∧
      ∀ name ∈ made p names.of counter, name ∉ interfaceNames attrs ∧ Namer.Made name := by
  intro names counter
  have hnamed : Named _ _ _ names _ := named_namesFor p attrs
  have hlisted : ∀ s ∈ p.constants ++ p.locals,
      s ∈ p.inputs ++ p.outputs ++ p.temps ++ p.constants := fun _ => mem_named_iff.mpr
  have hnone : ∀ s ∈ p.constants ++ p.locals, (resourceNames attrs).lookup s = none :=
    fun s hs => lookup_resourceNames hp ht h (hlisted s hs)
  have hsymbol : ∀ s ∈ p.constants ++ p.locals, names.lookup s = some (names.of s) ∧
      names.of s ∉ interfaceNames attrs ∧ names.of s ∈ (namesFor p attrs).2.used ∧
      Namer.Made (names.of s) := by
    intro s hs
    obtain ⟨name, hlookup, hfree, hused, hmade⟩ := hnamed.fresh s (hlisted s hs) (hnone s hs)
    have hof : names.of s = name := by simp [Names.of, hlookup]
    rw [hof]
    exact ⟨hlookup, hfree, hused, hmade⟩
  have hcounter : ∀ name ∈ counter, name ∉ (namesFor p attrs).2.used ∧ Namer.Made name := by
    intro name hname
    obtain ⟨hfree, _, hmade⟩ := (namesFor p attrs).2.fresh_spec "node"
    simp only [counter, counterName?] at hname
    split at hname
    · simp at hname
    · rw [← Option.some.inj hname]
      exact ⟨hfree, hmade⟩
  constructor
  · rw [made, List.nodup_append]
    refine ⟨(nodup_constants_locals hp).map_on ?_, by cases counter <;> simp, ?_⟩
    · intro s hs s' hs' heq
      refine hnamed.apart s (hlisted s hs) (hnone s hs) s' (hlisted s' hs') (hnone s' hs') ?_
      rw [(hsymbol s hs).1, (hsymbol s' hs').1, heq]
    · rintro _ hname name hname' rfl
      obtain ⟨s, hs, rfl⟩ := List.mem_map.mp hname
      exact (hcounter _ (by simpa using hname')).1 (hsymbol s hs).2.2.1
  · intro name hname
    rcases List.mem_append.mp hname with hname | hname
    · obtain ⟨s, hs, rfl⟩ := List.mem_map.mp hname
      exact ⟨(hsymbol s hs).2.1, (hsymbol s hs).2.2.2⟩
    · obtain ⟨hfree, hmade⟩ := hcounter name (by simpa using hname)
      exact ⟨fun hmem => hfree (hnamed.used name hmem), hmade⟩

end Symbols

/-! ## Shaders -/

theorem of_compile {p : Program} {o : Options} {out : Output} (h : compile p.sketch o = .ok out) :
    ∃ t, Target.parse p.target = .ok t ∧ t.backend = .glsl ∧ p.attributes = .ok out.attributes ∧
      emit p t o.filled = .ok out := by
  obtain ⟨t, ht, hglsl, hattributes⟩ := attributes_of_compile h
  refine ⟨t, ht, hglsl, hattributes, ?_⟩
  have ht' : Target.parse p.sketch.target = .ok t := ht
  simp only [compile, ht', hglsl, Program.program?_sketch] at h
  split at h
  · cases h
  · split at h
    · cases h
    · cases h
    · rename_i hp
      cases hp
      exact h

/-- The names that a shader may read and assign to: those of its variables and its builtins. -/
def knownNames (xs : List Variable) (attrs : List Attribute) : List String :=
  xs.map Variable.name ++ attrs.map Attribute.identifier

theorem unbroken_namesFor {known : List String} {p : Program} {attrs : List Attribute}
    (hmade : ∀ s ∈ p.constants ++ p.locals, (namesFor p attrs).1.of s ∈ known)
    (hattrs : ∀ a ∈ attrs, a.identifier ∈ known) (s : Symbol) :
    Unbroken known ((namesFor p attrs).1.of s) := by
  cases hlookup : (namesFor p attrs).1.lookup s with
  | none =>
      rw [Names.of, hlookup]
      exact .text (by decide)
  | some name =>
      rcases (named_namesFor p attrs).source s name hlookup with hresource | hs
      · obtain ⟨before, behind, hnames, _⟩ := List.lookup_eq_some_iff.mp hresource
        have hmem : (s, name) ∈ resourceNames attrs := by simp [hnames]
        obtain ⟨a, ha, heq⟩ := List.mem_map.mp hmem
        rw [Names.of, hlookup, Option.getD_some, ← (Prod.mk.inj heq).2]
        exact .name (hattrs a (List.mem_of_mem_filter (List.mem_reverse.mp ha)))
      · exact .name (hmade s (mem_named_iff.mp hs))

theorem declaring_of_emit {p : Program} {t : Target} {o : Options} {out : Output} (hp : p.Valid)
    (h : emit p t o = .ok out) :
    out.structured = isSequence p.graph ∧
      ∃ lines m, out.source = String.join (lines.map (· ++ "\n")) ∧ samplers o.version p = .ok m ∧
        let xs := declaredVariables o.version m p out.attributes (namesFor p out.attributes).1
          (counterName? (namesFor p out.attributes).2 p.graph)
        Declaring (knownNames xs out.attributes) lines xs := by
  obtain ⟨m, hm, h⟩ := exists_of_bind_eq_ok h
  obtain ⟨attrs, _, h⟩ := exists_of_bind_eq_ok h
  obtain ⟨layout, hlayout, h⟩ := exists_of_bind_eq_ok h
  obtain ⟨main, hmain, h⟩ := exists_of_bind_eq_ok h
  cases h
  refine ⟨rfl, _, m, rfl, hm, ?_⟩
  intro xs
  have hvariables : ∀ x ∈ xs.map Variable.name, x ∈ knownNames xs attrs :=
    fun x hx => List.mem_append.mpr (.inl hx)
  have hmade : ∀ x ∈ made p (namesFor p attrs).1.of
      (counterName? (namesFor p attrs).2 p.graph), x ∈ knownNames xs attrs := fun x hx =>
    hvariables x (name_declaredVariables_perm.mem_iff.mpr (List.mem_append.mpr (.inr hx)))
  have hsymbols : ∀ s ∈ p.constants ++ p.locals, (namesFor p attrs).1.of s ∈ knownNames xs attrs :=
    fun s hs => hmade _ (List.mem_append.mpr (.inl (List.mem_map_of_mem hs)))
  have hattrs : ∀ a ∈ attrs, a.identifier ∈ knownNames xs attrs :=
    fun a ha => List.mem_append.mpr (.inr (List.mem_map_of_mem ha))
  have hbody := declaring_mainLines (unbroken_namesFor hsymbols hattrs) hp
    (fun s hs => hsymbols s (List.mem_append.mpr (.inr hs))) hattrs
    (fun counter hcounter =>
      hmade counter (List.mem_append.mpr (.inr (Option.mem_toList.mpr hcounter)))) hmain
  have hfront := ((@declaring_directive (knownNames xs attrs) t o).append
    (declaring_stageLayout hlayout)).append (declaring_precisionLines o)
  exact ((hfront.append (declaring_constantLines _ p.constants)).append
    (declaring_interfaceLines o.version m attrs)).append hbody

/--
The lines of the shader of a valid program declare its constants, its interface, its local
variables and, if it has branches, a counter, one line for each, and the other lines declare
nothing.  The names that are made for constants, local variables and the counter are distinct, are
no keywords and no identifiers of the interface, and begin like a builtin only if they are `gl`
with a number.  An input and an output of the stage have different identifiers.  So the shader
declares no name twice exactly if the identifiers of its interface are distinct.
-/
theorem compile_made_names {p : Program} {o : Options} {out : Output} (hp : p.issues = [])
    (h : compile p.sketch o = .ok out) :
    ∃ (lines : Lines) (m : Samplers) (names : Names) (counter : Option String),
      let xs := declaredVariables o.filled.version m p out.attributes names counter
      out.source = String.join (lines.map (· ++ "\n")) ∧ samplers o.filled.version p = .ok m ∧
      counter.isSome = !out.structured ∧ Declaring (knownNames xs out.attributes) lines xs ∧
      (made p names.of counter).Nodup ∧
      (∀ x ∈ made p names.of counter, x ∉ interfaceNames out.attributes ∧ x ∉ keywords ∧
        (IsBuiltinName x → ∃ k, x = Namer.numbered "gl" k)) ∧
      (∀ a ∈ out.attributes, ∀ b ∈ out.attributes, a.direction = .input → b.direction = .output →
        a.isBuiltin = false → b.isBuiltin = false → a.identifier ≠ b.identifier) ∧
      ((xs.map Variable.name).Nodup ↔ (interfaceNames out.attributes).Nodup) := by
  have hvalid := Program.issues_eq_nil_iff.mp hp
  obtain ⟨t, ht, hglsl, hattributes, hemit⟩ := of_compile h
  obtain ⟨hstructured, lines, m, hsource, hm, hdeclaring⟩ := declaring_of_emit hvalid hemit
  obtain ⟨hnodup, hmade⟩ := made_namesFor hvalid ht hattributes p.graph
  refine ⟨lines, m, _, _, hsource, hm, ?_, hdeclaring, hnodup, ?_, ?_, ?_⟩
  · rw [hstructured, counterName?]
    split <;> simp_all
  · intro x hx
    obtain ⟨hfree, hx⟩ := hmade x hx
    exact ⟨hfree, hx.free, hx.builtin⟩
  · intro a ha b hb hin hout ha' hb'
    exact identifier_ne hvalid ht hglsl hattributes ha hb hin hout ha' hb'
  · rw [name_declaredVariables_perm.nodup_iff, List.nodup_append]
    constructor
    · exact fun hall => hall.1
    · intro hinterface
      refine ⟨hinterface, hnodup, ?_⟩
      rintro x hx _ hx' rfl
      exact (hmade x hx').1 hx

/-- Two inputs whose names only differ in their case style, and a uniform named like a type. -/
def confusing : Program :=
  let x : Symbol := ⟨1, .input, 1, .float32, .attrib, "some_x", []⟩
  let x' : Symbol := ⟨2, .input, 1, .float32, .attrib, "someX", []⟩
  let y : Symbol := ⟨3, .output, 1, .float32, .attrib, "y", []⟩
  let u : Symbol := ⟨4, .uniform, 1, .float32, .attrib, "float", []⟩
  { Interface.empty "glsl:vertex" with
    inputs := [x, x'], outputs := [y], uniforms := [u],
    graph := ⟨[⟨[⟨.mul, .full y, [.full x, .full u]⟩], [], none⟩], 0, 0⟩ }

theorem compile_made_names_confusing : ∃ out lines m names counter,
    let xs := declaredVariables .standard m confusing out.attributes names counter
    compile confusing.sketch {} = .ok out ∧
      out.source = String.join (lines.map (· ++ "\n")) ∧
      Declaring (knownNames xs out.attributes) lines xs ∧
      ¬(xs.map Variable.name).Nodup ∧ (∃ x ∈ xs, x.name ∈ keywords) ∧
      ∀ x ∈ made confusing names.of counter, x ∉ keywords := by
  have hok : (compile confusing.sketch {}).isOk = true := by decide +kernel
  obtain ⟨out, hout⟩ : ∃ out, compile confusing.sketch {} = .ok out := by
    cases hcompile : compile confusing.sketch {} with
    | error e =>
        rw [hcompile] at hok
        cases hok
    | ok out => exact ⟨out, rfl⟩
  obtain ⟨lines, m, names, counter, hsource, _, _, hdeclaring, _, hmade, _, hiff⟩ :=
    compile_made_names (p := confusing) rfl hout
  obtain ⟨_, _, _, hattributes, _⟩ := of_compile hout
  have hnames : interfaceNames out.attributes = ["inSomeX", "inSomeX", "outY", "float"] := by
    have hcomputed : confusing.attributes.toOption.map interfaceNames =
        some ["inSomeX", "inSomeX", "outY", "float"] := by decide +kernel
    rw [hattributes] at hcomputed
    exact Option.some.inj hcomputed
  refine ⟨out, lines, m, names, counter, hout, hsource, hdeclaring, ?_, ?_, ?_⟩
  · refine (not_congr hiff).mpr ?_
    rw [hnames]
    decide
  · have hperm := @name_declaredVariables_perm .standard m confusing out.attributes names counter
    rw [hnames] at hperm
    obtain ⟨x, hx, hname⟩ := List.mem_map.mp (hperm.mem_iff.mpr (List.mem_append.mpr
      (.inl (show "float" ∈ _ by simp))))
    exact ⟨x, hx, hname ▸ by decide +kernel⟩
  · exact fun x hx => (hmade x hx).2.1

end KernelAlgebra.Shader
