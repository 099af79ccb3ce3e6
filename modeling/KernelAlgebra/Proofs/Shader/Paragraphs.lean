import KernelAlgebra.Proofs.Shader.Phrases
import Mathlib.Data.List.Basic

/-!
# The lines of a shader in parts
-/

namespace KernelAlgebra.Shader

abbrev Paragraph := List Phrase

namespace Paragraph

def written (lines : Paragraph) : Lines := lines.map Phrase.written

def plain (lines : Lines) : Paragraph := lines.map fun s => [.text s]

def indented (lines : Paragraph) : Paragraph := lines.map ([.text "    "] ++ ·)

@[simp] theorem written_nil : written [] = [] := rfl

@[simp] theorem written_cons (line : Phrase) (rest : Paragraph) :
    written (line :: rest) = line.written :: written rest := rfl

@[simp] theorem written_append (a b : Paragraph) :
    written (a ++ b) = written a ++ written b := List.map_append

@[simp] theorem written_plain (lines : Lines) : written (plain lines) = lines := by
  simp [written, plain, Function.comp_def, Piece.written]

@[simp] theorem written_indented (lines : Paragraph) :
    written (indented lines) = Shader.indented (written lines) := by
  simp [written, indented, Shader.indented, Function.comp_def, Piece.written]

@[simp] theorem written_flatten (blocks : List Paragraph) :
    written blocks.flatten = (blocks.map written).flatten := List.map_flatten

/-! ## Declarations -/

def constantLines (names : Names) (constants : List Symbol) : Paragraph :=
  if constants.isEmpty then []
  else
    (constants.map fun s => [.text "const ", .vector s.size, .text " ", .text (names.of s),
      .text " = "] ++ Phrase.literal s.value s.size ++ [.text ";"]) ++ plain [""]

def streamLines (a : Attribute) : Paragraph :=
  [[.text (a.decoration ++ " " ++ Text.camelCase a.identifier ++ "Block \x7b")],
   [.text "    ", .vector a.sym.size, .text " ", .text a.identifier, .text "[];"],
   [.text "\x7d;"]]

def resourceLines (v : Version) (m : Samplers) (a : Attribute) : Paragraph :=
  let s := a.sym
  let qualifier := if v.supportsResourceLayouts then a.decoration else "uniform"
  match s.role with
  | .texture => plain [s!"{qualifier} sampler{(m.lookup s).getD 2}D {a.identifier};"]
  | .stream => streamLines a
  | _ =>
      let declaration : Phrase :=
        [.text qualifier, .text " ", .vector s.size, .text " ", .text a.identifier]
      if s.hasValue && !v.es then
        [declaration ++ [.text " = "] ++ Phrase.literal s.value s.size ++ [.text ";"]]
      else [declaration ++ [.text ";"]]

def attributeLines (v : Version) (m : Samplers) (a : Attribute) : Paragraph :=
  if a.isBuiltin then []
  else
    match a.direction with
    | .resource => resourceLines v m a
    | dir =>
        let qualifier := if v.supportsStageLocations then a.decoration else dir.name
        [[.text qualifier, .text " ", .vector a.sym.size, .text " ", .text a.identifier,
          .text ";"]]

def interfaceLines (v : Version) (m : Samplers) (attrs : List Attribute) : Paragraph :=
  let lines := attrs.flatMap (attributeLines v m)
  if lines.isEmpty then [] else lines ++ plain [""]

/-! ## The main function -/

def inputExpr (a : Attribute) : Phrase :=
  let n := a.sym.size
  if !a.isBuiltin || n = 4 then [.text a.identifier]
  else [.text a.identifier, .selection (View.selectorLetters.take n)]

def outputExpr (names : Names) (a : Attribute) : Phrase :=
  let name := names.of a.sym
  let n := a.sym.size
  if !a.isBuiltin || n = 4 then [.text name]
  else
    [.vector 4, .text ("(" ++
      String.intercalate ", " ([name] ++ List.replicate (3 - n) "0.0" ++ ["1.0"]) ++ ")")]

def localLine (names : Names) (attrs : List Attribute) (s : Symbol) :
    Except ShaderError Phrase :=
  let line := fun (start : Phrase) =>
    [.vector s.size, .text " ", .text (names.of s), .text " = "] ++ start ++ [.text ";"]
  match inputAttribute? attrs s with
  | some a => if a.isBuiltin && 4 < s.size then .error .crash else .ok (line (inputExpr a))
  | none => .ok (line (Phrase.zero s.size))

def outputLines (names : Names) (attrs : List Attribute) : Paragraph :=
  (attrs.filter (·.direction = .output)).map fun a =>
    [.text a.identifier, .text " = "] ++ outputExpr names a ++ [.text ";"]

def blockLines (st : Style) (id : Nat) (block : Block) : Except ShaderError Paragraph := do
  let statements ← block.mapM (Phrase.statement st.names st.stage)
  return (if st.debugInfo && !block.isEmpty then plain [s!"// node {id}"] else []) ++
    statements.flatten

def chainLines (st : Style) (g : Graph) :
    Nat → List Nat → Option Nat → Except ShaderError Paragraph
  | 0, _, _ => .ok []
  | _ + 1, _, none => .ok []
  | fuel + 1, seen, some id =>
      if id = Graph.nowhere || id ∈ seen then .ok []
      else
        match g.node id with
        | .error f => .error (.fault f)
        | .ok n => do
            let here ← blockLines st id n.block
            let rest ← chainLines st g fuel (id :: seen) n.follower
            return here ++ rest

def branchLines (st : Style) (counter : String) (b : Branch) : Except ShaderError Paragraph := do
  let e ← Phrase.conditionExpr st.names b.cond
  return [[.text "if ("] ++ e ++ [.text (" > 0.0) " ++ "\x7b")]] ++
    plain [s!"    {counter} = {b.target};", "    break;", "\x7d"]

def caseLines (st : Style) (counter : String) (id : Nat) (n : Node) :
    Except ShaderError Paragraph := do
  let block ← blockLines st id n.block
  let branches ← n.branches.mapM (branchLines st counter)
  let next := match n.follower with
    | some f => toString f
    | none => "-1"
  return plain [s!"case {id}:"] ++
    indented (block ++ branches.flatten ++ plain [s!"{counter} = {next};", "break;"])

def switchLines (st : Style) (counter : String) (g : Graph) : Except ShaderError Paragraph := do
  let cases ← g.reachableNodes.mapM fun q => caseLines st counter q.1 q.2
  return plain [s!"int {counter} = {g.entry};", s!"while ({counter} >= 0) " ++ "\x7b"] ++
    indented (plain [s!"switch ({counter}) " ++ "\x7b"] ++ cases.flatten ++
      plain ["default:", s!"    {counter} = -1;", "    break;", "\x7d"]) ++
    plain ["\x7d"]

def graphLines (st : Style) (n : Namer) (g : Graph) : Except ShaderError Paragraph :=
  if isSequence g then chainLines st g (g.size + 1) [] (some g.entry)
  else switchLines st (n.fresh "node").1 g

def mainLines (p : Program) (attrs : List Attribute) (st : Style) (n : Namer) :
    Except ShaderError Paragraph := do
  let locals ← p.locals.mapM (localLine st.names attrs)
  let body ← graphLines st n p.graph
  return plain ["void main() \x7b"] ++
    indented (locals ++ body ++ outputLines st.names attrs) ++ plain ["\x7d"]

def shaderLines (p : Program) (t : Target) (o : Options) : Except ShaderError Paragraph := do
  let m ← samplers o.version p
  let attrs ← p.attributes.mapError .ofAttributes
  let layout ← stageLayout t o.version
  let (names, n) := namesFor p attrs
  let main ← mainLines p attrs ⟨names, t.stage, o.debugInfo⟩ n
  return plain (directive t o ++ layout ++ precisionLines o) ++ constantLines names p.constants ++
    interfaceLines o.version m attrs ++ main

def source (lines : Paragraph) : String := String.join ((written lines).map (· ++ "\n"))

/-! ## What they write -/

theorem written_constantLines (names : Names) (constants : List Symbol) :
    written (constantLines names constants) = Shader.constantLines names constants := by
  unfold constantLines Shader.constantLines
  split
  · rfl
  · simp [written, Function.comp_def, Piece.written, Phrase.written_literal, toString,
      String.append_assoc, plain]

theorem written_resourceLines (v : Version) (m : Samplers) (a : Attribute) :
    written (resourceLines v m a) = Shader.resourceLines v m a := by
  cases hrole : a.sym.role
  case texture => simp [resourceLines, Shader.resourceLines, hrole]
  case stream =>
    simp [resourceLines, Shader.resourceLines, hrole, streamLines, Shader.streamLines,
      Piece.written, toString, String.append_assoc]
  all_goals
    simp only [resourceLines, Shader.resourceLines, hrole]
    split <;> simp [Piece.written, Phrase.written_literal, toString, String.append_assoc]

theorem written_attributeLines (v : Version) (m : Samplers) (a : Attribute) :
    written (attributeLines v m a) = Shader.attributeLines v m a := by
  unfold attributeLines Shader.attributeLines
  split
  · rfl
  · cases a.direction
    case resource => exact written_resourceLines v m a
    all_goals simp [Piece.written, toString, String.append_assoc]

theorem written_interfaceLines (v : Version) (m : Samplers) (attrs : List Attribute) :
    written (interfaceLines v m attrs) = Shader.interfaceLines v m attrs := by
  have hlines : written (attrs.flatMap (attributeLines v m)) =
      attrs.flatMap (Shader.attributeLines v m) := by
    rw [written, List.map_flatMap]
    exact List.flatMap_congr fun a _ => written_attributeLines v m a
  have hempty : (attrs.flatMap (attributeLines v m)).isEmpty =
      (attrs.flatMap (Shader.attributeLines v m)).isEmpty := by
    rw [← hlines]
    simp [written]
  unfold interfaceLines Shader.interfaceLines
  simp only [hempty]
  split
  · rfl
  · simp [hlines]

theorem written_inputExpr (a : Attribute) : (inputExpr a).written = Shader.inputExpr a := by
  unfold inputExpr Shader.inputExpr
  simp only
  split <;> simp [Piece.written, letters, toString, String.append_assoc]

theorem written_outputExpr (names : Names) (a : Attribute) :
    (outputExpr names a).written = Shader.outputExpr names a := by
  unfold outputExpr Shader.outputExpr
  simp only
  split
  · simp [Piece.written]
  · have htype : "vec4(" = typeName 4 ++ "(" := rfl
    simp [Piece.written, htype, String.append_assoc]

theorem written_localLine (names : Names) (attrs : List Attribute) (s : Symbol) :
    Shader.localLine names attrs s = (localLine names attrs s).map Phrase.written := by
  unfold localLine Shader.localLine
  simp only
  cases inputAttribute? attrs s with
  | none => simp [Except.map, Piece.written, Phrase.written_zero, toString, String.append_assoc]
  | some a =>
      simp only
      split
      · rfl
      · simp [Except.map, Piece.written, written_inputExpr, toString, String.append_assoc]

theorem written_outputLines (names : Names) (attrs : List Attribute) :
    written (outputLines names attrs) = Shader.outputLines names attrs := by
  simp [outputLines, Shader.outputLines, written, Function.comp_def, Piece.written,
    written_outputExpr, toString, String.append_assoc]

theorem written_blockLines (st : Style) (id : Nat) (block : Block) :
    Shader.blockLines st id block = (blockLines st id block).map written := by
  unfold blockLines Shader.blockLines
  rw [Phrase.mapM_eq_map fun i _ => Phrase.written_statement st.names st.stage i]
  cases block.mapM (Phrase.statement st.names st.stage) with
  | error e => rfl
  | ok statements =>
      refine congrArg Except.ok ?_
      rw [written_append, written_flatten]
      split <;> simp [written_plain] <;> rfl

theorem written_chainLines (st : Style) (g : Graph) (fuel : Nat) (seen : List Nat)
    (id : Option Nat) :
    Shader.chainLines st g fuel seen id = (chainLines st g fuel seen id).map written := by
  induction fuel generalizing seen id with
  | zero => rfl
  | succ fuel ih =>
      cases id with
      | none => rfl
      | some id =>
          unfold chainLines Shader.chainLines
          split
          · rfl
          cases g.node id with
          | error f => rfl
          | ok n =>
              simp only [written_blockLines, ih]
              cases blockLines st id n.block with
              | error e => rfl
              | ok here =>
                  cases chainLines st g fuel (id :: seen) n.follower with
                  | error e => rfl
                  | ok rest => exact congrArg Except.ok (written_append here rest).symm

theorem written_branchLines (st : Style) (counter : String) (b : Branch) :
    Shader.branchLines st counter b = (branchLines st counter b).map written := by
  unfold branchLines Shader.branchLines
  rw [Phrase.written_conditionExpr]
  cases Phrase.conditionExpr st.names b.cond with
  | error e => rfl
  | ok e =>
      refine congrArg Except.ok ?_
      simp [Piece.written, toString, String.append_assoc]

theorem written_caseLines (st : Style) (counter : String) (id : Nat) (n : Node) :
    Shader.caseLines st counter id n = (caseLines st counter id n).map written := by
  unfold caseLines Shader.caseLines
  rw [written_blockLines, Phrase.mapM_eq_map fun b _ => written_branchLines st counter b]
  cases blockLines st id n.block with
  | error e => rfl
  | ok block =>
      cases n.branches.mapM (branchLines st counter) with
      | error e => rfl
      | ok branches =>
          refine congrArg Except.ok ?_
          cases n.follower <;> simp

theorem written_switchLines (st : Style) (counter : String) (g : Graph) :
    Shader.switchLines st counter g = (switchLines st counter g).map written := by
  unfold switchLines Shader.switchLines
  rw [Phrase.mapM_eq_map fun q _ => written_caseLines st counter q.1 q.2]
  cases g.reachableNodes.mapM fun q => caseLines st counter q.1 q.2 with
  | error e => rfl
  | ok cases =>
      refine congrArg Except.ok ?_
      simp

theorem written_graphLines (st : Style) (n : Namer) (g : Graph) :
    Shader.graphLines st n g = (graphLines st n g).map written := by
  unfold graphLines Shader.graphLines
  split
  · exact written_chainLines st g _ _ _
  · exact written_switchLines st _ g

theorem written_mainLines (p : Program) (attrs : List Attribute) (st : Style) (n : Namer) :
    Shader.mainLines p attrs st n = (mainLines p attrs st n).map written := by
  unfold mainLines Shader.mainLines
  rw [Phrase.mapM_eq_map fun s _ => written_localLine st.names attrs s, written_graphLines]
  cases p.locals.mapM (localLine st.names attrs) with
  | error e => rfl
  | ok locals =>
      cases graphLines st n p.graph with
      | error e => rfl
      | ok body =>
          refine congrArg Except.ok ?_
          simp [written_outputLines]
          rfl

theorem source_shaderLines (p : Program) (t : Target) (o : Options) :
    (emit p t o).map Output.source = (shaderLines p t o).map source := by
  unfold emit shaderLines
  cases samplers o.version p with
  | error e => rfl
  | ok m =>
      cases p.attributes.mapError ShaderError.ofAttributes with
      | error e => rfl
      | ok attrs =>
          cases stageLayout t o.version with
          | error e => rfl
          | ok layout =>
              simp only [bind, Except.bind, written_mainLines]
              cases mainLines p attrs ⟨(namesFor p attrs).1, t.stage, o.debugInfo⟩
                  (namesFor p attrs).2 with
              | error e => rfl
              | ok main =>
                  refine congrArg Except.ok ?_
                  simp only [source, written_append, written_plain, written_constantLines,
                    written_interfaceLines]

theorem shaderLines_of_emit_error {p : Program} {t : Target} {o : Options} {e : ShaderError}
    (h : emit p t o = .error e) : shaderLines p t o = .error e := by
  have hsource := source_shaderLines p t o
  rw [h] at hsource
  cases hlines : shaderLines p t o with
  | error e' =>
      rw [hlines] at hsource
      cases hsource
      rfl
  | ok lines =>
      rw [hlines] at hsource
      cases hsource

theorem exists_lines_of_emit {p : Program} {t : Target} {o : Options} {out : Output}
    (h : emit p t o = .ok out) : ∃ lines, shaderLines p t o = .ok lines ∧
      out.source = source lines := by
  have hsource := source_shaderLines p t o
  rw [h] at hsource
  cases hlines : shaderLines p t o with
  | error e =>
      rw [hlines] at hsource
      cases hsource
  | ok lines =>
      rw [hlines] at hsource
      exact ⟨lines, rfl, Except.ok.inj hsource⟩

end Paragraph

end KernelAlgebra.Shader
