import KernelAlgebra.Document.Yaml.Stream

/-!
# The nodes of a document

A document is a scalar, a sequence or a mapping.  Every node knows the line on which it starts,
and an alias holds the node that it stands for.  Only the first document of a stream is read.
-/

namespace KernelAlgebra.Document.Yaml

structure Scalar where
  /-- How many lines lie above it. -/
  line : Nat
  text : String
  tag : String := ""
  /-- Written without quotes and tag, so that its look decides its type. -/
  plain : Bool := true
  deriving DecidableEq, Repr

inductive Node where
  | scalar (s : Scalar)
  | sequence (line : Nat) (items : List Node)
  | mapping (line : Nat) (entries : List (Node × Node))
  | reference (line : Nat) (target : Node)
  /-- An alias inside the very node that it stands for. -/
  | loop (line : Nat) (name : String)
  deriving Repr

def Node.line : Node → Nat
  | scalar s => s.line
  | sequence line _ | mapping line _ | reference line _ | loop line _ => line

/-- A node that can be referred to by name; it is missing as long as it is being read. -/
structure Anchored where
  name : String
  number : Nat
  node : Option Node := none

structure Draft where
  stream : Stream
  handles : List (String × String) := []
  /-- The last one first. -/
  anchored : List Anchored := []

abbrev Composing := StateT Draft (Except Fault)

namespace Composing

def complain {α : Type} (f : Fault) : Composing α := fun _ => .error f

def peek : Composing Token := do
  let d ← get
  match d.stream.filled with
  | .error f => complain f
  | .ok s =>
      set { d with stream := s }
      return s.queue.head?.getD ⟨.streamEnd, s.line⟩

def skip : Composing Unit := modify fun d =>
  { d with stream := { d.stream with queue := d.stream.queue.tail, taken := d.stream.taken + 1 } }

def next : Composing Token := do
  skip
  peek

/-! ## Anchors -/

def openAnchor (name : Option String) : Composing Nat := do
  let d ← get
  let number := d.anchored.length
  match name with
  | some name => set { d with anchored := ⟨name, number, none⟩ :: d.anchored }
  | none => pure ()
  return number

def closeAnchor (name : Option String) (number : Nat) (n : Node) : Composing Node := do
  if name.isSome then
    modify fun d => { d with anchored := d.anchored.map fun a =>
      if a.number = number then { a with node := some n } else a }
  return n

def aliasNode (line : Nat) (name : String) : Composing Node := do
  match (← get).anchored.find? (·.name = name) with
  | none => complain { complaint := .unknownAnchor name }
  | some { node := some n, .. } => return .reference line n
  | some { node := none, .. } => return .loop line name

/-! ## Tags -/

def standardHandles : List (String × String) :=
  [("!", "!"), ("!!", "tag:yaml.org,2002:")]

def fullTag (line : Nat) (t : Tag) : Composing String := do
  if t.handle = "" then return t.suffix
  match (← get).handles.lookup t.handle with
  | some meaning => return meaning ++ t.suffix
  | none => complain (.inOrder .undefinedHandle line)

/-- Takes the directives of a document into account; `versioned` says that one gave a version. -/
def directives : Nat → Bool → Composing Unit
  | 0, _ => pure ()
  | fuel + 1, versioned => do
      let t ← peek
      match t.kind with
      | .directive (.version major minor) =>
          if versioned then complain (.inOrder .versionTwice t.line)
          else if major ≠ 1 || minor ≠ 1 then complain (.inOrder .foreignVersion t.line)
          else
            skip
            directives fuel true
      | .directive (.handle name meaning) =>
          let d ← get
          if (d.handles.lookup name).isSome then complain (.inOrder .handleTwice t.line)
          else
            set { d with handles := d.handles ++ [(name, meaning)] }
            skip
            directives fuel versioned
      | _ => modify fun d => { d with handles := d.handles ++ standardHandles }

structure Properties where
  anchor : Option String := none
  tag : Option (Nat × Tag) := none

def properties : Composing Properties := do
  let t ← peek
  match t.kind with
  | .anchor name =>
      let u ← next
      match u.kind with
      | .tag tag =>
          skip
          return ⟨some name, some (u.line, tag)⟩
      | _ => return ⟨some name, none⟩
  | .tag tag =>
      let u ← next
      match u.kind with
      | .anchor name =>
          skip
          return ⟨some name, some (t.line, tag)⟩
      | _ => return ⟨none, some (t.line, tag)⟩
  | _ => return {}

/-! ## Nodes -/

def blankAt (line : Nat) : Node := .scalar { line, text := "" }

def endsBlockEntry : TokenKind → Bool
  | .blockEntry | .blockEnd => true
  | _ => false

def endsBlockPart : TokenKind → Bool
  | .key | .value | .blockEnd => true
  | _ => false

def endsFlowPart (closing : TokenKind) (k : TokenKind) : Bool :=
  k = .flowEntry || k = closing

mutual

/--
A node.  Blocks start only where `block` is set; a sequence without indentation of its own,
only where `loose` is set.
-/
def node : Nat → Bool → Bool → Composing Node
  | 0, _, _ => return blankAt 0
  | fuel + 1, block, loose => do
      let first ← peek
      match first.kind with
      | .reference name =>
          skip
          aliasNode first.line name
      | _ =>
          let p ← properties
          let t ← peek
          let tag ← match p.tag with
            | some (line, tag) => fullTag line tag
            | none => pure ""
          let number ← openAnchor p.anchor
          let n ← content fuel block loose p.anchor.isSome tag first.line t
          closeAnchor p.anchor number n

def content : Nat → Bool → Bool → Bool → String → Nat → Token → Composing Node
  | 0, _, _, _, _, line, _ => return blankAt line
  | fuel + 1, block, loose, anchored, tag, line, t => do
      match t.kind with
      | .scalar text plain =>
          skip
          return .scalar ⟨line, text, tag, tag = "" && plain || tag = "!"⟩
      | .flowSequenceStart =>
          skip
          return .sequence line (← flowItems fuel true)
      | .flowMappingStart =>
          skip
          return .mapping line (← flowPairs fuel true)
      | _ =>
          if loose && t.kind = .blockEntry then
            return .sequence line (← looseItems fuel)
          else if block && t.kind = .blockSequenceStart then
            skip
            return .sequence line (← blockItems fuel)
          else if block && t.kind = .blockMappingStart then
            skip
            return .mapping line (← blockPairs fuel)
          else if anchored || tag ≠ "" then
            return .scalar ⟨line, "", tag, tag = ""⟩
          else complain (.inOrder .missingContent t.line)

def blockItems : Nat → Composing (List Node)
  | 0 => return []
  | fuel + 1 => do
      let t ← peek
      match t.kind with
      | .blockEntry =>
          let u ← next
          let n ← if endsBlockEntry u.kind then pure (blankAt t.line) else node fuel true false
          return n :: (← blockItems fuel)
      | .blockEnd =>
          skip
          return []
      | _ => complain (.inOrder .missingDash t.line)

def looseItems : Nat → Composing (List Node)
  | 0 => return []
  | fuel + 1 => do
      let t ← peek
      match t.kind with
      | .blockEntry =>
          let u ← next
          let n ←
            if endsBlockEntry u.kind || endsBlockPart u.kind then pure (blankAt t.line)
            else node fuel true false
          return n :: (← looseItems fuel)
      | _ => return []

def blockPairs : Nat → Composing (List (Node × Node))
  | 0 => return []
  | fuel + 1 => do
      let t ← peek
      match t.kind with
      | .key =>
          let u ← next
          let k ← if endsBlockPart u.kind then pure (blankAt t.line) else node fuel true true
          let v ← blockValue fuel
          return (k, v) :: (← blockPairs fuel)
      | .blockEnd =>
          skip
          return []
      | _ => complain (.inOrder .missingKey t.line)

def blockValue : Nat → Composing Node
  | 0 => return blankAt 0
  | fuel + 1 => do
      let t ← peek
      match t.kind with
      | .value =>
          let u ← next
          if endsBlockPart u.kind then return blankAt t.line else node fuel true true
      | _ => return blankAt t.line

/-- The items of a flow sequence; all but the first one stand behind commas. -/
def flowItems : Nat → Bool → Composing (List Node)
  | 0, _ => return []
  | fuel + 1, first => do
      let t ← peek
      if t.kind = .flowSequenceEnd then
        skip
        return []
      else if !first && t.kind ≠ .flowEntry then
        complain (.inOrder .unclosedSequence t.line)
      else
        let t ← if first then pure t else next
        match t.kind with
        | .flowSequenceEnd =>
            skip
            return []
        | .key =>
            skip
            let n ← singlePair fuel t.line
            return n :: (← flowItems fuel false)
        | _ =>
            let n ← node fuel false false
            return n :: (← flowItems fuel false)

def singlePair : Nat → Nat → Composing Node
  | 0, line => return blankAt line
  | fuel + 1, line => do
      let t ← peek
      let k ←
        if t.kind = .value || endsFlowPart .flowSequenceEnd t.kind then do
          skip
          pure (blankAt t.line)
        else node fuel false false
      let v ← flowValue fuel .flowSequenceEnd
      return .mapping line [(k, v)]

def flowValue : Nat → TokenKind → Composing Node
  | 0, _ => return blankAt 0
  | fuel + 1, closing => do
      let t ← peek
      match t.kind with
      | .value =>
          let u ← next
          if endsFlowPart closing u.kind then return blankAt u.line else node fuel false false
      | _ => return blankAt t.line

def flowPairs : Nat → Bool → Composing (List (Node × Node))
  | 0, _ => return []
  | fuel + 1, first => do
      let t ← peek
      if t.kind = .flowMappingEnd then
        skip
        return []
      else if !first && t.kind ≠ .flowEntry then
        complain (.inOrder .unclosedMapping t.line)
      else
        let t ← if first then pure t else next
        match t.kind with
        | .flowMappingEnd =>
            skip
            return []
        | .key =>
            let u ← next
            let k ←
              if u.kind = .value || endsFlowPart .flowMappingEnd u.kind then pure (blankAt u.line)
              else node fuel false false
            let v ← flowValue fuel .flowMappingEnd
            return (k, v) :: (← flowPairs fuel false)
        | _ =>
            let k ← node fuel false false
            let u ← peek
            return (k, blankAt u.line) :: (← flowPairs fuel false)

end

/-! ## Documents -/

def endsDocument : TokenKind → Bool
  | .directive _ | .documentStart | .documentEnd | .streamEnd => true
  | _ => false

/-- The first document, if there is one; the token behind it has to make sense as well. -/
def document (fuel : Nat) : Composing (Option Node) := do
  let t ← peek
  match t.kind with
  | .streamEnd => return none
  | .directive _ | .documentStart =>
      directives fuel false
      let t ← peek
      if t.kind ≠ .documentStart then complain (.inOrder .missingStart t.line)
      else
        let u ← next
        let n ← if endsDocument u.kind then pure (blankAt u.line) else node fuel true false
        let _ ← peek
        return some n
  | _ =>
      directives fuel false
      let n ← node fuel true false
      let _ ← peek
      return some n

end Composing

/--
More steps than reading can take: a character gives four tokens at most, and every call or the
one before it goes behind a token.
-/
def stepsFor (ahead : Ahead) : Nat := 16 * (ahead.length + 4)

def parse (source : Text) : Except Fault (Option Node) := do
  let cs ← characters (withoutMark source)
  let ahead := placesFrom {} cs
  let (n, _) ← (Composing.document (stepsFor ahead)).run { stream := .ofPlaces ahead }
  return n

/-! A plain scalar goes on in a line that is indented further, and only one key fits a line. -/

example :
    (match parse (Text.ofString "a: b\n  c\n") with
      | .ok (some (.mapping 0 [(.scalar k, .scalar v)])) => some (k.text, v.text)
      | _ => none) = some ("a", "b c") := by
  decide +kernel

example :
    (match parse (Text.ofString "a: b\nc: d: e\n") with
      | .error f => f.message
      | .ok _ => "") = "yaml: line 2: mapping values are not allowed in this context" := by
  decide +kernel

end KernelAlgebra.Document.Yaml
