import KernelAlgebra.Document.Toml.Grammar

/-!
# The tables of a TOML document

Headers and settings build up a table of tables.  No key may be taken twice; a table that only
exists because of the ones in it may still be opened once.
-/

namespace KernelAlgebra.Document.Toml

mutual

inductive Table where
  /-- The line of its header; `opened` unless it only exists because of the ones in it. -/
  | mk (line : Nat) (opened : Bool) (fields : List (String × Field))

inductive Field where
  /-- A value that is no table, with the line on which it ends. -/
  | value (line : Nat) (v : Value)
  | table (t : Table)
  /-- Tables by the line of the first one. -/
  | tables (line : Nat)

end

def Table.line : Table → Nat
  | mk line _ _ => line

def Table.fields : Table → List (String × Field)
  | mk _ _ fields => fields

def Field.line : Field → Nat
  | value line _ | tables line => line
  | table t => t.line

inductive Complaint where
  | badGrammar
  | badEscape
  | keyTaken (key : String) (line : Nat)
  | keyIsTable (key : String) (line : Nat)
  | parentTaken (key : String) (line : Nat)
  | tableTaken (name : String) (line : Nat)
  | tableTwice (name : String) (line : Nat)
  | tableIsArray (name : String) (line : Nat)
  | arrayTaken (name : String) (line : Nat)
  | arrayIsTable (name : String) (line : Nat)
  deriving DecidableEq, Repr

def named (name : String) : String := "`" ++ name ++ "'"

def hexadecimal (n : Nat) : String := String.ofList (Nat.toDigits 16 n)

def Complaint.text : Complaint → String
  | badGrammar => "invalid TOML syntax"
  | badEscape => "invalid syntax"
  | keyTaken key line => s!"key {named key} is in conflict with line {hexadecimal line}d"
  | keyIsTable key line => s!"key {named key} is in conflict with table in line {line}"
  | parentTaken key line => s!"key {named key} is in conflict with line {line}"
  | tableTaken name line => s!"table {named name} is in conflict with line {line}"
  | tableTwice name line => s!"table {named name} is in conflict with table in line {line}"
  | tableIsArray name line => s!"table {named name} is in conflict with array table in line {line}"
  | arrayTaken name line => s!"array table {named name} is in conflict with line {line}"
  | arrayIsTable name line => s!"array table {named name} is in conflict with table in line {line}"

structure Fault where
  line : Nat
  complaint : Complaint
  deriving DecidableEq, Repr

def Fault.message (f : Fault) : String := s!"line {f.line}: {f.complaint.text}"

/-! ## Fields -/

abbrev Fields := List (String × Field)

def Fields.put (fs : Fields) (name : String) (f : Field) : Fields :=
  if fs.any (·.1 = name) then fs.map fun g => if g.1 = name then (name, f) else g
  else fs ++ [(name, f)]

def known (line : Nat) : Unquoted → Except Fault String
  | some s => .ok s
  | none => .error ⟨line, .badEscape⟩

/-- What a new table takes over from the field of its name. -/
def Fields.startTable (fs : Fields) (line : Nat) (name key : String) : Except Fault Fields :=
  match fs.lookup key with
  | none => .ok []
  | some (.table (.mk other opened fields)) =>
      if opened then .error ⟨line, .tableTwice name other⟩ else .ok fields
  | some (.tables other) => .error ⟨line, .tableIsArray name other⟩
  | some (.value other _) => .error ⟨line, .tableTaken name other⟩

def Fields.startTables (fs : Fields) (line : Nat) (name key : String) : Except Fault Fields :=
  match fs.lookup key with
  | none => .ok (fs.put key (.tables line))
  | some (.tables _) => .ok fs
  | some (.table t) => .error ⟨line, .arrayIsTable name t.line⟩
  | some (.value other _) => .error ⟨line, .arrayTaken name other⟩

def Fields.putValue (fs : Fields) (line : Nat) (key : String) (v : Value) : Except Fault Fields :=
  match fs.lookup key with
  | none => .ok (fs.put key (.value line v))
  | some (.value other _) => .error ⟨line, .keyTaken key other⟩
  | some (.table t) => .error ⟨line, .keyIsTable key t.line⟩
  | some (.tables other) => .error ⟨line, .keyIsTable key other⟩

/-! ## Settings -/

mutual

def Fields.set (fs : Fields) : Setting → Except Fault Fields
  | .mk key keyLine v line => do
      let key ← known keyLine key
      match v with
      | .table opened entries =>
          let inner ← Fields.setAll (← Fields.startTable fs opened key key) entries
          return fs.put key (.table (.mk opened false inner))
      | .text s =>
          let _ ← known line s
          Fields.putValue fs line key v
      | .array items =>
          match ← firstTable line items with
          | some first => Fields.startTables fs first key key
          | none => Fields.putValue fs line key v
      | v => Fields.putValue fs line key v

def Fields.setAll (fs : Fields) : List Setting → Except Fault Fields
  | [] => .ok fs
  | s :: rest => do Fields.setAll (← Fields.set fs s) rest

def firstTable (line : Nat) : List Value → Except Fault (Option Nat)
  | [] => .ok none
  | v :: rest => do
      let found ← match v with
        | .table opened entries =>
            let _ ← Fields.setAll [] entries
            pure (some opened)
        | .array items => firstTable line items
        | .text s =>
            let _ ← known line s
            pure none
        | _ => pure none
      let more ← firstTable line rest
      return found.orElse fun _ => more

end

/-! ## Headers -/

/-- The table that a header opens, with its settings, at a path from some fields. -/
def Fields.openTable (fs : Fields) (line : Nat) (name : String) (settings : List Setting) :
    List String → Except Fault Fields
  | [] => .ok fs
  | [key] => do
      let inner ← Fields.setAll (← Fields.startTable fs line name key) settings
      return fs.put key (.table (.mk line true inner))
  | key :: more =>
      match fs.lookup key with
      | none => do
          let inner ← openTable [] line name settings more
          return fs.put key (.table (.mk line false inner))
      | some (.table (.mk other opened fields)) => do
          let inner ← openTable fields line name settings more
          return fs.put key (.table (.mk other opened inner))
      | some (.tables _) => .ok fs
      | some (.value other _) => .error ⟨line, .parentTaken key other⟩

/-- Likewise for one of several tables, of which only the settings are checked. -/
def Fields.openTables (fs : Fields) (line : Nat) (name : String) (settings : List Setting) :
    List String → Except Fault Fields
  | [] => .ok fs
  | [key] => do
      let fs ← Fields.startTables fs line name key
      let _ ← Fields.setAll [] settings
      return fs
  | key :: more =>
      match fs.lookup key with
      | none => do
          let inner ← openTables [] line name settings more
          return fs.put key (.table (.mk line false inner))
      | some (.table (.mk other opened fields)) => do
          let inner ← openTables fields line name settings more
          return fs.put key (.table (.mk other opened inner))
      | some (.tables _) => .ok fs
      | some (.value other _) => .error ⟨line, .parentTaken key other⟩

def settingsOf : List Item → List Setting × List Item
  | .setting s :: rest =>
      let (more, after) := settingsOf rest
      (s :: more, after)
  | items => ([], items)

def Fields.withItems : Nat → Fields → List Item → Except Fault Fields
  | 0, fs, _ => .ok fs
  | _, fs, [] => .ok fs
  | fuel + 1, fs, item :: rest => do
      let (settings, after) := settingsOf rest
      match item with
      | .header line name path =>
          let path ← path.mapM (known line)
          withItems fuel (← Fields.openTable fs line name settings path) after
      | .arrayHeader line name path =>
          let path ← path.mapM (known line)
          withItems fuel (← Fields.openTables fs line name settings path) after
      | .setting s => withItems fuel (← Fields.set fs s) rest

def parse (source : String) : Except Fault Fields :=
  match items source with
  | .error line => .error ⟨line, .badGrammar⟩
  | .ok found => Fields.withItems found.length [] found

end KernelAlgebra.Document.Toml
