import KernelAlgebra.CommandLine.Arguments
import KernelAlgebra.Number.Integer
import KernelAlgebra.Text.Cut
import KernelAlgebra.Text.Quote

/-!
# Reading a command line, word by word

A word is an option if it starts with a dash and has more than dashes.  The first other word
names the command and the one behind it is the input.  Options may come in any order, but
those of a command only after it.  After a lone `--` no word is an option.
-/

namespace KernelAlgebra.CommandLine

inductive ArgumentError where
  | unknown (word : String)
  | unknownCommand (word : String)
  | missingValue (word : String)
  | malformedFlag (word value : String)
  | malformedInteger (word value : String) (e : Number.ReadError)
  | tooMany (word : String)
  | noInput
  deriving DecidableEq, Repr

def ArgumentError.message : ArgumentError → String
  | unknown word => s!"unknown argument {word}"
  | unknownCommand word => s!"invalid subcommand: {word}"
  | missingValue word => s!"missing value for {word}"
  | malformedFlag word value =>
      s!"error processing {word}: strconv.ParseBool: parsing {Text.quoted value}: invalid syntax"
  | malformedInteger word value e =>
      s!"error processing {word}: strconv.ParseInt: parsing {Text.quoted value}: {e.message}"
  | tooMany word => s!"too many positional arguments at '{word}'"
  | noInput => "input is required"

inductive Stop where
  | help
  | version
  | error (e : ArgumentError)
  deriving DecidableEq, Repr

structure Progress where
  arguments : Arguments := {}
  command : Option Command := none
  positionals : List String := []
  /-- Set once no more options are expected. -/
  literal : Bool := false

def isDash (c : Char) : Bool := c = '-'

def isOption (word : String) : Bool :=
  word.toList.head? == some '-' && !word.toList.all isDash

def nameAndValue (word : String) : String × String :=
  let bare := String.ofList (word.toList.dropWhile isDash)
  (Text.cutOnce? '=' bare).getD (bare, "")

def readFlag? (value : String) : Option Bool :=
  if ["1", "t", "T", "TRUE", "true", "True"].contains value then some true
  else if ["0", "f", "F", "FALSE", "false", "False"].contains value then some false
  else none

/-- Whether the next word can be the value of an option: a number may have a sign. -/
def isValueFor (o : Opt) (word : String) : Bool :=
  match o.shape with
  | .integer _ => (Number.readInteger word).toOption.isSome || !isOption word
  | .flag _ | .text _ | .many _ => !isOption word

def valueOf (o : Opt) (word value : String) (next : Option String) :
    Except ArgumentError (String × Bool) :=
  if value ≠ "" then .ok (value, false)
  else
    match next with
    | none => .error (.missingValue word)
    | some w => if isValueFor o w then .ok (w, true) else .error (.missingValue word)

def applyOption (o : Opt) (word value : String) (next : Option String) (a : Arguments) :
    Except ArgumentError (Arguments × Bool) :=
  match o.shape with
  | .flag set =>
      if value = "" then .ok (set true a, false)
      else
        match readFlag? value with
        | some b => .ok (set b a, false)
        | none => .error (.malformedFlag word value)
  | .text set => do
      let (v, takes) ← valueOf o word value next
      return (set v a, takes)
  | .integer set => do
      let (v, takes) ← valueOf o word value next
      match Number.readInteger v with
      | .ok n => return (set n a, takes)
      | .error e => .error (.malformedInteger word v e)
  | .many add =>
      if value ≠ "" then .ok (add value a, false)
      else
        match next with
        | some w =>
            if isValueFor o w && w ≠ "--" then .ok (add w a, true) else .ok (a, false)
        | none => .ok (a, false)

def Progress.option (p : Progress) (word : String) (next : Option String) :
    Except Stop (Progress × Bool) :=
  if word = "-h" || word = "--help" then .error .help
  else if word = "--version" then .error .version
  else
    let (name, value) := nameAndValue word
    match (optionsFor p.command).find? fun o => o.isNamed name && name ≠ "" with
    | none => .error (.error (.unknown word))
    | some o =>
        match applyOption o word value next p.arguments with
        | .ok (a, takes) => .ok ({ p with arguments := a }, takes)
        | .error e => .error (.error e)

def Progress.word (p : Progress) (word : String) (next : Option String) :
    Except Stop (Progress × Bool) :=
  if word = "--" && !p.literal then .ok ({ p with literal := true }, false)
  else if isOption word && !p.literal then p.option word next
  else
    match p.command with
    | some _ => .ok ({ p with positionals := p.positionals ++ [word] }, false)
    | none =>
        match Command.ofName? word with
        | some c => .ok ({ p with command := some c }, false)
        | none => .error (.error (.unknownCommand word))

def Progress.words (p : Progress) : List String → Progress × Option Stop
  | [] => (p, none)
  | word :: rest =>
      match p.word word rest.head? with
      | .error stop => (p, some stop)
      | .ok (p, takes) =>
          match rest, takes with
          | _ :: rest, true => p.words rest
          | rest, _ => p.words rest

def Progress.finish (p : Progress) : Except ArgumentError Arguments :=
  match p.command, p.positionals with
  | none, _ => .ok p.arguments
  | some _, [] => .error .noInput
  | some _, [input] => .ok { p.arguments with input := input }
  | some _, _ :: extra :: _ => .error (.tooMany extra)

/-- Whether help was asked for anywhere before a lone `--`. -/
def asksForHelp (words : List String) : Bool :=
  (words.takeWhile (· ≠ "--")).any fun w => w = "-h" || w = "--help"

inductive Request where
  | help (c : Option Command)
  | version
  | refuse (e : ArgumentError)
  | perform (c : Command) (a : Arguments)

/-- Whatever is wrong with a command line, a request for help comes first. -/
def orHelp (words : List String) (c : Option Command) (r : Request) : Request :=
  if asksForHelp words then .help c else r

def Request.ofWords (words : List String) : Request :=
  match Progress.words {} words with
  | (p, some .help) => .help p.command
  | (p, some .version) => orHelp words p.command .version
  | (p, some (.error e)) => orHelp words p.command (.refuse e)
  | (p, none) =>
      match p.command, p.finish with
      | none, _ => .help none
      | some c, .ok a => .perform c a
      | some c, .error e => orHelp words (some c) (.refuse e)

end KernelAlgebra.CommandLine
