/-!
# What can be wrong with a YAML document

A fault is a complaint and the line that it names.  Complaints about tokens name the line on
which reading stopped, counted from one; complaints about how tokens are put together name the
number of lines above their token; and no complaint names the first line of a document.
-/

namespace KernelAlgebra.Document.Yaml

inductive Complaint where
  -- characters
  | controlCharacter
  | leadingByte
  | missingBytes
  | trailingByte
  | byteCount
  | noCharacter
  -- tokens
  | entryMisplaced
  | keyMisplaced
  | valueMisplaced
  | noToken
  | missingColon
  | tabInPlain
  | markerInQuotes
  | unclosedQuote
  | unknownEscape
  | badHexadecimal
  | badCode
  | zeroIndent
  | textBehindHeader
  | tabInBlock
  | badAnchor
  | unclosedTag
  | textBehindTag
  | missingUri
  | missingExclamation
  | badUriEscape
  | badUriLead
  | badUriTrail
  | missingDirective
  | badDirective
  | unknownDirective
  | missingPoint
  | longVersion
  | missingVersion
  | missingSpace
  -- structure
  | missingKey
  | missingDash
  | unclosedMapping
  | unclosedSequence
  | missingContent
  | missingStart
  | undefinedHandle
  | foreignVersion
  | versionTwice
  | handleTwice
  | unknownAnchor (name : String)
  -- content
  | endlessAnchor (name : String)
  | badMerge
  /-- A scalar looks like `found`, which is not what its tag says. -/
  | wrongTag (found text tag : String)
  | badBase64
  deriving DecidableEq, Repr

def Complaint.text : Complaint → String
  | controlCharacter => "control characters are not allowed"
  | leadingByte => "invalid leading UTF-8 octet"
  | missingBytes => "incomplete UTF-8 octet sequence"
  | trailingByte => "invalid trailing UTF-8 octet"
  | byteCount => "invalid length of a UTF-8 sequence"
  | noCharacter => "invalid Unicode character"
  | entryMisplaced => "block sequence entries are not allowed in this context"
  | keyMisplaced => "mapping keys are not allowed in this context"
  | valueMisplaced => "mapping values are not allowed in this context"
  | noToken => "found character that cannot start any token"
  | missingColon => "could not find expected ':'"
  | tabInPlain => "found a tab character that violates indentation"
  | markerInQuotes => "found unexpected document indicator"
  | unclosedQuote => "found unexpected end of stream"
  | unknownEscape => "found unknown escape character"
  | badHexadecimal => "did not find expected hexdecimal number"
  | badCode => "found invalid Unicode character escape code"
  | zeroIndent => "found an indentation indicator equal to 0"
  | textBehindHeader => "did not find expected comment or line break"
  | tabInBlock => "found a tab character where an indentation space is expected"
  | badAnchor => "did not find expected alphabetic or numeric character"
  | unclosedTag => "did not find the expected '>'"
  | textBehindTag => "did not find expected whitespace or line break"
  | missingUri => "did not find expected tag URI"
  | missingExclamation => "did not find expected '!'"
  | badUriEscape => "did not find URI escaped octet"
  | badUriLead => "found an incorrect leading UTF-8 octet"
  | badUriTrail => "found an incorrect trailing UTF-8 octet"
  | missingDirective => "could not find expected directive name"
  | badDirective => "found unexpected non-alphabetical character"
  | unknownDirective => "found unknown directive name"
  | missingPoint => "did not find expected digit or '.' character"
  | longVersion => "found extremely long version number"
  | missingVersion => "did not find expected version number"
  | missingSpace => "did not find expected whitespace"
  | missingKey => "did not find expected key"
  | missingDash => "did not find expected '-' indicator"
  | unclosedMapping => "did not find expected ',' or '\x7d'"
  | unclosedSequence => "did not find expected ',' or ']'"
  | missingContent => "did not find expected node content"
  | missingStart => "did not find expected <document start>"
  | undefinedHandle => "found undefined tag handle"
  | foreignVersion => "found incompatible YAML document"
  | versionTwice => "found duplicate %YAML directive"
  | handleTwice => "found duplicate %TAG directive"
  | unknownAnchor name => s!"unknown anchor '{name}' referenced"
  | endlessAnchor name => s!"anchor '{name}' value contains itself"
  | badMerge => "map merge requires map or sequence of maps as the value"
  | wrongTag found text tag => s!"cannot decode {found} " ++ "`" ++ text ++ "`" ++ s!" as a {tag}"
  | badBase64 => "!!binary value contains invalid base64 data"

structure Fault where
  complaint : Complaint
  /-- The line that the message names; zero if it names none. -/
  line : Nat := 0
  deriving DecidableEq, Repr

namespace Fault

def inToken (complaint : Complaint) (line : Nat) : Fault :=
  ⟨complaint, if line = 0 then 0 else line + 1⟩

def inOrder (complaint : Complaint) (line : Nat) : Fault := ⟨complaint, line⟩

def message (f : Fault) : String :=
  if f.line = 0 then s!"yaml: {f.complaint.text}"
  else s!"yaml: line {f.line}: {f.complaint.text}"

end Fault

end KernelAlgebra.Document.Yaml
