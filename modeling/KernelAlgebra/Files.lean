import KernelAlgebra.Text.Cut

/-!
# Paths, and files by their paths

Paths are texts with slashes.  A clean path has no empty, `.` or inner `..` parts, and every
file is known by its clean path.
-/

namespace KernelAlgebra

namespace Path

def parts (path : String) : List String := Text.cut '/' path

def isAbsolute (path : String) : Bool := path.toList.head? == some '/'

/-- Takes one part into account; `done` holds the parts before it, the last one first. -/
def cleanStep (absolute : Bool) (done : List String) (part : String) : List String :=
  if part = "" || part = "." then done
  else if part = ".." then
    match done with
    | last :: rest => if last = ".." then part :: done else rest
    | [] => if absolute then [] else [part]
  else part :: done

/-- The shortest path to the same place, found without looking at any file. -/
def clean (path : String) : String :=
  let done := ((parts path).foldl (cleanStep (isAbsolute path)) []).reverse
  if isAbsolute path then "/" ++ String.intercalate "/" done
  else if done.isEmpty then "."
  else String.intercalate "/" done

def upToSlash (path : String) : String :=
  String.ofList (path.toList.reverse.dropWhile (· != '/')).reverse

def base (path : String) : String :=
  String.ofList (path.toList.reverse.takeWhile (· != '/')).reverse

def directory (path : String) : String := clean (upToSlash path)

def join (directory path : String) : String := clean (directory ++ "/" ++ path)

def extension? (path : String) : Option String :=
  let name := (base path).toList.reverse
  if name.contains '.' then
    some (String.ofList ('.' :: (name.takeWhile (· != '.')).reverse))
  else none

example : clean "/a//b/../c/." = "/a/c" := by decide +kernel

example : clean "a/../../b" = "../b" := by decide +kernel

example : extension? "dir.toml/x" = none := by decide +kernel

/-- The path by which a file is known; there is nothing above the root. -/
def key (path : String) : String :=
  let p := clean path
  if p = "." || p = ".." then "/" else p

end Path

/-- The contents of files by the keys of their paths. -/
structure Files where
  entries : List (String × String)

namespace Files

def none : Files := ⟨[]⟩

def ofList (files : List (String × String)) : Files :=
  ⟨files.map fun f => (Path.key f.1, f.2)⟩

def isDirectory (files : Files) (key : String) : Bool :=
  key = "/" || files.entries.any fun f => f.1.startsWith (key ++ "/")

/-- The content of a file.  A directory reads as nothing. -/
def read? (files : Files) (path : String) : Option String :=
  let key := Path.key path
  match files.entries.lookup key with
  | some text => some text
  | .none => if files.isDirectory key then some "" else .none

def missingText (path : String) : String := s!"open {Path.key path}: file does not exist"

end Files

end KernelAlgebra
