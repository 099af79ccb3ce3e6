/-!
# Log lines with a heading and a level
-/

namespace KernelAlgebra

inductive LogLevel where
  | plain
  | warning
  | error
  | debug
  deriving DecidableEq, Repr

def LogLevel.mark : LogLevel → String
  | .warning => "warning: "
  | .error => "error: "
  | .plain | .debug => ""

structure Logger where
  heading : String
  debug : Bool
  deriving Repr

namespace Logger

def withoutFinalLineFeeds (s : String) : String :=
  String.ofList (s.toList.reverse.dropWhile (· == '\n')).reverse

def entry (l : Logger) (level : LogLevel) (message : String) : String :=
  if level = .debug && !l.debug then ""
  else l.heading ++ level.mark ++ withoutFinalLineFeeds message ++ "\n"

end Logger

end KernelAlgebra
