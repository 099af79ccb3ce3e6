/-!
# A source of distinct identifiers
-/

namespace KernelAlgebra.Shader

/-! ## Words that a generated identifier must not use -/

def typeWords : List String :=
  ["void", "bool", "int", "uint", "float", "double",
   "vec2", "vec3", "vec4", "ivec2", "ivec3", "ivec4", "uvec2", "uvec3", "uvec4",
   "bvec2", "bvec3", "bvec4", "dvec2", "dvec3", "dvec4", "mat2", "mat3", "mat4",
   "sampler1D", "sampler2D", "sampler3D", "samplerCube", "sampler2DArray", "samplerBuffer"]

def qualifierWords : List String :=
  ["attribute", "const", "uniform", "varying", "buffer", "shared", "coherent", "volatile",
   "restrict", "readonly", "writeonly", "layout", "centroid", "flat", "smooth",
   "noperspective", "patch", "sample", "subroutine", "in", "out", "inout", "invariant",
   "precise", "lowp", "mediump", "highp", "precision"]

def statementWords : List String :=
  ["break", "continue", "do", "for", "while", "switch", "case", "default", "if", "else",
   "discard", "return", "struct", "true", "false"]

def futureWords : List String :=
  ["common", "partition", "active", "asm", "class", "union", "enum", "typedef", "template",
   "this", "resource", "goto", "inline", "noinline", "public", "static", "extern", "external",
   "interface", "long", "short", "half", "fixed", "unsigned", "superp", "input", "output",
   "hvec2", "hvec3", "hvec4", "fvec2", "fvec3", "fvec4", "filter", "sizeof", "cast",
   "namespace", "using"]

def functionWords : List String :=
  ["main", "radians", "degrees", "sin", "cos", "tan", "asin", "acos", "atan", "pow", "exp",
   "log", "exp2", "log2", "sqrt", "inversesqrt", "abs", "sign", "floor", "trunc", "round",
   "ceil", "fract", "mod", "min", "max", "clamp", "mix", "step", "smoothstep", "length",
   "distance", "dot", "cross", "normalize", "reflect", "refract", "lessThan",
   "lessThanEqual", "greaterThan", "greaterThanEqual", "equal", "notEqual", "any", "all",
   "not", "texture", "textureLod", "texelFetch", "textureSize", "dFdx", "dFdy", "fwidth"]

def keywords : List String :=
  typeWords ++ qualifierWords ++ statementWords ++ futureWords ++ functionWords

/-- Keywords, and names in the space of the builtins. -/
def isReserved (name : String) : Bool :=
  keywords.contains name || ['g', 'l', '_'].isPrefixOf name.toList

def escaped (name : String) : String :=
  if name = "" then "_unnamed" else if isReserved name then "_" ++ name else name

/-! ## Names -/

structure Namer where
  used : List String
  counter : Nat
  deriving DecidableEq, Repr

namespace Namer

def start : Namer := ⟨[], 0⟩

/-- Marks a name as taken, whatever it is. -/
def reserve (n : Namer) (name : String) : Namer := { n with used := name :: n.used }

def numbered (base : String) (k : Nat) : String := s!"{base}_{k}"

/-- The first number from `k` on that makes a name nobody uses, looking at `fuel` numbers. -/
def firstUnused (used : List String) (base : String) : Nat → Nat → Nat
  | 0, k => k
  | fuel + 1, k =>
      if used.contains (numbered base k) then firstUnused used base fuel (k + 1) else k

/--
A name made from `base`: the base itself, or the base with a number.  Among one more number
than there are used names, one is unused.
-/
def fresh (n : Namer) (base : String) : String × Namer :=
  let name := escaped base
  if n.used.contains name then
    let k := firstUnused n.used name (n.used.length + 1) (n.counter + 1)
    (numbered name k, ⟨numbered name k :: n.used, k⟩)
  else (name, n.reserve name)

end Namer

end KernelAlgebra.Shader
