/-!
# Trimming text and cutting it at a mark
-/

namespace KernelAlgebra.Text

/-! ## Blanks -/

/-- The characters with the White_Space property. -/
def isBlank (c : Char) : Bool :=
  let n := c.toNat
  (9 ≤ n && n ≤ 13) || n = 32 || n = 0x85 || n = 0xA0 || n = 0x1680 ||
    (0x2000 ≤ n && n ≤ 0x200A) || n = 0x2028 || n = 0x2029 || n = 0x202F ||
    n = 0x205F || n = 0x3000

def trimmedChars (cs : List Char) : List Char :=
  ((cs.dropWhile isBlank).reverse.dropWhile isBlank).reverse

def trimmed (s : String) : String :=
  String.ofList (trimmedChars s.toList)

/-! ## Marks -/

/-- The pieces between the marks; there is one more of them than there are marks. -/
def cutChars (mark : Char) : List Char → List (List Char)
  | [] => [[]]
  | c :: rest =>
      if c = mark then [] :: cutChars mark rest
      else
        match cutChars mark rest with
        | [] => [[c]]
        | piece :: more => (c :: piece) :: more

def cut (mark : Char) (s : String) : List String :=
  (cutChars mark s.toList).map String.ofList

def cutOnce? (mark : Char) (s : String) : Option (String × String) :=
  match s.toList.dropWhile (· != mark) with
  | [] => none
  | _ :: rest => some (String.ofList (s.toList.takeWhile (· != mark)), String.ofList rest)

end KernelAlgebra.Text
