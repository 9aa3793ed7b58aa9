import Triad.Text.Ranges

/-!
White space, and text with the white space cut off its ends.
-/

namespace Triad.Text

/-- The code points with the property `White_Space`. -/
def whiteSpaceRanges : Ranges :=
  [(0x9, 0xd), (0x20, 0x20), (0x85, 0x85), (0xa0, 0xa0), (0x1680, 0x1680), (0x2000, 0x200a),
   (0x2028, 0x2029), (0x202f, 0x202f), (0x205f, 0x205f), (0x3000, 0x3000)]

def isWhiteSpace (c : Char) : Bool :=
  whiteSpaceRanges.contains c.toNat

def trimStart (s : String) : String :=
  String.ofList (s.toList.dropWhile isWhiteSpace)

def trimEnd (s : String) : String :=
  String.ofList (s.toList.reverse.dropWhile isWhiteSpace).reverse

def trim (s : String) : String :=
  trimEnd (trimStart s)

end Triad.Text
