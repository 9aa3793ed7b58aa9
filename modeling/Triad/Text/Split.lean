/-!
Text cut at a character.
-/

namespace Triad.Text

/-- The pieces between the places where `mark` stands, one more than there are of them. -/
def split (mark : Char) : List Char → List (List Char)
  | [] => [[]]
  | c :: rest =>
    if c == mark then [] :: split mark rest
    else
      match split mark rest with
      | [] => [[c]]
      | piece :: more => (c :: piece) :: more

end Triad.Text
