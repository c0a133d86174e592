/-!
# Pieces of a text

`pieces` cuts a text at every occurrence of a character, which itself is dropped. There is one piece
more than there are occurrences, so pieces may be empty.
-/

namespace Excise.Text

/-- The pieces between the occurrences of a character, given the current piece so far in reverse. -/
def piecesFrom (separator : Char) (piece : List Char) : List Char → List (List Char)
  | [] => [piece.reverse]
  | c :: rest =>
      if c = separator then piece.reverse :: piecesFrom separator [] rest
      else piecesFrom separator (c :: piece) rest

/-- The pieces of a text between the occurrences of a character, one more than there are. -/
def pieces (separator : Char) (s : String) : List String :=
  (piecesFrom separator [] s.toList).map String.ofList

end Excise.Text
