/-!
# Lines

A file may end its lines with a line feed, a carriage return, or both in turn. `unifyNewlines` reads
each of them as a line feed. `splitLines` cuts a text after each line boundary and keeps the
boundaries, so that the lines put together are the text; it knows every boundary of Unicode.
-/

namespace Excise.Text

/-- Read each line terminator as a line feed. -/
def unifyNewlineChars : List Char → List Char
  | [] => []
  | '\r' :: '\n' :: rest => '\n' :: unifyNewlineChars rest
  | c :: rest => (if c = '\r' then '\n' else c) :: unifyNewlineChars rest

/-- The text with each line terminator as a line feed. -/
def unifyNewlines (s : String) : String := String.ofList (unifyNewlineChars s.toList)

/-- The characters that end a line. -/
def boundaries : List Char :=
  ['\n', '\r', '\x0B', '\x0C', '\x1C', '\x1D', '\x1E', '\u0085', '\u2028', '\u2029']

/-- The lines of a text with their ends, given the current line so far in reverse. -/
def splitLinesFrom (line : List Char) : List Char → List (List Char)
  | [] => if line = [] then [] else [line.reverse]
  | '\r' :: '\n' :: rest => ('\n' :: '\r' :: line).reverse :: splitLinesFrom [] rest
  | c :: rest =>
      if c ∈ boundaries then (c :: line).reverse :: splitLinesFrom [] rest
      else splitLinesFrom (c :: line) rest

/-- The lines of a text with their ends. -/
def splitLines (s : String) : List String := (splitLinesFrom [] s.toList).map String.ofList

end Excise.Text
