import Excise.Text.Blank

/-!
# Marked-up text

Output is written in a markup in which a tag sets a style: a bracket, a small letter or one of `#`,
`/` and `@`, and more up to the closing bracket. An odd number of backslashes before a tag makes it
plain text, and a pair of them stands for one. `Markup.escape` protects the tags of a text, and
`Markup.plain?` gives what is shown, without the styles. A text that is shown after it was escaped
(`Markup.shown`) is the same but for two things: a backslash before a bracket that opens no tag is
lost, and a single backslash at the end is doubled.
-/

namespace Excise.Program.Markup

/-- A part of a marked-up text: a character, or a tag with the number of backslashes before it and
what stands between its brackets. -/
inductive Token where
  | char (c : Char)
  | tag (backslashes : Nat) (body : List Char)
deriving DecidableEq

/-- The text of a tag. -/
def bracketed (body : List Char) : List Char := '[' :: (body ++ [']'])

/-- The text of a token. -/
def Token.text : Token → List Char
  | .char c => [c]
  | .tag backslashes body => List.replicate backslashes '\\' ++ bracketed body

/-- The character can follow the bracket of a tag. -/
def OpensTag (c : Char) : Prop := c.isLower ∨ c ∈ ['#', '/', '@']

/-- The character is looked up. -/
instance (c : Char) : Decidable (OpensTag c) := inferInstanceAs (Decidable (_ ∨ _))

/-- The character can stand between the brackets of a tag. -/
def InTag (c : Char) : Prop := c ≠ '[' ∧ c ≠ ']'

/-- The character is compared. -/
instance (c : Char) : Decidable (InTag c) := inferInstanceAs (Decidable (_ ∧ _))

/-- The tag that a text begins with, as what stands between its brackets, and the rest. -/
def tag? : List Char → Option (List Char × List Char)
  | '[' :: c :: tail =>
      match tail.dropWhile (InTag ·) with
      | ']' :: rest => if OpensTag c then some (c :: tail.takeWhile (InTag ·), rest) else none
      | _ => none
  | _ => none

theorem eq_append_of_tag? {s body rest : List Char} (h : tag? s = some (body, rest)) :
    s = bracketed body ++ rest := by
  unfold tag? at h
  split at h
  · rename_i c tail
    split at h
    · rename_i after hafter
      split at h
      · cases h
        have hsplit := List.takeWhile_append_dropWhile (p := (InTag ·)) (l := tail)
        rw [hafter] at hsplit
        simp [bracketed, hsplit]
      · simp at h
    · simp at h
  · simp at h

/-- The tokens of a text. A tag takes in the backslashes before it. -/
def tokens (s : List Char) : List Token :=
  match _h : tag? (s.dropWhile (· = '\\')) with
  | some (body, rest) => .tag (s.takeWhile (· = '\\')).length body :: tokens rest
  | none =>
      match s with
      | [] => []
      | c :: rest => .char c :: tokens rest
termination_by s.length
decreasing_by
  · have hlength := congrArg List.length (eq_append_of_tag? _h)
    have hle := (List.dropWhile_suffix (fun c => decide (c = '\\')) (l := s)).length_le
    simp only [bracketed, List.length_append, List.length_cons] at hlength
    omega
  · simp

theorem takeWhile_eq_replicate (c : Char) (s : List Char) :
    s.takeWhile (· = c) = List.replicate (s.takeWhile (· = c)).length c := by
  induction s with
  | nil => rfl
  | cons d rest ih =>
    by_cases h : d = c
    · subst h
      simp [List.replicate_succ, ← ih]
    · simp [h]

/-- The tokens of a text are the whole of it. -/
theorem flatMap_text_tokens (s : List Char) : (tokens s).flatMap Token.text = s := by
  fun_induction tokens s with
  | case1 s body rest h ih =>
    have hrest := eq_append_of_tag? h
    rw [List.flatMap_cons, ih, Token.text, ← takeWhile_eq_replicate, List.append_assoc, ← hrest]
    exact List.takeWhile_append_dropWhile
  | case2 => rfl
  | case3 c rest h ih => rw [List.flatMap_cons, ih]; rfl

/-- The tag of an escaped text has its backslashes doubled and one more. -/
def Token.escaped : Token → List Char
  | .char c => [c]
  | .tag backslashes body => List.replicate (2 * backslashes + 1) '\\' ++ bracketed body

/-- A single backslash at the end is doubled, so that it escapes nothing behind it. -/
def closeEnd (s : List Char) : List Char :=
  match s.reverse with
  | '\\' :: '\\' :: _ => s
  | '\\' :: _ => s ++ ['\\']
  | _ => s

/-- The text with its tags protected. -/
def escape (s : List Char) : List Char := closeEnd ((tokens s).flatMap Token.escaped)

/-- The name of a style: what stands before an equals sign, without regard to case. -/
def styleName (body : List Char) : String :=
  Text.trim (String.ofList ((body.takeWhile (· ≠ '=')).map Char.toLower))

/-- The open styles after a tag: one more, or one less for a closing tag. A closing tag without a
name closes the last style; one that closes no open style is an error. -/
def afterTag (opened : List String) : List Char → Option (List String)
  | '/' :: body =>
      let name := styleName body
      if name = "" then opened.tail?
      else if name ∈ opened then some (opened.erase name) else none
  | body => some (styleName body :: opened)

/-- What is shown for tokens, given the open styles. -/
def plainFrom : List String → List Token → Option (List Char)
  | _, [] => some []
  | opened, .char '\\' :: .char '[' :: rest => (plainFrom opened rest).map ('[' :: ·)
  | opened, .char c :: rest => (plainFrom opened rest).map (c :: ·)
  | opened, .tag backslashes body :: rest =>
      let kept := List.replicate (backslashes / 2) '\\'
      if backslashes % 2 = 1 then (plainFrom opened rest).map (kept ++ bracketed body ++ ·)
      else
        match afterTag opened body with
        | none => none
        | some opened => (plainFrom opened rest).map (kept ++ ·)

/-- What is shown for a marked-up text, unless a tag closes no open style. -/
def plain? (s : String) : Option String := (plainFrom [] (tokens s.toList)).map String.ofList

/-- What is shown for a text that was escaped. -/
def shown (s : String) : String := (plain? (String.ofList (escape s.toList))).getD s

end Excise.Program.Markup
