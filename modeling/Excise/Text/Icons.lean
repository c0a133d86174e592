/-!
# Icons

Messages use a few icons. On a terminal that cannot show them each icon is replaced by ASCII text
(`withoutIcons`), one icon of the table after the other. `shownOn` does so unless the encoding of
the terminal (`terminalEncoding`) is UTF-8.
-/

namespace Excise.Text

/-- Each icon with the text that stands for it. -/
def icons : List (Char × String) :=
  [('✓', "[OK]"), ('✔', "[OK]"), ('✗', "[FAIL]"), ('✘', "[FAIL]"), ('⚠', "[WARN]"), ('→', "->"),
    ('←', "<-"), ('⇒', "=>"), ('…', "..."), ('•', "*")]

/-- Put a text in the place of a character wherever it occurs. -/
def replaceChar (text : List Char) (icon : Char × String) : List Char :=
  text.flatMap fun c => if c = icon.1 then icon.2.toList else [c]

/-- Replace the icons of a table, one after the other. -/
def replaceIcons (table : List (Char × String)) (text : List Char) : List Char :=
  table.foldl replaceChar text

/-- The text with every icon replaced. -/
def withoutIcons (text : String) : String := String.ofList (replaceIcons icons text.toList)

/-- The names of UTF-8 among encodings. -/
def utf8Names : List String := ["utf-8", "utf8", "utf_8"]

/-- The encoding of a terminal in small letters: the one that the output names, and that of the
locale where it names none, and ASCII where the locale has none either. -/
def terminalEncoding (output : String) (locale : Option String) : String :=
  String.ofList ((if output = "" then locale.getD "ascii" else output).toList.map Char.toLower)

/-- A terminal whose output names this encoding shows icons. The locale uses UTF-8 unless another
encoding, or none, is named. -/
def ShowsIcons (output : String) (locale : Option String := some "utf-8") : Prop :=
  terminalEncoding output locale ∈ utf8Names

/-- The name is looked up. -/
instance (output : String) (locale : Option String) : Decidable (ShowsIcons output locale) :=
  inferInstanceAs (Decidable (_ ∈ _))

/-- The text as a terminal whose output names this encoding shows it. -/
def shownOn (output text : String) (locale : Option String := some "utf-8") : String :=
  if ShowsIcons output locale then text else withoutIcons text

end Excise.Text
