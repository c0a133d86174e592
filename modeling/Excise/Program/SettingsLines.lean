import Excise.Settings.Reader
import Excise.Text.Blank
import Excise.Text.Newline
import Excise.Text.Pieces

/-!
# Plain files of settings

The program reads files of settings that have a variable to a line, with blank lines and remarks
between them (`SettingsReader.plainLines`). Values are taken as they stand there.
-/

namespace Excise

namespace Environment

/-- The text up to white space with a number sign after it, which opens a remark. -/
def withoutRemark : List Char → List Char
  | [] => []
  | c :: rest =>
      if Text.IsBlankChar c ∧ (rest.dropWhile Text.IsBlankChar).head? = some '#' then []
      else c :: withoutRemark rest

/-- The variable that a line of settings sets. Blank lines, remarks and lines without a name set
none. -/
def ofLine? (line : String) : Option (String × String) :=
  if Text.IsBlank line ∨ (Text.trim line).toList.head? = some '#' then none
  else
    match Text.pieces '=' line with
    | name :: value :: more =>
        let value := String.intercalate "=" (value :: more)
        if Text.trim name = "" then none
        else some (Text.trim name,
          Text.trim (String.ofList (withoutRemark (Text.trim value).toList)))
    | _ => none

/-- The variables that the text of a file of settings sets. -/
def ofFile (text : String) : Environment :=
  Table.ofList ((Text.pieces '\n' (Text.unifyNewlines text)).filterMap ofLine?)

theorem name_of_line {line : String} {v : String × String} (h : ofLine? line = some v) :
    v.1 ≠ "" := by
  unfold ofLine? at h
  split at h
  · exact nomatch h
  · split at h
    · split at h
      · exact nomatch h
      · rename_i hname
        obtain rfl := Option.some.inj h
        exact hname
    · exact nomatch h

end Environment

/-- The reader of files with a variable to a line. -/
def SettingsReader.plainLines : SettingsReader where
  additions _ bytes := (Bytes.decode bytes).map Environment.ofFile
  named := by
    intro env bytes found h v hv
    cases hdecode : Bytes.decode bytes with
    | error fault =>
        rw [hdecode] at h
        exact nomatch h
    | ok text =>
        rw [hdecode] at h
        obtain rfl := Except.ok.inj h
        obtain ⟨line, -, hline⟩ := List.mem_filterMap.mp ((Table.of_list_entries _).2 v hv)
        exact Environment.name_of_line hline

/-- The variables that the plain file of settings at a path sets. -/
def Environment.ofPath (files : FileSystem) (path : Path) : Except Fault Environment :=
  SettingsReader.plainLines.ofPath [] files path

end Excise
