import Excise.Command.Invocation
import Excise.Command.Session
import Excise.Transform

/-!
# Previewing a file

`preview` prints a transformed source without writing it, so that it can be piped. The source is a
file, or the standard input where the name is a dash; the language is the one chosen, or that of the
file's extension, or that of the standard input, which is JavaScript.
-/

namespace Excise.Command

open CommandAction

/-- The language and the text of a file to preview. -/
def previewFile (name : String) (language : Option Language) (disk : Disk := .reliable) :
    CommandAction (Language × String) := do
  let path := Path.ofText name
  let _ ← look path
  match disk.read (← files) path with
  | .error _ => abort [.words "File does not exist: ", .quoted name]
  | .ok bytes =>
      match language.or (Language.ofPath? path) with
      | none => abort [.words "Unsupported file type: ", .quoted name]
      | some language =>
          match sourceText bytes with
          | .error fault => throw (.failed (.notText fault))
          | .ok text => return (language, text)

/-- The language and the text to preview. -/
def previewSource (options : PreviewOptions) (disk : Disk := .reliable) :
    CommandAction (Language × String) := do
  if options.file = "-" then
    return (options.language.getD .javascript, Text.unifyNewlines (← get).input)
  else previewFile options.file options.language disk

/-- Print a transformed source. -/
def preview (grammar : Grammar) (reader : SettingsReader) (options : PreviewOptions)
    (verbose : Bool) (disk : Disk := .reliable) : CommandAction Unit := do
  let target ← loadTarget reader options.target
  let (language, text) ← previewSource options disk
  let result := transform grammar target language text
  if verbose then
    for message in result.log do print (.note message)
  match result.skipped with
  | some reason => print (.error [.words s!"Left unchanged: {reason.text}"])
  | none => pure ()
  print (.plain result.code)

end Excise.Command
