import Multipath.DefinitionError
import Multipath.Files
import Multipath.Lexer.Token
import Multipath.ParseError
import Multipath.Settings.Basic
import Multipath.Tree.Format

/-!
Everything that can go wrong between a file and its printed tree.
-/

namespace Multipath

inductive Error where
  | lexical (source : String) (error : LexicalError)
  | parse (source : String) (error : ParseError)
  | definition (error : DefinitionError)
  | format (error : FormatError)
  | settings (error : SettingsError)
  | file (error : FileError)

def Error.message : Error → String
  | lexical source e => e.message source
  | parse source e => e.message source
  | definition e => e.message
  | format e => e.message
  | settings e => "Configuration error: " ++ e.message
  | file e => "I/O error: " ++ e.message

end Multipath
