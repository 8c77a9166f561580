/-!
# Faults of input and output
-/

namespace TagIndex

inductive IoFault where
  | missing
  | notDirectory
  | isDirectory
  | manyLinks
  | longName
  /-- A path has a null character. -/
  | nullCharacter
  /-- The bytes are not UTF-8. -/
  | notText
  | other (message : String)
deriving DecidableEq, Repr, Inhabited

def IoFault.message : IoFault → String
  | .missing => "No such file or directory (os error 2)"
  | .notDirectory => "Not a directory (os error 20)"
  | .isDirectory => "Is a directory (os error 21)"
  | .manyLinks => "Too many levels of symbolic links (os error 40)"
  | .longName => "File name too long (os error 36)"
  | .nullCharacter => "file name contained an unexpected NUL byte"
  | .notText => "stream did not contain valid UTF-8"
  | .other message => message

end TagIndex
