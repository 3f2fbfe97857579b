/-!
# Faults of the file system

Why the file system refuses something. A `Fault` has a kind, which is what callers tell apart, and a
wording, which is what users see.
-/

namespace ModGraph.FileSystem

/-- The kinds of faults. -/
inductive Kind where
  | notFound
  | permissionDenied
  | alreadyExists
  | notADirectory
  | isADirectory
  | filesystemLoop
  | invalidFilename
  | invalidInput
  | invalidData
  | other
deriving DecidableEq, Repr, Inhabited

/-- Why the file system refuses something. -/
inductive Fault where
  /-- Nothing has this name. -/
  | missing
  /-- Something on the way is no directory. -/
  | notDirectory
  /-- A directory where a file is due. -/
  | isDirectory
  /-- The name is taken. -/
  | taken
  /-- A look-up follows too many links. -/
  | tooManyLinks
  /-- A name, or a path as a whole, is too long. -/
  | nameTooLong
  /-- A path holds the character that ends paths. -/
  | zeroInPath
  /-- The bytes of a file are no text. -/
  | notText
  /-- The empty path has no place to start from. -/
  | emptyPath
  /-- A fault that a reader other than this file system reports. -/
  | reported (kind : Kind) (message : String)
deriving DecidableEq, Repr, Inhabited

/-- The kind of a fault. -/
def Fault.kind : Fault → Kind
  | missing => .notFound
  | notDirectory => .notADirectory
  | isDirectory => .isADirectory
  | taken => .alreadyExists
  | tooManyLinks => .filesystemLoop
  | nameTooLong => .invalidFilename
  | zeroInPath => .invalidInput
  | notText => .invalidData
  | emptyPath => .invalidInput
  | reported kind _ => kind

/-- The wording of a fault. -/
def Fault.message : Fault → String
  | missing => "No such file or directory (os error 2)"
  | notDirectory => "Not a directory (os error 20)"
  | isDirectory => "Is a directory (os error 21)"
  | taken => "File exists (os error 17)"
  | tooManyLinks => "Too many levels of symbolic links (os error 40)"
  | nameTooLong => "File name too long (os error 36)"
  | zeroInPath => "file name contained an unexpected NUL byte"
  | notText => "stream did not contain valid UTF-8"
  | emptyPath => "cannot make an empty path absolute"
  | reported _ message => message

end ModGraph.FileSystem
