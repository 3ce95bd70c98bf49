/-! What a program needs of the machine it runs on. -/
namespace PointsTo

inductive FileError where
  | notFound
  | notDirectory
  | isDirectory
  | nameTooLong
  /-- A name with the character zero, which no file can have. -/
  | zeroInName
  | other (text : String)
  deriving DecidableEq, Repr

def FileError.message : FileError → String
  | notFound => "No such file or directory (os error 2)"
  | notDirectory => "Not a directory (os error 20)"
  | isDirectory => "Is a directory (os error 21)"
  | nameTooLong => "File name too long (os error 36)"
  | zeroInName => "file name contained an unexpected NUL byte"
  | other text => text

/-- Files by their paths, and the time. -/
structure Host (m : Type → Type) where
  read : String → m (Except FileError String)
  /-- Replaces the contents of a file, which is made if it is not there. -/
  write : String → String → m (Except FileError Unit)
  /-- Milliseconds since some moment. -/
  clock : m Nat

end PointsTo
