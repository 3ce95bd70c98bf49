import PointsTo.Host.Basic

/-! A directory kept in memory. Its subdirectories are those that its files lie in. -/
namespace PointsTo

structure Directory where
  /-- Files by the names on the way to them. -/
  files : List (List String × String)
  deriving DecidableEq, Repr

namespace Directory

def empty : Directory := ⟨[]⟩

instance : EmptyCollection Directory := ⟨empty⟩

instance : Inhabited Directory := ⟨empty⟩

def file? (d : Directory) (place : List String) : Option String := d.files.lookup place

/-- The place itself or, below a subdirectory, a file lies there. -/
def hasDirectory (d : Directory) (place : List String) : Bool :=
  place.isEmpty || d.files.any fun f => place ≠ f.1 && place.isPrefixOf f.1

def maxNameSize : Nat := 255

def maxPathSize : Nat := 4095

/-- Where a path leads. -/
inductive Place where
  /-- The names on the way from the directory. -/
  | inside (names : List String)
  /-- A directory above, of which nothing is known. -/
  | above
  deriving DecidableEq, Repr

/-- Goes from a place to the next name of a path. -/
def follow (d : Directory) (place : Place) (name : String) : Except FileError Place :=
  match place with
  | .above => if name ∈ ["", ".", ".."] then .ok .above else .error .notFound
  | .inside names =>
    if (d.file? names).isSome then .error .notDirectory
    else if !d.hasDirectory names then .error .notFound
    else if name = "" ∨ name = "." then .ok place
    else if name = ".." then .ok (if names.isEmpty then .above else .inside names.dropLast)
    else if maxNameSize < name.utf8ByteSize then .error .nameTooLong
    else .ok (.inside (names ++ [name]))

/-- Where a path starts and the names in it. -/
def splitPath (path : String) : Except FileError (Place × List String) :=
  if '\x00' ∈ path.toList then .error .zeroInName
  else if maxPathSize < path.utf8ByteSize then .error .nameTooLong
  else if path = "" then .error .notFound
  else .ok (if path.startsWith "/" then .above else .inside [], path.splitOn "/")

def read (d : Directory) (path : String) : Except FileError String := do
  let (start, names) ← splitPath path
  match ← names.foldlM d.follow start with
  | .above => throw .isDirectory
  | .inside names =>
    match d.file? names with
    | some contents => return contents
    | none => throw (if d.hasDirectory names then .isDirectory else .notFound)

/-- Writes a file. The subdirectory it lies in has to be there; if it is, a path that ends with a
slash names no file. -/
def write (d : Directory) (path contents : String) : Except FileError Directory := do
  let (start, names) ← splitPath path
  if names.getLast? = some "" then
    let parents := (names.reverse.dropWhile (· = "")).tail.reverse
    let _ ← (parents ++ ["."]).foldlM d.follow start
    throw .isDirectory
  match ← names.foldlM d.follow start with
  | .above => throw .isDirectory
  | .inside names =>
    if d.hasDirectory names then throw .isDirectory
    return ⟨(names, contents) :: d.files.filter (·.1 ≠ names)⟩

def ofList (files : List (String × String)) : Directory :=
  ⟨files.reverse.map fun (path, contents) =>
    ((path.splitOn "/").filter fun name => name ≠ "" ∧ name ≠ ".", contents)⟩

/-- A machine that has one directory and no clock. -/
def host : Host (StateM Directory) where
  read path := return (← get).read path
  write path contents := do
    match (← get).write path contents with
    | .error e => return .error e
    | .ok d =>
      set d
      return .ok ()
  clock := pure 0

end Directory

end PointsTo
