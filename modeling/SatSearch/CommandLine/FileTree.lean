import SatSearch.Error

/-!
# Trees of files

The part of a file system that a command can see, and the directory in which it runs. A place is the
list of the names that lead to it from the root. Paths are followed step by step: `.` and empty
steps stay where they are, `..` goes up, and every step has to start from a directory. Paths and
their steps are limited in length, and it is bytes that count, not characters.
-/

namespace SatSearch

/-- Files with their bytes, the directories that are there even without files, and the directory that
relative paths start from. -/
structure FileTree where
  here : List String
  directories : List (List String) := []
  files : List (List String × List UInt8)
deriving DecidableEq, Repr

namespace FileTree

def steps (path : String) : List String := (path.toList.splitOn '/').map String.ofList

def isAbsolute (path : String) : Bool := path.toList.head? = some '/'

def file? (t : FileTree) (place : List String) : Option (List UInt8) := t.files.lookup place

/-- Whether there is a directory at a place: the one in which the command runs, one that is listed,
or one that leads to a file or to another directory. -/
def isDirectory (t : FileTree) (place : List String) : Bool :=
  (t.here :: t.directories).any (place.isPrefixOf ·) ||
    t.files.any fun f => place.isPrefixOf f.1 && place.length < f.1.length

def maxNameBytes : Nat := 255

def maxPathBytes : Nat := 4095

/-- Follows steps from a place. The last one may lead to a place where there is nothing. The length
of a name matters only once it is looked up, in a directory that exists. -/
def follow (t : FileTree) (place : List String) : List String → Except StreamError (List String)
  | [] => .ok place
  | step :: rest =>
    if t.isDirectory place then
      if step = "" ∨ step = "." then follow t place rest
      else if step = ".." then follow t place.dropLast rest
      else if maxNameBytes < step.utf8ByteSize then .error .nameTooLong
      else follow t (place ++ [step]) rest
    else .error (if (t.file? place).isSome then .notDirectory else .notFound)

/-- Follows steps from where a path starts, if the path has a length that paths may have. -/
def followFrom (t : FileTree) (path : String) (steps : List String) :
    Except StreamError (List String) :=
  if path.isEmpty then .error .notFound
  else if maxPathBytes < path.utf8ByteSize then .error .nameTooLong
  else t.follow (if isAbsolute path then [] else t.here) steps

def locate (t : FileTree) (path : String) : Except StreamError (List String) :=
  t.followFrom path (steps path)

/-- The place of the directory that a path leads to, if it is one. -/
def directory? (t : FileTree) (path : String) : Option (List String) :=
  match t.locate path with
  | .ok place => if t.isDirectory place then some place else none
  | .error _ => none

def read (t : FileTree) (path : String) : Except StreamError (List UInt8) := do
  let place ← t.locate path
  match t.file? place with
  | some bytes => .ok bytes
  | none => .error (if t.isDirectory place then .isDirectory else .notFound)

def isFile (t : FileTree) (path : String) : Bool := (t.read path).isOk

/-- The tree with other bytes at a place, whether or not there was a file. -/
def put (t : FileTree) (place : List String) (bytes : List UInt8) : FileTree :=
  { t with files :=
      if (t.file? place).isSome then
        t.files.map fun f => if f.1 = place then (place, bytes) else f
      else t.files ++ [(place, bytes)] }

/-- The steps of a path that ends in slashes, with the last name before them replaced by `.`, so
that they lead to the directory in which this name would be looked up. -/
def stepsToLastName (path : String) : List String :=
  ((steps path).reverse.dropWhile (· = "")).tail.reverse ++ ["."]

/-- The place at which a path would create or replace a file. A path that ends in a slash asks for a
directory, and is refused as one without a look at its last name. -/
def locateOutput (t : FileTree) (path : String) : Except StreamError (List String) :=
  if path.toList.getLast? = some '/' then do
    let _ ← t.followFrom path (stepsToLastName path)
    .error .isDirectory
  else do
    let place ← t.locate path
    if t.isDirectory place then .error .isDirectory else .ok place

def write (t : FileTree) (path : String) (bytes : List UInt8) : Except StreamError FileTree := do
  return t.put (← t.locateOutput path) bytes

/-- The steps from a directory to the files below it, ordered by the names of files and directories
on each level. -/
def below (t : FileTree) (place : List String) : List (List String) :=
  let found := t.files.filterMap fun f =>
    if place.isPrefixOf f.1 && place.length < f.1.length then some (f.1.drop place.length) else none
  found.mergeSort fun a b => !List.lex b a fun x y => x < y

def changedFrom (t old : FileTree) : List (List String × List UInt8) :=
  t.files.filter fun f => old.file? f.1 ≠ some f.2

def join (path step : String) : String :=
  if path.toList.getLast? = some '/' then path ++ step else path ++ "/" ++ step

/-- The part of a file name behind its last dot. A dot in front of the whole name does not count. -/
def extension? (name : String) : Option String :=
  let tail := name.toList.reverse.takeWhile (· ≠ '.')
  if tail.length + 1 < name.length then some (String.ofList tail.reverse) else none

end FileTree

end SatSearch
