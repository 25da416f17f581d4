import ProgramFacts.Command
import Std.Data.ExtTreeMap
/-!
# Directories in memory

A directory that is held in memory lets a command run without a file system: what the
command would read and write is a value. A path is walked part by part. It may leave
the directory upwards, or begin at the root; nothing is known to be there but the
directories themselves. A place is given by the parts of the shortest path to it.
-/

namespace ProgramFacts

/-- Files, by their places. -/
structure Directory where
  files : Std.ExtTreeMap (List String) String

namespace Directory

/-- Why there is no file at a path. -/
inductive Fault
  | absent
  | throughFile
  | isDirectory
  | nameTooLong
  deriving DecidableEq

/-- The number that a system has for a fault. -/
def Fault.code : Fault → Nat
  | .absent => 2
  | .throughFile => 20
  | .isDirectory => 21
  | .nameTooLong => 36

/-- The words for a fault, without its number. -/
def Fault.title : Fault → String
  | .absent => "No such file or directory"
  | .throughFile => "Not a directory"
  | .isDirectory => "Is a directory"
  | .nameTooLong => "File name too long"

/-- The words for a fault. -/
def Fault.message (f : Fault) : String :=
  s!"{f.title} (os error {f.code})"

/-- Every fault. -/
def Fault.all : List Fault :=
  [.absent, .throughFile, .isDirectory, .nameTooLong]

/-! ## Places -/

/-- The place of the root. -/
def root : List String := ["/"]

/-- Whether a place is the directory itself or above it. -/
def isAbove (place : List String) : Bool :=
  place = root || place.all (· = "..")

/-- The place of the directory that a place is in. The root is in itself. -/
def parent (place : List String) : List String :=
  if place = root then root
  else if isAbove place then place ++ [".."]
  else place.dropLast

/-- How many bytes the name of a file has at most. -/
def nameLimit : Nat := 255

/-- How many bytes a path has at most. -/
def pathLimit : Nat := 4095

/-- Where a path begins. -/
def start (path : String) : List String :=
  if path.startsWith "/" then root else []

/-- The parts of a path; where slashes are next to each other, or at an end, a part is
empty. -/
def parts (path : String) : List String :=
  path.splitOn "/"

/-- Whether a part of a path is not a name: it stays, or goes up. -/
def isStep (part : String) : Bool :=
  part = "" || part = "." || part = ".."

variable (d : Directory)

/-- Whether there is a directory at a place. -/
def isDirectory (place : List String) : Bool :=
  isAbove place || d.files.keys.any fun file => place.isPrefixOf file && place ≠ file

/-- Goes from a place along one part of a path. Only directories lead on. -/
def enter (place : List String) (part : String) : Except Fault (List String) :=
  if !d.isDirectory place then .error .throughFile
  else if part = "" || part = "." then .ok place
  else if part = ".." then .ok (parent place)
  else if nameLimit < part.utf8ByteSize then .error .nameTooLong
  else
    let next := place ++ [part]
    if d.files.contains next || d.isDirectory next then .ok next else .error .absent

/-- Goes along the parts of a path. -/
def walk (place : List String) (parts : List String) : Except Fault (List String) :=
  parts.foldlM d.enter place

/-! ## Files -/

/-- **The content of a file.** -/
def read (path : String) : Except Fault String :=
  if pathLimit < path.utf8ByteSize then .error .nameTooLong
  else do
    let place ← d.walk (start path) (parts path)
    match d.files[place]? with
    | some text => return text
    | none => throw .isDirectory

/-- The place of a file that is to be written: a name in a directory, and no directory
itself. -/
def target (path : String) : Except Fault (List String) :=
  if pathLimit < path.utf8ByteSize then .error .nameTooLong
  else
    match (parts path).reverse.dropWhile (· = "") with
    | [] => .error .isDirectory
    | last :: before => do
      -- what leads to the file has to be a directory, also if the path names nothing else
      let place ← d.walk (start path) (before.reverse ++ ["."])
      if isStep last || path.endsWith "/" then throw .isDirectory
      else if nameLimit < last.utf8ByteSize then throw .nameTooLong
      else if d.isDirectory (place ++ [last]) then throw .isDirectory
      else return place ++ [last]

/-- **Writes a file.** -/
def write (path text : String) : Except Fault Unit × Directory :=
  match d.target path with
  | .error fault => (.error fault, d)
  | .ok place => (.ok (), ⟨d.files.insert place text⟩)

/-- The directory of files with the given paths. -/
def ofList (files : List (String × String)) : Directory :=
  ⟨.ofList (files.map fun (path, text) => ((parts path).filter (!isStep ·), text))⟩

/-- The host that keeps to a directory, with the given settings from outside, under which
every answer takes the same time. -/
def host (setting? : String → Option String) (elapsed : Nat) : Host (StateM Directory) where
  read path := return ((← get).read path).mapError Fault.message
  write path text := modifyGet fun d =>
    let (result, d) := d.write path text
    (result.mapError Fault.message, d)
  setting? name := return setting? name
  timed f := return (f (), elapsed)

end Directory

end ProgramFacts
