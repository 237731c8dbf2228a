import MuCompletion.Text.Bytes

/-!
# What file names lead to

A command names the files that it reads. A name is followed part by part from the directory where
the program runs; it leads to a file or a directory, or fails on the way. `Directory.follow` does
this in a directory that is held in memory.
-/

namespace MuCompletion.CommandLine

/-- What a file name leads to. -/
inductive FileState where
  /-- Nothing has the name. -/
  | missing
  /-- A part of the name that has to be a directory is a file. -/
  | notDirectory
  /-- The name, or a part of it, is longer than names may be. -/
  | nameTooLong
  | directory
  | bytes (content : ByteArray)

/-- A directory without directories in it. Of what lies around it nothing is known but that there
are directories. -/
structure Directory where
  files : List (String × ByteArray)

/-- How far a name has been followed. -/
inductive Place where
  /-- In the directory itself. -/
  | inside
  /-- In a directory around it. -/
  | outside
  | file (content : ByteArray)

/-- The most bytes that a part of a name may have. -/
def maxPartLength : Nat :=
  255

/-- The most bytes that a whole name may have. -/
def maxNameLength : Nat :=
  4095

namespace Directory

/-- Follow the parts of a name from a place. -/
def followFrom (directory : Directory) : Place → List String → FileState
  | .inside, [] => .directory
  | .outside, [] => .directory
  | .file content, [] => .bytes content
  | .file _, _ :: _ => .notDirectory
  | place, part :: rest =>
    if part = "" || part = "." then directory.followFrom place rest
    else if part = ".." then directory.followFrom .outside rest
    else if maxPartLength < Text.byteLength part.toList then .nameTooLong
    else
      match place, directory.files.lookup part with
      | .inside, some content => directory.followFrom (.file content) rest
      | _, _ => .missing

/-- Follow a name; one that begins with a slash does not begin in the directory. -/
def follow (directory : Directory) (name : String) : FileState :=
  if maxNameLength < Text.byteLength name.toList then .nameTooLong
  else
    let place := if name.toList.head? = some '/' then Place.outside else Place.inside
    directory.followFrom place (name.splitOn "/")

end Directory

end MuCompletion.CommandLine
