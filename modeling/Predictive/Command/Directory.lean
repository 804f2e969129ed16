import Predictive.Command.Session

namespace Predictive

def decodeText (bytes : ByteArray) : Except ReadFault String :=
  match String.fromUTF8? bytes with
  | some text => .ok text
  | none => .error .notUtf8

/-- Files held in memory, each with its path from the working directory. -/
structure Directory where
  files : List (String × ByteArray)

/-- Where a path has led to. The directories outside the working directory hold nothing by name. -/
inductive Place
  | outside
  | directory (path : List String)
  | file (bytes : ByteArray)

namespace Directory

def parts (path : String) : List String := (path.toList.splitOn '/').map String.ofList

def staysHere (part : String) : Bool := part = "" || part = "."

/-- The file of this path, or a directory towards a file. -/
def find (d : Directory) (path : List String) : Except ReadFault Place :=
  let names (name : String) := (parts name).filter fun part => !staysHere part
  match d.files.find? fun (name, _) => names name = path with
  | some (_, bytes) => .ok (.file bytes)
  | none =>
    if d.files.any fun (name, _) => path.isPrefixOf (names name) then .ok (.directory path)
    else .error .notFound

/-- Follows one part of a path, which must stand in a directory also if it stays there. -/
def follow (d : Directory) (place : Place) (part : String) : Except ReadFault Place :=
  match place with
  | .file _ => .error .notDirectory
  | .outside => if staysHere part || part = ".." then .ok .outside else .error .notFound
  | .directory path =>
    if staysHere part then .ok place
    else if part = ".." then .ok (if path.isEmpty then .outside else .directory path.dropLast)
    else d.find (path ++ [part])

/-- A path begins at the root if a slash is in front, and else in the working directory. -/
def resolve (d : Directory) (path : String) : Except ReadFault Place :=
  match path.toList with
  | [] => .error .notFound
  | c :: _ => (parts path).foldlM d.follow (if c = '/' then .outside else .directory [])

def read (d : Directory) (path : String) : Except ReadFault String :=
  match d.resolve path with
  | .error fault => .error fault
  | .ok (.file bytes) => decodeText bytes
  | .ok _ => .error .isDirectory

def sources (d : Directory) (standardInput : ByteArray) : Sources where
  standardInput := decodeText standardInput
  file := d.read

end Directory

end Predictive
