/-!
# Lox — a folder of files

Script files are read from the folder in which the command is started. A path is read from
left to right; `.` stays where it is, `..` goes back, and what lies outside of the folder is
not known, except that it is there. A path is too long from 4096 bytes on, and a name that is
looked up in a directory from 256 bytes on.
-/

namespace Lox

/-- Why a file could not be read. -/
inductive ReadFailure where
  | notFound
  | notDirectory
  | isDirectory
  | nameTooLong
  | notText
  | other (message : String)
deriving DecidableEq

/-- The wording of a failure to read. -/
def ReadFailure.message : ReadFailure → String
  | .notFound => "No such file or directory (os error 2)"
  | .notDirectory => "Not a directory (os error 20)"
  | .isDirectory => "Is a directory (os error 21)"
  | .nameTooLong => "File name too long (os error 36)"
  | .notText => "stream did not contain valid UTF-8"
  | .other message => message

/-- The files of a folder, with their paths in it. -/
structure Folder where
  files : List (List String × ByteArray)

namespace Folder

/-- What a path leads to. -/
inductive Place where
  | inside (path : List String)
  | outside
deriving DecidableEq

/-- The parts of a path, between slashes. -/
def parts (path : String) : List String := path.splitOn "/"

/-- The folder with the given files. -/
def ofList (files : List (String × ByteArray)) : Folder :=
  ⟨files.map fun (name, content) => (parts name, content)⟩

/-- The content of the file at a path. -/
def file? (f : Folder) (path : List String) : Option ByteArray := f.files.lookup path

/-- Whether there is a directory at a path: the folder itself, or what a file lies in. -/
def isDirectory (f : Folder) (path : List String) : Bool :=
  path.isEmpty || f.files.any fun (p, _) => path.isPrefixOf p && path.length < p.length

/-- The bytes of the longest name that a directory can hold. -/
def maxNameBytes : Nat := 255

/-- The bytes of the longest path that can be followed. -/
def maxPathBytes : Nat := 4095

/-- Looks a name up in a directory: it fails at once if no directory can hold the name. -/
def search (name : String) (found : Except ReadFailure Place) : Except ReadFailure Place :=
  if maxNameBytes < name.utf8ByteSize then .error .nameTooLong else found

/-- Goes one part of a path further. Only directories lead further. -/
def enter (f : Folder) (place : Place) (part : String) : Except ReadFailure Place :=
  match place with
  | .outside =>
    if part = "" ∨ part = "." ∨ part = ".." then .ok .outside
    else search part (.error .notFound)
  | .inside path =>
    if (f.file? path).isSome then .error .notDirectory
    else if !f.isDirectory path then .error .notFound
    else if part = "" ∨ part = "." then .ok place
    else if part = ".." then .ok (if path.isEmpty then .outside else .inside path.dropLast)
    else search part (.ok (.inside (path ++ [part])))

/-- The content of the file that a path leads to. -/
def read (f : Folder) (path : String) : Except ReadFailure ByteArray := do
  if maxPathBytes < path.utf8ByteSize then throw .nameTooLong
  let start := if path.startsWith "/" then Place.outside else Place.inside []
  match ← (parts path).foldlM f.enter start with
  | .outside => throw .isDirectory
  | .inside path =>
    match f.file? path with
    | some content => pure content
    | none => throw (if f.isDirectory path then .isDirectory else .notFound)

end Folder

end Lox
