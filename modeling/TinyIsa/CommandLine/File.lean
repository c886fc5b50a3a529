import TinyIsa.CommandLine.Path
import TinyIsa.Text.Bytes

/-!
# Files

* `FileError`: why a file cannot be used.
* `Folder`: the files of the current folder by name.
* `Folder.walk`: where the steps of a path lead. Each of them has to lead to a folder,
  also where the next one leads back.
* `Folder.read`, `Folder.write`: a file by its path.
-/

namespace TinyIsa

/-- The reasons for which a file cannot be used. -/
inductive FileError where
  /-- There is no such file, or no folder for it. -/
  | notFound
  /-- A folder is there. -/
  | isFolder
  /-- A file is where a folder has to be. -/
  | notFolder
  /-- A name or the path is too long. -/
  | nameTooLong
  /-- Its bytes are no text. -/
  | notText
  /-- Something else, as the system says it. -/
  | system (message : String)
deriving DecidableEq, Repr

/-- The text of a file error. -/
def FileError.message : FileError → String
  | .notFound => "No such file or directory (os error 2)"
  | .isFolder => "Is a directory (os error 21)"
  | .notFolder => "Not a directory (os error 20)"
  | .nameTooLong => "File name too long (os error 36)"
  | .notText => "stream did not contain valid UTF-8"
  | .system message => message

/-- The text of bytes. -/
def textOfBytes (bytes : ByteArray) : Except FileError String :=
  match String.fromUTF8? bytes with
  | some text => .ok text
  | none => .error .notText

/-- The lines of bytes, each with its newline; nothing stands for a line that is no text. -/
def linesOfBytes (bytes : List UInt8) : List (Option String) :=
  let rows := bytes.splitOn 10
  let text (row : List UInt8) : Option String := String.fromUTF8? ⟨row.toArray⟩
  rows.dropLast.map (fun row => text (row ++ [10])) ++
    (rows.getLast?.toList.filter (!·.isEmpty)).map text

/-- The files of the current folder. -/
structure Folder where
  /-- The names and the contents. -/
  files : List (String × ByteArray) := []

/-- A folder on the way of a path. -/
inductive Place where
  /-- The current folder. -/
  | current
  /-- A folder around it. Nothing is known of what else it holds. -/
  | around
  /-- The root. -/
  | root
  /-- A folder of the system at the root. -/
  | system (name : String)
deriving DecidableEq, Repr

/-- The folder around a place. -/
def Place.parent : Place → Place
  | .current => .around
  | .around => .around
  | .root => .root
  | .system _ => .root

/-- The place where a path begins. -/
def Place.start (path : String) : Place :=
  if Path.isAbsolute path then .root else .current

/-- The folders that a system has at its root. -/
def systemFolders : List String :=
  ["bin", "dev", "etc", "home", "lib", "proc", "sys", "tmp", "usr", "var"]

/-- What has a name in a folder. -/
inductive Entry where
  /-- A file. -/
  | file (content : ByteArray)
  /-- A folder. -/
  | folder (place : Place)

/-- The greatest length of a file name, in bytes. -/
def nameLimit : Nat := 255

/-- The length in bytes from which on a path is too long. -/
def pathLimit : Nat := 4096

namespace Folder

/-- The content of a file of the current folder. -/
def find? (f : Folder) (name : String) : Option ByteArray :=
  f.files.lookup name

/-- What has a name at a place. The null device is an empty file. -/
def entry? (f : Folder) (name : String) : Place → Option Entry
  | .current => (f.find? name).map .file
  | .around => none
  | .root => if name ∈ systemFolders then some (.folder (.system name)) else none
  | .system folder => if folder = "dev" ∧ name = "null" then some (.file .empty) else none

/-- What has a name at a place, or why nothing has. -/
def entry (f : Folder) (place : Place) (name : String) : Except FileError Entry :=
  if nameLimit < Text.byteLength name.toList then .error .nameTooLong
  else ((f.entry? name place).map .ok).getD (.error .notFound)

/-- The folder to which a step leads. -/
def next (f : Folder) (place : Place) : Path.Step → Except FileError Place
  | .stay => .ok place
  | .up => .ok place.parent
  | .entry name => do
    match ← f.entry place name with
    | .folder place => return place
    | .file _ => throw .notFolder

/-- The folder in which the last step of a path is taken, and the name that this step
has; nothing where the path leads to a folder by itself. -/
def walk (f : Folder) (path : String) : Except FileError (Option (Place × String)) := do
  if pathLimit ≤ Text.byteLength path.toList then throw .nameTooLong
  let steps := Path.steps path
  let place ← steps.dropLast.foldlM f.next (.start path)
  match steps.getLast? with
  | some (.entry name) => return some (place, name)
  | _ => return none

/-- The content of the file of a path. -/
def read (f : Folder) (path : String) : Except FileError ByteArray := do
  let some (place, name) ← f.walk path | throw .isFolder
  match ← f.entry place name with
  | .folder _ => throw .isFolder
  | .file content => if Path.endsInSlash path then throw .notFolder else return content

/-- The folder after a file was given a content at a place. -/
def put (f : Folder) (name : String) (content : ByteArray) : Place → Folder
  | .current => ⟨f.files.filter (·.1 != name) ++ [(name, content)]⟩
  | _ => f

/-- The folder in which the file of a path has a content. The path may be one of a new file,
and then it must not end with a slash. -/
def write (f : Folder) (path : String) (content : ByteArray) : Except FileError Folder := do
  let some (place, name) ← f.walk path | throw .isFolder
  if Path.endsInSlash path then throw .isFolder
  match f.entry place name with
  | .ok (.folder _) => throw .isFolder
  | .ok (.file _) | .error .notFound => return f.put name content place
  | .error e => throw e

/-- The files that are not the same in an earlier folder. -/
def changes (f earlier : Folder) : List (String × ByteArray) :=
  f.files.filter fun (name, content) => earlier.find? name != some content

end Folder

end TinyIsa
