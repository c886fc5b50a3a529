/-!
# Paths

A path is read from the left, one step after the other. Slashes stand between the steps;
a slash in front begins at the root, and one at the end asks for a folder.

* `Path.steps`: the steps of a path.
* `Path.extension?`: what stands behind the last dot of the file name of a path.
* `Path.withExtension`: a path with another extension.
-/

namespace TinyIsa.Path

/-- A step of a path, seen from a folder. -/
inductive Step where
  /-- To the folder itself. -/
  | stay
  /-- To the folder around it. -/
  | up
  /-- To what has a name in it. -/
  | entry (name : String)
deriving DecidableEq, Repr

/-- The step that a component of a path stands for. -/
def Step.ofComponent : List Char → Step
  | ['.'] => .stay
  | ['.', '.'] => .up
  | name => .entry (String.ofList name)

/-- The steps of a path. More than one slash counts as one. -/
def steps (path : String) : List Step :=
  ((path.toList.splitOn '/').filter (· ≠ [])).map Step.ofComponent

/-- Whether a path begins at the root. -/
def isAbsolute (path : String) : Bool := path.toList.head? == some '/'

/-- Whether a path ends with a slash. -/
def endsInSlash (path : String) : Bool := path.toList.getLast? == some '/'

/-- The name of the file of a path: the last step that does not stay in place. -/
def fileName? (path : String) : Option String :=
  match ((steps path).filter (· ≠ .stay)).getLast? with
  | some (.entry name) => some name
  | _ => none

/-- A file name cut at its last dot; a dot in front does not count. -/
def splitName (name : List Char) : List Char × Option (List Char) :=
  match name.reverse.dropWhile (· != '.') with
  | _ :: c :: stem => ((c :: stem).reverse, some (name.reverse.takeWhile (· != '.')).reverse)
  | _ => (name, none)

/-- The extension of the file of a path. -/
def extension? (path : String) : Option String :=
  ((fileName? path).bind fun name => (splitName name.toList).2).map String.ofList

/-- A path with another extension. Where only two dots are left without the old one,
they lead up, and nothing is put behind them. -/
def withExtension (path extension : String) : String :=
  let name := (path.toList.reverse.takeWhile (· != '/')).reverse
  let folder := path.toList.take (path.length - name.length)
  match splitName name with
  | (['.'], some _) => String.ofList (folder ++ ['.', '.'])
  | (stem, _) => String.ofList (folder ++ stem ++ '.' :: extension.toList)

end TinyIsa.Path
