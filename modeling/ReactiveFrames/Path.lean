/-!
# Paths

A path is a text whose components are separated by slashes. Empty components count nothing, and
neither does a point, except at the front.

## Main definitions

* `Path.join`: a path inside a directory.
* `Path.parent?`: the directory of a path.
* `Path.stem?`: the name of a file without its last extension.
-/

namespace ReactiveFrames.Path

/-- A path that starts at the root of all directories. -/
def isAbsolute (path : String) : Bool := path.toList.head? == some '/'

/-- A path inside a directory. An absolute path stays as it is. -/
def join (dir path : String) : String :=
  if isAbsolute path then path
  else if dir.isEmpty || dir.toList.getLast? == some '/' then dir ++ path
  else dir ++ "/" ++ path

/-- A path that is read from its end, without the slashes and points after its last component. -/
def dropEnd : List Char → List Char
  | '/' :: rest => if rest.isEmpty then ['/'] else dropEnd rest
  | '.' :: '/' :: rest => if rest.isEmpty then ['/'] else dropEnd rest
  | path => path

/-- Directory of a path, unless there is no component. -/
def parent? (path : String) : Option String :=
  match dropEnd path.toList.reverse with
  | [] => none
  | ['/'] => none
  | reversed => some (String.ofList (dropEnd (reversed.dropWhile (· != '/'))).reverse)

/-- Last component of a path, if it names a file. -/
def fileName? (path : String) : Option String :=
  match (dropEnd path.toList.reverse).takeWhile (· != '/') with
  | [] => none
  | ['.'] => none
  | ['.', '.'] => none
  | reversed => some (String.ofList reversed.reverse)

/-- Name without what follows its last point, unless the point is its first character. -/
def withoutExtension (name : String) : String :=
  let before := (name.toList.reverse.dropWhile (· != '.')).tail
  if before.isEmpty then name else String.ofList before.reverse

/-- Name of a file without its extension. -/
def stem? (path : String) : Option String := (fileName? path).map withoutExtension

end ReactiveFrames.Path
