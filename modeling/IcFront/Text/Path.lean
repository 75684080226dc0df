/-!
# Paths of files

A path is a sequence of names between slashes. Its normal form (`Path.normalise`)
leaves out empty names and the name `.`, but keeps `..`, since what that means
depends on the files.
-/

namespace IcFront

namespace Path

/-- The names of a path that matter. -/
def names (path : String) : List String :=
  (path.splitOn "/").filter fun name => name != "" && name != "."

/-- What an absolute path starts with: one slash, or exactly two. -/
def root (path : String) : String :=
  match path.toList.takeWhile (· = '/') with
  | [] => ""
  | [_, _] => "//"
  | _ => "/"

/-- The normal form of a path. -/
def normalise (path : String) : String :=
  let text := root path ++ "/".intercalate (names path)
  if text = "" then "." else text

/-- The last name of a path, empty if it has none. -/
def fileName (path : String) : String := (names path).getLastD ""

end Path

end IcFront
