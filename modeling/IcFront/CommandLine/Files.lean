/-!
# Files of a directory

A directory as a list of files, each with its path below the directory.
`Directory.read?` finds the file that a path leads to, name by name: a name must
be that of a subdirectory unless it is the last, and `..` leads one level up,
but not out of the directory.
-/

namespace IcFront

namespace CommandLine

/-- The files below a directory, each with the names that lead to it. -/
abbrev Directory := List (List String × List UInt8)

namespace Directory

/-- Whether names lead to a directory. -/
def isDirectory (d : Directory) (names : List String) : Bool :=
  names.isEmpty || d.any fun (file, _) => names.isPrefixOf file && names.length < file.length

/-- Where names lead from a subdirectory. -/
def walk (d : Directory) (current : List String) : List String → Option (List String)
  | [] => some current
  | name :: rest =>
    if name = ".." then
      if current.isEmpty then none else d.walk current.dropLast rest
    else
      let next := current ++ [name]
      if rest.isEmpty || d.isDirectory next then d.walk next rest else none

/-- The bytes of the file that names lead to. -/
def read? (d : Directory) (names : List String) : Option (List UInt8) :=
  (d.walk [] names).bind fun file => d.lookup file

end Directory

end CommandLine

end IcFront
