-- Paths of files as text: the directory above a path, and a name below a directory.
namespace FieldKernel.Path

def segments (path : String) : List String := path.splitOn "/"

-- Segments that lead nowhere: empty ones, and `.` except in front.
def idle (s : String) : Bool := s.isEmpty || s = "."

def normal (segments : List String) : List String :=
  segments.foldl
    (fun path s => if idle s then path else if s = ".." then path.dropLast else path ++ [s]) []

-- Segments without those at the end that lead nowhere; the first one stays.
def dropIdle : List String → List String
  | [] => []
  | first :: rest => first :: (rest.reverse.dropWhile idle).reverse

def parent? (path : String) : Option String :=
  match dropIdle (segments path) with
  | [] => none
  | [""] => none
  | [_] => some ""
  | "" :: rest =>
    match dropIdle ("" :: rest.dropLast) with
    | [_] => some "/"
    | above => some (String.intercalate "/" above)
  | first :: rest => some (String.intercalate "/" (dropIdle (first :: rest.dropLast)))

def join (directory name : String) : String :=
  if directory.isEmpty then name
  else if directory.endsWith "/" then directory ++ name
  else directory ++ "/" ++ name

-- A directory and those above it, the nearest first. A parent is shorter than its path, which
-- bounds `fuel`.
def upward : Nat → String → List String
  | 0, directory => [directory]
  | fuel + 1, directory =>
    match parent? directory with
    | some above => directory :: upward fuel above
    | none => [directory]

end FieldKernel.Path
