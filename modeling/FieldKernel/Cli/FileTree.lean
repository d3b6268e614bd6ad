import FieldKernel.Cli.Files
import FieldKernel.Cli.Path

-- Trees of files in memory. Above a tree are directories; the root holds the standard ones and the null device.
namespace FieldKernel

structure FileTree where
  -- by path from the top of the tree, the last written first
  files : List (List String × String)
  directories : List (List String)
  deriving DecidableEq, Repr

namespace FileTree

def empty : FileTree := ⟨[], [[]]⟩

def write (tree : FileTree) (path text : String) : FileTree :=
  let segments := Path.segments path
  let onTheWay := (List.range segments.length).map fun n => Path.normal (segments.take n)
  ⟨(Path.normal segments, text) :: tree.files, onTheWay ++ tree.directories⟩

def ofFiles (files : List (String × String)) : FileTree :=
  files.foldl (fun tree file => tree.write file.1 file.2) empty

inductive Node where
  | file (text : String)
  -- a directory of the tree
  | directory (path : List String)
  -- any directory above the tree
  | above
  | root
  -- a directory in the root
  | standard (name : String)
  deriving DecidableEq, Repr

-- The directory that holds a directory; the root holds itself.
def Node.parent : Node → Node
  | directory path => if path.isEmpty then above else directory path.dropLast
  | root | standard _ => root
  | node => node

def standardDirectories : List String :=
  ["bin", "boot", "dev", "etc", "home", "lib", "media", "mnt", "opt", "proc", "root", "run", "sbin",
   "srv", "sys", "tmp", "usr", "var"]

def child? (tree : FileTree) (node : Node) (name : String) : Option Node :=
  match node with
  | .directory above =>
    let path := above ++ [name]
    match tree.files.lookup path with
    | some text => some (.file text)
    | none => if tree.directories.contains path then some (.directory path) else none
  | .root => if standardDirectories.contains name then some (.standard name) else none
  | .standard directory => if directory = "dev" ∧ name = "null" then some (.file "") else none
  | .file _ | .above => none

-- The longest segment of a path, and the length that paths stay below, in bytes.
def maxSegment : Nat := 255

def pathLimit : Nat := 4096

def step (tree : FileTree) (node : Node) (segment : String) : Except ReadFault Node :=
  match node with
  | .file _ => .error .notDirectory
  | node =>
    if Path.idle segment then .ok node
    else if segment = ".." then .ok node.parent
    else if maxSegment < segment.utf8ByteSize then .error .nameTooLong
    else match tree.child? node segment with
      | some child => .ok child
      | none => .error .notFound

def resolve (tree : FileTree) (path : String) : Except ReadFault Node :=
  if path.isEmpty then .error .notFound
  else if pathLimit ≤ path.utf8ByteSize then .error .nameTooLong
  else (Path.segments path).foldlM tree.step (if path.startsWith "/" then .root else .directory [])

def read (tree : FileTree) (path : String) : Except ReadFault String := do
  match ← tree.resolve path with
  | .file text => return text
  | _ => throw .isDirectory

def access (tree : FileTree) : Files Id where
  read path := tree.read path
  present path := (tree.resolve path).isOk

end FileTree

end FieldKernel
