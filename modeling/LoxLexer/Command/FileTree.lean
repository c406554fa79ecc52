/-!
# File trees

The files below a working directory, and what reading a path from there gives. The directories are
those that the files stand in.
-/

namespace LoxLexer

/-- Why a path cannot be read. -/
inductive Refusal
  | missing
  | isDirectory
  | notDirectory
deriving DecidableEq

def Refusal.message : Refusal → String
  | .missing => "No such file or directory (os error 2)"
  | .isDirectory => "Is a directory (os error 21)"
  | .notDirectory => "Not a directory (os error 20)"

def pathParts (path : String) : List (List Char) :=
  path.toList.foldr
    (fun c parts => match parts with
      | [] => [[c]]
      | part :: rest => if c = '/' then [] :: part :: rest else (c :: part) :: rest)
    [[]]

/-- Each file with the names that lead to it. -/
structure FileTree where
  files : List (List (List Char) × ByteArray)

namespace FileTree

/-- Empty names and single dots lead nowhere else. -/
def ofFiles (files : List (String × ByteArray)) : FileTree :=
  ⟨files.map fun (name, bytes) =>
    ((pathParts name).filter fun part => part ≠ [] ∧ part ≠ ['.'], bytes)⟩

/-- Where a path has led so far. Nothing is known of what lies outside but that directories lead
there. -/
inductive Node
  | outside
  | directory (names : List (List Char))
  | file (bytes : ByteArray)

def child (tree : FileTree) (names : List (List Char)) (name : List Char) : Except Refusal Node :=
  let below := names ++ [name]
  match tree.files.find? (·.1 == below) with
  | some (_, bytes) => .ok (.file bytes)
  | none =>
    if tree.files.any fun (path, _) => below.isPrefixOf path then .ok (.directory below)
    else .error .missing

/-- One part of a path; below a file there is nothing, not even the file itself. -/
def step (tree : FileTree) (node : Node) (part : List Char) : Except Refusal Node :=
  match node with
  | .file _ => .error .notDirectory
  | .outside =>
    if part = [] ∨ part = ['.'] ∨ part = ['.', '.'] then .ok .outside else .error .missing
  | .directory names =>
    if part = [] ∨ part = ['.'] then .ok node
    else if part = ['.', '.'] then
      .ok (if names = [] then .outside else .directory names.dropLast)
    else tree.child names part

def read (tree : FileTree) (path : String) : Except Refusal ByteArray := do
  let start := if path.toList.head? = some '/' then Node.outside else .directory []
  match ← (pathParts path).foldlM tree.step start with
  | .file bytes => return bytes
  | _ => throw .isDirectory

end FileTree

end LoxLexer
