/-! # Folders

A folder held in memory, as a tree of files below it. Paths are looked up in it the way a file
system does: doubled slashes and single dots count for nothing, two dots lead one level up, and all
but the last part of a path must be folders. -/

namespace GrammarAtlas

/-- The files below a folder, each with the names that lead to it and its bytes. -/
structure Folder where
  files : List (List String × List UInt8)

namespace Folder

def parts (path : String) : List String :=
  go [] path.toList
where
  go (part : List Char) : List Char → List String
    | [] => [String.ofList part.reverse]
    | c :: cs =>
      if c = '/' then String.ofList part.reverse :: go [] cs else go (c :: part) cs

/-- Follows `parts` down from the folder reached by `trail`, whose last name comes first. Every
folder on the way must exist. -/
def follow (exists? : List String → Bool) : List String → List String → Option (List String)
  | trail, [] => some trail
  | trail, part :: rest =>
    if part = "" || part = "." then follow exists? trail rest
    else if part = ".." then
      match trail with
      | [] => none
      | _ :: up => follow exists? up rest
    else if exists? (part :: trail) then follow exists? (part :: trail) rest
    else none

/-- Whether some file lies below the folder reached by `trail`. -/
def hasFolder (f : Folder) (trail : List String) : Bool :=
  f.files.any fun (names, _) => trail.length < names.length && trail.reverse.isPrefixOf names

/-- The names that lead to the file of the given path. -/
def locate? (exists? : List String → Bool) (path : String) : Option (List String) :=
  match (parts path).reverse with
  | [] => none
  | name :: folders =>
    if name = "" || name = "." || name = ".." || path.startsWith "/" then none
    else (follow exists? [] folders.reverse).map fun trail => (name :: trail).reverse

/-- Writes a file, with the folders it needs. -/
def write (f : Folder) (path : String) (bytes : List UInt8) : Folder :=
  match locate? (fun _ => true) path with
  | some names => ⟨f.files.filter (fun (n, _) => n != names) ++ [(names, bytes)]⟩
  | none => f

def bytes? (f : Folder) (path : String) : Option (List UInt8) :=
  (locate? f.hasFolder path).bind fun names => f.files.lookup names

/-- The text of a file; there is none if its bytes are not UTF-8. -/
def read? (f : Folder) (path : String) : Option String :=
  (f.bytes? path).bind fun bytes => String.fromUTF8? ⟨bytes.toArray⟩

end Folder

end GrammarAtlas
