/-! # Directories

A directory files one value per name. Names in ascending order, as listings show them, come from
`ascending`. -/

namespace GrammarAtlas

/-- Values filed under names, each name at most once. -/
abbrev Directory (α : Type) := List (String × α)

namespace Directory

variable {α : Type}

def get? (d : Directory α) (name : String) : Option α := d.lookup name

def erase (d : Directory α) (name : String) : Directory α := d.filter fun (n, _) => n != name

/-- Files `a` under `name`, in place of what was there. -/
def insert (d : Directory α) (name : String) (a : α) : Directory α := d.erase name ++ [(name, a)]

end Directory

/-- Puts `name` into an ascending list, unless it is there. -/
def insertAscending (name : String) : List String → List String
  | [] => [name]
  | n :: rest =>
    if name < n then name :: n :: rest
    else if name = n then n :: rest
    else n :: insertAscending name rest

/-- The names of a list in ascending order, each once. -/
def ascending (names : List String) : List String := names.foldr insertAscending []

end GrammarAtlas
