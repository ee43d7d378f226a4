namespace SlsLang

/-- The pieces of a path between its slashes, empty ones among them. -/
def pathPieces : List Char → List (List Char)
  | [] => [[]]
  | c :: r =>
    if c = '/' then [] :: pathPieces r
    else match pathPieces r with
      | [] => [[c]]
      | piece :: pieces => (c :: piece) :: pieces

/-- The steps of a path. An empty piece and a single dot lead nowhere. -/
def pathSteps (path : String) : List String :=
  ((pathPieces path.toList).map String.ofList).filter fun piece => piece != "" && piece != "."

/-- A file name up to its last dot, unless the name starts with that dot. -/
def dropExtension (name : List Char) : List Char :=
  match (name.reverse.dropWhile (· != '.')).tail.reverse with
  | [] => name
  | stem => stem

/-- The name that a file gives to its module: the last name of its path without extension, and
nothing where the path ends in no name. -/
def fileStem (path : String) : String :=
  match (pathSteps path).getLast? with
  | none | some ".." => ""
  | some name => String.ofList (dropExtension name.toList)

def isAbsolute (path : String) : Bool := path.toList.head? == some '/'

/-- A path from the root, where `base` is the directory that a relative path starts from. A slash at
its end is kept, and so are the two slashes of a path that starts with exactly two. -/
def absolutePath (base path : String) : String :=
  let start := match path.toList with
    | '/' :: '/' :: '/' :: _ => "/"
    | '/' :: '/' :: _ => "//"
    | _ => "/"
  let steps := (if isAbsolute path then [] else pathSteps base) ++ pathSteps path
  let slash := if steps ≠ [] ∧ path.toList.getLast? = some '/' then "/" else ""
  start ++ "/".intercalate steps ++ slash

end SlsLang
