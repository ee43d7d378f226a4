import SlsLang.Disk

namespace SlsLang

inductive FileEntry
  | file (content : ByteArray)
  | directory

/-- Files and directories by their paths from the root. Whatever stands above an entry is a directory
too. -/
structure FileTree where
  entries : List (List String × FileEntry)

/-- The most bytes that the name of a file or directory can have. -/
def maxNameSize : Nat := 255

/-- The most bytes that a path can have. -/
def maxPathSize : Nat := 4095

namespace FileTree

def entryAt? (t : FileTree) (path : List String) : Option FileEntry :=
  match t.entries.lookup path with
  | some entry => some entry
  | none => if t.entries.any (path.isPrefixOf ·.1) then some .directory else none

/-- Goes on from `place` piece by piece. Only a directory can be left in any direction, and two dots
lead to the directory above. A name is looked at only where its directory has been found. -/
def follow (t : FileTree) (place : List String) : List String → Except ReadFault FileEntry
  | [] =>
    match t.entryAt? place with
    | some entry => .ok entry
    | none => .error .notFound
  | piece :: pieces =>
    match t.entryAt? place with
    | none => .error .notFound
    | some (.file _) => .error .notADirectory
    | some .directory =>
      if piece = "" ∨ piece = "." then follow t place pieces
      else if piece = ".." then follow t place.dropLast pieces
      else if maxNameSize < piece.utf8ByteSize then .error .nameTooLong
      else follow t (place ++ [piece]) pieces

/-- What stands at a path. One that does not start with a slash starts from `base`. -/
def find (t : FileTree) (base : List String) (path : String) : Except ReadFault FileEntry :=
  if path = "" then .error .notFound
  else if maxPathSize < path.utf8ByteSize then .error .nameTooLong
  else
    t.follow (if isAbsolute path then [] else base) ((pathPieces path.toList).map String.ofList)

/-- The text of a file. -/
def read (t : FileTree) (base : List String) (path : String) : Except ReadFault String :=
  match t.find base path with
  | .ok (.file content) =>
    match String.fromUTF8? content with
    | some text => .ok text
    | none => .error .notUtf8
  | .ok .directory => .error .isADirectory
  | .error fault => .error fault

/-- A disk that holds the directory `base` with some files in it, and nothing else. -/
def disk (base : List String) (files : List (List String × FileEntry)) : Disk :=
  let tree : FileTree := ⟨(base, .directory) :: files.map fun (path, entry) => (base ++ path, entry)⟩
  ⟨"/" ++ "/".intercalate base, fun path => (tree.find base path).isOk, tree.read base⟩

end FileTree

end SlsLang
