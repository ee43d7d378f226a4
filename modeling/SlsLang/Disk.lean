import SlsLang.SourcePath

namespace SlsLang

/-- Why a file cannot be read as text. -/
inductive ReadFault
  | notFound
  | notADirectory
  | isADirectory
  | nameTooLong
  | notUtf8
  | emptyPath
  | other (report : String)
deriving DecidableEq, Repr

def ReadFault.message : ReadFault → String
  | notFound => "No such file or directory (os error 2)"
  | notADirectory => "Not a directory (os error 20)"
  | isADirectory => "Is a directory (os error 21)"
  | nameTooLong => "File name too long (os error 36)"
  | notUtf8 => "stream did not contain valid UTF-8"
  | emptyPath => "cannot make an empty path absolute"
  | other report => report

/-- What a run sees of the files: the directory it works in, whether anything can be told of a path,
and what reading it gives. Neither answer follows from the other: what stands at a path may not be
readable, and where the way to it is barred, nothing can be told of it. -/
structure Disk where
  workingDirectory : String
  isPresent : String → Bool
  read : String → Except ReadFault String

/-- A source file under its absolute name, with its text. -/
def Disk.readSource (disk : Disk) (path : String) : Except ReadFault (String × String) :=
  if path = "" then .error .emptyPath
  else
    let file := absolutePath disk.workingDirectory path
    (disk.read file).map fun text => (file, text)

end SlsLang
