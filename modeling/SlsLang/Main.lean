import SlsLang.CommandLine

namespace SlsLang

/-- The number of a system error, which may come with its sign changed. -/
def errorNumber (code : UInt32) : Nat := min code.toNat (-code).toNat

def faultOfNumber (details : String) : Nat → ReadFault
  | 2 => .notFound
  | 20 => .notADirectory
  | 21 => .isADirectory
  | 36 => .nameTooLong
  | _ => .other details

def faultOfError : IO.Error → ReadFault
  | .noFileOrDirectory .. => .notFound
  | .inappropriateType _ code details | .invalidArgument _ code details =>
    faultOfNumber details (errorNumber code)
  | e => .other (toString e)

/-- Reads a file as text. -/
def readFile (path : String) : IO (Except ReadFault String) := do
  try
    let content ← IO.FS.readBinFile path
    match String.fromUTF8? content with
    | some text => return .ok text
    | none => return .error .notUtf8
  catch e => return .error (faultOfError e)

/-- The files that a run with these arguments may read. -/
def neededPaths (workingDirectory : String) (arguments : List String) : List String :=
  match parseArguments arguments with
  | .ok (.run o) => [o.grammarPath, absolutePath workingDirectory o.source]
  | _ => []

/-- Runs the command line over the files there are. -/
def runHere (arguments : List String) : IO UInt32 := do
  let workingDirectory := (← IO.currentDir).toString
  let paths := neededPaths workingDirectory arguments
  let found ← paths.filterM fun (path : String) => do ((← IO.currentDir) / path).pathExists
  let files ← paths.mapM fun path => return (path, ← readFile path)
  let disk : Disk :=
    ⟨workingDirectory, found.contains, fun path => (files.lookup path).getD (.error .notFound)⟩
  let outcome := run arguments disk
  IO.print outcome.stdout
  IO.eprint outcome.stderr
  return outcome.exit.toUInt32

end SlsLang

def main (arguments : List String) : IO UInt32 := SlsLang.runHere arguments
