import MessageCodec.Schema.Compiler

/-! The command line of the specification compiler: the name of a file, and `--proto` or `--odvd`
for an output other than the summary. -/

namespace MessageCodec

open Schema (Target Outcome)

/-- The target and the file that the arguments ask for. -/
def readArguments : List String → Option (Target × String)
  | [path] => some (.summary, path)
  | ["--proto", path] | [path, "--proto"] => some (.proto, path)
  | ["--odvd", path] | [path, "--odvd"] => some (.listing, path)
  | _ => none

def compileFile (target : Target) (path : String) : IO Outcome := do
  match ← (IO.FS.readBinFile path).toBaseIO with
  | .ok content => return .ofResult path (Schema.compile target content.data.toList)
  | .error e => return .ofResult path (.error (.unreadable (toString e)))

end MessageCodec

def main (args : List String) : IO UInt32 := do
  match MessageCodec.readArguments args with
  | none =>
    IO.eprintln "usage: cluon-msc [--proto | --odvd] FILE"
    return 2
  | some (target, path) =>
    let outcome ← MessageCodec.compileFile target path
    IO.print outcome.output
    IO.eprint outcome.complaint
    return outcome.exitCode
