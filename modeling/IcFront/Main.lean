import IcFront.CommandLine.Run

/-!
# The command line

Reads the files that the arguments ask for, and writes what the command says.
-/

namespace IcFront

/-- The bytes of a file, if it can be read. -/
def readFile? (path : String) : IO (Option (List UInt8)) := do
  try
    let bytes ← IO.FS.readBinFile path
    return some bytes.toList
  catch _ => return none

end IcFront

/-- The command `icc`. -/
def main (args : List String) : IO UInt32 := do
  let files ← (IcFront.CommandLine.wanted args).mapM fun path => do
    return (path, ← IcFront.readFile? path)
  let outcome := IcFront.CommandLine.run (fun path => (files.lookup path).join) args
  IO.print outcome.stdout
  IO.eprint outcome.stderr
  match outcome.fault with
  | some fault =>
    IO.eprintln fault.message
    return 1
  | none => return UInt32.ofNat (outcome.exit.getD 0)
