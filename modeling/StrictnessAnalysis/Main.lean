import StrictnessAnalysis.CommandLine.Session

/-! The command line program. -/

open StrictnessAnalysis

namespace StrictnessAnalysis.CommandLine

/-- Of what is of the wrong type, only a folder to be read has code 21, and of what is no argument,
only a name or path that is too long has code 36; codes may come negated. -/
def readFailure : IO.Error → ReadFailure
  | .noFileOrDirectory .. => .missing
  | .inappropriateType _ code _ => if code = 21 ∨ code = -21 then .isFolder else .notFolder
  | e@(.invalidArgument _ code _) =>
    if code = 36 ∨ code = -36 then .tooLong else .other (toString e)
  | e => .other (toString e)

def readFile (location : Location) : IO (Except ReadFailure (List UInt8)) := do
  try
    return .ok (← IO.FS.readBinFile location.render).toList
  catch e => return .error (readFailure e)

def drawOutburst : IO Outburst := do
  return .pick (← IO.rand 0 (particles.length - 1)) (← IO.rand 0 (oaths.length - 1))
    (← IO.rand 0 (resignations.length - 1))

end StrictnessAnalysis.CommandLine

def main (words : List String) : IO UInt32 := do
  let folder := Location.ofString (← IO.currentDir).toString
  let content ← match CommandLine.target? words folder with
    | some location => CommandLine.readFile location
    | none => pure (.error .missing)
  let outburst ← CommandLine.drawOutburst
  let outcome := CommandLine.run CommandLine.depthLimit outburst words folder fun _ => content
  IO.print outcome.console.out
  IO.eprint outcome.console.err
  match outcome.ending with
  | .exited status => return status.toUInt32
  | .returned => return 0
  | .interrupted _ => return 1
