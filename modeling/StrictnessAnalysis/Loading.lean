import StrictnessAnalysis.Document
import StrictnessAnalysis.FileTree
import StrictnessAnalysis.Json.Reader
import StrictnessAnalysis.Report
import StrictnessAnalysis.Text.Utf8

/-! Loading a program from the text or the content of a file. Either the program is answered and the
report stays as it was, or one issue is added to it. -/

namespace StrictnessAnalysis

/-- What ends a run at once, wherever it stands: the report has as many issues as it takes,
something nests too deep, the solver found no fixed point, an integer is too long to be read or
written, or a path cannot name a file. -/
inductive Interrupt
  | tooManyIssues
  | tooDeep
  | unsolved
  | tooManyDigits
  | unusablePath
  deriving DecidableEq

/-- A report with what came of an attempt to load a program. -/
abbrev Loaded := Report × Except Interrupt (Option Program)

/-- No program: an issue says why. -/
def Report.reject (r : Report) (n : Notice) : Loaded :=
  let (r, exhausted) := r.issue n
  (r, if exhausted then .error .tooManyIssues else .ok none)

/-- Loads the text of the file at `path`, in which objects and lists may nest as deep as `depth`. -/
def Program.load (depth : Nat) (path : String) (text : List Char) (report : Report) : Loaded :=
  match Json.read (.document depth) text with
  | .error .tooDeep => (report, .error .tooDeep)
  | .error .tooManyDigits => (report, .error .tooManyDigits)
  | .error (.malformed complaint left) =>
    report.reject (.brokenFile path (complaint.describe text left))
  | .ok json =>
    match Document.decodeProgram json with
    | .ok program => (report, .ok (some program))
    | .error fault => report.reject fault.notice

/-- A carriage return, alone or with the line feed after it, becomes a line feed. -/
def unifyNewlines : List Char → List Char
  | '\r' :: '\n' :: rest => '\n' :: unifyNewlines rest
  | '\r' :: rest => '\n' :: unifyNewlines rest
  | c :: rest => c :: unifyNewlines rest
  | [] => []

/-- Loads what was read at a location: text in UTF-8, in which any line end counts as a line feed.
-/
def Program.loadFile (depth : Nat) (location : Location)
    (content : Except ReadFailure (List UInt8)) (report : Report) : Loaded :=
  let path := location.render
  match content with
  | .error .missing => report.reject (.noSuchFile path)
  | .error failure => report.reject (.brokenFile path (failure.message path))
  | .ok bytes =>
    match Text.Utf8.decode bytes with
    | .error fault => report.reject (.brokenFile path fault.message)
    | .ok text => Program.load depth path (unifyNewlines text) report

end StrictnessAnalysis
