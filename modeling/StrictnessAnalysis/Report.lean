import StrictnessAnalysis.Notice
import StrictnessAnalysis.Text.Layout

/-! The report of a run. It collects issues, of which it takes a limited number, and cautions, which
never count as issues; and it holds whether to chatter about progress. What it says is answered as
text. -/

namespace StrictnessAnalysis

open Text

/-! ### Outbursts -/

def particles : List String := ["Oh, ", "Well, ", "Aw, ", "", ""]

def oaths : List String := [
  "Ack", "ARGH", "Blargh", "Blasted Thing", "Confound it", "Crud", "Curses", "Crikey",
  "Dag Nabbit", "Drat", "Fiddlesticks", "Good Grief", "Great Scott", "Jeepers", "Heavens", "Nuts",
  "Rats", "Woe is me"]

def resignations : List String := [
  "I am undone.",
  "I cannot continue.",
  "I have no idea what the right answer is.",
  "I need to ask for help."]

/-- What a run says when things have gone wrong: one item of each list, whichever they are. -/
structure Outburst where
  particle : Fin particles.length
  oath : Fin oaths.length
  resignation : Fin resignations.length

namespace Outburst

/-- The items at three places, which are counted around the lists. -/
def pick (i j k : Nat) : Outburst where
  particle := ⟨i % particles.length, Nat.mod_lt _ (by decide)⟩
  oath := ⟨j % oaths.length, Nat.mod_lt _ (by decide)⟩
  resignation := ⟨k % resignations.length, Nat.mod_lt _ (by decide)⟩

def text (o : Outburst) : String :=
  particles.get o.particle ++ oaths.get o.oath ++ "! " ++ resignations.get o.resignation

end Outburst

/-! ### Reports -/

structure Report where
  chatty : Bool := false
  limit : Int := 3
  issues : List Notice := []
  cautions : List Notice := []

namespace Report

def ok (r : Report) : Bool := r.issues.isEmpty

def sick (r : Report) : Bool := !r.ok

/-- Takes an issue, and says whether there are now exactly as many as the limit. -/
def issue (r : Report) (n : Notice) : Report × Bool :=
  let r := { r with issues := r.issues ++ [n] }
  (r, r.issues.length == r.limit)

def caution (r : Report) (n : Notice) : Report := { r with cautions := r.cautions ++ [n] }

/-- Progress, said only when chatty: the words on a line. -/
def info (r : Report) (words : List String) : String :=
  if r.chatty then String.intercalate " " words ++ "\n" else ""

/-- All issues under a banner, or nothing if there are none. -/
def complaint (r : Report) (outburst : Outburst) : String :=
  let banner := if r.sick then [String.ofList (List.replicate 60 '*'), outburst.text] else []
  let rule := String.join (List.replicate 20 "  -")
  lines (banner ++ r.issues.flatMap fun n => [rule, n.text])

/-- All cautions. -/
def mention (r : Report) : String := lines (r.cautions.map Notice.text)

/-- What is wrong with a run that was to have no issues, if it has some. -/
def objection? (r : Report) (outburst : Outburst) (message : String) : Option String :=
  if r.sick then some (outburst.text ++ " " ++ message) else none

end Report

end StrictnessAnalysis
