import StrictnessAnalysis.Text.Quoted

/-! The words of a command line. Flags have a short and a long name. Short ones may be joined behind
one dash, long ones may be cut as long as they stay unambiguous. The first other word names the
program to analyse, and the words behind a double dash are never flags. -/

namespace StrictnessAnalysis.CommandLine

open Text

inductive Flag
  | help
  | verbose
  | quiet
  deriving DecidableEq

namespace Flag

def all : List Flag := [.help, .verbose, .quiet]

def short : Flag → Char
  | .help => 'h'
  | .verbose => 'v'
  | .quiet => 'q'

def long : Flag → String
  | .help => "--help"
  | .verbose => "--verbose"
  | .quiet => "--quiet"

/-- Both names of the flag. -/
def title (f : Flag) : String := "-" ++ String.singleton f.short ++ "/" ++ f.long

def ofShort? (c : Char) : Option Flag := all.find? fun f => f.short = c

end Flag

/-- Why a command line is refused. -/
inductive Rejection
  | missingProgram
  | unrecognized (words : List String)
  | ignoredArgument (flag : Flag) (argument : String)
  | ambiguous (word : String) (candidates : List Flag)

def Rejection.message : Rejection → String
  | .missingProgram => "the following arguments are required: program"
  | .unrecognized words => "unrecognized arguments: " ++ String.intercalate " " words
  | .ignoredArgument flag argument =>
    "argument " ++ flag.title ++ ": ignored explicit argument " ++ Quoted.quoted argument
  | .ambiguous word candidates =>
    "ambiguous option: " ++ word ++ " could match " ++
      String.intercalate ", " (candidates.map Flag.long)

/-! ### Words -/

/-- A word by itself. What is joined to a flag, behind an equals sign or directly, is kept with it,
and so are the words behind a double dash. -/
inductive Word
  | short (flag : Flag) (joined : Option (List Char))
  | long (flag : Flag) (joined : Option (List Char))
  | unknown (text : String)
  | plain (text : String)
  | dashes (behind : List String)

/-- What stands before the first equals sign, and what stands behind it. -/
def splitAtEquals (word : List Char) : List Char × Option (List Char) :=
  match word.dropWhile (· ≠ '=') with
  | [] => (word, none)
  | _ :: joined => (word.takeWhile (· ≠ '='), some joined)

/-- The code points of the digits zero of all scripts. In each script the ten digits are
consecutive, from zero to nine. -/
def zeroDigits : List Nat :=
  [0x30, 0x660, 0x6f0, 0x7c0, 0x966, 0x9e6, 0xa66, 0xae6, 0xb66, 0xbe6, 0xc66, 0xce6, 0xd66, 0xde6,
   0xe50, 0xed0, 0xf20, 0x1040, 0x1090, 0x17e0, 0x1810, 0x1946, 0x19d0, 0x1a80, 0x1a90, 0x1b50,
   0x1bb0, 0x1c40, 0x1c50, 0xa620, 0xa8d0, 0xa900, 0xa9d0, 0xa9f0, 0xaa50, 0xabf0, 0xff10, 0x104a0,
   0x10d30, 0x11066, 0x110f0, 0x11136, 0x111d0, 0x112f0, 0x11450, 0x114d0, 0x11650, 0x116c0,
   0x11730, 0x118e0, 0x11950, 0x11c50, 0x11d50, 0x11da0, 0x16a60, 0x16ac0, 0x16b50, 0x1d7ce,
   0x1d7d8, 0x1d7e2, 0x1d7ec, 0x1d7f6, 0x1e140, 0x1e2f0, 0x1e950, 0x1fbf0]

def isDecimalDigit (c : Char) : Bool :=
  zeroDigits.any fun start => start ≤ c.toNat && c.toNat < start + 10

/-- A dash and a number, maybe with a decimal point and with a line feed at the end, is no flag. -/
def looksNegative : List Char → Bool
  | '-' :: rest =>
    let number := if rest.getLast? = some '\n' then rest.dropLast else rest
    match number.dropWhile isDecimalDigit with
    | [] => !number.isEmpty
    | '.' :: fraction => !fraction.isEmpty && fraction.all isDecimalDigit
    | _ => false
  | _ => false

/-- The long flags whose names start with a text. -/
def longCandidates (start : List Char) : List Flag :=
  Flag.all.filter fun f => start.isPrefixOf f.long.toList

/-- A word that starts with a dash and is no flag that is known. -/
def otherWord (word : String) : Word :=
  if looksNegative word.toList || word.contains ' ' then .plain word else .unknown word

/-- What a word is by itself. No long name starts another one, so a name in full is not
ambiguous. -/
def classify (word : String) : Except Rejection Word :=
  match word.toList with
  | '-' :: '-' :: rest =>
    let (start, joined) := splitAtEquals ('-' :: '-' :: rest)
    match longCandidates start with
    | [] => .ok (otherWord word)
    | [flag] => .ok (.long flag joined)
    | candidates => .error (.ambiguous word candidates)
  | '-' :: c :: rest =>
    match Flag.ofShort? c, rest with
    | some flag, [] => .ok (.short flag none)
    | some flag, '=' :: joined => .ok (.short flag (some joined))
    | some flag, joined => .ok (.short flag (some joined))
    | none, _ => .ok (otherWord word)
  | _ => .ok (.plain word)

/-- The flags that a word stands for: one, and those whose short names are joined to it. -/
def cluster (flag : Flag) : List Char → Except Rejection (List Flag)
  | [] => .ok [flag]
  | c :: rest =>
    match Flag.ofShort? c with
    | none => .error (.ignoredArgument flag (String.ofList (c :: rest)))
    | some next => do return flag :: (← cluster next rest)

/-! ### Command lines -/

structure Options where
  program : String
  verbosity : Nat
  quiet : Bool

inductive Command
  | help
  | reject (rejection : Rejection)
  | analyze (options : Options)

/-- What the words read so far have said. -/
structure Choices where
  program : Option String := none
  verbosity : Nat := 0
  quiet : Bool := false
  extra : List String := []

namespace Choices

/-- Acts on flags in order; none if one of them asks for help. -/
def act (choices : Choices) : List Flag → Option Choices
  | [] => some choices
  | .help :: _ => none
  | .verbose :: rest => act { choices with verbosity := choices.verbosity + 1 } rest
  | .quiet :: rest => act { choices with quiet := true } rest

/-- A word that is no flag: the program, or one too many. -/
def plain (choices : Choices) (word : String) : Choices :=
  match choices.program with
  | none => { choices with program := some word }
  | some _ => { choices with extra := choices.extra ++ [word] }

/-- The words behind a double dash. Where they give the program, the dash is dropped. -/
def afterDashes (choices : Choices) (words : List String) : Choices :=
  match choices.program, words with
  | none, program :: rest =>
    { choices with program := some program, extra := choices.extra ++ rest }
  | _, _ => { choices with extra := choices.extra ++ "--" :: words }

def finish (choices : Choices) : Command :=
  match choices.program, choices.extra with
  | none, _ => .reject .missingProgram
  | some program, [] => .analyze ⟨program, choices.verbosity, choices.quiet⟩
  | some _, extra => .reject (.unrecognized extra)

end Choices

/-- Acts on words from left to right. A double dash is dropped as well where it follows the word
that gives the program. -/
def follow (choices : Choices) : List Word → Command
  | [] => choices.finish
  | .plain text :: .dashes behind :: _ =>
    match choices.program with
    | none =>
      { choices with program := some text, extra := choices.extra ++ behind : Choices }.finish
    | some _ => ((choices.plain text).afterDashes behind).finish
  | .plain text :: rest => follow (choices.plain text) rest
  | .dashes behind :: _ => (choices.afterDashes behind).finish
  | .unknown text :: rest => follow { choices with extra := choices.extra ++ [text] } rest
  | .long flag (some joined) :: _ => .reject (.ignoredArgument flag (String.ofList joined))
  | .short flag (some []) :: _ => .reject (.ignoredArgument flag "")
  | .long flag none :: rest =>
    match choices.act [flag] with
    | none => .help
    | some choices => follow choices rest
  | .short flag joined :: rest =>
    match cluster flag (joined.getD []) with
    | .error rejection => .reject rejection
    | .ok flags =>
      match choices.act flags with
      | none => .help
      | some choices => follow choices rest

/-- The words up to a double dash, which takes all words behind it. -/
def classifyAll : List String → Except Rejection (List Word)
  | [] => .ok []
  | "--" :: behind => .ok [.dashes behind]
  | word :: rest => do
    let word ← classify word
    return word :: (← classifyAll rest)

/-- What a command line asks for. Every word is looked at before any is acted on. -/
def parse (words : List String) : Command :=
  match classifyAll words with
  | .error rejection => .reject rejection
  | .ok words => follow {} words

end StrictnessAnalysis.CommandLine
