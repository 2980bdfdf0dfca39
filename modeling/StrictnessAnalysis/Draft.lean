import StrictnessAnalysis.Expr.Printer
import StrictnessAnalysis.Json

/-! Drafts: terms put together by hand from parts of any kind. A draft is a node, the definition of
a function, or a plain datum that stands where a node might. The constructors check some of their
parts and refuse what does not fit; what passes unchecked, such as the parts of a conditional, can
still turn out not to be a node when it is evaluated. -/

namespace StrictnessAnalysis

open Text

/-- What a name is applied as. A bare application has no meaning of its own. -/
inductive Applied
  | bare
  | basic
  | call (mode : CallMode)
  deriving DecidableEq

def Applied.label : Applied → String
  | .bare => "Application"
  | .basic => "BasicFn"
  | .call mode => mode.label

inductive Draft
  | null
  | bool (value : Bool)
  | int (value : Int)
  | real (value : Decimal)
  | str (value : String)
  | list (items : List Draft)
  | record (keys : List String) (values : List Draft)
  | const (value : Int)
  | var (name : String)
  | cond (test yes no : Draft)
  | apply (applied : Applied) (name : String) (args : List Draft)
  | definition (name : Draft) (params : List Draft) (body : Draft)

namespace Draft

mutual

/-- A JSON value as a datum. -/
def ofJson (json : Json) : Draft :=
  match json with
  | .null => .null
  | .bool b => .bool b
  | .int n => .int n
  | .real x => .real x
  | .str s => .str s
  | .arr items => .list (ofItems items)
  | .obj fields => .record (fields.map Prod.fst) (ofFields fields)

def ofItems (items : List Json) : List Draft :=
  match items with
  | [] => []
  | item :: rest => ofJson item :: ofItems rest

def ofFields (fields : List (String × Json)) : List Draft :=
  match fields with
  | [] => []
  | (_, value) :: rest => ofJson value :: ofFields rest

end

/-! ### Written form -/

mutual

def chars : Draft → List Char
  | .null => "None".toList
  | .bool true => "True".toList
  | .bool false => "False".toList
  | .int n => (toString n).toList
  | .real x => x.chars
  | .str s => Quoted.encode s.toList
  | .list items => bracketed (charsAll items)
  | .record keys values => '\x7b' :: commaSeparated (charsFields keys values) ++ ['\x7d']
  | .const n => Expr.form "Const" [(toString n).toList]
  | .var x => Expr.form "Var" [Quoted.encode x.toList]
  | .cond test yes no => Expr.form "If" [test.chars, yes.chars, no.chars]
  | .apply applied name args =>
    Expr.form applied.label [Quoted.encode name.toList, tuple (charsAll args)]
  | .definition name params body =>
    Expr.form "FunDef" [name.chars, bracketed (charsAll params), body.chars]

def charsAll : List Draft → List (List Char)
  | [] => []
  | d :: ds => d.chars :: charsAll ds

def charsFields : List String → List Draft → List (List Char)
  | key :: keys, value :: values =>
    (Quoted.encode key.toList ++ ':' :: ' ' :: value.chars) :: charsFields keys values
  | _, _ => []

end

mutual

/-- Every integer in the draft can be written. -/
def isWritable : Draft → Bool
  | .int n => Text.isWritable n
  | .const n => Text.isWritable n
  | .list items => areWritable items
  | .record _ values => areWritable values
  | .cond test yes no => test.isWritable && yes.isWritable && no.isWritable
  | .apply _ _ args => areWritable args
  | .definition name params body => name.isWritable && areWritable params && body.isWritable
  | _ => true

def areWritable : List Draft → Bool
  | [] => true
  | d :: ds => d.isWritable && areWritable ds

end

/-- The written form, if every integer can be written. -/
def text? (d : Draft) : Option String := if d.isWritable then some (String.ofList d.chars) else none

/-- As the written form, but a text stands for itself. -/
def plainText : Draft → String
  | .str s => s
  | d => String.ofList d.chars

/-! ### Kinds -/

/-- The name of the kind of a draft. -/
def kind : Draft → String
  | .null => "NoneType"
  | .bool _ => "bool"
  | .int _ => "int"
  | .real _ => "float"
  | .str _ => "str"
  | .list _ => "list"
  | .record .. => "dict"
  | .const _ => "Const"
  | .var _ => "Var"
  | .cond .. => "If"
  | .apply applied .. => applied.label
  | .definition .. => "FunDef"

def isNode : Draft → Bool
  | .const _ => true
  | .var _ => true
  | .cond .. => true
  | .apply .. => true
  | _ => false

/-- The kind in full. Those of nodes and definitions belong to the vocabulary of terms. -/
def fullKind (d : Draft) : String :=
  let scope := match d with
    | .definition .. => "strictness.syntax."
    | _ => if d.isNode then "strictness.syntax." else ""
  "<class '" ++ scope ++ d.kind ++ "'>"

/-! ### Construction -/

/-- Why a constructor refuses its parts: a part is of the wrong kind, is no sequence, or is or holds
something that is no node. -/
inductive Refusal
  | wrongKind (given : Draft)
  | notSequence (given : Draft)
  | notNode (given : Draft)

def Refusal.message : Refusal → String
  | .wrongKind given => given.fullKind
  | .notSequence given => "'" ++ given.kind ++ "' object is not iterable"
  | .notNode given => given.plainText

/-- The members of a sequence: of a text its characters, of an object its keys. -/
def members : Draft → Except Refusal (List Draft)
  | .list items => .ok items
  | .str s => .ok (s.toList.map fun c => .str (String.singleton c))
  | .record keys _ => .ok (keys.map .str)
  | d => .error (.notSequence d)

def requireNode (d : Draft) : Except Refusal Unit :=
  if d.isNode then .ok () else .error (.notNode d)

def makeConst : Draft → Except Refusal Draft
  | .int n => .ok (.const n)
  | d => .error (.wrongKind d)

def makeVar : Draft → Except Refusal Draft
  | .str name => .ok (.var name)
  | d => .error (.wrongKind d)

/-- The name is checked before the arguments. -/
def makeApply (applied : Applied) (name args : Draft) : Except Refusal Draft :=
  match name with
  | .str name => do
    let args ← args.members
    args.forM requireNode
    return .apply applied name args
  | d => .error (.wrongKind d)

/-- The body is checked before the parameters; name and parameters may be anything. -/
def makeDefinition (name params body : Draft) : Except Refusal Draft := do
  requireNode body
  return .definition name (← params.members) body

/-- The number of parameters of a definition. -/
def arity? : Draft → Option Nat
  | .definition _ params _ => some params.length
  | _ => none

end Draft

end StrictnessAnalysis
