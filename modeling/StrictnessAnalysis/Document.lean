import StrictnessAnalysis.Json
import StrictnessAnalysis.Notice
import StrictnessAnalysis.Table

/-! Programs, and how they are told by JSON documents. The document is an object with "functions"
and maybe "queries". A function has a "name", maybe "params", and a "body"; a query has an "expr" and
maybe an "env". An expression is an object with one of the keys of the seven forms. Keys that the
format does not know are ignored.

Decoding stops at the first fault, which is told by its place: the steps that lead to it from the
document's root. -/

namespace StrictnessAnalysis

structure Query where
  expr : Expr
  /-- Names with their values, of which some may be undefined. -/
  env : List (String × Option Int)

/-- Function definitions, and queries to evaluate under environments of their own. -/
structure Program where
  functions : List Definition
  queries : List Query

namespace Document

/-! ### Places and faults -/

inductive Step
  | key (name : String)
  | index (i : Nat)
  deriving DecidableEq

def Step.render : Step → String
  | .key name => "." ++ name
  | .index i => "[" ++ toString i ++ "]"

/-- The steps from the root to a value. -/
abbrev Place := List Step

namespace Place

def key (p : Place) (name : String) : Place := p ++ [.key name]

def index (p : Place) (i : Nat) : Place := p ++ [.index i]

def render : Place → String
  | [] => "(document)"
  | .key name :: rest => name ++ String.join (rest.map Step.render)
  | steps => String.join (steps.map Step.render)

end Place

inductive Expectation
  | expression
  | integer
  | name
  | list
  | threeParts
  | definition
  | query
  | bindings
  | program
  deriving DecidableEq

def Expectation.text : Expectation → String
  | .expression => "an expression object"
  | .integer => "an integer"
  | .name => "a name"
  | .list => "a list"
  | .threeParts => "exactly three parts: condition, then, else"
  | .definition => "a function definition object"
  | .query => "a query object"
  | .bindings => "an object mapping names to integers or null"
  | .program => "an object with \"functions\" and maybe \"queries\""

/-- What is wrong with a document: something is not what its place calls for, or an expression is of
no known form. -/
inductive Fault
  | expected (place : Place) (expectation : Expectation)
  | unknownForm (place : Place) (keys : List String)

def Fault.notice : Fault → Notice
  | .expected place expectation => .malformed place.render expectation.text
  | .unknownForm place keys => .unknownForm place.render keys

/-! ### Decoding -/

def decodeName (place : Place) : Json → Except Fault String
  | .str name => .ok name
  | _ => .error (.expected place .name)

def decodeInt (place : Place) : Json → Except Fault Int
  | .int n => .ok n
  | _ => .error (.expected place .integer)

/-- The keys of the applications, each with what it makes of a name and arguments. -/
def applications : List (String × (String → List Expr → Expr)) :=
  [("basic", .basic), ("call", .call .plain), ("memo", .call .memo), ("fpi", .call .solved)]

mutual

def decodeExpr (place : Place) (json : Json) : Except Fault Expr :=
  match json with
  | .obj fields =>
    match fields.lookup "const", fields.lookup "var" with
    | some value, _ => do return .const (← decodeInt (place.key "const") value)
    | none, some value => do return .var (← decodeName (place.key "var") value)
    | none, none =>
      match _parts : fields.lookup "if" with
      | some (.arr [test, yes, no]) => do
        let parts := place.key "if"
        let test ← decodeExpr (parts.index 0) test
        let yes ← decodeExpr (parts.index 1) yes
        let no ← decodeExpr (parts.index 2) no
        return .cond test yes no
      | some (.arr _) => .error (.expected (place.key "if") .threeParts)
      | some _ => .error (.expected (place.key "if") .list)
      | none =>
        match applications.find? fun form => (fields.lookup form.1).isSome with
        | none => .error (.unknownForm place (fields.map Prod.fst))
        | some (key, build) => do
          let name ← decodeName (place.key key) ((fields.lookup key).getD .null)
          match _args : fields.lookup "args" with
          | none => return build name []
          | some (.arr items) => return build name (← decodeExprs (place.key "args") 0 items)
          | some _ => throw (.expected (place.key "args") .list)
  | _ => .error (.expected place .expression)
termination_by sizeOf json
decreasing_by
  · exact Json.sizeOf_item_lt _parts (by simp)
  · exact Json.sizeOf_item_lt _parts (by simp)
  · exact Json.sizeOf_item_lt _parts (by simp)
  · exact Json.sizeOf_items_lt _args

/-- Expressions in a list, of which the first has index `i`. -/
def decodeExprs (place : Place) (i : Nat) (items : List Json) : Except Fault (List Expr) :=
  match items with
  | [] => .ok []
  | item :: rest => do
    let e ← decodeExpr (place.index i) item
    return e :: (← decodeExprs place (i + 1) rest)
termination_by sizeOf items
decreasing_by
  all_goals
    simp only [List.cons.sizeOf_spec]
    omega

end

/-- Items of a list, of which the first has index `i`. -/
def decodeItems {α : Type} (decode : Place → Json → Except Fault α) (place : Place) :
    (i : Nat) → List Json → Except Fault (List α)
  | _, [] => .ok []
  | i, item :: rest => do
    let a ← decode (place.index i) item
    return a :: (← decodeItems decode place (i + 1) rest)

/-- The items of a member that is a list, none if there is no such member. -/
def decodeList {α : Type} (decode : Place → Json → Except Fault α) (place : Place)
    (fields : List (String × Json)) (key : String) : Except Fault (List α) :=
  match (fields.lookup key).getD (.arr []) with
  | .arr items => decodeItems decode (place.key key) 0 items
  | _ => .error (.expected (place.key key) .list)

def decodeDefinition (place : Place) : Json → Except Fault Definition
  | .obj fields => do
    let name ← decodeName (place.key "name") ((fields.lookup "name").getD .null)
    let params ← decodeList decodeName place fields "params"
    let body ← decodeExpr (place.key "body") ((fields.lookup "body").getD .null)
    return ⟨name, params, body⟩
  | _ => .error (.expected place .definition)

/-- Bindings of names to integers, or to null for undefined. -/
def decodeBindings (place : Place) :
    List (String × Json) → Except Fault (List (String × Option Int))
  | [] => .ok []
  | (name, .null) :: rest => do return (name, none) :: (← decodeBindings place rest)
  | (name, value) :: rest => do
    let n ← decodeInt (place.key name) value
    return (name, some n) :: (← decodeBindings place rest)

def decodeQuery (place : Place) : Json → Except Fault Query
  | .obj fields => do
    let env ← match (fields.lookup "env").getD (.obj []) with
      | .obj bindings => decodeBindings (place.key "env") bindings
      | _ => throw (.expected (place.key "env") .bindings)
    let expr ← decodeExpr (place.key "expr") ((fields.lookup "expr").getD .null)
    return ⟨expr, env⟩
  | _ => .error (.expected place .query)

def decodeProgram : Json → Except Fault Program
  | .obj fields => do
    let functions ← decodeList decodeDefinition [] fields "functions"
    let queries ← decodeList decodeQuery [] fields "queries"
    return ⟨functions, queries⟩
  | _ => .error (.expected [] .program)

end Document

end StrictnessAnalysis
