import StrictnessAnalysis.Expr

/-! The calls in an expression: replacing them, and listing whom they call. Replacement hands every
outermost plain call to a hook, with its arguments and, for each argument, the action of replacing
the calls in it in turn; everything around these calls is rebuilt, and memo calls and solved calls
stay as they are. -/

namespace StrictnessAnalysis.Expr

section

variable {m : Type → Type} [Monad m]

mutual

/-- The expression with each plain call replaced by what the hook makes of it. -/
def mapCallsM (hook : String → List (Expr × m Expr) → m Expr) : Expr → m Expr
  | .const n => pure (.const n)
  | .var x => pure (.var x)
  | .cond test yes no => do
    let test ← test.mapCallsM hook
    let yes ← yes.mapCallsM hook
    let no ← no.mapCallsM hook
    return .cond test yes no
  | .basic operator args => do return .basic operator (← (visits hook args).mapM Prod.snd)
  | .call .plain callee args => hook callee (visits hook args)
  | .call .memo callee args => pure (.call .memo callee args)
  | .call .solved callee args => pure (.call .solved callee args)

/-- Each expression with the action of replacing the calls in it. -/
def visits (hook : String → List (Expr × m Expr) → m Expr) : List Expr → List (Expr × m Expr)
  | [] => []
  | e :: es => (e, e.mapCallsM hook) :: visits hook es

end

end

/-- Replacement without effects: the hook is given the arguments as they are and as replaced. -/
def mapCalls (hook : String → List Expr → List Expr → Expr) (e : Expr) : Expr :=
  Id.run <| e.mapCallsM fun callee args =>
    pure (hook callee (args.map Prod.fst) (args.map fun a => a.2.run))

/-- Plain calls read from the memo table instead; their arguments stay as they are. -/
def memoized (e : Expr) : Expr := e.mapCalls fun callee args _ => .call .memo callee args

mutual

/-- The names called anywhere in the expression, in any mode, in order of appearance. -/
def callees : Expr → List String
  | .const _ => []
  | .var _ => []
  | .cond test yes no => test.callees ++ yes.callees ++ no.callees
  | .basic _ args => calleesAll args
  | .call _ callee args => callee :: calleesAll args

def calleesAll : List Expr → List String
  | [] => []
  | e :: es => e.callees ++ calleesAll es

end

/-! ### Equations -/

section

variable (hook : String → List Expr → List Expr → Expr)

@[simp] theorem mapCalls_const (n : Int) : mapCalls hook (.const n) = .const n := rfl

@[simp] theorem mapCalls_var (x : String) : mapCalls hook (.var x) = .var x := rfl

@[simp] theorem mapCalls_cond (test yes no : Expr) :
    mapCalls hook (.cond test yes no) =
      .cond (test.mapCalls hook) (yes.mapCalls hook) (no.mapCalls hook) := rfl

@[simp] theorem mapCalls_memo (callee : String) (args : List Expr) :
    mapCalls hook (.call .memo callee args) = .call .memo callee args := rfl

@[simp] theorem mapCalls_solved (callee : String) (args : List Expr) :
    mapCalls hook (.call .solved callee args) = .call .solved callee args := rfl

theorem visits_eq_map {m : Type → Type} [Monad m] (hook : String → List (Expr × m Expr) → m Expr)
    (es : List Expr) : visits hook es = es.map fun e => (e, e.mapCallsM hook) := by
  induction es with
  | nil => rfl
  | cons e es ih => simp only [visits, ih, List.map_cons]

@[simp] theorem mapCalls_basic (operator : String) (args : List Expr) :
    mapCalls hook (.basic operator args) = .basic operator (args.map (mapCalls hook)) := by
  simp [mapCalls, mapCallsM, visits_eq_map]

@[simp] theorem mapCalls_plain (callee : String) (args : List Expr) :
    mapCalls hook (.call .plain callee args) = hook callee args (args.map (mapCalls hook)) := by
  simp only [mapCalls, mapCallsM, visits_eq_map, List.map_map, Function.comp_def, List.map_id']
  rfl

end

theorem calleesAll_eq_flatMap (es : List Expr) : calleesAll es = es.flatMap callees := by
  induction es with
  | nil => rfl
  | cons e es ih => simp only [calleesAll, ih, List.flatMap_cons]

end StrictnessAnalysis.Expr
