import StrictnessAnalysis.Abstract
import StrictnessAnalysis.Draft
import StrictnessAnalysis.Standard

/-! Drafts evaluated where no functions are defined. The rules are those of expressions; what is no
node, and a bare application, has no meaning and fails when it is reached. -/

namespace StrictnessAnalysis.Draft

/-- Why a draft was not evaluated. -/
inductive Failure
  | meaningless
  | standard (cause : Standard.Failure)

mutual

/-- The standard value. Only the chosen part of a conditional is reached. -/
def eval (env : Standard.Env) : Draft → Except Failure (Option Int)
  | .const n => .ok (some n)
  | .var x => .ok (env x)
  | .cond test yes no => do
    match ← test.eval env with
    | none => return none
    | some n => if n = 0 then no.eval env else yes.eval env
  | .apply .basic name args =>
    match Operator.ofName? name with
    | none => .ok none
    | some op => do
      match Standard.applyOperator op (← evalAll env args) with
      | .ok value => return value
      | .error cause => throw (.standard cause)
  | .apply (.call _) _ _ => .ok none
  | _ => .error .meaningless

def evalAll (env : Standard.Env) : List Draft → Except Failure (List (Option Int))
  | [] => .ok []
  | d :: ds => do
    let value ← d.eval env
    return value :: (← evalAll env ds)

end

mutual

/-- The abstract value. All parts of a conditional are reached. -/
def analyze (env : Abstract.Env) : Draft → Except Failure Definedness
  | .const _ => .ok .one
  | .var x => .ok (env x)
  | .cond test yes no => do
    let a ← test.analyze env
    let b ← yes.analyze env
    let c ← no.analyze env
    return a.meet (b.join c)
  | .apply .basic name args =>
    match Operator.ofName? name with
    | none => .ok .zero
    | some _ => do return (← analyzeAll env args).foldl Definedness.meet .one
  | .apply (.call _) _ _ => .ok .zero
  | _ => .error .meaningless

def analyzeAll (env : Abstract.Env) : List Draft → Except Failure (List Definedness)
  | [] => .ok []
  | d :: ds => do
    let value ← d.analyze env
    return value :: (← analyzeAll env ds)

end

mutual

/-- Plain calls made memo calls, with their arguments as they are. -/
def memoized : Draft → Except Failure Draft
  | .const n => .ok (.const n)
  | .var x => .ok (.var x)
  | .cond test yes no => do
    let test ← test.memoized
    let yes ← yes.memoized
    let no ← no.memoized
    return .cond test yes no
  | .apply .basic name args => do return .apply .basic name (← memoizedAll args)
  | .apply (.call .plain) name args => .ok (.apply (.call .memo) name args)
  | .apply (.call mode) name args => .ok (.apply (.call mode) name args)
  | _ => .error .meaningless

def memoizedAll : List Draft → Except Failure (List Draft)
  | [] => .ok []
  | d :: ds => do
    let d ← d.memoized
    return d :: (← memoizedAll ds)

end

end StrictnessAnalysis.Draft
