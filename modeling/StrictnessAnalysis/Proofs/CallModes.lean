import StrictnessAnalysis.Analysis
import StrictnessAnalysis.Proofs.Actions
import StrictnessAnalysis.Proofs.Lookup

/-! In the standard semantics the mode of a call makes no difference. Two programs that are the same
once all modes are forgotten run in step: at every depth they have the same value, fail for the same
shortage of operands, or run out of depth together. Both ways of preparing bodies for the solver
only change modes, unless there are calls into the ring. -/

namespace StrictnessAnalysis

namespace Expr

mutual

/-- The expression with every call written as a plain one. -/
def forgetModes : Expr → Expr
  | .const n => .const n
  | .var x => .var x
  | .cond test yes no => .cond test.forgetModes yes.forgetModes no.forgetModes
  | .basic operator args => .basic operator (forgetModesAll args)
  | .call _ callee args => .call .plain callee (forgetModesAll args)

def forgetModesAll : List Expr → List Expr
  | [] => []
  | e :: es => e.forgetModes :: forgetModesAll es

end

theorem forgetModesAll_eq_map (es : List Expr) : forgetModesAll es = es.map forgetModes := by
  induction es with
  | nil => rfl
  | cons e es ih => simp only [forgetModesAll, ih, List.map_cons]

@[simp] theorem forgetModes_basic (operator : String) (args : List Expr) :
    (basic operator args).forgetModes = .basic operator (args.map forgetModes) := by
  rw [forgetModes, forgetModesAll_eq_map]

@[simp] theorem forgetModes_call (mode : CallMode) (callee : String) (args : List Expr) :
    (call mode callee args).forgetModes = .call .plain callee (args.map forgetModes) := by
  rw [forgetModes, forgetModesAll_eq_map]

/-- A replacement of calls that only changes modes, once the arguments are replaced, changes nothing
but modes. -/
theorem forgetModes_mapCalls {hook : String → List Expr → List Expr → Expr}
    (h : ∀ callee args args', args'.map forgetModes = args.map forgetModes →
      (hook callee args args').forgetModes = .call .plain callee (args.map forgetModes))
    (e : Expr) : (e.mapCalls hook).forgetModes = e.forgetModes := by
  have hall : ∀ {args : List Expr}, (∀ a ∈ args, (a.mapCalls hook).forgetModes = a.forgetModes) →
      (args.map (mapCalls hook)).map forgetModes = args.map forgetModes := by
    intro args ih
    rw [List.map_map]
    exact List.map_congr_left ih
  induction e with
  | const n => rfl
  | var x => rfl
  | cond test yes no ht hy hn => rw [mapCalls_cond, forgetModes, forgetModes, ht, hy, hn]
  | basic operator args ih =>
    rw [mapCalls_basic, forgetModes_basic, forgetModes_basic, hall ih]
  | call mode callee args ih =>
    cases mode with
    | plain => rw [mapCalls_plain, forgetModes_call, h callee args _ (hall ih)]
    | memo => rfl
    | solved => rfl

theorem forgetModes_memoized (e : Expr) : e.memoized.forgetModes = e.forgetModes :=
  forgetModes_mapCalls (fun callee args _ _ => forgetModes_call .memo callee args) e

end Expr

/-- Without a ring, preparation only changes modes. -/
theorem Analysis.forgetModes_prepare {a : Analysis} (hring : a.ring = []) (inside : Option String)
    (e : Expr) : (a.prepare inside e).forgetModes = e.forgetModes := by
  refine Expr.forgetModes_mapCalls (fun callee args args' hargs => ?_) e
  rw [← hargs, prepareCall, if_neg (by simp [hring])]
  split_ifs <;> exact Expr.forgetModes_call _ callee args'

theorem Definition.forgetModes_mapBody {g : Expr → Expr}
    (h : ∀ e : Expr, (g e).forgetModes = e.forgetModes) (f : Definition) :
    (f.mapBody g).mapBody Expr.forgetModes = f.mapBody Expr.forgetModes := by
  simp only [mapBody, h]

namespace Standard

/-- Evaluation does not look at modes, neither in the expression nor in the bodies. -/
theorem eval_forgetModes (t : Table) (depth : Nat) (env : Env) (e : Expr) :
    eval (t.mapBodies fun f => f.body.forgetModes) depth env e.forgetModes =
      eval t depth env e := by
  induction depth generalizing env e with
  | zero => rfl
  | succ depth ih =>
    have hall : ∀ args : List Expr,
        (args.map Expr.forgetModes).mapM
            (eval (t.mapBodies fun f => f.body.forgetModes) depth env) =
          args.mapM (eval t depth env) := by
      intro args
      refine mapM_congr_forall₂ (List.forall₂_map_left_iff.2 ?_)
      exact List.forall₂_same.2 fun a _ => ih env a
    cases e with
    | const n => rfl
    | var x => rfl
    | cond test yes no => simp only [Expr.forgetModes, eval, ih]
    | basic operator args => simp only [Expr.forgetModes_basic, eval, hall]
    | call mode callee args =>
      rw [Expr.forgetModes_call, eval, eval, Table.find?_mapBodies, hall]
      cases t.find? callee with
      | none => rfl
      | some f => simp only [Option.map_some, ih]

/-- Programs and expressions that differ in modes only run in step. -/
theorem eval_eq_of_forgetModes_eq {defs defs' : List Definition} {e e' : Expr}
    (hdefs : defs.map (fun f => f.mapBody Expr.forgetModes) =
      defs'.map fun f => f.mapBody Expr.forgetModes)
    (he : e.forgetModes = e'.forgetModes) (depth : Nat) (env : Env) :
    eval (Table.ofList defs) depth env e = eval (Table.ofList defs') depth env e' := by
  have hlast : ∀ (defs : List Definition) (name : String),
      ((Table.ofList defs).mapBodies fun f => f.body.forgetModes).find? name =
        Definition.last? (defs.map fun f => f.mapBody Expr.forgetModes) name := by
    intro defs name
    rw [Table.find?_mapBodies, Table.find?_ofList, Definition.last?, Definition.last?,
      ← List.map_reverse, List.find?_map]
    rfl
  rw [← eval_forgetModes, ← eval_forgetModes (Table.ofList defs'), he]
  refine congrFun (congrFun (eval_congr (fun name => ?_) depth) env) _
  rw [hlast, hlast, hdefs]

/-- Rewriting keeps the standard semantics, at every depth and with every kind of outcome. It does
so whichever definitions are memoized, and whether the expression is or not; and also for a program
and an expression that are prepared for the solver, if no functions call each other. -/
theorem eval_rewritten (defs : List Definition) (e : Expr) (depth : Nat) (env : Env) :
    (∀ defs' e', List.Forall₂ (fun f f' => f' = f ∨ f' = f.mapBody Expr.memoized) defs defs' →
      e' = e ∨ e' = e.memoized →
      eval (Table.ofList defs') depth env e' = eval (Table.ofList defs) depth env e) ∧
    ((Analysis.ofTable (Table.ofList defs)).ring = [] →
      eval (Table.ofList (defs.map fun f =>
          f.mapBody ((Analysis.ofTable (Table.ofList defs)).prepare (some f.name)))) depth env
          ((Analysis.ofTable (Table.ofList defs)).prepare none e) =
        eval (Table.ofList defs) depth env e) := by
  refine ⟨fun defs' e' hdefs he => ?_, fun hring => ?_⟩
  · have hforget : defs'.map (fun f => f.mapBody Expr.forgetModes) =
        defs.map fun f => f.mapBody Expr.forgetModes := by
      induction hdefs with
      | nil => rfl
      | cons hf _ ih =>
        rcases hf with rfl | rfl
        · rw [List.map_cons, List.map_cons, ih]
        · rw [List.map_cons, List.map_cons, ih,
            Definition.forgetModes_mapBody Expr.forgetModes_memoized]
    refine eval_eq_of_forgetModes_eq hforget ?_ depth env
    rcases he with rfl | rfl
    · rfl
    · exact e.forgetModes_memoized
  · refine eval_eq_of_forgetModes_eq ?_ (Analysis.forgetModes_prepare hring none e) depth env
    rw [List.map_map]
    exact List.map_congr_left fun f _ =>
      Definition.forgetModes_mapBody (Analysis.forgetModes_prepare hring _) f

/-- A countdown through a helper, which adds a single number in the end. -/
def counting : List Definition :=
  [⟨"down", ["n"], .cond (.var "n") (.call .plain "down" [.call .plain "less" [.var "n"]])
      (.basic "add" [.var "n"])⟩,
    ⟨"less", ["n"], .basic "sub" [.var "n", .const 1]⟩]

theorem counting_rewritten :
    (Analysis.ofTable (Table.ofList counting)).ring = [] ∧
    eval (Table.ofList counting) 9 (fun _ => none) (.call .plain "down" [.const 2]) =
      .error (.shortage ⟨.add, 1⟩) ∧
    eval (Table.ofList (counting.set 0 (counting[0].mapBody Expr.memoized))) 9 (fun _ => none)
      (.call .memo "down" [.const 2]) = .error (.shortage ⟨.add, 1⟩) ∧
    eval (Table.ofList (counting.map fun f =>
        f.mapBody ((Analysis.ofTable (Table.ofList counting)).prepare (some f.name)))) 9
      (fun _ => none) (.call .solved "down" [.const 2]) = .error (.shortage ⟨.add, 1⟩) := by
  have hring : (Analysis.ofTable (Table.ofList counting)).ring = [] := by decide
  have heval : eval (Table.ofList counting) 9 (fun _ => none) (.call .plain "down" [.const 2]) =
      .error (.shortage ⟨.add, 1⟩) := by rfl
  have h := eval_rewritten counting (.call .plain "down" [.const 2]) 9 fun _ => none
  refine ⟨hring, heval, ?_, (h.2 hring).trans heval⟩
  exact (h.1 _ _ (.cons (.inr rfl) (.cons (.inl rfl) .nil)) (.inr rfl)).trans heval

end Standard

end StrictnessAnalysis
