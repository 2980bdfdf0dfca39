import Mathlib.Data.List.Nodup
import StrictnessAnalysis.Expr.Calls
import StrictnessAnalysis.Table

/-! Where an expression calls, and how. Conditions on the calls of a program, such as being plain or
passing as many arguments as the callee has parameters, are conditions on the list of its call
sites. Looking a name up in a table is related here to the entries of the table. -/

namespace StrictnessAnalysis

/-- A call as it stands in an expression. -/
structure CallSite where
  mode : CallMode
  callee : String
  /-- How many arguments the call passes. -/
  count : Nat
  deriving DecidableEq

namespace Expr

/-- Induction over expressions, with the hypothesis for every argument of an operator or a call. -/
@[induction_eliminator]
theorem induction {P : Expr → Prop} (const : ∀ value, P (.const value))
    (var : ∀ name, P (.var name))
    (cond : ∀ test yes no, P test → P yes → P no → P (.cond test yes no))
    (basic : ∀ operator args, (∀ a ∈ args, P a) → P (.basic operator args))
    (call : ∀ mode callee args, (∀ a ∈ args, P a) → P (.call mode callee args)) (e : Expr) : P e :=
  @Expr.rec P (fun es => ∀ a ∈ es, P a) const var cond basic call (by simp)
    (fun _ _ ha has => List.forall_mem_cons.2 ⟨ha, has⟩) e

mutual

/-- The calls anywhere in the expression, in order of appearance. -/
def callSites : Expr → List CallSite
  | .const _ => []
  | .var _ => []
  | .cond test yes no => test.callSites ++ yes.callSites ++ no.callSites
  | .basic _ args => callSitesAll args
  | .call mode callee args => ⟨mode, callee, args.length⟩ :: callSitesAll args

def callSitesAll : List Expr → List CallSite
  | [] => []
  | e :: es => e.callSites ++ callSitesAll es

end

theorem callSitesAll_eq_flatMap (es : List Expr) : callSitesAll es = es.flatMap callSites := by
  induction es with
  | nil => rfl
  | cons e es ih => simp only [callSitesAll, ih, List.flatMap_cons]

section

variable {P : CallSite → Prop}

theorem forall_callSites_cond {test yes no : Expr} :
    (∀ c ∈ (cond test yes no).callSites, P c) ↔
      (∀ c ∈ test.callSites, P c) ∧ (∀ c ∈ yes.callSites, P c) ∧ ∀ c ∈ no.callSites, P c := by
  simp only [callSites, List.forall_mem_append, and_assoc]

theorem forall_callSitesAll {es : List Expr} :
    (∀ c ∈ callSitesAll es, P c) ↔ ∀ e ∈ es, ∀ c ∈ e.callSites, P c := by
  rw [callSitesAll_eq_flatMap]
  exact List.forall_mem_flatMap

theorem forall_callSites_basic {operator : String} {args : List Expr} :
    (∀ c ∈ (basic operator args).callSites, P c) ↔ ∀ a ∈ args, ∀ c ∈ a.callSites, P c :=
  forall_callSitesAll

theorem forall_callSites_call {mode : CallMode} {callee : String} {args : List Expr} :
    (∀ c ∈ (call mode callee args).callSites, P c) ↔
      P ⟨mode, callee, args.length⟩ ∧ ∀ a ∈ args, ∀ c ∈ a.callSites, P c := by
  rw [callSites, List.forall_mem_cons, forall_callSitesAll]

end

/-- The names called are those of the call sites. -/
theorem callees_eq_map_callSites (e : Expr) : e.callees = e.callSites.map CallSite.callee := by
  have hall : ∀ args : List Expr, (∀ a ∈ args, a.callees = a.callSites.map CallSite.callee) →
      calleesAll args = (callSitesAll args).map CallSite.callee := by
    intro args ih
    rw [calleesAll_eq_flatMap, callSitesAll_eq_flatMap, List.map_flatMap]
    exact List.flatMap_congr ih
  induction e with
  | const value => rfl
  | var name => rfl
  | cond test yes no ht hy hn => simp only [callees, callSites, List.map_append, ht, hy, hn]
  | basic operator args ih => exact hall args ih
  | call mode callee args ih => simp only [callees, callSites, List.map_cons, hall args ih]

/-- Every call of the expression is plain. -/
def Plain (e : Expr) : Prop := ∀ c ∈ e.callSites, c.mode = .plain

instance (e : Expr) : Decidable e.Plain :=
  inferInstanceAs (Decidable (∀ c ∈ e.callSites, c.mode = .plain))

end Expr

namespace Table

variable {t : Table} {name : String} {f : Definition}

theorem find?_eq_some_iff : t.find? name = some f ↔ f ∈ t.entries ∧ f.name = name := by
  constructor
  · intro h
    exact ⟨List.mem_of_find?_eq_some h, by simpa using List.find?_some h⟩
  · rintro ⟨hf, rfl⟩
    obtain ⟨g, hg⟩ : ∃ g, t.find? f.name = some g := by
      rw [← Option.isSome_iff_exists, find?, List.find?_isSome]
      exact ⟨f, hf, by simp⟩
    have hgf : g.name = f.name := by simpa using List.find?_some hg
    rw [hg, List.inj_on_of_nodup_map t.nodup (List.mem_of_find?_eq_some hg) hf hgf]

theorem find?_of_mem (h : f ∈ t.entries) : t.find? f.name = some f := find?_eq_some_iff.2 ⟨h, rfl⟩

theorem defines_iff : t.defines name = true ↔ ∃ f, t.find? name = some f := by
  simp only [defines, names, List.contains_iff_mem, List.mem_map, find?_eq_some_iff]

theorem find?_eq_none_iff : t.find? name = none ↔ t.defines name = false := by
  rw [← Bool.not_eq_true, defines_iff]
  cases t.find? name <;> simp

theorem find?_mapBodies (t : Table) (g : Definition → Expr) (name : String) :
    (t.mapBodies g).find? name = (t.find? name).map fun f => { f with body := g f } := by
  simp only [find?, mapBodies, List.find?_map]
  rfl

/-- Every call of a defined function passes as many arguments as the function has parameters. -/
def Exact (t : Table) (e : Expr) : Prop :=
  ∀ c ∈ e.callSites, ∀ f ∈ t.find? c.callee, c.count = f.arity

instance (t : Table) (e : Expr) : Decidable (t.Exact e) :=
  inferInstanceAs (Decidable (∀ c ∈ e.callSites, ∀ f ∈ t.find? c.callee, c.count = f.arity))

end Table

end StrictnessAnalysis
