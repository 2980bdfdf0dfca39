import Mathlib.Logic.Relation
import StrictnessAnalysis.Operator
import StrictnessAnalysis.Proofs.CallSites

/-! The parts of an expression, as places that can be reached from its root. Every part counts when
the callees of an expression are collected; evaluation in the abstract semantics does not get to the
arguments of an unknown operator or of a call of what has no definition. -/

namespace StrictnessAnalysis.Expr

/-- The second expression stands directly in the first. -/
inductive HasPart : Expr → Expr → Prop
  | test {test yes no : Expr} : HasPart (.cond test yes no) test
  | yes {test yes no : Expr} : HasPart (.cond test yes no) yes
  | no {test yes no : Expr} : HasPart (.cond test yes no) no
  | operand {operator : String} {args : List Expr} {a : Expr} :
    a ∈ args → HasPart (.basic operator args) a
  | argument {mode : CallMode} {callee : String} {args : List Expr} {a : Expr} :
    a ∈ args → HasPart (.call mode callee args) a

/-- The second expression stands anywhere in the first. -/
def Contains : Expr → Expr → Prop := Relation.ReflTransGen HasPart

/-- The parts of the expression are evaluated: its operator is known, its callee is defined. -/
def Opens (t : Table) : Expr → Prop
  | .const _ => True
  | .var _ => True
  | .cond _ _ _ => True
  | .basic operator _ => Operator.ofName? operator ≠ none
  | .call _ callee _ => t.defines callee = true

/-- The second expression stands in the first where evaluation gets to it. -/
def Live (t : Table) : Expr → Expr → Prop :=
  Relation.ReflTransGen fun e part => e.Opens t ∧ e.HasPart part

variable {t : Table} {e part node : Expr}

theorem Live.refl : e.Live t e := Relation.ReflTransGen.refl

theorem Live.of_part (hopens : e.Opens t) (hpart : e.HasPart part) (h : part.Live t node) :
    e.Live t node :=
  Relation.ReflTransGen.head ⟨hopens, hpart⟩ h

theorem Live.contains (h : e.Live t node) : e.Contains node :=
  Relation.ReflTransGen.mono (fun _ _ hpart => hpart.2) _ _ h

/-- What is live in an expression is the expression itself or live in a part that is evaluated. -/
theorem live_iff : e.Live t node ↔
    e = node ∨ e.Opens t ∧ ∃ part, e.HasPart part ∧ part.Live t node := by
  rw [Live, Relation.ReflTransGen.cases_head_iff]
  refine or_congr Iff.rfl ?_
  simp only [and_assoc, exists_and_left]

@[grind =] theorem live_const {n : Int} : (const n).Live t node ↔ const n = node := by
  rw [live_iff]
  exact or_iff_left fun ⟨_, _, hpart, _⟩ => nomatch hpart

@[grind =] theorem live_var {x : String} : (var x).Live t node ↔ var x = node := by
  rw [live_iff]
  exact or_iff_left fun ⟨_, _, hpart, _⟩ => nomatch hpart

@[grind =] theorem live_cond {test yes no : Expr} : (cond test yes no).Live t node ↔
    cond test yes no = node ∨ test.Live t node ∨ yes.Live t node ∨ no.Live t node := by
  rw [live_iff]
  refine or_congr Iff.rfl ⟨?_, ?_⟩
  · rintro ⟨-, part, hpart, h⟩
    cases hpart with
    | test => exact .inl h
    | yes => exact .inr (.inl h)
    | no => exact .inr (.inr h)
  · rintro (h | h | h)
    · exact ⟨trivial, _, .test, h⟩
    · exact ⟨trivial, _, .yes, h⟩
    · exact ⟨trivial, _, .no, h⟩

@[grind =] theorem live_basic {operator : String} {args : List Expr} :
    (basic operator args).Live t node ↔ basic operator args = node ∨
      Operator.ofName? operator ≠ none ∧ ∃ a ∈ args, a.Live t node := by
  have hpart : ∀ a, (basic operator args).HasPart a ↔ a ∈ args :=
    fun a => ⟨fun h => by cases h; assumption, .operand⟩
  simp only [live_iff (e := basic operator args), hpart, Opens]

@[grind =] theorem live_call {mode : CallMode} {callee : String} {args : List Expr} :
    (call mode callee args).Live t node ↔
      call mode callee args = node ∨ t.defines callee = true ∧ ∃ a ∈ args, a.Live t node := by
  have hpart : ∀ a, (call mode callee args).HasPart a ↔ a ∈ args :=
    fun a => ⟨fun h => by cases h; assumption, .argument⟩
  simp only [live_iff (e := call mode callee args), hpart, Opens]

theorem HasPart.callSites_subset (h : e.HasPart part) : part.callSites ⊆ e.callSites := by
  intro c hc
  have hall : ∀ {args : List Expr}, part ∈ args → c ∈ callSitesAll args := by
    intro args hmem
    rw [callSitesAll_eq_flatMap]
    exact List.mem_flatMap.2 ⟨part, hmem, hc⟩
  cases h with
  | test => simp [callSites, hc]
  | yes => simp [callSites, hc]
  | no => simp [callSites, hc]
  | operand hmem => exact hall hmem
  | argument hmem => exact List.mem_cons_of_mem _ (hall hmem)

theorem Contains.callSites_subset (h : e.Contains node) : node.callSites ⊆ e.callSites := by
  induction h with
  | refl => exact List.Subset.refl _
  | tail _ hpart ih => exact List.Subset.trans hpart.callSites_subset ih

/-- A call that stands anywhere in the expression is one of its call sites. -/
theorem Contains.callSite_mem {mode : CallMode} {callee : String} {args : List Expr}
    (h : e.Contains (.call mode callee args)) : ⟨mode, callee, args.length⟩ ∈ e.callSites :=
  h.callSites_subset List.mem_cons_self

/-- The collected callees are the names of the calls that stand anywhere in the expression. -/
theorem mem_callees_iff {name : String} :
    name ∈ e.callees ↔ ∃ mode args, e.Contains (.call mode name args) := by
  constructor
  · intro h
    have hall : ∀ (whole : Expr) (args : List Expr), (∀ a ∈ args, whole.HasPart a) →
        (∀ a ∈ args, name ∈ a.callees → ∃ mode args, a.Contains (.call mode name args)) →
        name ∈ calleesAll args → ∃ mode args, whole.Contains (.call mode name args) := by
      intro whole args hpart ih hmem
      rw [calleesAll_eq_flatMap] at hmem
      obtain ⟨a, ha, hname⟩ := List.mem_flatMap.1 hmem
      obtain ⟨mode, args', hcall⟩ := ih a ha hname
      exact ⟨mode, args', .head (hpart a ha) hcall⟩
    induction e with
    | const n => simp [callees] at h
    | var x => simp [callees] at h
    | cond test yes no ht hy hn =>
      simp only [callees, List.mem_append, or_assoc] at h
      rcases h with h | h | h
      · obtain ⟨mode, args, hcall⟩ := ht h
        exact ⟨mode, args, .head .test hcall⟩
      · obtain ⟨mode, args, hcall⟩ := hy h
        exact ⟨mode, args, .head .yes hcall⟩
      · obtain ⟨mode, args, hcall⟩ := hn h
        exact ⟨mode, args, .head .no hcall⟩
    | basic operator args ih => exact hall _ args (fun _ => .operand) ih h
    | call mode callee args ih =>
      rw [callees, List.mem_cons] at h
      rcases h with rfl | h
      · exact ⟨mode, args, .refl⟩
      · exact hall _ args (fun _ => .argument) ih h
  · rintro ⟨mode, args, hcall⟩
    rw [callees_eq_map_callSites]
    exact List.mem_map.2 ⟨_, hcall.callSite_mem, rfl⟩

end StrictnessAnalysis.Expr
