import StrictnessAnalysis.Proofs.Actions
import StrictnessAnalysis.Standard

/-! Runs of the standard semantics that return an integer, taken apart: what is known of the parts
of an expression once the whole has a value. -/

namespace StrictnessAnalysis.Standard

variable {table : Table} {depth : Nat} {env : Env} {n : Int}

theorem eval_cond_eq_some {test yes no : Expr}
    (h : eval table (depth + 1) env (.cond test yes no) = .ok (some n)) :
    ∃ k, eval table depth env test = .ok (some k) ∧
      (eval table depth env yes = .ok (some n) ∨ eval table depth env no = .ok (some n)) := by
  rw [eval] at h
  obtain ⟨v, hv, h⟩ := bind_eq_ok_iff.1 h
  cases v with
  | none => simp [pure, Except.pure] at h
  | some k =>
    refine ⟨k, hv, ?_⟩
    simp only at h
    split_ifs at h
    · exact .inr h
    · exact .inl h

theorem allDefined_eq_some {values : List (Option Int)} {operands : List Int}
    (h : allDefined values = some operands) : values = operands.map some := by
  induction values generalizing operands with
  | nil =>
    obtain rfl : [] = operands := by simpa [allDefined] using h
    rfl
  | cons v values ih =>
    cases v with
    | none => simp [allDefined] at h
    | some k =>
      rw [allDefined, Option.map_eq_some_iff] at h
      obtain ⟨rest, hrest, rfl⟩ := h
      rw [ih hrest, List.map_cons]

theorem applyOperator_eq_some {op : Operator} {values : List (Option Int)}
    (h : applyOperator op values = .ok (some n)) : ∀ v ∈ values, ∃ k, v = some k := by
  rw [applyOperator] at h
  cases hall : allDefined values with
  | none => simp [hall] at h
  | some operands =>
    rw [allDefined_eq_some hall]
    simp

theorem eval_basic_eq_some {operator : String} {args : List Expr}
    (h : eval table (depth + 1) env (.basic operator args) = .ok (some n)) :
    Operator.ofName? operator ≠ none ∧ ∀ a ∈ args, ∃ k, eval table depth env a = .ok (some k) := by
  rw [eval] at h
  cases hop : Operator.ofName? operator with
  | none => simp [hop] at h
  | some op =>
    rw [hop] at h
    obtain ⟨values, hvalues, h⟩ := bind_eq_ok_iff.1 h
    refine ⟨by simp, fun a ha => ?_⟩
    obtain ⟨v, hv, hav⟩ := exists_of_forall₂ (forall₂_of_mapM_ok hvalues) ha
    obtain ⟨k, rfl⟩ := applyOperator_eq_some h v hv
    exact ⟨k, hav⟩

theorem eval_call_eq_some {mode : CallMode} {callee : String} {args : List Expr}
    (h : eval table (depth + 1) env (.call mode callee args) = .ok (some n)) :
    ∃ f values, table.find? callee = some f ∧
      List.Forall₂ (fun a v => eval table depth env a = .ok v) args values ∧
      eval table depth (frame none f.params values) f.body = .ok (some n) := by
  rw [eval] at h
  cases hf : table.find? callee with
  | none => simp [hf] at h
  | some f =>
    rw [hf] at h
    obtain ⟨values, hvalues, h⟩ := bind_eq_ok_iff.1 h
    exact ⟨f, values, rfl, forall₂_of_mapM_ok hvalues, h⟩

end StrictnessAnalysis.Standard
