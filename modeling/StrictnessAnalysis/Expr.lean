/-! Expressions of the first-order language under analysis. There are integer constants, variables,
conditionals, applications of built-in operators and calls of defined functions. A call carries a
mode: in the standard semantics the three modes mean the same, in the abstract semantics a plain
call enters the callee, a memo call reads the caller's memo table, and a solved call asks for the
least fixed point. -/

namespace StrictnessAnalysis

inductive CallMode
  | plain
  | memo
  | solved
  deriving DecidableEq

inductive Expr
  | const (value : Int)
  | var (name : String)
  | cond (test yes no : Expr)
  | basic (operator : String) (args : List Expr)
  | call (mode : CallMode) (callee : String) (args : List Expr)

namespace Expr

/-! ### Equality -/

mutual

/-- Equality of two expressions, as a test. -/
def beq : Expr → Expr → Bool
  | .const m, .const n => m == n
  | .var x, .var y => x == y
  | .cond c t e, .cond c' t' e' => c.beq c' && t.beq t' && e.beq e'
  | .basic f as, .basic g bs => f == g && beqAll as bs
  | .call m f as, .call n g bs => m == n && f == g && beqAll as bs
  | _, _ => false

def beqAll : List Expr → List Expr → Bool
  | [], [] => true
  | a :: as, b :: bs => a.beq b && beqAll as bs
  | _, _ => false

end

mutual

theorem beq_refl : (e : Expr) → e.beq e = true
  | .const _ => by simp [beq]
  | .var _ => by simp [beq]
  | .cond c t e => by simp [beq, beq_refl c, beq_refl t, beq_refl e]
  | .basic _ as => by simp [beq, beqAll_refl as]
  | .call _ _ as => by simp [beq, beqAll_refl as]

theorem beqAll_refl : (es : List Expr) → beqAll es es = true
  | [] => rfl
  | e :: es => by simp [beqAll, beq_refl e, beqAll_refl es]

end

mutual

theorem eq_of_beq : (a b : Expr) → a.beq b = true → a = b
  | .const _, b, h => by cases b <;> simp_all [beq]
  | .var _, b, h => by cases b <;> simp_all [beq]
  | .cond c t e, b, h => by
    cases b with
    | cond c' t' e' =>
      simp only [beq, Bool.and_eq_true] at h
      rw [eq_of_beq c c' h.1.1, eq_of_beq t t' h.1.2, eq_of_beq e e' h.2]
    | _ => simp [beq] at h
  | .basic _ as, b, h => by
    cases b with
    | basic g bs =>
      simp only [beq, Bool.and_eq_true, beq_iff_eq] at h
      rw [h.1, eq_of_beqAll as bs h.2]
    | _ => simp [beq] at h
  | .call _ _ as, b, h => by
    cases b with
    | call n g bs =>
      simp only [beq, Bool.and_eq_true, beq_iff_eq] at h
      rw [h.1.1, h.1.2, eq_of_beqAll as bs h.2]
    | _ => simp [beq] at h

theorem eq_of_beqAll : (as bs : List Expr) → beqAll as bs = true → as = bs
  | [], [], _ => rfl
  | a :: as, b :: bs, h => by
    simp only [beqAll, Bool.and_eq_true] at h
    rw [eq_of_beq a b h.1, eq_of_beqAll as bs h.2]
  | [], _ :: _, h => by simp [beqAll] at h
  | _ :: _, [], h => by simp [beqAll] at h

end

theorem beq_eq_true_iff {a b : Expr} : a.beq b = true ↔ a = b :=
  ⟨eq_of_beq a b, fun h => h ▸ beq_refl a⟩

instance : DecidableEq Expr := fun a b => decidable_of_iff (a.beq b = true) beq_eq_true_iff

end Expr

end StrictnessAnalysis
