import StrictnessAnalysis.Proofs.Soundness

/-! Evaluation that enters every call. Without memo calls, memo tables do not matter: the solver
iterates a function that does not look at its table, so a solved call has the value of the callee's
body, as a plain call has. Hence every expression whose evaluation ends has its meaning under one
family, which gives a function the value of its body and makes no claim where no depth suffices.
That family accounts for all runs, and so the abstract value of an expression describes its
value. -/

namespace StrictnessAnalysis

open Abstract

/-- No call of the expression reads a memo table. -/
def Expr.MemoFree (e : Expr) : Prop := ∀ c ∈ e.callSites, c.mode ≠ .memo

instance (e : Expr) : Decidable e.MemoFree :=
  inferInstanceAs (Decidable (∀ c ∈ e.callSites, c.mode ≠ .memo))

namespace Abstract

/-- A function that does not look at its memo table is its own least fixed point. -/
theorem solution_eq_of_value {t : Table} {depth : Nat} {f : Definition} {body : Env → Definedness}
    (h : ∀ memo env, value t depth memo env f.body = body env) (args : List Definedness) :
    solution t depth f args = body (frame .zero f.params args) := by
  rw [solution_fixed]
  exact h _ _

end Abstract

namespace Table

variable {t : Table} {depth : Nat}

open scoped Classical in
/-- What a function is when all calls are entered: the value of its body, and anything where no
depth suffices for that. -/
noncomputable def direct (t : Table) : Family := fun name args =>
  match t.find? name with
  | none => .zero
  | some f =>
    if h : ∃ depth, Fits t depth f.body then
      value t h.choose Memo.empty (frame .zero f.params args) f.body
    else .one

theorem direct_of_find?_eq_none {name : String} (h : t.find? name = none)
    (args : List Definedness) : t.direct name args = .zero := by
  simp only [direct, h]

theorem direct_of_fits {name : String} {f : Definition} (hf : t.find? name = some f)
    (hfits : Fits t depth f.body) (args : List Definedness) :
    t.direct name args = value t depth Memo.empty (frame .zero f.params args) f.body := by
  have hsome : ∃ depth, Fits t depth f.body := ⟨depth, hfits⟩
  simp only [direct, hf, dif_pos hsome]
  exact value_eq_of_fits hsome.choose_spec hfits _ _

theorem direct_of_not_fits {name : String} {f : Definition} (hf : t.find? name = some f)
    (hnone : ¬ ∃ depth, Fits t depth f.body) (args : List Definedness) :
    t.direct name args = .one := by
  simp only [direct, hf, dif_neg hnone]

/-- Without memo calls, the value of an expression is its meaning when all calls are entered. -/
theorem value_eq_meaning (hfree : ∀ f ∈ t.entries, f.body.MemoFree) {e : Expr} (he : e.MemoFree)
    (hfits : Fits t depth e) (memo : Memo) (env : Env) :
    value t depth memo env e = e.meaning t.direct env := by
  -- for all memo tables at once, since a callee is evaluated with a table of its own
  induction depth generalizing e memo env with
  | zero => exact hfits.elim
  | succ depth ih =>
    have hall : ∀ args : List Expr, (∀ a ∈ args, a.MemoFree) → (∀ a ∈ args, Fits t depth a) →
        args.map (value t depth memo env) = Expr.meaningAll t.direct env args :=
      fun args hargs hfits =>
        Expr.map_eq_meaningAll fun a ha => ih (hargs a ha) (hfits a ha) memo env
    cases e with
    | const n => rfl
    | var x => rfl
    | cond test yes no =>
      rw [Expr.MemoFree, Expr.forall_callSites_cond] at he
      rw [value, Expr.meaning, ih he.1 hfits.1, ih he.2.1 hfits.2.1, ih he.2.2 hfits.2.2]
    | basic operator args =>
      rw [Expr.MemoFree, Expr.forall_callSites_basic] at he
      rw [value, Expr.meaning]
      cases hop : Operator.ofName? operator with
      | none => rfl
      | some op => simp only [hall args he (hfits (by simp [hop]))]
    | call mode callee args =>
      rw [Expr.MemoFree, Expr.forall_callSites_call] at he
      rw [value, Expr.meaning]
      cases hf : t.find? callee with
      | none => rw [direct_of_find?_eq_none hf]
      | some f =>
        obtain ⟨hargs, hbody⟩ := hfits f hf
        have hmeaning : ∀ memo env, value t depth memo env f.body = f.body.meaning t.direct env :=
          ih (hfree f (find?_eq_some_iff.1 hf).1) (hbody he.1)
        rw [direct_of_fits hf (hbody he.1), hmeaning]
        simp only [hall args he.2 hargs]
        cases mode with
        | plain => exact hmeaning _ _
        | memo => exact absurd rfl he.1
        | solved => exact solution_eq_of_value hmeaning _

/-- Without memo calls, entering all calls accounts for every expression. -/
theorem direct_accounts (hfree : ∀ f ∈ t.entries, f.body.MemoFree) :
    t.direct.Accounts t (fun _ => True) where
  cond _ := ⟨trivial, trivial, trivial⟩
  basic _ _ _ _ := trivial
  call {mode callee args f} _ hf := by
    by_cases hfits : ∃ depth, Fits t depth f.body
    · obtain ⟨depth, hdepth⟩ := hfits
      have hbody : f.body.MemoFree := hfree f (find?_eq_some_iff.1 hf).1
      refine .inr ⟨fun _ _ => trivial, trivial, fun points _ => ?_⟩
      rw [direct_of_fits hf hdepth, value_eq_meaning hfree hbody hdepth]
    · exact .inl fun points _ => direct_of_not_fits hf hfits points

end Table

namespace Abstract

/-- Direct evaluation is sound. Without memo calls, whatever the number of arguments at the calls,
the abstract value of an expression describes the value that it has in the standard semantics. -/
theorem ofValue_le_of_eval (defs : List Definition)
    (hfree : ∀ f ∈ (Table.ofList defs).entries, f.body.MemoFree) {e : Expr} (he : e.MemoFree)
    (env : Standard.Env) {depth depth' : Nat} {v : Option Int} {a : Definedness}
    (hrun : Standard.eval (Table.ofList defs) depth env e = .ok v)
    (hvalue : eval (Table.ofList defs) depth' Memo.empty (fun x => .ofValue (env x)) e = .ok a) :
    Definedness.ofValue v ≤ a := by
  cases v with
  | none => exact Definedness.zero_le a
  | some n =>
    obtain ⟨hfits, rfl⟩ := eval_eq_ok_iff.1 hvalue
    rw [Table.value_eq_meaning hfree he hfits]
    exact Definedness.describes_some.2
      ((Table.direct_accounts hfree).meaning_eq_one trivial (fun _ => le_rfl) hrun)

/-- A function defined twice, with a parameter of the same name twice, which solves one that is
given too many arguments; an endless loop stands where it is never entered. -/
def picking : List Definition :=
  [⟨"pick", ["x"], .var "x"⟩,
    ⟨"twice", ["n"], .cond (.const 0) (.call .plain "nowhere" [.call .plain "loop" []])
      (.basic "add" [.var "n", .var "n"])⟩,
    ⟨"pick", ["x", "x", "y"], .cond (.var "x") (.var "y")
      (.call .solved "twice" [.var "y", .const 9])⟩,
    ⟨"loop", [], .call .plain "loop" []⟩]

def picked : Expr := .call .solved "pick" [.var "u", .var "z", .call .plain "twice" [.const 5]]

theorem picked_described :
    Standard.eval (Table.ofList picking) 6 (assign (fun _ => none) "z" (some 0)) picked =
      .ok (some 20) ∧
    ∃ a, eval (Table.ofList picking) 7 Memo.empty
        (fun x => .ofValue (assign (fun _ => none) "z" (some 0) x)) picked = .ok a ∧
      Definedness.ofValue (some 20) ≤ a := by
  have hrun : Standard.eval (Table.ofList picking) 6 (assign (fun _ => none) "z" (some 0)) picked =
      .ok (some 20) := by rfl
  have hvalue : eval (Table.ofList picking) 7 Memo.empty
      (fun x => .ofValue (assign (fun _ => none) "z" (some 0) x)) picked = .ok .one := by rfl
  exact ⟨hrun, .one, hvalue, ofValue_le_of_eval picking (by decide) (by decide) _ hrun hvalue⟩

end Abstract

end StrictnessAnalysis
