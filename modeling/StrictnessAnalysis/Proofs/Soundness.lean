import StrictnessAnalysis.Proofs.Equations
import StrictnessAnalysis.Proofs.Runs

/-! The analysis never calls certainly undefined what has a value. A family that at every call lies
above the meaning of the callee's body accounts for all runs of the standard semantics, by induction
on their depth; the verdicts of the analysis are such a family, whenever the self-calls that are
evaluated pass as many arguments as the function is solved for. -/

namespace StrictnessAnalysis

open Abstract

/-- The family accounts for some expressions. What is evaluated in one of them is one of them again;
and either the family makes no claim about a call, or the callee's body is one of them too and its
meaning does not lie above what the family gives to as many points as there are arguments. -/
structure Family.Accounts (family : Family) (t : Table) (P : Expr → Prop) : Prop where
  cond {test yes no : Expr} : P (.cond test yes no) → P test ∧ P yes ∧ P no
  basic {operator : String} {args : List Expr} :
    P (.basic operator args) → Operator.ofName? operator ≠ none → ∀ b ∈ args, P b
  call {mode : CallMode} {callee : String} {args : List Expr} {f : Definition} :
    P (.call mode callee args) → t.find? callee = some f →
      (∀ points : List Definedness, points.length = args.length → family callee points = .one) ∨
        (∀ b ∈ args, P b) ∧ P f.body ∧ ∀ points : List Definedness, points.length = args.length →
          f.body.meaning family (frame .zero f.params points) ≤ family callee points

/-- Arguments are described one by one. -/
theorem forall₂_describes {call : Family} {env : Env} {R : Expr → Option Int → Prop}
    {args : List Expr} {values : List (Option Int)} (hvalues : List.Forall₂ R args values)
    (h : ∀ a ∈ args, ∀ v, R a v → Definedness.Describes v (a.meaning call env)) :
    List.Forall₂ Definedness.Describes values (Expr.meaningAll call env args) := by
  induction hvalues with
  | nil => exact .nil
  | cons hav _ ih =>
    rw [List.forall_mem_cons] at h
    exact .cons (h.1 _ hav) (ih h.2)

/-- What has a value in the standard semantics may be defined. -/
theorem Family.Accounts.meaning_eq_one {family : Family} {t : Table} {P : Expr → Prop}
    (h : family.Accounts t P) {depth : Nat} {env : Standard.Env} {env' : Env} {e : Expr} {n : Int}
    (he : P e) (henv : ∀ x, Definedness.Describes (env x) (env' x))
    (heval : Standard.eval t depth env e = .ok (some n)) : e.meaning family env' = .one := by
  induction depth generalizing env env' e n with
  | zero => simp [Standard.eval] at heval
  | succ depth ih =>
    cases e with
    | const k => rfl
    | var x =>
      have hx : env x = some n := by simpa [Standard.eval] using heval
      exact Definedness.describes_some.1 (hx ▸ henv x)
    | cond test yes no =>
      obtain ⟨ht, hy, hn⟩ := h.cond he
      obtain ⟨k, htest, hpart⟩ := Standard.eval_cond_eq_some heval
      rw [Expr.meaning, Definedness.meet_eq_one, Definedness.join_eq_one]
      exact ⟨ih ht henv htest, hpart.imp (ih hy henv) (ih hn henv)⟩
    | basic operator args =>
      obtain ⟨hop, hargs⟩ := Standard.eval_basic_eq_some heval
      rw [Expr.meaning, Expr.meaningAll_eq_map]
      cases hname : Operator.ofName? operator with
      | none => exact absurd hname hop
      | some op =>
        refine Definedness.foldl_meet_eq_one.2 ⟨rfl, List.forall_mem_map.2 fun b hb => ?_⟩
        obtain ⟨k, hk⟩ := hargs b hb
        exact ih (h.basic he hop b hb) henv hk
    | call mode callee args =>
      obtain ⟨f, values, hf, hvalues, hbody⟩ := Standard.eval_call_eq_some heval
      have hlen := Expr.length_meaningAll family env' args
      rw [Expr.meaning]
      rcases h.call he hf with hone | ⟨hargs, hf', hle⟩
      · exact hone _ hlen
      · have hpoints : List.Forall₂ Definedness.Describes values
            (Expr.meaningAll family env' args) := by
          refine forall₂_describes hvalues fun b hb v hv => ?_
          cases v with
          | none => exact Definedness.describes_none _
          | some k => exact Definedness.describes_some.2 (ih (hargs b hb) henv hv)
        exact Definedness.le_iff.1 (hle _ hlen)
          (ih hf' (frame_rel (Definedness.describes_none _) f.params hpoints) hbody)

namespace Analysis

variable {a : Analysis} {enough : Nat}

/-! ### Queries -/

/-- A prepared body has memo calls where the function calls itself, with as many arguments. -/
theorem length_of_live_memo {t : Table} {name callee : String} {args : List Expr} {count : Nat}
    {e : Expr} (he : e.Plain) (hself : ∀ c ∈ e.callSites, c.callee = name → c.count = count)
    (hlive : (a.prepare (some name) e).Live t (.call .memo callee args)) :
    args.length = count := by
  induction e with
  | const n => cases Expr.live_const.1 hlive
  | var x => cases Expr.live_var.1 hlive
  | cond test yes no ht hy hn =>
    rw [Expr.Plain, Expr.forall_callSites_cond] at he
    rw [Expr.forall_callSites_cond] at hself
    rw [prepare_cond, Expr.live_cond] at hlive
    rcases hlive with heq | htest | hyes | hno
    · cases heq
    · exact ht he.1 hself.1 htest
    · exact hy he.2.1 hself.2.1 hyes
    · exact hn he.2.2 hself.2.2 hno
  | basic operator args' ih =>
    rw [Expr.Plain, Expr.forall_callSites_basic] at he
    rw [Expr.forall_callSites_basic] at hself
    rw [prepare_basic, Expr.live_basic] at hlive
    rcases hlive with heq | ⟨-, b', hb', hlive⟩
    · cases heq
    · obtain ⟨b, hb, rfl⟩ := List.mem_map.1 hb'
      exact ih b hb (he b hb) (hself b hb) hlive
  | call mode callee' args' ih =>
    rw [Expr.Plain, Expr.forall_callSites_call] at he
    rw [Expr.forall_callSites_call] at hself
    obtain rfl : mode = .plain := he.1
    have hargs : (∃ b ∈ args'.map (a.prepare (some name)), b.Live t (.call .memo callee args)) →
        args.length = count := by
      rintro ⟨b', hb', hlive⟩
      obtain ⟨b, hb, rfl⟩ := List.mem_map.1 hb'
      exact ih b hb (he.2 b hb) (hself.2 b hb) hlive
    rw [prepare_plain, prepareCall] at hlive
    split_ifs at hlive with hring hname hdef
    · cases Expr.live_const.1 hlive
    · rcases Expr.live_call.1 hlive with heq | ⟨-, hlive⟩
      · cases heq
        rw [List.length_map]
        exact hself.1 (Option.some.inj hname).symm
      · exact hargs hlive
    -- a call of another function does not read the memo table, but its arguments may
    all_goals
      rcases Expr.live_call.1 hlive with heq | ⟨-, hlive⟩
      · cases heq
      · exact hargs hlive

/-- With as many arguments as parameters at every call, the verdicts satisfy the equations. -/
theorem verdict_eq_meaning_of_exact (h : a.Settled enough)
    (hexact : ∀ f ∈ a.table.entries, a.table.Exact f.body) {name : String} {f : Definition}
    (hf : a.table.find? name = some f) (hring : name ∉ a.ring) {points : List Definedness}
    (hpoints : points.length = f.arity) :
    a.verdict enough name points =
      f.body.meaning (a.verdict enough) (frame .zero f.params points) := by
  obtain ⟨hmem, rfl⟩ := Table.find?_eq_some_iff.1 hf
  refine verdict_eq_meaning h hf hring fun callee args hlive => ?_
  refine length_of_live_memo (h.plain f hmem) (fun c hc hself => ?_) hlive
  rw [hpoints, hexact f hmem c hc f (hself ▸ hf)]

/-- With as many arguments as parameters at every call, the verdicts account for all expressions. -/
theorem verdict_accounts_exact (h : a.Settled enough)
    (hexact : ∀ f ∈ a.table.entries, a.table.Exact f.body) :
    (a.verdict enough).Accounts a.table a.table.Exact where
  cond he := Expr.forall_callSites_cond.1 he
  basic he _ := Expr.forall_callSites_basic.1 he
  call {mode callee args f} he hf := by
    obtain ⟨hcount, hargs⟩ := Expr.forall_callSites_call.1 he
    by_cases hring : callee ∈ a.ring
    · exact .inl fun points _ => if_pos hring
    · refine .inr ⟨hargs, hexact f (Table.find?_eq_some_iff.1 hf).1, fun points hpoints => ?_⟩
      exact (verdict_eq_meaning_of_exact h hexact hf hring (hpoints.trans (hcount f hf))).ge

/-- The analysis of a whole program is sound. The query of an expression that has a value never
answers that it is certainly undefined, and with enough depth answers that it may be defined. -/
theorem query_eq_one_of_eval (defs : List Definition) (e : Expr)
    (hplain : ∀ f ∈ (Table.ofList defs).entries, f.body.Plain)
    (hexact : ∀ f ∈ (Table.ofList defs).entries, (Table.ofList defs).Exact f.body)
    (he : e.Plain) (hcalls : (Table.ofList defs).Exact e) (env : Standard.Env)
    {depth : Nat} {n : Int}
    (heval : Standard.eval (Table.ofList defs) depth env e = .ok (some n)) :
    (∀ depth' v, (ofTable (Table.ofList defs)).query depth' (fun x => .ofValue (env x)) e = .ok v →
      v = .one) ∧
    ∃ enough, ∀ depth' ≥ enough,
      (ofTable (Table.ofList defs)).query depth' (fun x => .ofValue (env x)) e = .ok .one := by
  obtain ⟨enough, hsettled⟩ := exists_settled hplain
  obtain ⟨enough', hfound⟩ := hsettled.exists_query he
  have hone : ∀ depth' v, (ofTable (Table.ofList defs)).query depth' (fun x => .ofValue (env x)) e =
      .ok v → v = .one := by
    intro depth' v hquery
    rw [query_eq_meaning hsettled he hquery]
    exact (verdict_accounts_exact hsettled hexact).meaning_eq_one hcalls (fun _ => le_rfl) heval
  obtain ⟨v, hv⟩ := hfound fun x => .ofValue (env x)
  obtain rfl : v = .one := hone enough' v (hv enough' le_rfl)
  exact ⟨hone, enough', hv⟩

/-- A sum that is accumulated by nested self-calls. -/
def accumulate : Definition :=
  ⟨"sum", ["n", "total"], .cond (.var "n")
    (.call .plain "sum" [.basic "sub" [.var "n", .const 1],
      .call .plain "sum" [.const 0, .basic "add" [.var "n", .var "total"]]])
    (.var "total")⟩

/-- The sum, first defined otherwise, beside two functions that call each other. -/
def accumulating : List Definition :=
  [⟨"sum", ["n"], .var "n"⟩,
    ⟨"even", ["n"], .cond (.var "n")
      (.call .plain "odd" [.basic "sub" [.var "n", .const 1]]) (.const 1)⟩,
    ⟨"odd", ["n"], .cond (.var "n")
      (.call .plain "even" [.basic "sub" [.var "n", .const 1]]) (.call .plain "nowhere" [])⟩,
    accumulate]

theorem accumulating_query :
    Standard.eval (Table.ofList accumulating) 20 (assign (fun _ => none) "x" (some 2))
        (.call .plain "sum" [.call .plain "even" [.var "x"], .const 3]) = .ok (some 4) ∧
    ∃ enough, ∀ depth ≥ enough, (ofTable (Table.ofList accumulating)).query depth
      (fun x => .ofValue (assign (fun _ => none) "x" (some 2) x))
      (.call .plain "sum" [.call .plain "even" [.var "x"], .const 3]) = .ok .one := by
  have heval : Standard.eval (Table.ofList accumulating) 20 (assign (fun _ => none) "x" (some 2))
      (.call .plain "sum" [.call .plain "even" [.var "x"], .const 3]) = .ok (some 4) := by rfl
  exact ⟨heval, (query_eq_one_of_eval accumulating _ (by decide) (by decide) (by decide) (by decide)
    _ heval).2⟩

end Analysis

end StrictnessAnalysis
