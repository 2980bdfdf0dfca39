import StrictnessAnalysis.Proofs.CallModes
import StrictnessAnalysis.Proofs.DirectEvaluation
import StrictnessAnalysis.Proofs.MutualRecursion

/-! Two spellings of a query. A query solves the calls of an expression, and a call that is already
written as a solved call stands for the same. But preparation leaves solved calls as they are, so a
plain call in the arguments of one is never prepared: it enters the callee with an empty memo table,
where a function that calls itself finds nothing. As long as no recursive function is called there,
a query does not depend on the spelling. -/

namespace StrictnessAnalysis

open Abstract

namespace Table

/-- The function calls itself, directly or by way of others. -/
def Recursive (t : Table) (name : String) : Prop := Relation.TransGen t.Mentions name name

/-- No plain call of a recursive function is evaluated in the arguments of a solved call. -/
def Guarded (t : Table) (e : Expr) : Prop :=
  ∀ callee args, e.Live t (.call .solved callee args) → ∀ a ∈ args, ∀ name args',
    a.Live t (.call .plain name args') → ¬ t.Recursive name

theorem Guarded.of_part {t : Table} {e part : Expr} (h : t.Guarded e) (hopens : e.Opens t)
    (hpart : e.HasPart part) : t.Guarded part :=
  fun callee args hlive => h callee args (hlive.of_part hopens hpart)

theorem guarded_of_forall_part {t : Table} {e : Expr} (h : ∀ part, e.HasPart part → t.Guarded part)
    (hself : ∀ callee args, e ≠ .call .solved callee args) : t.Guarded e := by
  intro callee args hlive
  rcases hlive.cases_head with heq | ⟨part, hpart, hlive⟩
  · exact absurd heq (hself callee args)
  · exact h part hpart.2 callee args hlive

/-- An expression is guarded if it calls no recursive function by a plain call at all. -/
theorem guarded_of_callSites {t : Table} {e : Expr}
    (h : ∀ c ∈ e.callSites, c.mode = .plain → ¬ t.Recursive c.callee) : t.Guarded e := by
  intro callee args hlive a ha name args' hcall
  have hcontains : e.Contains (.call .plain name args') :=
    Relation.ReflTransGen.trans hlive.contains (.head (.argument ha) hcall.contains)
  exact h _ hcontains.callSite_mem rfl

end Table

/-! ### Functions that do not call themselves -/

namespace Abstract

variable {t : Table} {depth : Nat} {e : Expr} {f : Definition}

/-- Without memo calls, an expression does not look at the memo table. -/
theorem value_of_memoFree (he : e.MemoFree) (memo memo' : Memo) (env : Env) :
    value t depth memo env e = value t depth memo' env e := by
  induction e generalizing depth with
  | const n => cases depth <;> rfl
  | var x => cases depth <;> rfl
  | cond test yes no ht hy hn =>
    rw [Expr.MemoFree, Expr.forall_callSites_cond] at he
    cases depth with
    | zero => rfl
    | succ depth => rw [value, value, ht he.1, hy he.2.1, hn he.2.2]
  | basic operator args ih =>
    rw [Expr.MemoFree, Expr.forall_callSites_basic] at he
    cases depth with
    | zero => rfl
    | succ depth => rw [value, value, List.map_congr_left fun a ha => ih a ha (he a ha)]
  | call mode callee args ih =>
    rw [Expr.MemoFree, Expr.forall_callSites_call] at he
    cases depth with
    | zero => rfl
    | succ depth =>
      rw [value, value, List.map_congr_left fun a ha => ih a ha (he.2 a ha)]
      cases mode with
      | plain => rfl
      | memo => exact absurd rfl he.1
      | solved => rfl

/-- To solve a function that does not look at its memo table is to enter it. -/
theorem solve_eq_eval_body (hbody : f.body.MemoFree) (args : List Definedness) :
    solve t depth f args = eval t depth Memo.empty (frame .zero f.params args) f.body := by
  have hends := endsAt t depth Memo.empty (frame .zero f.params args) f.body
  by_cases hfits : Fits t depth f.body
  · rw [hends.1 hfits, solve_eq_ok_iff]
    exact ⟨hfits, solution_eq_of_value (fun memo env => value_of_memoFree hbody memo _ env) args⟩
  · rw [hends.2 hfits]
    exact ((endsAt t depth).solve_eq f args).2 hfits

/-- Calls with the same arguments, in modes that make no difference to the callee. -/
theorem eval_call_congr {memo : Memo} {env : Env} {mode mode' : CallMode} {callee : String}
    {args args' : List Expr}
    (hargs : ∀ f ∈ t.find? callee,
      args.mapM (eval t depth memo env) = args'.mapM (eval t depth memo env))
    (hmode : ∀ f ∈ t.find? callee, ∀ values,
      enter t depth memo f values mode = enter t depth memo f values mode') :
    eval t (depth + 1) memo env (.call mode callee args) =
      eval t (depth + 1) memo env (.call mode' callee args') := by
  cases hf : t.find? callee with
  | none => simp only [eval, hf]
  | some f => simp only [eval_call hf, hargs f hf, hmode f hf]

end Abstract

namespace Analysis

theorem not_mem_ring_of_not_recursive {t : Table} {name : String} (h : ¬ t.Recursive name) :
    name ∉ (ofTable t).ring := by
  intro hmem
  obtain ⟨other, hne, hmutual⟩ := mem_ring_iff.1 hmem
  rw [CallGraph.mutual_iff fun _ _ => CallGraph.calls_iff_mentions] at hmutual
  rcases Relation.reflTransGen_iff_eq_or_transGen.1 hmutual.1 with heq | hchain
  · exact hne heq
  · exact h (hchain.trans_left hmutual.2)

/-- Only calls of the function itself become memo calls. -/
theorem memoFree_prepare {a : Analysis} {name : String} {e : Expr} (he : e.Plain)
    (hself : ∀ c ∈ e.callSites, c.callee ≠ name) : (a.prepare (some name) e).MemoFree := by
  induction e with
  | const n => simp [Expr.MemoFree, Expr.callSites]
  | var x => simp [Expr.MemoFree, Expr.callSites]
  | cond test yes no ht hy hn =>
    rw [Expr.Plain, Expr.forall_callSites_cond] at he
    rw [Expr.forall_callSites_cond] at hself
    rw [prepare_cond, Expr.MemoFree, Expr.forall_callSites_cond]
    exact ⟨ht he.1 hself.1, hy he.2.1 hself.2.1, hn he.2.2 hself.2.2⟩
  | basic operator args ih =>
    rw [Expr.Plain, Expr.forall_callSites_basic] at he
    rw [Expr.forall_callSites_basic] at hself
    rw [prepare_basic, Expr.MemoFree, Expr.forall_callSites_basic, List.forall_mem_map]
    exact fun b hb => ih b hb (he b hb) (hself b hb)
  | call mode callee args ih =>
    rw [Expr.Plain, Expr.forall_callSites_call] at he
    rw [Expr.forall_callSites_call] at hself
    obtain rfl : mode = .plain := he.1
    have hargs : ∀ b ∈ args.map (a.prepare (some name)), b.MemoFree :=
      List.forall_mem_map.2 fun b hb => ih b hb (he.2 b hb) (hself.2 b hb)
    rw [prepare_plain, prepareCall]
    split_ifs with hring hname hdef
    · simp [Expr.MemoFree, Expr.callSites]
    · exact absurd (Option.some.inj hname).symm hself.1
    · exact Expr.forall_callSites_call.2 ⟨by simp, hargs⟩
    · exact Expr.forall_callSites_call.2 ⟨by simp, hargs⟩

/-- Once prepared, a function that is not recursive does not read its memo table. -/
theorem memoFree_ready {t : Table} (hplain : ∀ f ∈ t.entries, f.body.Plain) {name : String}
    {f : Definition} (hf : t.find? name = some f) (h : ¬ t.Recursive name) :
    ((ofTable t).ready f).body.MemoFree := by
  obtain ⟨hmem, rfl⟩ := Table.find?_eq_some_iff.1 hf
  refine memoFree_prepare (hplain f hmem) fun c hc hself => h (.single ?_)
  rw [← CallGraph.calls_iff_mentions]
  have hcall := CallGraph.calls_of_callSite hf hc (hself ▸ Table.defines_iff.2 ⟨f, hf⟩)
  rwa [hself] at hcall

/-! ### Respelled expressions -/

/-- The second expression is the first with some of its calls written as solved calls, all of them
calls of defined functions outside the ring. -/
inductive Respelled (a : Analysis) : Expr → Expr → Prop
  | const (n : Int) : Respelled a (.const n) (.const n)
  | var (x : String) : Respelled a (.var x) (.var x)
  | cond {test yes no test' yes' no' : Expr} :
    Respelled a test test' → Respelled a yes yes' → Respelled a no no' →
      Respelled a (.cond test yes no) (.cond test' yes' no')
  | basic {operator : String} {args args' : List Expr} :
    List.Forall₂ (Respelled a) args args' →
      Respelled a (.basic operator args) (.basic operator args')
  | plain {callee : String} {args args' : List Expr} :
    List.Forall₂ (Respelled a) args args' →
      Respelled a (.call .plain callee args) (.call .plain callee args')
  | solved {callee : String} {args args' : List Expr} :
    a.table.defines callee = true → callee ∉ a.ring → List.Forall₂ (Respelled a) args args' →
      Respelled a (.call .plain callee args) (.call .solved callee args')

theorem Respelled.plain_left {a : Analysis} {e e' : Expr} (h : a.Respelled e e') : e.Plain := by
  have hall : ∀ {args args' : List Expr}, List.Forall₂ a.Respelled args args' →
      (∀ b ∈ args, ∀ {b'}, a.Respelled b b' → b.Plain) → ∀ b ∈ args, b.Plain := by
    intro args args' hargs ih b hb
    obtain ⟨b', -, hbb'⟩ := exists_of_forall₂ hargs hb
    exact ih b hb hbb'
  induction e generalizing e' with
  | const n => simp [Expr.Plain, Expr.callSites]
  | var x => simp [Expr.Plain, Expr.callSites]
  | cond test yes no ht hy hn =>
    cases h with
    | cond htest hyes hno => exact Expr.forall_callSites_cond.2 ⟨ht htest, hy hyes, hn hno⟩
  | basic operator args ih =>
    cases h with
    | basic hargs => exact Expr.forall_callSites_basic.2 (hall hargs ih)
  | call mode callee args ih =>
    cases h with
    | plain hargs => exact Expr.forall_callSites_call.2 ⟨rfl, hall hargs ih⟩
    | solved _ _ hargs => exact Expr.forall_callSites_call.2 ⟨rfl, hall hargs ih⟩

/-- From outside all functions, a call that stays is prepared by its mode alone. -/
theorem prepareCall_of_not_mem_ring {a : Analysis} {callee : String} (h : callee ∉ a.ring)
    (args : List Expr) : a.prepareCall none callee args =
      .call (if a.table.defines callee then .solved else .plain) callee args := by
  rw [prepareCall, if_neg h, if_neg (by simp)]
  split_ifs <;> rfl

section Prepared

variable {t : Table} {memo : Memo} {env : Env}

theorem exists_of_mem_prepared {name : String} {f : Definition}
    (h : f ∈ (ofTable t).prepared.find? name) :
    (ofTable t).table.defines name = true ∧
      ∃ g, t.find? name = some g ∧ f = (ofTable t).ready g := by
  rw [find?_prepared, Option.mem_def, Option.map_eq_some_iff] at h
  obtain ⟨g, hg, rfl⟩ := h
  exact ⟨Table.defines_iff.2 ⟨g, hg⟩, g, hg, rfl⟩

/-- Where no recursive function is called, an expression need not be prepared. -/
theorem eval_prepare_of_not_recursive (hplain : ∀ f ∈ t.entries, f.body.Plain) {e : Expr}
    (hcalls : ∀ name args, e.Live t (.call .plain name args) → ¬ t.Recursive name) (depth : Nat) :
    eval (ofTable t).prepared depth memo env ((ofTable t).prepare none e) =
      eval (ofTable t).prepared depth memo env e := by
  have hall : ∀ {args : List Expr} {depth : Nat},
      (∀ b ∈ args, eval (ofTable t).prepared depth memo env ((ofTable t).prepare none b) =
        eval (ofTable t).prepared depth memo env b) →
      (args.map ((ofTable t).prepare none)).mapM (eval (ofTable t).prepared depth memo env) =
        args.mapM (eval (ofTable t).prepared depth memo env) :=
    fun ih => mapM_congr_forall₂ (List.forall₂_map_left_iff.2 (List.forall₂_same.2 ih))
  induction e generalizing depth with
  | const n => rfl
  | var x => rfl
  | cond test yes no ht hy hn =>
    cases depth with
    | zero => rfl
    | succ depth =>
      rw [prepare_cond, eval, eval,
        ht fun name args hlive => hcalls name args (hlive.of_part trivial .test),
        hy fun name args hlive => hcalls name args (hlive.of_part trivial .yes),
        hn fun name args hlive => hcalls name args (hlive.of_part trivial .no)]
  | basic operator args ih =>
    cases depth with
    | zero => rfl
    | succ depth =>
      rw [prepare_basic, eval, eval]
      cases hop : Operator.ofName? operator with
      | none => rfl
      | some op =>
        have hopens : (Expr.basic operator args).Opens t := by simp [Expr.Opens, hop]
        rw [hall fun b hb => ih b hb (fun name args' hlive =>
          hcalls name args' (hlive.of_part hopens (.operand hb))) depth]
  | call mode callee args ih =>
    cases mode with
    | memo => rfl
    | solved => rfl
    | plain =>
      have hcallee : ¬ t.Recursive callee := hcalls callee args .refl
      rw [prepare_plain, prepareCall_of_not_mem_ring (not_mem_ring_of_not_recursive hcallee)]
      cases depth with
      | zero => rfl
      | succ depth =>
        refine eval_call_congr (fun f hf => ?_) (fun f hf values => ?_)
        · exact hall fun b hb => ih b hb (fun name args' hlive =>
            hcalls name args' (hlive.of_part (exists_of_mem_prepared hf).1 (.argument hb))) depth
        · -- the callee does not read its memo table, so that entering it is as good as solving it
          obtain ⟨hdef, g, hg, rfl⟩ := exists_of_mem_prepared hf
          rw [if_pos hdef]
          exact solve_eq_eval_body (memoFree_ready hplain hg hcallee) values

/-- Respelled expressions have the same value once they are prepared. -/
theorem eval_prepare_respelled (hplain : ∀ f ∈ t.entries, f.body.Plain) {e e' : Expr}
    (h : (ofTable t).Respelled e e') (hguard : t.Guarded e') (depth : Nat) :
    eval (ofTable t).prepared depth memo env ((ofTable t).prepare none e) =
      eval (ofTable t).prepared depth memo env ((ofTable t).prepare none e') := by
  have hall : ∀ {args args' : List Expr} {depth : Nat},
      List.Forall₂ (fun b b' => eval (ofTable t).prepared depth memo env
        ((ofTable t).prepare none b) =
          eval (ofTable t).prepared depth memo env ((ofTable t).prepare none b')) args args' →
      (args.map ((ofTable t).prepare none)).mapM (eval (ofTable t).prepared depth memo env) =
        (args'.map ((ofTable t).prepare none)).mapM (eval (ofTable t).prepared depth memo env) :=
    fun h => mapM_congr_forall₂ (List.forall₂_map_left_iff.2 (List.forall₂_map_right_iff.2 h))
  induction e generalizing e' depth with
  | const n => cases h; rfl
  | var x => cases h; rfl
  | cond test yes no ht hy hn =>
    cases h with
    | cond htest hyes hno =>
      cases depth with
      | zero => rfl
      | succ depth =>
        rw [prepare_cond, prepare_cond, eval, eval, ht htest (hguard.of_part trivial .test),
          hy hyes (hguard.of_part trivial .yes), hn hno (hguard.of_part trivial .no)]
  | basic operator args ih =>
    cases h with
    | @basic _ _ args' hargs =>
      cases depth with
      | zero => rfl
      | succ depth =>
        rw [prepare_basic, prepare_basic, eval, eval]
        cases hop : Operator.ofName? operator with
        | none => rfl
        | some op =>
          have hopens : (Expr.basic operator args').Opens t := by simp [Expr.Opens, hop]
          rw [hall (forall₂_imp_of_mem hargs fun b hb b' hb' hbb' =>
            ih b hb hbb' (hguard.of_part hopens (.operand hb')) depth)]
  | call mode callee args ih =>
    cases h with
    | plain hargs =>
      rw [prepare_plain, prepare_plain]
      by_cases hring : callee ∈ (ofTable t).ring
      · rw [prepareCall, prepareCall, if_pos hring, if_pos hring]
      rw [prepareCall_of_not_mem_ring hring, prepareCall_of_not_mem_ring hring]
      cases depth with
      | zero => rfl
      | succ depth =>
        refine eval_call_congr (fun f hf => ?_) (fun f hf values => rfl)
        exact hall (forall₂_imp_of_mem hargs fun b hb b' hb' hbb' =>
          ih b hb hbb' (hguard.of_part (exists_of_mem_prepared hf).1 (.argument hb')) depth)
    | @solved _ _ args' hdef hring hargs =>
      rw [prepare_plain, prepareCall_of_not_mem_ring hring, if_pos hdef]
      cases depth with
      | zero => rfl
      | succ depth =>
        refine eval_call_congr (fun f hf => ?_) (fun f hf values => rfl)
        refine mapM_congr_forall₂ (List.forall₂_map_left_iff.2 ?_)
        refine forall₂_imp_of_mem hargs fun b hb b' hb' hbb' => ?_
        -- the arguments of a solved call are not prepared, and by the guard need not be
        rw [ih b hb hbb' (hguard.of_part hdef (.argument hb')) depth]
        exact eval_prepare_of_not_recursive hplain (hguard callee args' .refl b' hb') depth

end Prepared

theorem Respelled.forgetModes_eq {a : Analysis} {e e' : Expr} (h : a.Respelled e e') :
    e.forgetModes = e'.forgetModes := by
  have hall : ∀ {args args' : List Expr}, List.Forall₂ a.Respelled args args' →
      (∀ b ∈ args, ∀ {b'}, a.Respelled b b' → b.forgetModes = b'.forgetModes) →
      args.map Expr.forgetModes = args'.map Expr.forgetModes := by
    intro args args' hargs ih
    rw [← List.forall₂_eq_eq_eq, List.forall₂_map_left_iff, List.forall₂_map_right_iff]
    exact forall₂_imp_of_mem hargs fun b hb _ _ hbb' => ih b hb hbb'
  induction e generalizing e' with
  | const n => cases h; rfl
  | var x => cases h; rfl
  | cond test yes no ht hy hn =>
    cases h with
    | cond htest hyes hno =>
      rw [Expr.forgetModes, Expr.forgetModes, ht htest, hy hyes, hn hno]
  | basic operator args ih =>
    cases h with
    | basic hargs => rw [Expr.forgetModes_basic, Expr.forgetModes_basic, hall hargs ih]
  | call mode callee args ih =>
    cases h with
    | plain hargs => rw [Expr.forgetModes_call, Expr.forgetModes_call, hall hargs ih]
    | solved _ _ hargs => rw [Expr.forgetModes_call, Expr.forgetModes_call, hall hargs ih]

theorem Respelled.eval_eq {a : Analysis} {t : Table} {e e' : Expr} (h : a.Respelled e e')
    (depth : Nat) (env : Standard.Env) :
    Standard.eval t depth env e = Standard.eval t depth env e' := by
  rw [← Standard.eval_forgetModes t depth env e, h.forgetModes_eq, Standard.eval_forgetModes]

/-- In the standard semantics the spelling of a call makes no difference. A query does not depend on
how its solved calls are spelled, as long as no plain call of a recursive function is evaluated in
the arguments of a solved call. At every depth, the two spellings then have the same outcome, and
there is a depth, the same for all environments, from which on it is one value. -/
theorem query_respelled (defs : List Definition)
    (hdefs : ∀ f ∈ (Table.ofList defs).entries, f.body.Plain) {e e' : Expr}
    (h : (ofTable (Table.ofList defs)).Respelled e e') :
    (∀ depth env, Standard.eval (Table.ofList defs) depth env e =
      Standard.eval (Table.ofList defs) depth env e') ∧
    ((Table.ofList defs).Guarded e' →
      (∀ depth env, (ofTable (Table.ofList defs)).query depth env e =
        (ofTable (Table.ofList defs)).query depth env e') ∧
      ∃ enough, ∀ env, ∃ v, ∀ depth ≥ enough,
        (ofTable (Table.ofList defs)).query depth env e = .ok v ∧
        (ofTable (Table.ofList defs)).query depth env e' = .ok v) := by
  refine ⟨h.eval_eq, fun hguard => ?_⟩
  have hsame : ∀ depth env, (ofTable (Table.ofList defs)).query depth env e =
      (ofTable (Table.ofList defs)).query depth env e' :=
    fun depth env => eval_prepare_respelled hdefs h hguard depth
  obtain ⟨settled, hsettled⟩ := exists_settled hdefs
  obtain ⟨enough, hquery⟩ := hsettled.exists_query h.plain_left
  refine ⟨hsame, enough, fun env => ?_⟩
  obtain ⟨v, hv⟩ := hquery env
  exact ⟨v, fun depth hdepth => ⟨hv depth hdepth, hsame depth env ▸ hv depth hdepth⟩⟩

/-- The identity and a function that swaps its last two arguments in every round. -/
def swapping : List Definition :=
  [⟨"id", ["x"], .var "x"⟩,
    ⟨"swap", ["n", "y", "z"], .cond (.var "n")
      (.call .plain "swap" [.basic "sub" [.var "n", .const 1], .var "z", .var "y"]) (.var "y")⟩]

/-- A call of the swapping function with a given first argument. It returns the third. -/
def swapped (mode : CallMode) (rounds : Expr) : Expr :=
  .call mode "swap" [rounds, .var "u", .const 7]

/-- A plain call of the swapping function around two calls spelled by the given mode, with a plain
call of the identity inside. -/
def nested (mode : CallMode) : Expr :=
  .call .plain "swap" [.const 1,
    .call mode "id" [swapped mode (.call .plain "id" [.const 1])], .var "u"]

theorem nested_spellings_agree :
    (ofTable (Table.ofList swapping)).Respelled (nested .plain) (nested .solved) ∧
    (Table.ofList swapping).Guarded (nested .solved) ∧
    (∀ depth env, (ofTable (Table.ofList swapping)).query depth env (nested .plain) =
      (ofTable (Table.ofList swapping)).query depth env (nested .solved)) ∧
    (ofTable (Table.ofList swapping)).query 10 (fun _ => .zero) (nested .solved) =
      .ok .one := by
  have hdefs : ∀ f ∈ (Table.ofList swapping).entries, f.body.Plain := by decide
  have hrespelled : (ofTable (Table.ofList swapping)).Respelled (nested .plain)
      (nested .solved) := by
    have hinner : (ofTable (Table.ofList swapping)).Respelled
        (swapped .plain (.call .plain "id" [.const 1]))
        (swapped .solved (.call .plain "id" [.const 1])) :=
      .solved (by decide) (by decide) (.cons (.plain (.cons (.const 1) .nil))
        (.cons (.var "u") (.cons (.const 7) .nil)))
    exact .plain (.cons (.const 1) (.cons (.solved (by decide) (by decide) (.cons hinner .nil))
      (.cons (.var "u") .nil)))
  have hid : ¬ (Table.ofList swapping).Recursive "id" := by
    intro h
    obtain ⟨name, hname, -⟩ := Relation.TransGen.head'_iff.1 h
    have hcallees : (CallGraph.ofTable (Table.ofList swapping)).callees "id" = [] := by decide
    rw [← CallGraph.calls_iff_mentions, CallGraph.Calls, hcallees] at hname
    exact List.not_mem_nil hname
  have hguard : (Table.ofList swapping).Guarded (nested .solved) := by
    refine Table.guarded_of_forall_part (fun part hpart => ?_) (by simp [nested])
    have hcalls : ∀ c ∈ part.callSites, c.mode = .plain → c.callee = "id" := by
      cases hpart with
      | argument hmem =>
        revert part
        decide
    exact Table.guarded_of_callSites fun c hc hmode => hcalls c hc hmode ▸ hid
  have hsame := ((query_respelled swapping hdefs hrespelled).2 hguard).1
  exact ⟨hrespelled, hguard, hsame, hsame 10 _ ▸ by rfl⟩

/-- A plain call of a recursive function in the arguments of a solved call is not solved: the value
is defined, and with the outer call spelled out the query denies it. -/
theorem solved_spelling_denies_value :
    (∀ f ∈ (Table.ofList swapping).entries, f.body.Plain) ∧
    (ofTable (Table.ofList swapping)).Respelled (.call .plain "id" [swapped .plain (.const 1)])
      (.call .solved "id" [swapped .plain (.const 1)]) ∧
    (ofTable (Table.ofList swapping)).query 10 (fun _ => .zero)
      (.call .plain "id" [swapped .plain (.const 1)]) = .ok .one ∧
    (ofTable (Table.ofList swapping)).query 10 (fun _ => .zero)
      (.call .solved "id" [swapped .plain (.const 1)]) = .ok .zero ∧
    Standard.eval (Table.ofList swapping) 10 (fun _ => none)
      (.call .solved "id" [swapped .plain (.const 1)]) = .ok (some 7) := by
  refine ⟨by decide, .solved (by decide) (by decide) (.cons ?_ .nil), by rfl, by rfl, by rfl⟩
  exact .plain (.cons (.const 1) (.cons (.var "u") (.cons (.const 7) .nil)))

end Analysis

end StrictnessAnalysis
