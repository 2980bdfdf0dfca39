import StrictnessAnalysis.Proofs.LiveCalls
import StrictnessAnalysis.Proofs.Lookup
import StrictnessAnalysis.Proofs.Termination

/-! Two ways of preparing a function that calls only itself. The analysis prepares the arguments of
a self-call too, so that all of its self-calls read the memo table; memoizing a body leaves the
arguments as they are. If no self-call is evaluated in the arguments of another one, this makes no
difference to the solver. If there is such a nested self-call, it stays a plain call and enters the
memoized body, where it stands again, so the solver never returns. -/

namespace StrictnessAnalysis

open Abstract

/-- A call of the function to itself is evaluated in the arguments of another such call. -/
def Definition.SelfNested (f : Definition) : Prop :=
  ∃ args, f.body.Live (Table.ofList [f]) (.call .plain f.name args) ∧
    ∃ a ∈ args, ∃ args', a.Live (Table.ofList [f]) (.call .plain f.name args')

/-- The function with its body memoized. -/
abbrev Definition.memoized (f : Definition) : Definition := f.mapBody Expr.memoized

/-! ### Tables of one function -/

namespace Table

theorem find?_singleton (f : Definition) (name : String) :
    (ofList [f]).find? name = if f.name = name then some f else none :=
  find?_insert empty f name

theorem defines_singleton {f : Definition} {name : String} :
    (ofList [f]).defines name = true ↔ f.name = name := by
  rw [defines_iff, find?_singleton]
  split_ifs with h <;> simp [h]

end Table

namespace Expr

theorem memoized_basic (operator : String) (args : List Expr) :
    (basic operator args).memoized = .basic operator (args.map memoized) :=
  mapCalls_basic _ operator args

theorem memoized_plain (callee : String) (args : List Expr) :
    (call .plain callee args).memoized = .call .memo callee args :=
  mapCalls_plain _ callee args

variable {t t' : Table} {e node : Expr} {name : String}

/-- What is live depends on which functions are defined, not on their bodies. -/
theorem live_congr (h : ∀ name, t.defines name = t'.defines name) :
    e.Live t node ↔ e.Live t' node := by
  have hopens : ∀ e : Expr, e.Opens t ↔ e.Opens t' := by
    intro e
    cases e <;> simp only [Opens, h]
  simp only [Live, hopens]

/-- A plain call that is evaluated in the arguments of another one is still evaluated, and still
plain, once the expression is memoized. -/
theorem exists_live_memoized {args args' : List Expr} {a : Expr}
    (hdef : t.defines name = true) (houter : e.Live t (.call .plain name args)) (ha : a ∈ args)
    (hinner : a.Live t (.call .plain name args')) :
    ∃ args'', e.memoized.Live t (.call .plain name args'') := by
  induction houter using Relation.ReflTransGen.head_induction_on with
  | refl =>
    rw [memoized_plain]
    exact ⟨args', .of_part hdef (.argument ha) hinner⟩
  | @head e part hstep hlive ih =>
    obtain ⟨hopens, hpart⟩ := hstep
    obtain ⟨args'', hplain⟩ := ih
    cases hpart with
    | test => exact ⟨args'', hplain.of_part trivial .test⟩
    | yes => exact ⟨args'', hplain.of_part trivial .yes⟩
    | no => exact ⟨args'', hplain.of_part trivial .no⟩
    | @operand operator operands _ hmem =>
      rw [memoized_basic]
      exact ⟨args'', hplain.of_part hopens (.operand (List.mem_map_of_mem hmem))⟩
    | @argument mode callee operands _ hmem =>
      -- the arguments of a call stay as they are, whatever its mode
      cases mode with
      | plain =>
        rw [memoized_plain]
        exact ⟨args, .of_part hopens (.argument hmem) hlive⟩
      | memo => exact ⟨args, .of_part hopens (.argument hmem) hlive⟩
      | solved => exact ⟨args, .of_part hopens (.argument hmem) hlive⟩

end Expr

/-! ### Nested self-calls -/

theorem Definition.SelfNested.leadsTo {f : Definition} (h : f.SelfNested) :
    (Table.ofList [f.memoized]).LeadsTo f.name f.name := by
  have hdef : ∀ name,
      (Table.ofList [f]).defines name = (Table.ofList [f.memoized]).defines name := by
    intro name
    rw [Bool.eq_iff_iff, Table.defines_singleton, Table.defines_singleton]
    rfl
  obtain ⟨args, houter, a, ha, args', hinner⟩ := h
  obtain ⟨args'', hlive⟩ :=
    Expr.exists_live_memoized (Table.defines_singleton.2 rfl) houter ha hinner
  refine ⟨f.memoized, (Table.find?_singleton f.memoized f.name).trans (if_pos rfl),
    Table.defines_singleton.2 rfl, .plain, args'', by simp, ?_⟩
  exact (Expr.live_congr hdef).1 hlive

/-- With a nested self-call, no depth suffices for the memoized function. -/
theorem Definition.SelfNested.solve_memoized {f : Definition} (h : f.SelfNested) (depth : Nat)
    (args : List Definedness) :
    solve (Table.ofList [f.memoized]) depth f.memoized args = .error .tooDeep := by
  refine ((endsAt _ depth).solve_eq f.memoized args).2 fun hfits => ?_
  have hserves : Serves (Table.ofList [f.memoized]) depth f.name :=
    ⟨f.memoized, (Table.find?_singleton f.memoized f.name).trans (if_pos rfl), hfits⟩
  exact hserves.not_cycle (.single h.leadsTo)

/-! ### Without nested self-calls -/

/-- A rewriting of expressions that rebuilds everything around calls as it was. -/
structure Expr.Rebuilds (φ : Expr → Expr) : Prop where
  const : ∀ n, φ (.const n) = .const n
  var : ∀ x, φ (.var x) = .var x
  cond : ∀ test yes no, φ (.cond test yes no) = .cond (φ test) (φ yes) (φ no)
  basic : ∀ operator args, φ (.basic operator args) = .basic operator (args.map φ)

theorem Expr.rebuilds_id : Rebuilds id :=
  ⟨fun _ => rfl, fun _ => rfl, fun _ _ _ => rfl, fun _ args => by simp⟩

theorem Expr.rebuilds_mapCalls (hook : String → List Expr → List Expr → Expr) :
    Rebuilds (mapCalls hook) :=
  ⟨fun _ => rfl, fun _ => rfl, fun _ _ _ => rfl, mapCalls_basic hook⟩

namespace Abstract

variable {t t' : Table} {memo : Memo} {env : Env} {e : Expr} {φ ψ : Expr → Expr}

/-- Two rewritings that agree on the calls that are evaluated agree on the whole expression. -/
theorem eval_congr_calls (known : Table) (hφ : Expr.Rebuilds φ) (hψ : Expr.Rebuilds ψ)
    (h : ∀ mode callee args, e.Live known (.call mode callee args) → ∀ depth,
      eval t depth memo env (φ (.call mode callee args)) =
        eval t' depth memo env (ψ (.call mode callee args))) (depth : Nat) :
    eval t depth memo env (φ e) = eval t' depth memo env (ψ e) := by
  induction e generalizing depth with
  | const n =>
    rw [hφ.const, hψ.const]
    cases depth <;> rfl
  | var x =>
    rw [hφ.var, hψ.var]
    cases depth <;> rfl
  | cond test yes no ht hy hn =>
    rw [hφ.cond, hψ.cond]
    cases depth with
    | zero => rfl
    | succ depth =>
      rw [eval, eval,
        ht fun mode callee args hlive => h mode callee args (hlive.of_part trivial .test),
        hy fun mode callee args hlive => h mode callee args (hlive.of_part trivial .yes),
        hn fun mode callee args hlive => h mode callee args (hlive.of_part trivial .no)]
  | basic operator args ih =>
    rw [hφ.basic, hψ.basic]
    cases depth with
    | zero => rfl
    | succ depth =>
      rw [eval, eval]
      cases hop : Operator.ofName? operator with
      | none => rfl
      | some op =>
        have hopens : (Expr.basic operator args).Opens known := by simp [Expr.Opens, hop]
        have hargs : (args.map φ).mapM (eval t depth memo env) =
            (args.map ψ).mapM (eval t' depth memo env) := by
          refine mapM_congr_forall₂ (List.forall₂_map_left_iff.2 (List.forall₂_map_right_iff.2 ?_))
          exact List.forall₂_same.2 fun a ha => ih a ha (fun mode callee args' hlive =>
            h mode callee args' (hlive.of_part hopens (.operand ha))) depth
        simp only [hargs]
  | call mode callee args => exact h mode callee args .refl depth

/-- What has no definition is undefined, however it is called. -/
theorem eval_call_of_find?_eq_none {callee : String} (h : t.find? callee = none)
    (h' : t'.find? callee = none) (mode mode' : CallMode) (args args' : List Expr) (depth : Nat) :
    eval t depth memo env (.call mode callee args) =
      eval t' depth memo env (.call mode' callee args') := by
  cases depth with
  | zero => rfl
  | succ depth => simp only [eval, h, h']

end Abstract

namespace Analysis

/-- The analysis of a program that consists of one function. -/
abbrev alone (f : Definition) : Analysis := ofTable (Table.ofList [f])

variable {f : Definition} {e : Expr}

theorem ring_singleton (f : Definition) : (alone f).ring = [] := by
  refine List.eq_nil_iff_forall_not_mem.2 fun name hmem => ?_
  obtain ⟨other, hne, hmutual⟩ := mem_ring_iff.1 hmem
  have hother : f.name = other := Table.defines_singleton.1 (CallGraph.mem_nodes_ofTable.1
    (hmutual.1.mem_nodes (CallGraph.closed_ofTable _) hne.symm))
  exact hne (hother.symm.trans (Table.defines_singleton.1 (defines_of_mem_ring hmem)))

theorem prepare_self (args : List Expr) :
    (alone f).prepare (some f.name) (.call .plain f.name args) =
      .call .memo f.name (args.map ((alone f).prepare (some f.name))) := by
  rw [prepare_plain, prepareCall, ring_singleton, if_neg List.not_mem_nil, if_pos rfl]

theorem prepare_unknown {callee : String} (h : f.name ≠ callee) (args : List Expr) :
    (alone f).prepare (some f.name) (.call .plain callee args) =
      .call .plain callee (args.map ((alone f).prepare (some f.name))) := by
  rw [prepare_plain, prepareCall, ring_singleton, if_neg List.not_mem_nil,
    if_neg fun hself => h (Option.some.inj hself)]
  exact if_neg fun hdef => h (Table.defines_singleton.1 hdef)

section Outcomes

variable {memo : Memo} {env : Env} {args : List Expr} {callee : String}

theorem find?_memoized_of_ne (h : f.name ≠ callee) :
    (Table.ofList [f.memoized]).find? callee = none :=
  (Table.find?_singleton f.memoized callee).trans (if_neg h)

theorem find?_prepared_of_ne (h : f.name ≠ callee) :
    (alone f).prepared.find? callee = none := by
  rw [find?_prepared]
  exact Option.map_eq_none_iff.2 ((Table.find?_singleton f callee).trans (if_neg h))

/-- Where no self-call is evaluated, an expression need not be prepared. -/
theorem eval_of_no_self_call (he : e.Plain)
    (hself : ∀ args, ¬ e.Live (Table.ofList [f]) (.call .plain f.name args)) (depth : Nat) :
    eval (Table.ofList [f.memoized]) depth memo env e =
      eval (alone f).prepared depth memo env ((alone f).prepare (some f.name) e) := by
  refine eval_congr_calls (Table.ofList [f]) Expr.rebuilds_id (Expr.rebuilds_mapCalls _)
    (fun mode callee args hlive depth => ?_) depth
  obtain rfl : mode = .plain := he _ hlive.contains.callSite_mem
  have hne : f.name ≠ callee := by
    rintro rfl
    exact hself args hlive
  exact (eval_call_of_find?_eq_none (find?_memoized_of_ne hne) (find?_prepared_of_ne hne)
    _ _ _ _ depth).trans (congrArg _ (prepare_unknown hne args).symm)

/-- Without nested self-calls, a memoized expression is as good as a prepared one. -/
theorem eval_memoized (he : e.Plain)
    (hnested : ∀ args, e.Live (Table.ofList [f]) (.call .plain f.name args) →
      ∀ a ∈ args, ∀ args', ¬ a.Live (Table.ofList [f]) (.call .plain f.name args'))
    (depth : Nat) :
    eval (Table.ofList [f.memoized]) depth memo env e.memoized =
      eval (alone f).prepared depth memo env ((alone f).prepare (some f.name) e) := by
  refine eval_congr_calls (Table.ofList [f]) (Expr.rebuilds_mapCalls _) (Expr.rebuilds_mapCalls _)
    (fun mode callee args hlive depth => ?_) depth
  change eval _ depth memo env (Expr.memoized _) = eval _ depth memo env (prepare _ _ _)
  have hcall := Expr.forall_callSites_call.1 fun c hc => he c (hlive.contains.callSites_subset hc)
  obtain rfl : mode = .plain := hcall.1
  rw [Expr.memoized_plain]
  by_cases hself : f.name = callee
  · subst hself
    rw [prepare_self]
    cases depth with
    | zero => rfl
    | succ depth =>
      have hargs : args.mapM (eval (Table.ofList [f.memoized]) depth memo env) =
          (args.map ((alone f).prepare (some f.name))).mapM
            (eval (alone f).prepared depth memo env) := by
        refine mapM_congr_forall₂ (List.forall₂_map_right_iff.2 (List.forall₂_same.2 ?_))
        exact fun a ha => eval_of_no_self_call (hcall.2 a ha) (hnested args hlive a ha) depth
      have hfind : (Table.ofList [f]).find? f.name = some f :=
        (Table.find?_singleton f f.name).trans (if_pos rfl)
      rw [eval_call ((Table.find?_singleton f.memoized f.name).trans (if_pos rfl)),
        eval_call (mem_find?_prepared hfind), hargs]
      rfl
  · rw [prepare_unknown hself]
    exact eval_call_of_find?_eq_none (find?_memoized_of_ne hself) (find?_prepared_of_ne hself)
      _ _ _ _ depth

theorem solve_memoized_of_not_selfNested (hplain : f.body.Plain) (h : ¬ f.SelfNested)
    (depth : Nat) (args : List Definedness) :
    solve (Table.ofList [f.memoized]) depth f.memoized args =
      solve (alone f).prepared depth ((alone f).ready f) args := by
  have happly : ∀ memo point, apply (Table.ofList [f.memoized]) depth memo f.memoized point =
      apply (alone f).prepared depth memo ((alone f).ready f) point :=
    fun memo point => eval_memoized hplain (fun args hlive a ha args' hinner =>
      h ⟨args, hlive, a, ha, args', hinner⟩) depth
  simp only [solve, happly]

theorem exists_solve_prepared (hplain : f.body.Plain) :
    ∃ enough, ∀ args, ∃ v, ∀ depth ≥ enough,
      solve (alone f).prepared depth ((alone f).ready f) args = .ok v := by
  have hentries : ∀ g ∈ (Table.ofList [f]).entries, g = f := fun g hg => List.mem_singleton.1 hg
  obtain ⟨enough, hsettled⟩ := exists_settled fun g hg => hentries g hg ▸ hplain
  have hfits := hsettled.fits f List.mem_cons_self (by simp [ring_singleton])
  refine ⟨enough, fun args => ⟨solution (alone f).prepared enough ((alone f).ready f) args,
    fun depth hdepth => solve_eq_ok_iff.2 ⟨hfits.mono hdepth, ?_⟩⟩⟩
  rw [solution_eq_of_fits (hfits.mono hdepth) hfits]

end Outcomes

/-- The two ways of preparing a function that calls only itself agree as long as no self-call is
evaluated in the arguments of another: at every depth the solver has the same outcome, and from some
depth on it is one value, whatever the number of arguments. With a nested self-call, the solver
never returns on the memoized function, though it does on the prepared one. -/
theorem solve_memoized_unless_nested (f : Definition) (hplain : f.body.Plain) :
    (¬ f.SelfNested →
      (∀ depth args, solve (Table.ofList [f.memoized]) depth f.memoized args =
        solve (alone f).prepared depth ((alone f).ready f) args) ∧
      ∃ enough, ∀ args, ∃ v, ∀ depth ≥ enough,
        solve (Table.ofList [f.memoized]) depth f.memoized args = .ok v ∧
        solve (alone f).prepared depth ((alone f).ready f) args = .ok v) ∧
    (f.SelfNested →
      (∀ depth args,
        solve (Table.ofList [f.memoized]) depth f.memoized args = .error .tooDeep) ∧
      ∃ enough, ∀ args, ∃ v, ∀ depth ≥ enough,
        solve (alone f).prepared depth ((alone f).ready f) args = .ok v) := by
  obtain ⟨enough, hprepared⟩ := exists_solve_prepared hplain
  refine ⟨fun h => ?_, fun h => ⟨h.solve_memoized, enough, hprepared⟩⟩
  have hsame := solve_memoized_of_not_selfNested hplain h
  refine ⟨hsame, enough, fun args => ?_⟩
  obtain ⟨v, hv⟩ := hprepared args
  exact ⟨v, fun depth hdepth => ⟨(hsame depth args).trans (hv depth hdepth), hv depth hdepth⟩⟩

/-- A function that nests self-calls only where they are not evaluated. -/
def waiting : Definition :=
  ⟨"wait", ["n", "m"], .cond (.var "n")
    (.call .plain "wait" [.basic "sub" [.var "n", .const 1],
      .basic "div" [.call .plain "wait" [.var "m"]]])
    (.cond (.var "m") (.var "n")
      (.call .plain "nowhere" [.call .plain "wait" [.call .plain "wait" []]]))⟩

theorem waiting_memoized :
    ¬ waiting.SelfNested ∧
    (∀ depth args, solve (Table.ofList [waiting.memoized]) depth waiting.memoized args =
      solve (alone waiting).prepared depth ((alone waiting).ready waiting) args) ∧
    solve (Table.ofList [waiting.memoized]) 5 waiting.memoized [.one, .one] = .ok .one ∧
    solve (Table.ofList [waiting.memoized]) 5 waiting.memoized [.one, .zero] = .ok .zero := by
  have hnested : ¬ waiting.SelfNested := by
    have hdefines : ∀ {name}, (Table.ofList [waiting]).defines name = true ↔ "wait" = name :=
      Table.defines_singleton
    unfold Definition.SelfNested
    generalize Table.ofList [waiting] = t at hdefines ⊢
    have hdiv : Operator.ofName? "div" = none := by decide
    simp [waiting, Expr.live_cond, Expr.live_var, Expr.live_const, Expr.live_call, Expr.live_basic,
      hdefines, hdiv]
  exact ⟨hnested, ((solve_memoized_unless_nested waiting (by decide)).1 hnested).1, by rfl, by rfl⟩

/-- A function with a nested self-call that is always reached: it takes ten off a number above a
hundred, and else is applied twice to the number with eleven added. -/
def ninetyOne : Definition :=
  ⟨"f", ["n"], .cond (.basic "geq" [.var "n", .const 101]) (.basic "sub" [.var "n", .const 10])
    (.call .plain "f" [.call .plain "f" [.basic "add" [.var "n", .const 11]]])⟩

/-- The solver never returns on the memoized function, though its value can be found. -/
theorem ninetyOne_memoized_loops :
    ninetyOne.body.Plain ∧
    (∀ depth args,
      solve (Table.ofList [ninetyOne.memoized]) depth ninetyOne.memoized args = .error .tooDeep) ∧
    solve (alone ninetyOne).prepared 6 ((alone ninetyOne).ready ninetyOne) [.one] = .ok .one ∧
    solve (alone ninetyOne).prepared 6 ((alone ninetyOne).ready ninetyOne) [.zero] = .ok .zero := by
  have hnested : ninetyOne.SelfNested :=
    ⟨_, .of_part trivial .no .refl, _, List.mem_cons_self, _, .refl⟩
  exact ⟨by decide, hnested.solve_memoized, by rfl, by rfl⟩

end Analysis

end StrictnessAnalysis
