import StrictnessAnalysis.Proofs.Parts
import StrictnessAnalysis.Proofs.Termination

/-! The abstract equations of a program. A family gives every name a function on lists of points,
and an expression has a meaning once the calls in it are taken from a family. What the analysis
finds is such a family: outside the ring its functions satisfy the equations of the program, as long
as the self-calls that are evaluated pass as many arguments as the call that is solved, since the
memo table has no other keys. -/

namespace StrictnessAnalysis

open Abstract

/-- The values of all functions, by name and arguments. -/
abbrev Family := String → List Definedness → Definedness

namespace Expr

mutual

/-- What an expression means when its calls are taken from a family. -/
def meaning (call : Family) (env : Env) : Expr → Definedness
  | .const _ => .one
  | .var x => env x
  | .cond test yes no =>
    (test.meaning call env).meet ((yes.meaning call env).join (no.meaning call env))
  | .basic operator args =>
    match Operator.ofName? operator with
    | none => .zero
    | some _ => (meaningAll call env args).foldl Definedness.meet .one
  | .call _ callee args => call callee (meaningAll call env args)

def meaningAll (call : Family) (env : Env) : List Expr → List Definedness
  | [] => []
  | e :: es => e.meaning call env :: meaningAll call env es

end

theorem meaningAll_eq_map (call : Family) (env : Env) (es : List Expr) :
    meaningAll call env es = es.map (meaning call env) := by
  induction es with
  | nil => rfl
  | cons e es ih => simp only [meaningAll, ih, List.map_cons]

/-- Values found one by one that are meanings are the meanings of the list. -/
theorem map_eq_meaningAll {call : Family} {env : Env} {values : Expr → Definedness} {es : List Expr}
    (h : ∀ e ∈ es, values e = e.meaning call env) : es.map values = meaningAll call env es := by
  rw [meaningAll_eq_map]
  exact List.map_congr_left h

theorem length_meaningAll (call : Family) (env : Env) (es : List Expr) :
    (meaningAll call env es).length = es.length := by
  rw [meaningAll_eq_map, List.length_map]

section

variable {call call' : Family} {env env' : Env} {e : Expr}

/-- Meanings are compared by comparing the calls at larger arguments, and the environments. -/
theorem meaning_le (h : ∀ c ∈ e.callSites, ∀ args args' : List Definedness,
      args.length = c.count → List.Forall₂ (· ≤ ·) args args' →
      call c.callee args ≤ call' c.callee args')
    (henv : ∀ x, env x ≤ env' x) : e.meaning call env ≤ e.meaning call' env' := by
  have hall : ∀ args : List Expr, (∀ a ∈ args, a.meaning call env ≤ a.meaning call' env') →
      List.Forall₂ (· ≤ ·) (meaningAll call env args) (meaningAll call' env' args) := by
    intro args hargs
    rw [meaningAll_eq_map, meaningAll_eq_map]
    exact forall₂_map_le hargs
  induction e with
  | const n => exact le_rfl
  | var x => exact henv x
  | cond test yes no ht hy hn =>
    rw [forall_callSites_cond] at h
    exact Definedness.meet_join_le (ht h.1) (hy h.2.1) (hn h.2.2)
  | basic operator args ih =>
    rw [forall_callSites_basic] at h
    rw [meaning, meaning]
    cases Operator.ofName? operator with
    | none => exact le_rfl
    | some op => exact Definedness.foldl_meet_le (hall args fun a ha => ih a ha (h a ha))
  | call mode callee args ih =>
    rw [forall_callSites_call] at h
    rw [meaning, meaning]
    exact h.1 _ _ (length_meaningAll call env args) (hall args fun a ha => ih a ha (h.2 a ha))

end

end Expr

namespace Analysis

variable {a : Analysis} {enough : Nat}

/-- What a prepared call means: anything is possible of the ring, a function reads its own results
from a memo table, and the results of other functions come from a family. -/
def family (a : Analysis) (inside : Option String) (memo : Memo) (solved : Family) : Family :=
  fun callee args =>
    if callee ∈ a.ring then .one
    else if inside = some callee then memo args
    else if a.table.defines callee then solved callee args
    else .zero

/-- The least fixed point of each function, found at some depth. -/
def solved (a : Analysis) (depth : Nat) : Family := fun name args =>
  match a.table.find? name with
  | none => .zero
  | some f => solution a.prepared depth (a.ready f) args

/-- What the analysis takes every function to be, seen from outside. -/
def verdict (a : Analysis) (depth : Nat) : Family := a.family none Memo.empty (a.solved depth)

theorem solved_of_find? {name : String} {f : Definition} (hf : a.table.find? name = some f)
    (depth : Nat) : a.solved depth name = solution a.prepared depth (a.ready f) := by
  funext args
  rw [solved, hf]

theorem verdict_eq_solved {name : String} (hdef : a.table.defines name = true)
    (hring : name ∉ a.ring) (depth : Nat) : a.verdict depth name = a.solved depth name := by
  funext args
  simp [verdict, family, hring, hdef]

/-- The value of a prepared call comes from the family, at the values of its arguments. -/
theorem value_prepareCall (hsettled : a.Settled enough) {inside : Option String}
    (hinside : ∀ name ∈ inside, a.table.defines name = true) {callee : String} {args : List Expr}
    {depth : Nat} (hfits : Fits a.prepared (depth + 1) (a.prepareCall inside callee args))
    {memo : Memo} {env : Env} {values : List Definedness}
    (hvalues : (∀ b ∈ args, Fits a.prepared depth b) →
      args.map (value a.prepared depth memo env) = values) :
    value a.prepared (depth + 1) memo env (a.prepareCall inside callee args) =
      a.family inside memo (a.solved enough) callee values := by
  rw [prepareCall] at hfits ⊢
  rw [family]
  split_ifs at hfits ⊢ with hring hself hdef
  · rfl
  · obtain ⟨f, hf⟩ := Table.defines_iff.1 (hinside callee hself)
    have hargs := (hfits _ (mem_find?_prepared hf)).1
    simp only [value, mem_find?_prepared hf, hvalues hargs]
  · obtain ⟨f, hf⟩ := Table.defines_iff.1 hdef
    obtain ⟨hmem, rfl⟩ := Table.find?_eq_some_iff.1 hf
    obtain ⟨hargs, hbody⟩ := hfits _ (mem_find?_prepared hf)
    have hsolution : solution a.prepared depth (a.ready f) = a.solved enough f.name := by
      rw [solved_of_find? hf]
      exact solution_eq_of_fits (hbody (by simp)) (hsettled.fits f hmem hring)
    simp only [value, mem_find?_prepared hf, hvalues hargs]
    exact congrFun hsolution values
  · have hnone : a.table.find? callee = none := Table.find?_eq_none_iff.2 (by simpa using hdef)
    simp only [value, find?_prepared, hnone]
    rfl

/-- The value of a prepared expression is the meaning of the expression itself. -/
theorem value_prepare (hsettled : a.Settled enough) {inside : Option String}
    (hinside : ∀ name ∈ inside, a.table.defines name = true) {e : Expr} (he : e.Plain) {depth : Nat}
    (hfits : Fits a.prepared depth (a.prepare inside e)) (memo : Memo) (env : Env) :
    value a.prepared depth memo env (a.prepare inside e) =
      e.meaning (a.family inside memo (a.solved enough)) env := by
  have hall : ∀ (args : List Expr) (depth : Nat),
      (∀ b ∈ args, value a.prepared depth memo env (a.prepare inside b) =
        b.meaning (a.family inside memo (a.solved enough)) env) →
      (args.map (a.prepare inside)).map (value a.prepared depth memo env) =
        Expr.meaningAll (a.family inside memo (a.solved enough)) env args := by
    intro args depth h
    rw [List.map_map]
    exact Expr.map_eq_meaningAll h
  induction e generalizing depth with
  | const n =>
    obtain ⟨depth, rfl⟩ := hfits.exists_succ
    rfl
  | var x =>
    obtain ⟨depth, rfl⟩ := hfits.exists_succ
    rfl
  | cond test yes no ht hy hn =>
    obtain ⟨depth, rfl⟩ := hfits.exists_succ
    rw [Expr.Plain, Expr.forall_callSites_cond] at he
    rw [prepare_cond, value, Expr.meaning, ht he.1 hfits.1, hy he.2.1 hfits.2.1,
      hn he.2.2 hfits.2.2]
  | basic operator args ih =>
    obtain ⟨depth, rfl⟩ := hfits.exists_succ
    rw [Expr.Plain, Expr.forall_callSites_basic] at he
    rw [prepare_basic] at hfits ⊢
    rw [value, Expr.meaning]
    cases hop : Operator.ofName? operator with
    | none => rfl
    | some op =>
      have hargs := List.forall_mem_map.1 (hfits (by simp [hop]))
      simp only [hall args depth fun b hb => ih b hb (he b hb) (hargs b hb)]
  | call mode callee args ih =>
    rw [Expr.Plain, Expr.forall_callSites_call] at he
    obtain rfl : mode = .plain := he.1
    obtain ⟨depth, rfl⟩ := hfits.exists_succ
    rw [prepare_plain] at hfits ⊢
    rw [Expr.meaning]
    refine value_prepareCall hsettled hinside hfits fun hargs => ?_
    rw [List.forall_mem_map] at hargs
    exact hall args depth fun b hb => ih b hb (he.2 b hb) (hargs b hb)

/-- One step of the solver on a function outside the ring is the meaning of its body. -/
theorem functional_ready (h : a.Settled enough) {name : String} {f : Definition}
    (hf : a.table.find? name = some f) (hring : name ∉ a.ring) (n : Nat)
    (g : List Definedness → Definedness) (p : List Definedness) :
    functional a.prepared enough (a.ready f) p (Solver.known (Solver.points Definedness.all n) g) =
      f.body.meaning (a.family (some name) (Memo.ofPoints n g) (a.solved enough))
        (frame .zero f.params p) := by
  obtain ⟨hmem, rfl⟩ := Table.find?_eq_some_iff.1 hf
  have hinside : ∀ name ∈ some f.name, a.table.defines name = true := by
    rintro name ⟨⟩
    exact Table.defines_iff.2 ⟨f, hf⟩
  exact value_prepare h hinside (h.plain f hmem) (h.fits f hmem hring) (Memo.ofPoints n g) _

/-- A function outside the ring is a fixed point of its own body, where self-calls read the values
found for as many arguments as were passed, and all others come from the family. -/
theorem solved_fixed (h : a.Settled enough) {name : String} {f : Definition}
    (hf : a.table.find? name = some f) (hring : name ∉ a.ring) (args : List Definedness) :
    a.solved enough name args = f.body.meaning (a.family (some name)
        (Memo.ofPoints args.length (a.solved enough name)) (a.solved enough))
      (frame .zero f.params args) := by
  rw [solved_of_find? hf, solution_fixed]
  exact functional_ready h hf hring args.length _ args

/-- What is evaluated in an argument of a call is evaluated in the call, once they are prepared. -/
theorem live_prepare_of_argument {inside : Option String} {callee : String} {args : List Expr}
    (hring : callee ∉ a.ring) (hdef : a.table.defines callee = true) {b node : Expr} (hb : b ∈ args)
    (h : (a.prepare inside b).Live a.prepared node) :
    (a.prepare inside (.call .plain callee args)).Live a.prepared node := by
  obtain ⟨f, hf⟩ := Table.defines_iff.1 hdef
  have hopens : a.prepared.defines callee = true :=
    Table.defines_iff.2 ⟨a.ready f, mem_find?_prepared hf⟩
  rw [prepare_plain, prepareCall, if_neg hring, if_pos hdef]
  split_ifs <;> exact h.of_part hopens (.argument (List.mem_map_of_mem hb))

/-- The memo table stands for the function that is being solved, in expressions in which every
self-call that is evaluated has as many arguments as a key of the table. -/
theorem meaning_family_eq_verdict {name : String} (hdef : a.table.defines name = true)
    (hring : name ∉ a.ring) {count : Nat} {e : Expr} (he : e.Plain)
    (hself : ∀ callee args, (a.prepare (some name) e).Live a.prepared (.call .memo callee args) →
      args.length = count) (env : Env) :
    e.meaning (a.family (some name) (Memo.ofPoints count (a.solved enough name)) (a.solved enough))
      env = e.meaning (a.verdict enough) env := by
  induction e with
  | const n => rfl
  | var x => rfl
  | cond test yes no ht hy hn =>
    rw [Expr.Plain, Expr.forall_callSites_cond] at he
    rw [prepare_cond] at hself
    rw [Expr.meaning, Expr.meaning,
      ht he.1 fun callee args h => hself callee args (h.of_part trivial .test),
      hy he.2.1 fun callee args h => hself callee args (h.of_part trivial .yes),
      hn he.2.2 fun callee args h => hself callee args (h.of_part trivial .no)]
  | basic operator args ih =>
    rw [Expr.Plain, Expr.forall_callSites_basic] at he
    rw [prepare_basic] at hself
    rw [Expr.meaning, Expr.meaning]
    cases hop : Operator.ofName? operator with
    | none => rfl
    | some op =>
      have hopens : Operator.ofName? operator ≠ none := by simp [hop]
      have hargs := Expr.map_eq_meaningAll fun b hb => ih b hb (he b hb) fun callee args' h =>
        hself callee args' (h.of_part hopens (.operand (List.mem_map_of_mem hb)))
      rw [Expr.meaningAll_eq_map, hargs]
  | call mode callee args ih =>
    rw [Expr.Plain, Expr.forall_callSites_call] at he
    obtain rfl : mode = .plain := he.1
    rw [Expr.meaning, Expr.meaning]
    by_cases hcallee : callee ∈ a.ring
    · simp [verdict, family, hcallee]
    cases hdef' : a.table.defines callee with
    | false =>
      have hname : ¬ name = callee := by rintro rfl; simp [hdef] at hdef'
      simp [verdict, family, hcallee, hname, hdef']
    | true =>
      have hargs := Expr.map_eq_meaningAll fun b hb => ih b hb (he.2 b hb) fun callee' args' h =>
        hself callee' args' (live_prepare_of_argument hcallee hdef' hb h)
      rw [Expr.meaningAll_eq_map, hargs]
      by_cases hname : name = callee
      · subst hname
        have hlen : args.length = count := by
          have hmemo := hself name (args.map (a.prepare (some name)))
          rw [prepare_plain, prepareCall, if_neg hring, if_pos rfl, List.length_map] at hmemo
          exact hmemo .refl
        have hpoints := (Expr.length_meaningAll (a.verdict enough) env args).trans hlen
        rw [verdict_eq_solved hdef hring]
        simp [family, hring, Memo.ofPoints_apply, hpoints]
      · simp [verdict, family, hcallee, hname, hdef']

/-- Outside the ring the verdicts satisfy the equations of the program, at any number of arguments
that all self-calls share that are evaluated when the function is solved. -/
theorem verdict_eq_meaning (h : a.Settled enough) {name : String} {f : Definition}
    (hf : a.table.find? name = some f) (hring : name ∉ a.ring) {points : List Definedness}
    (hself : ∀ callee args, (a.ready f).body.Live a.prepared (.call .memo callee args) →
      args.length = points.length) :
    a.verdict enough name points =
      f.body.meaning (a.verdict enough) (frame .zero f.params points) := by
  obtain ⟨hmem, rfl⟩ := Table.find?_eq_some_iff.1 hf
  have hdef : a.table.defines f.name = true := Table.defines_iff.2 ⟨f, hf⟩
  rw [verdict_eq_solved hdef hring, solved_fixed h hf hring]
  exact meaning_family_eq_verdict hdef hring (h.plain f hmem) hself _

/-- A query answers the meaning of its expression under the verdicts. -/
theorem query_eq_meaning (h : a.Settled enough) {e : Expr} (he : e.Plain) {depth : Nat} {env : Env}
    {v : Definedness} (hquery : a.query depth env e = .ok v) :
    v = e.meaning (a.verdict enough) env := by
  obtain ⟨hfits, rfl⟩ := eval_eq_ok_iff.1 hquery
  exact value_prepare h (by simp) he hfits Memo.empty env

end Analysis

end StrictnessAnalysis
