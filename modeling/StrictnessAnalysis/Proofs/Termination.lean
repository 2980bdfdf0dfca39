import StrictnessAnalysis.Proofs.Evaluation
import StrictnessAnalysis.Proofs.Ring

/-! The analysis of a program of plain calls always ends with a value. Once prepared, a body reads
its own results from the memo table and loses its calls into the ring; the solved calls that remain
go down in the call graph. So there is a depth that suffices for all functions outside the ring and
for any expression that calls them, whatever the environment, and the solver never runs out of
rounds on the way. -/

namespace StrictnessAnalysis.Analysis

open Abstract

/-! ### Prepared programs -/

section Prepare

variable (a : Analysis) (inside : Option String)

@[simp] theorem prepare_const (n : Int) : a.prepare inside (.const n) = .const n := rfl

@[simp] theorem prepare_var (x : String) : a.prepare inside (.var x) = .var x := rfl

@[simp] theorem prepare_cond (test yes no : Expr) : a.prepare inside (.cond test yes no) =
    .cond (a.prepare inside test) (a.prepare inside yes) (a.prepare inside no) := rfl

@[simp] theorem prepare_basic (operator : String) (args : List Expr) :
    a.prepare inside (.basic operator args) = .basic operator (args.map (a.prepare inside)) :=
  Expr.mapCalls_basic _ operator args

@[simp] theorem prepare_plain (callee : String) (args : List Expr) :
    a.prepare inside (.call .plain callee args) =
      a.prepareCall inside callee (args.map (a.prepare inside)) :=
  Expr.mapCalls_plain _ callee args

end Prepare

/-- A definition with its body prepared. -/
abbrev ready (a : Analysis) (f : Definition) : Definition := f.mapBody (a.prepare (some f.name))

theorem find?_prepared (a : Analysis) (name : String) :
    a.prepared.find? name = (a.table.find? name).map a.ready :=
  Table.find?_mapBodies a.table _ name

theorem mem_find?_prepared {a : Analysis} {name : String} {f : Definition}
    (h : a.table.find? name = some f) : a.prepared.find? name = some (a.ready f) := by
  rw [find?_prepared, h]
  rfl

/-- Some depth suffices for the prepared form of an expression of plain calls, if some depth
suffices for each function that it still calls. -/
theorem exists_fits_prepare {a : Analysis} {inside : Option String} {e : Expr} (he : e.Plain)
    (hcallees : ∀ c ∈ e.callSites, c.callee ∉ a.ring → inside ≠ some c.callee →
      ∀ f ∈ a.table.find? c.callee, ∃ depth, Fits a.prepared depth (a.ready f).body) :
    ∃ depth, Fits a.prepared depth (a.prepare inside e) := by
  induction e with
  | const n => exact ⟨1, trivial⟩
  | var x => exact ⟨1, trivial⟩
  | cond test yes no ht hy hn =>
    rw [Expr.Plain, Expr.forall_callSites_cond] at he
    rw [Expr.forall_callSites_cond] at hcallees
    obtain ⟨d₁, h₁⟩ := ht he.1 hcallees.1
    obtain ⟨d₂, h₂⟩ := hy he.2.1 hcallees.2.1
    obtain ⟨d₃, h₃⟩ := hn he.2.2 hcallees.2.2
    exact ⟨max d₁ (max d₂ d₃) + 1, h₁.mono (by omega), h₂.mono (by omega), h₃.mono (by omega)⟩
  | basic operator args ih =>
    rw [Expr.Plain, Expr.forall_callSites_basic] at he
    rw [Expr.forall_callSites_basic] at hcallees
    obtain ⟨d, hd⟩ : ∃ d, ∀ e ∈ args.map (a.prepare inside), Fits a.prepared d e :=
      exists_forall_fits (by simpa using fun b hb => ih b hb (he b hb) (hcallees b hb))
    rw [prepare_basic]
    exact ⟨d + 1, fun _ => hd⟩
  | call mode callee args ih =>
    rw [Expr.Plain, Expr.forall_callSites_call] at he
    rw [Expr.forall_callSites_call] at hcallees
    obtain ⟨d, hd⟩ : ∃ d, ∀ e ∈ args.map (a.prepare inside), Fits a.prepared d e :=
      exists_forall_fits (by simpa using fun b hb => ih b hb (he.2 b hb) (hcallees.2 b hb))
    obtain rfl : mode = .plain := he.1
    rw [prepare_plain, prepareCall]
    split_ifs with hring hself hdef
    · exact ⟨1, trivial⟩
    · exact ⟨d + 1, fun f _ => ⟨hd, fun hmode => absurd rfl hmode⟩⟩
    · obtain ⟨f, hf⟩ := Table.defines_iff.1 hdef
      obtain ⟨d', hd'⟩ := hcallees.1 hring hself f hf
      refine ⟨max d d' + 1, fun g hg => ?_⟩
      rw [mem_find?_prepared hf, Option.mem_some_iff] at hg
      subst hg
      exact ⟨fun b hb => (hd b hb).mono (by omega), fun _ => hd'.mono (by omega)⟩
    · have hnone : a.table.find? callee = none := Table.find?_eq_none_iff.2 (by simpa using hdef)
      refine ⟨1, fun g hg => ?_⟩
      rw [find?_prepared, hnone] at hg
      simp at hg

/-! ### A depth for the whole program -/

/-- The program consists of plain calls, and the depth suffices for every function outside the
ring. -/
structure Settled (a : Analysis) (depth : Nat) : Prop where
  plain : ∀ f ∈ a.table.entries, f.body.Plain
  fits : ∀ f ∈ a.table.entries, f.name ∉ a.ring → Fits a.prepared depth (a.ready f).body

theorem exists_settled {t : Table} (h : ∀ f ∈ t.entries, f.body.Plain) :
    ∃ depth, (ofTable t).Settled depth := by
  have hall : ∀ name, t.defines name = true → name ∉ (ofTable t).ring →
      ∀ f ∈ t.find? name, ∃ depth, Fits (ofTable t).prepared depth ((ofTable t).ready f).body := by
    refine induction_calls fun name f hf _ ih => ?_
    rw [hf]
    rintro g ⟨⟩
    obtain ⟨hmem, rfl⟩ := Table.find?_eq_some_iff.1 hf
    refine exists_fits_prepare (h f hmem) fun c hc hring hself k hk => ?_
    have hcall : (CallGraph.ofTable t).Calls f.name c.callee :=
      CallGraph.calls_of_callSite hf hc (Table.defines_iff.2 ⟨k, hk⟩)
    exact ih c.callee hcall (fun e => hself (by rw [e])) hring k hk
  obtain ⟨depth, hdepth⟩ := @exists_forall_fits (ofTable t).prepared
    ((t.entries.filter fun f => f.name ∉ (ofTable t).ring).map fun f => ((ofTable t).ready f).body)
    (by
      simp only [List.forall_mem_map, List.mem_filter, decide_eq_true_eq]
      rintro f ⟨hf, hring⟩
      have hfind := Table.find?_of_mem hf
      exact hall f.name (Table.defines_iff.2 ⟨f, hfind⟩) hring f hfind)
  simp only [List.forall_mem_map, List.mem_filter, decide_eq_true_eq] at hdepth
  exact ⟨depth, h, fun f hf hring => hdepth f ⟨hf, hring⟩⟩

theorem Settled.mono {a : Analysis} {depth depth' : Nat} (h : a.Settled depth)
    (hle : depth ≤ depth') : a.Settled depth' :=
  ⟨h.plain, fun f hf hring => (h.fits f hf hring).mono hle⟩

/-! ### Outcomes of the analysis -/

theorem strictness_of_ring {a : Analysis} {f : Definition} (h : f.name ∈ a.ring) (depth : Nat) :
    a.strictness depth f = .ok (List.replicate f.arity false) := if_pos h

theorem strictness_of_fits {a : Analysis} {f : Definition} {depth : Nat} (hring : f.name ∉ a.ring)
    (h : Fits a.prepared depth (a.ready f).body) :
    a.strictness depth f = .ok ((List.range f.arity).map fun i =>
      decide (solution a.prepared depth (a.ready f) (probe f.arity i) = .zero)) := by
  rw [strictness, if_neg hring]
  refine mapM_eq_pure fun i _ => ?_
  rw [(solve_eq_ok_iff.2 ⟨h, rfl⟩ : solve _ _ (a.ready f) (probe f.arity i) = _)]
  rfl

/-- From a depth on that suffices for all functions, the strictness of each stays the same. -/
theorem Settled.exists_strictness {a : Analysis} {enough : Nat} (h : a.Settled enough)
    {f : Definition} (hf : f ∈ a.table.entries) :
    ∃ strict : List Bool, strict.length = f.arity ∧
      ∀ depth ≥ enough, a.strictness depth f = .ok strict := by
  by_cases hring : f.name ∈ a.ring
  · exact ⟨_, List.length_replicate, fun depth _ => strictness_of_ring hring depth⟩
  · have hfits := h.fits f hf hring
    refine ⟨(List.range f.arity).map fun i =>
      decide (solution a.prepared enough (a.ready f) (probe f.arity i) = .zero), by simp,
      fun depth hdepth => ?_⟩
    rw [strictness_of_fits hring (hfits.mono hdepth),
      solution_eq_of_fits (hfits.mono hdepth) hfits]

/-- From some depth on, the value of an expression stays the same. -/
theorem Settled.exists_query {a : Analysis} {enough : Nat} (h : a.Settled enough) {e : Expr}
    (he : e.Plain) : ∃ enough', ∀ env, ∃ v, ∀ depth ≥ enough', a.query depth env e = .ok v := by
  obtain ⟨enough', hfits⟩ : ∃ depth, Fits a.prepared depth (a.prepare none e) := by
    refine exists_fits_prepare he fun c _ hring _ f hf => ⟨enough, ?_⟩
    obtain ⟨hmem, hname⟩ := Table.find?_eq_some_iff.1 hf
    exact h.fits f hmem (hname ▸ hring)
  exact ⟨enough', fun env => ⟨_, fun depth hdepth =>
    eval_eq_ok_iff.2 ⟨hfits.mono hdepth, value_of_le hfits hdepth Memo.empty env⟩⟩⟩

theorem strictness_eq_error {a : Analysis} {f : Definition} {depth : Nat} {failure : Failure}
    (h : a.strictness depth f = .error failure) : failure = .tooDeep := by
  rw [strictness] at h
  split_ifs at h
  obtain ⟨i, -, hi⟩ := exists_of_mapM_error h
  rcases bind_eq_error_iff.1 hi with hsolve | ⟨v, -, hi⟩
  · exact solve_eq_error hsolve
  · simp [pure, Except.pure] at hi

theorem query_eq_error {a : Analysis} {depth : Nat} {env : Env} {e : Expr} {failure : Failure}
    (h : a.query depth env e = .error failure) : failure = .tooDeep :=
  eval_eq_error h

/-- The analysis of plain calls ends with a value. The search for components is never cut short;
there is a depth, the same for all environments, from which on the strictness of every function and
the value of the expression are found and stay the same; and at any depth, the only other outcome is
running out of it. -/
theorem finishes_on_plain_calls (defs : List Definition) (e : Expr)
    (hdefs : ∀ f ∈ (Table.ofList defs).entries, f.body.Plain) (he : e.Plain) :
    (∀ fuel ≥ (CallGraph.ofTable (Table.ofList defs)).length,
      (CallGraph.ofTable (Table.ofList defs)).componentsWithin fuel =
        (CallGraph.ofTable (Table.ofList defs)).components) ∧
    (∃ enough,
      (∀ f ∈ (Table.ofList defs).entries, ∃ strict : List Bool, strict.length = f.arity ∧
        ∀ depth ≥ enough, (ofTable (Table.ofList defs)).strictness depth f = .ok strict) ∧
      ∀ env, ∃ v, ∀ depth ≥ enough, (ofTable (Table.ofList defs)).query depth env e = .ok v) ∧
    ∀ depth failure,
      (∀ f ∈ (Table.ofList defs).entries,
        (ofTable (Table.ofList defs)).strictness depth f = .error failure → failure = .tooDeep) ∧
      ∀ env, (ofTable (Table.ofList defs)).query depth env e = .error failure →
        failure = .tooDeep := by
  obtain ⟨depth₁, hsettled⟩ := exists_settled hdefs
  obtain ⟨depth₂, hquery⟩ := hsettled.exists_query he
  refine ⟨fun fuel hfuel => CallGraph.componentsWithin_eq (CallGraph.closed_ofTable _) hfuel,
    ⟨max depth₁ depth₂, fun f hf => ?_, fun env => ?_⟩,
    fun depth failure => ⟨fun f _ => strictness_eq_error, fun env => query_eq_error⟩⟩
  · exact (hsettled.mono (Nat.le_max_left depth₁ depth₂)).exists_strictness hf
  · obtain ⟨v, hv⟩ := hquery env
    exact ⟨v, fun depth hdepth => hv depth (le_trans (Nat.le_max_right depth₁ depth₂) hdepth)⟩

/-- A function that never returns and two that call each other, with a call of one of them in a
self-call's argument. -/
def spinning : List Definition :=
  [⟨"spin", ["n"], .call .plain "spin" [.call .plain "even" [.var "n"]]⟩,
    ⟨"even", ["n"], .cond (.var "n") (.call .plain "odd" [.var "n", .var "n"]) (.const 1)⟩,
    ⟨"odd", ["n"], .cond (.var "n") (.call .plain "even" []) (.const 0)⟩]

theorem spinning_finishes :
    (∀ f ∈ (Table.ofList spinning).entries, f.body.Plain) ∧
    ∃ enough, ∀ env, ∃ v, ∀ depth ≥ enough,
      (ofTable (Table.ofList spinning)).query depth env
        (.call .plain "spin" [.var "x"]) = .ok v := by
  have hdefs : ∀ f ∈ (Table.ofList spinning).entries, f.body.Plain := by decide
  obtain ⟨enough, -, h⟩ :=
    (finishes_on_plain_calls spinning (.call .plain "spin" [.var "x"]) hdefs (by decide)).2.1
  exact ⟨hdefs, enough, h⟩

end StrictnessAnalysis.Analysis
