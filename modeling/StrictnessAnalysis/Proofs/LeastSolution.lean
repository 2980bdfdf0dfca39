import Mathlib.Order.Bounds.Defs
import StrictnessAnalysis.Proofs.Soundness

/-! The least solution of a program's equations, taken for all functions at once, and what the
analysis finds by solving them one after the other. The verdicts solve the equations up to
approximation in the ring, so they are never below the least solution. A function that reaches no
member of the ring is not above it either: by induction along the calls, the other functions in its
body are already at the least solution, and so each round of the solver stays below it. -/

namespace StrictnessAnalysis

open Abstract

/-- The first family lies below the second, also at larger arguments. -/
def Family.Below (call call' : Family) : Prop :=
  ∀ name args args', List.Forall₂ (· ≤ ·) args args' → call name args ≤ call' name args'

theorem Family.Below.le {call call' : Family} (h : call.Below call') : call ≤ call' :=
  fun name args => h name args args (List.forall₂_same.2 fun _ _ => le_rfl)

theorem Family.Below.trans_le {call call' call'' : Family} (h : call.Below call')
    (hle : call' ≤ call'') : call.Below call'' :=
  fun name args args' hargs => (h name args args' hargs).trans (hle name args')

namespace Table

variable {t : Table} {call call' : Family}

/-- The right-hand sides of the equations. Each defined function has one at the lists of as many
arguments as it has parameters, and everything else is `zero`. -/
def equations (t : Table) (call : Family) : Family := fun name args =>
  match t.find? name with
  | none => .zero
  | some f =>
    if args.length = f.arity then f.body.meaning call (frame .zero f.params args) else .zero

theorem equations_of_find? {name : String} {f : Definition} (hf : t.find? name = some f)
    {args : List Definedness} (hargs : args.length = f.arity) (call : Family) :
    t.equations call name args = f.body.meaning call (frame .zero f.params args) := by
  simp only [equations, hf, if_pos hargs]

theorem equations_below (h : call.Below call') : (t.equations call).Below (t.equations call') := by
  intro name args args' hargs
  unfold equations
  cases t.find? name with
  | none => exact le_rfl
  | some f =>
    simp only [hargs.length_eq]
    split_ifs
    · exact Expr.meaning_le (fun c _ args args' _ => h c.callee args args')
        (frame_rel le_rfl f.params hargs)
    · exact le_rfl

open scoped Classical in
/-- The least solution of the equations: `one` wherever every family that the equations do not raise
is, there and at all larger arguments. -/
noncomputable def leastSolution (t : Table) : Family := fun name args =>
  if ∀ call, t.equations call ≤ call → ∀ args', List.Forall₂ (· ≤ ·) args args' →
    call name args' = .one then .one else .zero

theorem leastSolution_eq_one {name : String} {args : List Definedness} :
    t.leastSolution name args = .one ↔ ∀ call, t.equations call ≤ call →
      ∀ args', List.Forall₂ (· ≤ ·) args args' → call name args' = .one := by
  unfold leastSolution
  split_ifs with h
  · exact ⟨fun _ => h, fun _ => rfl⟩
  · exact ⟨nofun, fun h' => absurd h' h⟩

theorem leastSolution_below (h : t.equations call ≤ call) : t.leastSolution.Below call :=
  fun _ _ args' hargs => Definedness.le_iff.2 fun hone =>
    leastSolution_eq_one.1 hone call h args' hargs

theorem below_leastSolution (h : ∀ call', t.equations call' ≤ call' → call.Below call') :
    call.Below t.leastSolution := by
  intro name args args' hargs
  refine Definedness.le_iff.2 fun hone => leastSolution_eq_one.2 ?_
  intro call' hcall' args'' hargs'
  have hle := h call' hcall' name args args'' (Definedness.forall₂_le_trans hargs hargs')
  exact Definedness.le_iff.1 hle hone

/-- The least solution is monotone in the arguments. -/
theorem leastSolution_below_self (t : Table) : t.leastSolution.Below t.leastSolution :=
  below_leastSolution fun _ h => leastSolution_below h

theorem equations_leastSolution (t : Table) : t.equations t.leastSolution = t.leastSolution := by
  have hdown : (t.equations t.leastSolution).Below t.leastSolution :=
    below_leastSolution fun call h => (equations_below (leastSolution_below h)).trans_le h
  refine le_antisymm hdown.le ?_
  exact (leastSolution_below (equations_below hdown).le).le

theorem isLeast_leastSolution (t : Table) :
    IsLeast {call | t.equations call = call} t.leastSolution :=
  ⟨equations_leastSolution t, fun _ h => (leastSolution_below (le_of_eq h)).le⟩

end Table

namespace Analysis

/-- The equations do not raise the verdicts: in the ring these are `one`. -/
theorem equations_verdict_le {a : Analysis} {enough : Nat} (h : a.Settled enough)
    (hexact : ∀ f ∈ a.table.entries, a.table.Exact f.body) :
    a.table.equations (a.verdict enough) ≤ a.verdict enough := by
  intro name args
  unfold Table.equations
  cases hf : a.table.find? name with
  | none => exact Definedness.zero_le _
  | some f =>
    by_cases hargs : args.length = f.arity
    · simp only [if_pos hargs]
      by_cases hring : name ∈ a.ring
      · have hone : a.verdict enough name args = .one := if_pos hring
        rw [hone]
        exact Definedness.le_one _
      · exact (verdict_eq_meaning_of_exact h hexact hf hring hargs).ge
    · simp only [if_neg hargs]
      exact Definedness.zero_le _

section

variable {t : Table} {enough : Nat}

/-- A round that starts at the least solution stays below it, if no call of the function leads into
the ring and the other functions that it calls are at most the least solution. -/
theorem functional_le_leastSolution (h : (ofTable t).Settled enough) {name : String}
    {f : Definition} (hf : t.find? name = some f) (hring : name ∉ (ofTable t).ring)
    (hapart : ∀ c ∈ f.body.callSites, c.callee ∉ (ofTable t).ring)
    (hothers : ∀ c ∈ f.body.callSites, c.callee ≠ name → t.defines c.callee = true →
      ∀ args : List Definedness, args.length = c.count →
        (ofTable t).solved enough c.callee args ≤ t.leastSolution c.callee args)
    {p : List Definedness} (hp : p.length = f.arity) :
    functional (ofTable t).prepared enough ((ofTable t).ready f) p
        (Solver.known (Solver.points Definedness.all p.length) (t.leastSolution name)) ≤
      t.leastSolution name p := by
  have hfixed : t.leastSolution name p =
      f.body.meaning t.leastSolution (frame .zero f.params p) := by
    rw [← Table.equations_of_find? hf hp, Table.equations_leastSolution]
  rw [functional_ready h hf hring, hfixed]
  refine Expr.meaning_le (fun c hc args args' hargs hle => ?_) fun _ => le_rfl
  have hself := Table.leastSolution_below_self t c.callee args args' hle
  rw [family, if_neg (hapart c hc)]
  split_ifs with hname hdef
  · obtain rfl : name = c.callee := by simpa using hname
    rw [Memo.ofPoints_apply]
    split_ifs
    · exact hself
    · exact Definedness.zero_le _
  · exact (hothers c hc (fun e => hname (by rw [e])) hdef args hargs).trans hself
  · exact Definedness.zero_le _

/-- A function outside the ring that reaches no member of it is at most the least solution. -/
theorem solved_le_leastSolution (h : (ofTable t).Settled enough)
    (hexact : ∀ f ∈ t.entries, t.Exact f.body) :
    ∀ name, t.defines name = true → name ∉ (ofTable t).ring →
      (∀ r ∈ (ofTable t).ring, ¬ (CallGraph.ofTable t).Reaches name r) →
      ∀ f ∈ t.find? name, ∀ args : List Definedness, args.length = f.arity →
        (ofTable t).solved enough name args ≤ t.leastSolution name args := by
  refine induction_calls fun name f hf hring ih => ?_
  intro hapart
  rw [hf]
  rintro g ⟨⟩ args hargs
  have hcalls : ∀ c ∈ f.body.callSites, t.defines c.callee = true →
      (CallGraph.ofTable t).Calls name c.callee := fun c hc => CallGraph.calls_of_callSite hf hc
  have hsites : ∀ c ∈ f.body.callSites, c.callee ∉ (ofTable t).ring := by
    intro c hc hmem
    exact hapart c.callee hmem (.of_calls (hcalls c hc (defines_of_mem_ring hmem)))
  have hothers : ∀ c ∈ f.body.callSites, c.callee ≠ name → t.defines c.callee = true →
      ∀ values : List Definedness, values.length = c.count →
        (ofTable t).solved enough c.callee values ≤ t.leastSolution c.callee values := by
    intro c hc hne hdef values hvalues
    obtain ⟨k, hk⟩ := Table.defines_iff.1 hdef
    have hcall := hcalls c hc hdef
    refine ih c.callee hcall hne (hsites c hc) (fun r hr hreach => ?_) k hk values ?_
    · exact hapart r hr (.trans (.of_calls hcall) hreach)
    · rw [hvalues, hexact f (Table.find?_eq_some_iff.1 hf).1 c hc k hk]
  have hascending := (monotoneAt (ofTable t).prepared enough).ascending ((ofTable t).ready f)
    args.length
  rw [solved_of_find? hf]
  refine hascending.approximation_le (fun p _ => Definedness.mem_all _) (fun p hp => ?_) _ args
    (mem_points_all.2 rfl)
  have hlen : p.length = args.length := mem_points_all.1 hp
  have hround := functional_le_leastSolution h hf hring hsites hothers (hlen.trans hargs)
  rwa [hlen] at hround

end

/-- Solving function by function finds the least solution of all equations together. From some depth
on, every prepared function outside the ring has a value that stays the same; it is at least the
least solution, and equal to it if the function reaches no member of the ring. -/
theorem solve_eq_leastSolution (defs : List Definition)
    (hplain : ∀ f ∈ (Table.ofList defs).entries, f.body.Plain)
    (hexact : ∀ f ∈ (Table.ofList defs).entries, (Table.ofList defs).Exact f.body) :
    IsLeast {call | (Table.ofList defs).equations call = call} (Table.ofList defs).leastSolution ∧
    ∃ enough, ∀ g ∈ (ofTable (Table.ofList defs)).prepared.entries,
      g.name ∉ (ofTable (Table.ofList defs)).ring →
      ∀ args : List Definedness, args.length = g.arity →
        ∃ v, (∀ depth ≥ enough, solve (ofTable (Table.ofList defs)).prepared depth g args = .ok v) ∧
          (Table.ofList defs).leastSolution g.name args ≤ v ∧
          ((∀ r ∈ (ofTable (Table.ofList defs)).ring,
              ¬ (CallGraph.ofTable (Table.ofList defs)).Reaches g.name r) →
            v = (Table.ofList defs).leastSolution g.name args) := by
  obtain ⟨enough, hsettled⟩ := exists_settled hplain
  refine ⟨Table.isLeast_leastSolution _, enough, fun g hg hring args hargs => ?_⟩
  obtain ⟨f, hf, rfl⟩ := List.mem_map.1 hg
  have hfind : (Table.ofList defs).find? f.name = some f := Table.find?_of_mem hf
  have hdef : (Table.ofList defs).defines f.name = true := Table.defines_iff.2 ⟨f, hfind⟩
  have hfits := hsettled.fits f hf hring
  have hverdict : (ofTable (Table.ofList defs)).verdict enough f.name =
      (ofTable (Table.ofList defs)).solved enough f.name := verdict_eq_solved hdef hring enough
  have hlow : (Table.ofList defs).leastSolution f.name args ≤
      (ofTable (Table.ofList defs)).solved enough f.name args := by
    rw [← hverdict]
    exact (Table.leastSolution_below (equations_verdict_le hsettled hexact)).le f.name args
  refine ⟨(ofTable (Table.ofList defs)).solved enough f.name args, fun depth hdepth => ?_, hlow,
    fun hapart => ?_⟩
  · rw [solved_of_find? hfind, ← solution_eq_of_fits (hfits.mono hdepth) hfits]
    exact solve_eq_ok_iff.2 ⟨hfits.mono hdepth, rfl⟩
  · exact le_antisymm
      (solved_le_leastSolution hsettled hexact f.name hdef hring hapart f hfind args hargs) hlow

theorem accumulating_solved :
    ∃ enough v, (∀ depth ≥ enough, solve (ofTable (Table.ofList accumulating)).prepared depth
        ((ofTable (Table.ofList accumulating)).ready accumulate) [.one, .zero] = .ok v) ∧
      v = (Table.ofList accumulating).leastSolution "sum" [.one, .zero] := by
  have hcalls : ∀ h ∈ (CallGraph.ofTable (Table.ofList accumulating)).callees "sum", h = "sum" := by
    decide
  have hreaches : ∀ h, (CallGraph.ofTable (Table.ofList accumulating)).Reaches "sum" h →
      h = "sum" := by
    intro h hreach
    induction hreach with
    | refl => rfl
    | tail _ hcall ih =>
      subst ih
      exact hcalls _ hcall
  have hring : "sum" ∉ (ofTable (Table.ofList accumulating)).ring := by decide
  obtain ⟨enough, hall⟩ := (solve_eq_leastSolution accumulating (by decide) (by decide)).2
  obtain ⟨v, hv, -, heq⟩ := hall ((ofTable (Table.ofList accumulating)).ready accumulate)
    (by decide) hring [.one, .zero] rfl
  exact ⟨enough, v, hv, heq fun r hr hreach => hring (hreaches r hreach ▸ hr)⟩

end Analysis

end StrictnessAnalysis
