import StrictnessAnalysis.Proofs.Soundness

/-! What the strictness of a function promises. The memo table of a function that is being solved
has keys of one length, the number of arguments it is solved for, and a self-call with any other
number reads `zero`, whatever the function does there. As long as no such self-call is met, the
verdicts account for all runs, and a function has no value when an argument in which it is strict
has none. -/

namespace StrictnessAnalysis.Analysis

open Abstract

variable {a : Analysis} {f : Definition} {enough : Nat}

/-- What the solver is run on when the strictness of a function is found: names with a number of
arguments. From the body of one that is solved, it is run on the calls that are left to be solved
where evaluation gets to them. -/
inductive Solves (a : Analysis) (f : Definition) : String → Nat → Prop
  | root : f.name ∉ a.ring → Solves a f f.name f.arity
  | call {name callee : String} {count : Nat} {g : Definition} {args : List Expr} :
    Solves a f name count → a.prepared.find? name = some g →
    g.body.Live a.prepared (.call .solved callee args) → Solves a f callee args.length

/-- Every self-call that is met passes as many arguments as its function is solved for. -/
def Steady (a : Analysis) (f : Definition) : Prop :=
  ∀ name count g, a.Solves f name count → a.prepared.find? name = some g →
    ∀ callee args, g.body.Live a.prepared (.call .memo callee args) → args.length = count

/-- A finite account of what is solved shows that all self-calls are steady. -/
theorem steady_of_closed (shapes : List (String × Nat)) (hroot : (f.name, f.arity) ∈ shapes)
    (hclosed : ∀ s ∈ shapes, ∀ g ∈ a.prepared.find? s.1, ∀ callee args,
      (g.body.Live a.prepared (.call .memo callee args) → args.length = s.2) ∧
      (g.body.Live a.prepared (.call .solved callee args) → (callee, args.length) ∈ shapes)) :
    a.Steady f := by
  have hmem : ∀ name count, a.Solves f name count → (name, count) ∈ shapes := by
    intro name count h
    induction h with
    | root => exact hroot
    | call _ hg hlive ih => exact (hclosed _ ih _ hg _ _).2 hlive
  intro name count g hsolves hg callee args
  exact (hclosed _ (hmem name count hsolves) g hg callee args).1

/-- The expression, of plain calls, is met in the body of a function that is solved. -/
def Met (a : Analysis) (f : Definition) (e : Expr) : Prop :=
  e.Plain ∧ ∃ name count g, a.Solves f name count ∧ a.table.find? name = some g ∧
    (a.ready g).body.Live a.prepared (a.prepare (some name) e)

/-- A part is met with the whole, if evaluation gets to it once both are prepared. -/
theorem Met.of_live {e part : Expr} (h : a.Met f e) (hpart : part.Plain)
    (hlive : ∀ inside, (a.prepare inside e).Live a.prepared (a.prepare inside part)) :
    a.Met f part := by
  obtain ⟨-, name, count, g, hsolves, hg, he⟩ := h
  exact ⟨hpart, name, count, g, hsolves, hg, he.trans (hlive (some name))⟩

/-- The body of a function that is solved is met. -/
theorem Solves.met_body (h : a.Settled enough) {name : String} {count : Nat} {g : Definition}
    (hsolves : a.Solves f name count) (hg : a.table.find? name = some g) : a.Met f g.body := by
  obtain ⟨hmem, rfl⟩ := Table.find?_eq_some_iff.1 hg
  exact ⟨h.plain g hmem, g.name, count, g, hsolves, hg, .refl⟩

namespace Steady

/-- A function outside the ring is solved for as many arguments as a call of it passes, whether the
call reads the memo table or is solved in its own right. -/
theorem solves_callee (hsteady : a.Steady f) {callee : String} {args : List Expr}
    (hmet : a.Met f (.call .plain callee args)) (hring : callee ∉ a.ring)
    (hdef : a.table.defines callee = true) : a.Solves f callee args.length := by
  obtain ⟨-, name, count, g, hsolves, hg, hlive⟩ := hmet
  rw [prepare_plain, prepareCall, if_neg hring, if_pos hdef] at hlive
  split_ifs at hlive with hself
  · cases hself
    have hlen := hsteady callee count _ hsolves (mem_find?_prepared hg) callee _ hlive
    rwa [← hlen, List.length_map] at hsolves
  · have hcallee := hsolves.call (mem_find?_prepared hg) hlive
    rwa [List.length_map] at hcallee

/-- The verdict about a function lies above the meaning of its body, for as many arguments as it is
solved for. -/
theorem meaning_le_verdict (hsteady : a.Steady f) (h : a.Settled enough) {name : String}
    {g : Definition} {points : List Definedness} (hsolves : a.Solves f name points.length)
    (hg : a.table.find? name = some g) (hring : name ∉ a.ring) :
    g.body.meaning (a.verdict enough) (frame .zero g.params points) ≤
      a.verdict enough name points :=
  (verdict_eq_meaning h hg hring (hsteady name _ _ hsolves (mem_find?_prepared hg))).ge

/-- The verdicts account for everything that is met. -/
theorem verdict_accounts (hsteady : a.Steady f) (h : a.Settled enough) :
    (a.verdict enough).Accounts a.table (a.Met f) where
  cond hmet := by
    have hplain := Expr.forall_callSites_cond.1 hmet.1
    exact ⟨hmet.of_live hplain.1 fun _ => Expr.Live.refl.of_part trivial .test,
      hmet.of_live hplain.2.1 fun _ => Expr.Live.refl.of_part trivial .yes,
      hmet.of_live hplain.2.2 fun _ => Expr.Live.refl.of_part trivial .no⟩
  basic hmet hop b hb := by
    refine hmet.of_live (Expr.forall_callSites_basic.1 hmet.1 b hb) fun inside => ?_
    rw [prepare_basic]
    exact Expr.Live.refl.of_part hop (.operand (List.mem_map_of_mem hb))
  call {mode callee args g} hmet hg := by
    obtain ⟨hmode, hplain⟩ := Expr.forall_callSites_call.1 hmet.1
    obtain rfl : mode = .plain := hmode
    by_cases hring : callee ∈ a.ring
    · exact .inl fun points _ => if_pos hring
    · have hdef : a.table.defines callee = true := Table.defines_iff.2 ⟨g, hg⟩
      have hsolves := hsteady.solves_callee hmet hring hdef
      refine .inr ⟨fun b hb => ?_, hsolves.met_body h hg, fun points hpoints => ?_⟩
      · exact hmet.of_live (hplain b hb) fun _ => live_prepare_of_argument hring hdef hb .refl
      · exact hsteady.meaning_le_verdict h (hpoints ▸ hsolves) hg hring

end Steady

/-- A probe describes arguments that are undefined at its position. -/
theorem describes_probe {args : List (Option Int)} {arity i : Nat} (hlen : args.length = arity)
    (hi : args[i]? = some none) : List.Forall₂ Definedness.Describes args (probe arity i) := by
  rw [List.forall₂_iff_get]
  refine ⟨by simp [probe, hlen], fun j hj hj' => ?_⟩
  by_cases hji : j = i
  · subst hji
    have hnone : args[j] = none := by simpa [List.getElem?_eq_getElem hj] using hi
    rw [List.get_eq_getElem, hnone]
    exact Definedness.describes_none _
  · have hone : (probe arity i).get ⟨j, hj'⟩ = .one := by simp [probe, hji]
    rw [hone]
    exact Definedness.le_one _

/-- Where a function is strict, its verdict at the probe is `zero`. -/
theorem verdict_probe_eq_zero (h : a.Settled enough) (hf : f ∈ a.table.entries) {depth : Nat}
    {strict : List Bool} (hstrict : a.strictness depth f = .ok strict) {i : Nat}
    (hi : strict[i]? = some true) :
    a.verdict enough f.name (probe f.arity i) = .zero := by
  by_cases hring : f.name ∈ a.ring
  · rw [strictness_of_ring hring] at hstrict
    obtain rfl : List.replicate f.arity false = strict := by simpa using hstrict
    simp [List.getElem?_replicate] at hi
  · rw [strictness, if_neg hring] at hstrict
    obtain ⟨hlen, hall⟩ := List.forall₂_iff_get.1 (forall₂_of_mapM_ok hstrict)
    obtain ⟨hlt, htrue⟩ := List.getElem?_eq_some_iff.1 hi
    obtain ⟨v, hv, hanswer⟩ := bind_eq_ok_iff.1 (hall i (hlen ▸ hlt) hlt)
    obtain ⟨hfits, rfl⟩ := solve_eq_ok_iff.1 hv
    have hzero : solution a.prepared depth (a.ready f) (probe f.arity i) = .zero := by
      simpa [pure, Except.pure, htrue] using hanswer
    have hfind := Table.find?_of_mem hf
    rw [verdict_eq_solved (Table.defines_iff.2 ⟨f, hfind⟩) hring, solved_of_find? hfind,
      solution_eq_of_fits (h.fits f hf hring) hfits, hzero]

/-- A function has no value when an argument in which it is strict has none, whatever the number of
arguments at its calls, provided that the self-calls met when it is solved are steady. -/
theorem apply_ne_some_of_strict (defs : List Definition)
    (hplain : ∀ f ∈ (Table.ofList defs).entries, f.body.Plain)
    {f : Definition} (hf : f ∈ (Table.ofList defs).entries)
    (hsteady : (ofTable (Table.ofList defs)).Steady f) {depth : Nat} {strict : List Bool}
    (hstrict : (ofTable (Table.ofList defs)).strictness depth f = .ok strict) {i : Nat}
    (hi : strict[i]? = some true) {args : List (Option Int)} (hlen : args.length = f.arity)
    (hargs : args[i]? = some none) (depth' : Nat) (n : Int) :
    Standard.apply (Table.ofList defs) depth' f args ≠ .ok (some n) := by
  intro hrun
  obtain ⟨enough, hsettled⟩ := exists_settled hplain
  have hzero := verdict_probe_eq_zero hsettled hf hstrict hi
  have hfind : (ofTable (Table.ofList defs)).table.find? f.name = some f := Table.find?_of_mem hf
  by_cases hring : f.name ∈ (ofTable (Table.ofList defs)).ring
  · simp [verdict, family, hring] at hzero
  · have hprobe : (probe f.arity i).length = f.arity := by simp [probe]
    have hsolves : (ofTable (Table.ofList defs)).Solves f f.name (probe f.arity i).length := by
      rw [hprobe]
      exact .root hring
    have hle := hsteady.meaning_le_verdict hsettled hsolves hfind hring
    have henv := frame_rel (Definedness.describes_none .zero) f.params (describes_probe hlen hargs)
    rw [hzero, (hsteady.verdict_accounts hsettled).meaning_eq_one (hsolves.met_body hsettled hfind)
      henv hrun] at hle
    cases hle

/-- A race that ends in a function of one parameter, which is always called with two arguments, the
second of them from two functions that call each other. Self-calls of other lengths stand in
arguments that are never evaluated. -/
def race : Definition :=
  ⟨"race", ["x", "y"], .cond (.var "x")
    (.call .plain "race" [.basic "sub" [.var "x", .const 1], .var "y"])
    (.call .plain "halt" [.var "y", .call .plain "ping" [.call .plain "race" []]])⟩

def racing : List Definition :=
  [⟨"halt", ["n"], .cond (.var "n")
      (.call .plain "halt" [.basic "sub" [.var "n", .const 1], .const 7])
      (.cond (.const 1) (.const 1) (.call .plain "nowhere" [.call .plain "halt" []]))⟩,
    ⟨"ping", ["n"], .call .plain "pong" []⟩, ⟨"pong", ["n"], .call .plain "ping" []⟩, race]

theorem steady_race : (ofTable (Table.ofList racing)).Steady race := by
  have hrace : (ofTable (Table.ofList racing)).prepared.find? "race" =
      some ⟨"race", ["x", "y"], .cond (.var "x")
        (.call .memo "race" [.basic "sub" [.var "x", .const 1], .var "y"])
        (.call .solved "halt" [.var "y", .const 0])⟩ := by rfl
  have hhalt : (ofTable (Table.ofList racing)).prepared.find? "halt" =
      some ⟨"halt", ["n"], .cond (.var "n")
        (.call .memo "halt" [.basic "sub" [.var "n", .const 1], .const 7])
        (.cond (.const 1) (.const 1) (.call .plain "nowhere" [.call .memo "halt" []]))⟩ := by rfl
  have hnowhere : (ofTable (Table.ofList racing)).prepared.defines "nowhere" = false := by decide
  refine steady_of_closed [("race", 2), ("halt", 2)] (by decide) fun s hs g hg callee args => ?_
  simp only [List.mem_cons, List.not_mem_nil, or_false] at hs
  rcases hs with rfl | rfl
  · obtain rfl := Option.some.inj (hrace.symm.trans hg)
    constructor <;> grind
  · obtain rfl := Option.some.inj (hhalt.symm.trans hg)
    constructor <;> grind

theorem racing_undefined :
    (ofTable (Table.ofList racing)).strictness 10 race = .ok [true, true] ∧
    ∀ depth n, Standard.apply (Table.ofList racing) depth race [some 3, none] ≠ .ok (some n) := by
  have hstrict : (ofTable (Table.ofList racing)).strictness 10 race = .ok [true, true] := by rfl
  exact ⟨hstrict, apply_ne_some_of_strict racing (by decide) (by decide) steady_race hstrict
    (show [true, true][1]? = some true from rfl) rfl rfl⟩

/-- A function whose self-call has one argument more than it has parameters. -/
def crowded : Definition :=
  ⟨"f", ["x", "y"], .cond (.basic "geq" [.var "x", .const 5])
    (.call .plain "f" [.const 0, .const 1, .const 9]) (.var "y")⟩

/-- Without steady self-calls strictness may be found where there is none. -/
theorem crowded_strict_but_defined :
    (∀ f ∈ (Table.ofList [crowded]).entries, f.body.Plain) ∧
    (ofTable (Table.ofList [crowded])).strictness 10 crowded = .ok [true, true] ∧
    Standard.apply (Table.ofList [crowded]) 10 crowded [some 5, none] = .ok (some 1) :=
  ⟨by decide, by rfl, by rfl⟩

end StrictnessAnalysis.Analysis
