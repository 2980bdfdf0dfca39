import StrictnessAnalysis.Abstract
import StrictnessAnalysis.Proofs.Iteration
import StrictnessAnalysis.Proofs.Order

/-! Evaluation in the abstract semantics, taken apart into two questions: whether the depth
suffices, which depends on the expression and the table alone, and what the value is, which is a
total function. The value is monotone in the environment and the memo table as long as one of the
two memo tables is monotone in its keys; the solver's approximations are, so the solver always finds
a fixed point and an evaluation either has its value or ran out of depth. More depth changes no
value. -/

namespace StrictnessAnalysis.Abstract

/-- The depth suffices for the expression. All parts of an expression are evaluated, but for the
arguments of what is unknown; a memo call does not enter the callee. -/
def Fits (table : Table) : Nat → Expr → Prop
  | 0, _ => False
  | _ + 1, .const _ => True
  | _ + 1, .var _ => True
  | depth + 1, .cond test yes no =>
    Fits table depth test ∧ Fits table depth yes ∧ Fits table depth no
  | depth + 1, .basic operator args =>
    Operator.ofName? operator ≠ none → ∀ a ∈ args, Fits table depth a
  | depth + 1, .call mode callee args =>
    ∀ f ∈ table.find? callee,
      (∀ a ∈ args, Fits table depth a) ∧ (mode ≠ .memo → Fits table depth f.body)

/-- The value of an expression, `zero` wherever the depth does not suffice. -/
def value (table : Table) : (depth : Nat) → Memo → Env → Expr → Definedness
  | 0, _, _, _ => .zero
  | _ + 1, _, _, .const _ => .one
  | _ + 1, _, env, .var x => env x
  | depth + 1, memo, env, .cond test yes no =>
    (value table depth memo env test).meet
      ((value table depth memo env yes).join (value table depth memo env no))
  | depth + 1, memo, env, .basic operator args =>
    match Operator.ofName? operator with
    | none => .zero
    | some _ => (args.map (value table depth memo env)).foldl Definedness.meet .one
  | depth + 1, memo, env, .call mode callee args =>
    match table.find? callee with
    | none => .zero
    | some f =>
      let values := args.map (value table depth memo env)
      match mode with
      | .plain => value table depth Memo.empty (frame .zero f.params values) f.body
      | .memo => memo values
      | .solved =>
        Solver.least (fun point lookup =>
            value table depth (Memo.ofLookup lookup) (frame .zero f.params point) f.body)
          Definedness.all .zero values.length values

/-- The functional of a definition whose body is evaluated at a depth. -/
def functional (table : Table) (depth : Nat) (f : Definition) (point : List Definedness)
    (lookup : List Definedness → Option Definedness) : Definedness :=
  value table depth (Memo.ofLookup lookup) (frame .zero f.params point) f.body

/-- The value at a list of arguments of the least fixed point of a function. -/
def solution (table : Table) (depth : Nat) (f : Definition) (args : List Definedness) :
    Definedness :=
  Solver.least (functional table depth f) Definedness.all .zero args.length args

/-! ### Monotonicity -/

/-- Larger keys have larger entries. -/
def Memo.KeyMonotone (memo : Memo) : Prop :=
  ∀ key key', List.Forall₂ (· ≤ ·) key key' → memo key ≤ memo key'

/-- The memo table of a function known at the points of an arity. -/
def Memo.ofPoints (n : Nat) (f : List Definedness → Definedness) : Memo :=
  Memo.ofLookup (Solver.known (Solver.points Definedness.all n) f)

theorem mem_points_all {n : Nat} {p : List Definedness} :
    p ∈ Solver.points Definedness.all n ↔ p.length = n := by
  simp [Solver.mem_points, Definedness.mem_all]

theorem Memo.ofPoints_apply (n : Nat) (f : List Definedness → Definedness)
    (key : List Definedness) : Memo.ofPoints n f key = if key.length = n then f key else .zero := by
  simp only [Memo.ofPoints, Memo.ofLookup, Solver.known, mem_points_all]
  split_ifs <;> rfl

theorem Memo.keyMonotone_empty : Memo.empty.KeyMonotone := fun _ _ _ => le_rfl

theorem Memo.keyMonotone_ofPoints {n : Nat} {f : List Definedness → Definedness}
    (h : ∀ p q, List.Forall₂ (· ≤ ·) p q → f p ≤ f q) : (Memo.ofPoints n f).KeyMonotone := by
  intro key key' hkey
  rw [ofPoints_apply, ofPoints_apply, hkey.length_eq]
  split_ifs
  · exact h key key' hkey
  · exact le_rfl

theorem Memo.ofPoints_le {n : Nat} {f g : List Definedness → Definedness}
    (h : ∀ p ∈ Solver.points Definedness.all n, f p ≤ g p) (key : List Definedness) :
    Memo.ofPoints n f key ≤ Memo.ofPoints n g key := by
  rw [ofPoints_apply, ofPoints_apply]
  split_ifs with hkey
  · exact h key (mem_points_all.2 hkey)
  · exact le_rfl

theorem forall₂_map_le {values values' : Expr → Definedness} {args : List Expr}
    (h : ∀ a ∈ args, values a ≤ values' a) :
    List.Forall₂ (· ≤ ·) (args.map values) (args.map values') := by
  rw [List.forall₂_map_left_iff, List.forall₂_map_right_iff, List.forall₂_same]
  exact h

/-- Values at a depth are monotone in environment and memo table at once. -/
def MonotoneAt (table : Table) (depth : Nat) : Prop :=
  ∀ (memo memo' : Memo) (env env' : Env) (e : Expr), (∀ key, memo key ≤ memo' key) →
    memo.KeyMonotone ∨ memo'.KeyMonotone → (∀ x, env x ≤ env' x) →
    value table depth memo env e ≤ value table depth memo' env' e

theorem MonotoneAt.ascending {table : Table} {depth : Nat} (h : MonotoneAt table depth)
    (f : Definition) (n : Nat) :
    Solver.Ascending (functional table depth f) Definedness.all .zero n
      (fun g => ∀ p q, List.Forall₂ (· ≤ ·) p q → g p ≤ g q) where
  bottom_le a _ := a.zero_le
  start _ _ _ := le_rfl
  step g hg p q hpq := by
    have hmemo : (Memo.ofPoints n g).KeyMonotone := Memo.keyMonotone_ofPoints hg
    exact h _ _ _ _ _ (fun _ => le_rfl) (.inl hmemo) (frame_rel le_rfl f.params hpq)
  member g _ p _ := Definedness.mem_all (g p)
  mono g g' hg _ hle p _ := by
    have hmemo : (Memo.ofPoints n g).KeyMonotone := Memo.keyMonotone_ofPoints hg
    exact h _ _ _ _ _ (Memo.ofPoints_le hle) (.inl hmemo) fun _ => le_rfl

theorem MonotoneAt.solution_le {table : Table} {depth : Nat} (h : MonotoneAt table depth)
    (f : Definition) {args args' : List Definedness} (hargs : List.Forall₂ (· ≤ ·) args args') :
    solution table depth f args ≤ solution table depth f args' := by
  unfold solution
  rw [← hargs.length_eq]
  exact (h.ascending f args.length).invariant _ args args' hargs

/-- The abstract semantics is monotone. A memo read moves its key and its table at once, which is
why one of the tables has to be monotone in its keys. -/
theorem monotoneAt (table : Table) (depth : Nat) : MonotoneAt table depth := by
  induction depth with
  | zero => exact fun _ _ _ _ _ _ _ _ => le_rfl
  | succ depth ih =>
    intro memo memo' env env' e hmemo hkeys henv
    have hall : ∀ args : List Expr, List.Forall₂ (· ≤ ·)
        (args.map (value table depth memo env)) (args.map (value table depth memo' env')) :=
      fun args => forall₂_map_le fun a _ => ih memo memo' env env' a hmemo hkeys henv
    cases e with
    | const n => exact le_rfl
    | var x => exact henv x
    | cond test yes no =>
      exact Definedness.meet_join_le (ih _ _ _ _ test hmemo hkeys henv)
        (ih _ _ _ _ yes hmemo hkeys henv) (ih _ _ _ _ no hmemo hkeys henv)
    | basic operator args =>
      simp only [value]
      split
      · exact le_rfl
      · exact Definedness.foldl_meet_le (hall args)
    | call mode callee args =>
      simp only [value]
      split
      · exact le_rfl
      · next f _ =>
        cases mode with
        | plain =>
          exact ih _ _ _ _ f.body (fun _ => le_rfl) (.inl Memo.keyMonotone_empty)
            (frame_rel le_rfl f.params (hall args))
        | memo =>
          rcases hkeys with hk | hk
          · exact (hk _ _ (hall args)).trans (hmemo _)
          · exact (hmemo _).trans (hk _ _ (hall args))
        | solved => exact ih.solution_le f (hall args)

/-- The solution of a function is a fixed point: its value at some arguments is that of the body,
with the values at all lists of as many arguments in the memo table. -/
theorem solution_fixed (table : Table) (depth : Nat) (f : Definition) (args : List Definedness) :
    solution table depth f args =
      value table depth (Memo.ofPoints args.length (solution table depth f))
        (frame .zero f.params args) f.body := by
  have hfixed := ((monotoneAt table depth).ascending f args.length).least_fixed args
    (mem_points_all.2 rfl)
  have htable : Solver.known (Solver.points Definedness.all args.length)
      (Solver.least (functional table depth f) Definedness.all .zero args.length) =
        Solver.known (Solver.points Definedness.all args.length) (solution table depth f) := by
    refine Solver.known_congr fun p hp => ?_
    rw [solution, mem_points_all.1 hp]
  rw [htable] at hfixed
  exact hfixed

/-! ### Outcomes -/

theorem solve_of_body {table : Table} {depth : Nat} {f : Definition}
    (h : ∀ memo env, eval table depth memo env f.body = .ok (value table depth memo env f.body))
    (args : List Definedness) :
    solve table depth f args = .ok (solution table depth f args) := by
  have hrun := ((monotoneAt table depth).ascending f args.length).solve_eq
    (fun a _ => Definedness.mem_all a) (fun p lookup => h (Memo.ofLookup lookup) _)
  simp only [solve, apply, hrun]
  rfl

/-- A body that runs out of depth stops the first round at its first point. -/
theorem solve_of_body_tooDeep {table : Table} {depth : Nat} {f : Definition}
    (h : ∀ memo env, eval table depth memo env f.body = .error .tooDeep)
    (args : List Definedness) : solve table depth f args = .error .tooDeep := by
  have hlimit : Solver.roundLimit Definedness.all args.length ≠ 0 := by
    simp only [Solver.roundLimit, Definedness.all, List.length_cons, List.length_nil]
    omega
  obtain ⟨limit, hlimit⟩ := Nat.exists_eq_succ_of_ne_zero hlimit
  have hpoints : Solver.points Definedness.all args.length ≠ [] :=
    List.ne_nil_of_mem (mem_points_all.2 rfl)
  have hround : ∀ values : Solver.Values Definedness, values ≠ [] →
      Solver.round (fun point lookup => apply table depth (Memo.ofLookup lookup) f point) values =
        .error .tooDeep := by
    intro values hv
    have hrow : ∀ row : List Definedness × Definedness,
        (do return (row.1,
            ← apply table depth (Memo.ofLookup fun key => values.lookup key) f row.1) :
          Except Failure (List Definedness × Definedness)) = .error .tooDeep := by
      intro row
      rw [apply, h]
      rfl
    obtain ⟨row, hmem⟩ := List.exists_mem_of_ne_nil values hv
    exact mapM_eq_error (fun row _ => .inr (hrow row)) ⟨row, hmem, hrow row⟩
  unfold solve Solver.solve
  simp only [hlimit, Solver.stabilize]
  rw [hround _ (by simpa using hpoints)]
  rfl

/-- How evaluations at a depth end: with the value if the depth suffices, else by running out of
it. -/
def EndsAt (table : Table) (depth : Nat) : Prop :=
  ∀ memo env e,
    (Fits table depth e → eval table depth memo env e = .ok (value table depth memo env e)) ∧
    (¬ Fits table depth e → eval table depth memo env e = .error .tooDeep)

theorem EndsAt.mapM_ok {table : Table} {depth : Nat} (h : EndsAt table depth) (memo : Memo)
    (env : Env) {args : List Expr} (hargs : ∀ a ∈ args, Fits table depth a) :
    args.mapM (eval table depth memo env) = .ok (args.map (value table depth memo env)) :=
  mapM_eq_pure fun a ha => (h memo env a).1 (hargs a ha)

theorem EndsAt.mapM_error {table : Table} {depth : Nat} (h : EndsAt table depth) (memo : Memo)
    (env : Env) {args : List Expr} (hargs : ¬ ∀ a ∈ args, Fits table depth a) :
    args.mapM (eval table depth memo env) = .error .tooDeep := by
  simp only [not_forall] at hargs
  obtain ⟨a, ha, hnot⟩ := hargs
  refine mapM_eq_error (fun b _ => ?_) ⟨a, ha, (h memo env a).2 hnot⟩
  by_cases hb : Fits table depth b
  · exact .inl ⟨_, (h memo env b).1 hb⟩
  · exact .inr ((h memo env b).2 hb)

theorem EndsAt.solve_eq {table : Table} {depth : Nat} (h : EndsAt table depth) (f : Definition)
    (args : List Definedness) :
    (Fits table depth f.body →
      solve table depth f args = .ok (solution table depth f args)) ∧
    (¬ Fits table depth f.body → solve table depth f args = .error .tooDeep) :=
  ⟨fun hf => solve_of_body (fun memo env => (h memo env f.body).1 hf) args,
    fun hf => solve_of_body_tooDeep (fun memo env => (h memo env f.body).2 hf) args⟩

/-- What comes of a call of `f` once its arguments are evaluated. -/
def enter (table : Table) (depth : Nat) (memo : Memo) (f : Definition) (values : List Definedness) :
    CallMode → Except Failure Definedness
  | .plain => eval table depth Memo.empty (frame .zero f.params values) f.body
  | .memo => .ok (memo values)
  | .solved => solve table depth f values

theorem eval_call {table : Table} {depth : Nat} {memo : Memo} {env : Env} {mode : CallMode}
    {callee : String} {args : List Expr} {f : Definition} (hf : table.find? callee = some f) :
    eval table (depth + 1) memo env (.call mode callee args) =
      args.mapM (eval table depth memo env) >>= fun values =>
        enter table depth memo f values mode := by
  cases mode <;> simp only [eval, hf] <;> rfl

theorem EndsAt.enter_eq {table : Table} {depth : Nat} (h : EndsAt table depth) (memo : Memo)
    (f : Definition) (values : List Definedness) (mode : CallMode) :
    ((mode ≠ .memo → Fits table depth f.body) → enter table depth memo f values mode = .ok
      (match mode with
        | .plain => value table depth Memo.empty (frame .zero f.params values) f.body
        | .memo => memo values
        | .solved => solution table depth f values)) ∧
    (¬ (mode ≠ .memo → Fits table depth f.body) →
      enter table depth memo f values mode = .error .tooDeep) := by
  cases mode with
  | plain => simpa [enter] using h Memo.empty (frame .zero f.params values) f.body
  | memo => simp [enter]
  | solved => simpa [enter] using h.solve_eq f values

/-- An evaluation has its value if the depth suffices, and runs out of depth if it does not. -/
theorem endsAt (table : Table) (depth : Nat) : EndsAt table depth := by
  induction depth with
  | zero => exact fun _ _ _ => ⟨False.elim, fun _ => rfl⟩
  | succ depth ih =>
    intro memo env e
    cases e with
    | const n => exact ⟨fun _ => rfl, fun h => absurd trivial h⟩
    | var x => exact ⟨fun _ => rfl, fun h => absurd trivial h⟩
    | cond test yes no =>
      simp only [Fits, eval, value]
      by_cases ht : Fits table depth test
      · rw [(ih memo env test).1 ht]
        by_cases hy : Fits table depth yes
        · rw [(ih memo env yes).1 hy]
          by_cases hn : Fits table depth no
          · rw [(ih memo env no).1 hn]
            exact ⟨fun _ => rfl, fun h => absurd ⟨ht, hy, hn⟩ h⟩
          · rw [(ih memo env no).2 hn]
            exact ⟨fun h => absurd h.2.2 hn, fun _ => rfl⟩
        · rw [(ih memo env yes).2 hy]
          exact ⟨fun h => absurd h.2.1 hy, fun _ => rfl⟩
      · rw [(ih memo env test).2 ht]
        exact ⟨fun h => absurd h.1 ht, fun _ => rfl⟩
    | basic operator args =>
      simp only [Fits, eval, value]
      cases Operator.ofName? operator with
      | none => simp
      | some op =>
        by_cases hargs : ∀ a ∈ args, Fits table depth a
        · rw [ih.mapM_ok memo env hargs]
          exact ⟨fun _ => rfl, fun h => absurd (fun _ => hargs) h⟩
        · rw [ih.mapM_error memo env hargs]
          exact ⟨fun h => absurd (h (by simp)) hargs, fun _ => rfl⟩
    | call mode callee args =>
      cases hf : table.find? callee with
      | none => simp [Fits, eval, value, hf]
      | some f =>
        rw [eval_call hf]
        simp only [Fits, value, hf, Option.mem_some_iff, forall_eq']
        by_cases hargs : ∀ a ∈ args, Fits table depth a
        · rw [ih.mapM_ok memo env hargs]
          have henter := ih.enter_eq memo f (args.map (value table depth memo env)) mode
          refine ⟨fun h => ?_, fun h => henter.2 fun hbody => h ⟨hargs, hbody⟩⟩
          exact (henter.1 h.2).trans (by cases mode <;> rfl)
        · rw [ih.mapM_error memo env hargs]
          exact ⟨fun h => absurd h.1 hargs, fun _ => rfl⟩

theorem eval_eq_ok_iff {table : Table} {depth : Nat} {memo : Memo} {env : Env} {e : Expr}
    {v : Definedness} : eval table depth memo env e = .ok v ↔
      Fits table depth e ∧ value table depth memo env e = v := by
  by_cases h : Fits table depth e
  · simp [(endsAt table depth memo env e).1 h, h]
  · simp [(endsAt table depth memo env e).2 h, h]

theorem solve_eq_ok_iff {table : Table} {depth : Nat} {f : Definition} {args : List Definedness}
    {v : Definedness} : solve table depth f args = .ok v ↔
      Fits table depth f.body ∧ solution table depth f args = v := by
  have hsolve := (endsAt table depth).solve_eq f args
  by_cases h : Fits table depth f.body
  · simp [hsolve.1 h, h]
  · simp [hsolve.2 h, h]

theorem eval_eq_error {table : Table} {depth : Nat} {memo : Memo} {env : Env} {e : Expr}
    {failure : Failure} (h : eval table depth memo env e = .error failure) :
    failure = .tooDeep := by
  by_cases hfits : Fits table depth e
  · simp [(endsAt table depth memo env e).1 hfits] at h
  · simpa [(endsAt table depth memo env e).2 hfits] using h.symm

theorem solve_eq_error {table : Table} {depth : Nat} {f : Definition} {args : List Definedness}
    {failure : Failure} (h : solve table depth f args = .error failure) : failure = .tooDeep := by
  have hsolve := (endsAt table depth).solve_eq f args
  by_cases hfits : Fits table depth f.body
  · simp [hsolve.1 hfits] at h
  · simpa [hsolve.2 hfits] using h.symm

/-! ### More depth -/

theorem Fits.exists_succ {table : Table} {depth : Nat} {e : Expr} (h : Fits table depth e) :
    ∃ depth', depth = depth' + 1 := by
  cases depth with
  | zero => exact h.elim
  | succ depth => exact ⟨depth, rfl⟩

theorem Fits.succ {table : Table} {depth : Nat} {e : Expr} (h : Fits table depth e) :
    Fits table (depth + 1) e := by
  induction depth generalizing e with
  | zero => exact h.elim
  | succ depth ih =>
    cases e with
    | const n => trivial
    | var x => trivial
    | cond test yes no => exact ⟨ih h.1, ih h.2.1, ih h.2.2⟩
    | basic operator args => exact fun hop a ha => ih (h hop a ha)
    | call mode callee args =>
      exact fun f hf => ⟨fun a ha => ih ((h f hf).1 a ha), fun hmode => ih ((h f hf).2 hmode)⟩

theorem Fits.mono {table : Table} {depth depth' : Nat} {e : Expr} (h : Fits table depth e)
    (hle : depth ≤ depth') : Fits table depth' e := by
  induction hle with
  | refl => exact h
  | step _ ih => exact ih.succ

/-- One depth suffices for all expressions of a list, if some depth does for each. -/
theorem exists_forall_fits {table : Table} {es : List Expr}
    (h : ∀ e ∈ es, ∃ depth, Fits table depth e) : ∃ depth, ∀ e ∈ es, Fits table depth e := by
  induction es with
  | nil => exact ⟨0, by simp⟩
  | cons e es ih =>
    rw [List.forall_mem_cons] at h
    obtain ⟨d, hd⟩ := h.1
    obtain ⟨d', hd'⟩ := ih h.2
    refine ⟨max d d', List.forall_mem_cons.2 ⟨hd.mono (Nat.le_max_left d d'), fun e he => ?_⟩⟩
    exact (hd' e he).mono (Nat.le_max_right d d')

theorem value_succ {table : Table} {depth : Nat} {e : Expr} (h : Fits table depth e) (memo : Memo)
    (env : Env) : value table (depth + 1) memo env e = value table depth memo env e := by
  induction depth generalizing memo env e with
  | zero => exact h.elim
  | succ depth ih =>
    have hall : ∀ {args : List Expr}, (∀ a ∈ args, Fits table depth a) →
        args.map (value table (depth + 1) memo env) = args.map (value table depth memo env) :=
      fun hargs => List.map_congr_left fun a ha => ih (hargs a ha) memo env
    cases e with
    | const n => rfl
    | var x => rfl
    | cond test yes no =>
      rw [value, value, ih h.1, ih h.2.1, ih h.2.2]
    | basic operator args =>
      rw [value, value]
      cases hop : Operator.ofName? operator with
      | none => rfl
      | some op => simp only [hall (h (by simp [hop]))]
    | call mode callee args =>
      rw [value, value]
      cases hf : table.find? callee with
      | none => rfl
      | some f =>
        obtain ⟨hargs, hbody⟩ := h f hf
        simp only [hall hargs]
        cases mode with
        | plain => exact ih (hbody (by simp)) _ _
        | memo => rfl
        | solved => simp only [ih (hbody (by simp))]

theorem value_of_le {table : Table} {depth depth' : Nat} {e : Expr} (h : Fits table depth e)
    (hle : depth ≤ depth') (memo : Memo) (env : Env) :
    value table depth' memo env e = value table depth memo env e := by
  induction hle with
  | refl => rfl
  | step hle ih => rw [value_succ (h.mono hle), ih]

/-- Two depths that suffice give the same value. -/
theorem value_eq_of_fits {table : Table} {depth depth' : Nat} {e : Expr} (h : Fits table depth e)
    (h' : Fits table depth' e) (memo : Memo) (env : Env) :
    value table depth memo env e = value table depth' memo env e := by
  rcases Nat.le_total depth depth' with hle | hle
  · exact (value_of_le h hle memo env).symm
  · exact value_of_le h' hle memo env

theorem solution_eq_of_fits {table : Table} {depth depth' : Nat} {f : Definition}
    (h : Fits table depth f.body) (h' : Fits table depth' f.body) :
    solution table depth f = solution table depth' f := by
  have hfun : functional table depth f = functional table depth' f := by
    funext point lookup
    exact value_eq_of_fits h h' _ _
  funext args
  rw [solution, solution, hfun]

end StrictnessAnalysis.Abstract
