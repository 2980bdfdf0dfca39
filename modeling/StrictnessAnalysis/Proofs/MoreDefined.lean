import StrictnessAnalysis.Proofs.Actions
import StrictnessAnalysis.Proofs.Order
import StrictnessAnalysis.Proofs.Runs
import StrictnessAnalysis.Standard

/-! The standard semantics is monotone in definedness. Where undefined values are replaced by
integers, an evaluation may fail that did not fail before, since more of the program is reached; but
as long as it returns, an integer that was returned before is returned again. Nothing is asked of
the depths at which the two evaluations run. -/

namespace StrictnessAnalysis.Standard

/-! ### Values -/

/-- Undefined is below every value, an integer only below itself. -/
def Below (v v' : Option Int) : Prop := ∀ n, v = some n → v' = some n

theorem below_refl (v : Option Int) : Below v v := fun _ h => h

theorem none_below (v : Option Int) : Below none v := by
  intro n h
  cases h

/-- Values below others are these others if all of them are defined. -/
theorem map_some_eq_of_below {operands : List Int} {values : List (Option Int)}
    (h : List.Forall₂ Below (operands.map some) values) : values = operands.map some := by
  induction operands generalizing values with
  | nil => simpa using h
  | cons n operands ih =>
    rw [List.map_cons, List.forall₂_cons_left_iff] at h
    obtain ⟨v, rest, hv, hrest, rfl⟩ := h
    rw [hv n rfl, ih hrest, List.map_cons]

theorem applyOperator_below {op : Operator} {values values' : List (Option Int)}
    {v v' : Option Int} (hvalues : List.Forall₂ Below values values')
    (h : applyOperator op values = .ok v) (h' : applyOperator op values' = .ok v') :
    Below v v' := by
  cases hall : allDefined values with
  | none =>
    obtain rfl : none = v := by simpa [applyOperator, hall] using h
    exact none_below v'
  | some operands =>
    rw [allDefined_eq_some hall] at hvalues h
    rw [map_some_eq_of_below hvalues, h] at h'
    cases h'
    exact below_refl v

/-! ### Frames -/

section Frames

variable {κ α : Type} [DecidableEq κ]

theorem mem_or_eq_of_override {base : κ → α} {bindings : List (κ × α)} {key : κ} {value : α}
    (h : override base bindings key = value) : (key, value) ∈ bindings ∨ base key = value := by
  induction bindings generalizing base with
  | nil => exact .inr h
  | cons b bindings ih =>
    rw [override_cons] at h
    rcases ih h with hmem | hbase
    · exact .inl (List.mem_cons_of_mem _ hmem)
    · by_cases hkey : key = b.1
      · rw [hkey, assign_self] at hbase
        rw [hkey, ← hbase]
        exact .inl List.mem_cons_self
      · rw [assign_of_ne _ _ hkey] at hbase
        exact .inr hbase

/-- Among distinct keys, each has the value at its position. -/
theorem override_zip {base : κ → α} {keys : List κ} {values : List α} (hkeys : keys.Nodup) {i : Nat}
    {key : κ} {value : α} (hkey : keys[i]? = some key) (hvalue : values[i]? = some value) :
    override base (keys.zip values) key = value := by
  induction keys generalizing base values i with
  | nil => simp at hkey
  | cons k keys ih =>
    obtain _ | ⟨v, values⟩ := values
    · simp at hvalue
    rw [List.nodup_cons] at hkeys
    rw [List.zip_cons_cons, override_cons]
    cases i with
    | zero =>
      obtain rfl : k = key := by simpa using hkey
      obtain rfl : v = value := by simpa using hvalue
      rcases mem_or_eq_of_override (rfl : override (assign base k v) (keys.zip values) k = _) with
        hmem | hbase
      · exact absurd (List.of_mem_zip hmem).1 hkeys.1
      · rw [← hbase, assign_self]
    | succ i => exact ih hkeys.2 hkey hvalue

end Frames

/-- Distinct parameters see more defined values if the arguments are so position by position, also
when there are more or fewer of them. -/
theorem frame_below_of_nodup {params : List String} (hparams : params.Nodup)
    {args args' : List (Option Int)}
    (h : ∀ (i : Nat) (n : Int), args[i]? = some (some n) → args'[i]? = some (some n)) (x : String) :
    Below (frame none params args x) (frame none params args' x) := by
  intro n hn
  rcases mem_or_eq_of_override hn with hmem | hbase
  · obtain ⟨i, hi⟩ := List.mem_iff_getElem?.1 hmem
    obtain ⟨hparam, harg⟩ := List.getElem?_zip_eq_some.1 hi
    exact override_zip hparams hparam (h i n harg)
  · cases hbase

/-! ### Evaluations -/

theorem eval_below (table : Table) {depth depth' : Nat} {env env' : Env} {e : Expr}
    {v v' : Option Int} (henv : ∀ x, Below (env x) (env' x)) (h : eval table depth env e = .ok v)
    (h' : eval table depth' env' e = .ok v') : Below v v' := by
  induction depth generalizing depth' env env' e v v' with
  | zero => simp [eval] at h
  | succ depth ih =>
    obtain _ | depth' := depth'
    · simp [eval] at h'
    have hargs : ∀ {args : List Expr} {values values' : List (Option Int)},
        args.mapM (eval table depth env) = .ok values →
        args.mapM (eval table depth' env') = .ok values' → List.Forall₂ Below values values' := by
      intro args values values' hvalues hvalues'
      refine forall₂_of_forall₂_of_mem ?_ (forall₂_of_mapM_ok hvalues) (forall₂_of_mapM_ok hvalues')
      exact fun _ _ _ _ hv hv' => ih henv hv hv'
    cases e with
    | const n =>
      simp only [eval, Except.ok.injEq] at h h'
      rw [← h, ← h']
      exact below_refl _
    | var x =>
      simp only [eval, Except.ok.injEq] at h h'
      rw [← h, ← h']
      exact henv x
    | cond test yes no =>
      rw [eval] at h h'
      obtain ⟨t, ht, h⟩ := bind_eq_ok_iff.1 h
      obtain ⟨t', ht', h'⟩ := bind_eq_ok_iff.1 h'
      have htest : Below t t' := ih henv ht ht'
      cases t with
      | none =>
        obtain rfl : none = v := by simpa [pure, Except.pure] using h
        exact none_below v'
      | some k =>
        obtain rfl : t' = some k := htest k rfl
        simp only at h h'
        split_ifs at h h'
        · exact ih henv h h'
        · exact ih henv h h'
    | basic operator args =>
      rw [eval] at h h'
      cases hop : Operator.ofName? operator with
      | none =>
        rw [hop] at h
        cases h
        exact none_below v'
      | some op =>
        rw [hop] at h h'
        obtain ⟨values, hvalues, h⟩ := bind_eq_ok_iff.1 h
        obtain ⟨values', hvalues', h'⟩ := bind_eq_ok_iff.1 h'
        exact applyOperator_below (hargs hvalues hvalues') h h'
    | call mode callee args =>
      rw [eval] at h h'
      cases hf : table.find? callee with
      | none =>
        rw [hf] at h
        cases h
        exact none_below v'
      | some f =>
        rw [hf] at h h'
        obtain ⟨values, hvalues, h⟩ := bind_eq_ok_iff.1 h
        obtain ⟨values', hvalues', h'⟩ := bind_eq_ok_iff.1 h'
        exact ih (frame_rel (none_below none) f.params (hargs hvalues hvalues')) h h'

/-- An integer that an expression has in one environment it has in every more defined one, if it has
a value there at all. So it is with a function at arguments of which some become defined; when its
parameters are distinct, the number of arguments may change as well. -/
theorem eval_of_more_defined (defs : List Definition) :
    (∀ env env' : Env, (∀ x n, env x = some n → env' x = some n) →
      ∀ depth depth' e n v, eval (Table.ofList defs) depth env e = .ok (some n) →
        eval (Table.ofList defs) depth' env' e = .ok v → v = some n) ∧
    (∀ f args args', List.Forall₂ (fun a a' => ∀ n, a = some n → a' = some n) args args' →
      ∀ depth depth' n v, apply (Table.ofList defs) depth f args = .ok (some n) →
        apply (Table.ofList defs) depth' f args' = .ok v → v = some n) ∧
    ∀ (f : Definition) (args args' : List (Option Int)), f.params.Nodup →
      (∀ (i : Nat) (n : Int), args[i]? = some (some n) → args'[i]? = some (some n)) →
      ∀ depth depth' n v, apply (Table.ofList defs) depth f args = .ok (some n) →
        apply (Table.ofList defs) depth' f args' = .ok v → v = some n := by
  refine ⟨fun env env' henv depth depth' e n v h h' => ?_,
    fun f args args' hargs depth depth' n v h h' => ?_,
    fun f args args' hparams hargs depth depth' n v h h' => ?_⟩
  · exact eval_below _ henv h h' n rfl
  · exact eval_below _ (frame_rel (none_below none) f.params hargs) h h' n rfl
  · exact eval_below _ (frame_below_of_nodup hparams hargs) h h' n rfl

/-- A function that passes its first argument on as its second one. -/
def shift : Definition :=
  ⟨"f", ["x", "y"], .cond (.var "x")
    (.call .solved "f" [.basic "sub" [.var "x", .const 1], .var "x"]) (.var "y")⟩

/-- The function at an undefined argument, which it drops. -/
def shifted : Expr := .basic "add" [.call .plain "f" [.const 2, .var "u"], .var "x"]

theorem shift_more_defined :
    eval (Table.ofList [shift]) 9 (assign (fun _ => none) "x" (some 3)) shifted = .ok (some 4) ∧
    (∀ depth v, eval (Table.ofList [shift]) depth (fun _ => some 3) shifted = .ok v →
      v = some 4) ∧
    apply (Table.ofList [shift]) 9 shift [some 2, none] = .ok (some 1) ∧
    (∀ depth v, apply (Table.ofList [shift]) depth shift [some 2, some 9] = .ok v → v = some 1) ∧
    ∀ depth v, apply (Table.ofList [shift]) depth shift [some 2] = .ok v → v = some 1 := by
  have hexpr : eval (Table.ofList [shift]) 9 (assign (fun _ => none) "x" (some 3)) shifted =
      .ok (some 4) := by rfl
  have hcall : apply (Table.ofList [shift]) 9 shift [some 2, none] = .ok (some 1) := by rfl
  have henv : ∀ x n, assign (fun _ => none) "x" (some (3 : Int)) x = some n →
      (some 3 : Option Int) = some n := by
    intro x n hx
    rcases eq_or_ne x "x" with rfl | hne
    · rwa [assign_self] at hx
    · rw [assign_of_ne _ _ hne] at hx
      cases hx
  have hfewer : ∀ (i : Nat) (n : Int), [some 2, none][i]? = some (some n) →
      [some (2 : Int)][i]? = some (some n) := by
    intro i n hi
    obtain _ | _ | i := i
    · exact hi
    · cases hi
    · cases hi
  obtain ⟨hall, hargs, hcount⟩ := eval_of_more_defined [shift]
  exact ⟨hexpr, fun depth v => hall _ _ henv 9 depth _ _ v hexpr, hcall,
    fun depth v => hargs shift _ _ (.cons (fun _ => id) (.cons (by simp) .nil)) 9 depth _ v hcall,
    fun depth v => hcount shift _ _ (by decide) hfewer 9 depth _ v hcall⟩

end StrictnessAnalysis.Standard
