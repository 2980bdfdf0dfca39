import StrictnessAnalysis.Proofs.Evaluation

/-! What evaluations in the abstract semantics come to. The solver never fails: an evaluation has a
value or runs out of depth, and which of the two depends on neither the memo table nor the
environment. Two evaluations that have values compare as their environments and memo tables do, as
long as one of the memo tables is monotone in its keys. -/

namespace StrictnessAnalysis.Abstract

/-- An evaluation has a value if the depth suffices for the expression, and else runs out of depth.
So does the solver on a function, at any number of arguments; it always finds a fixed point. -/
theorem value_or_tooDeep (defs : List Definition) (depth : Nat) :
    (∀ memo env e,
      (Fits (Table.ofList defs) depth e ∧
        ∃ v, eval (Table.ofList defs) depth memo env e = .ok v) ∨
      (¬ Fits (Table.ofList defs) depth e ∧
        eval (Table.ofList defs) depth memo env e = .error .tooDeep)) ∧
    ∀ f args,
      (Fits (Table.ofList defs) depth f.body ∧
        ∃ v, solve (Table.ofList defs) depth f args = .ok v) ∨
      (¬ Fits (Table.ofList defs) depth f.body ∧
        solve (Table.ofList defs) depth f args = .error .tooDeep) := by
  have hends := endsAt (Table.ofList defs) depth
  refine ⟨fun memo env e => ?_, fun f args => ?_⟩
  · by_cases hfits : Fits (Table.ofList defs) depth e
    · exact .inl ⟨hfits, _, (hends memo env e).1 hfits⟩
    · exact .inr ⟨hfits, (hends memo env e).2 hfits⟩
  · by_cases hfits : Fits (Table.ofList defs) depth f.body
    · exact .inl ⟨hfits, _, (hends.solve_eq f args).1 hfits⟩
    · exact .inr ⟨hfits, (hends.solve_eq f args).2 hfits⟩

/-- The abstract semantics is monotone in environment and memo table at once, whatever the depths at
which the two values are found. -/
theorem eval_le_eval (defs : List Definition) {memo memo' : Memo} {env env' : Env} {e : Expr}
    (henv : ∀ x, env x ≤ env' x) (hmemo : ∀ key, memo key ≤ memo' key)
    (hkeys : memo.KeyMonotone ∨ memo'.KeyMonotone) {depth depth' : Nat} {v v' : Definedness}
    (h : eval (Table.ofList defs) depth memo env e = .ok v)
    (h' : eval (Table.ofList defs) depth' memo' env' e = .ok v') : v ≤ v' := by
  obtain ⟨hfits, rfl⟩ := eval_eq_ok_iff.1 h
  obtain ⟨hfits', rfl⟩ := eval_eq_ok_iff.1 h'
  rw [value_eq_of_fits hfits' hfits memo' env']
  exact monotoneAt _ depth memo memo' env env' e hmemo hkeys henv

/-- A function that reads its results at results of its own, beside one that it solves. -/
def rereading : List Definition :=
  [⟨"f", ["x", "y"], .cond (.var "x")
      (.call .memo "f" [.var "y", .call .memo "f" [.var "x", .const 1]])
      (.call .solved "g" [.var "y"])⟩,
    ⟨"g", ["n"], .cond (.var "n")
      (.call .memo "g" [.basic "sub" [.var "n", .const 1]]) (.const 1)⟩]

/-- The first of these functions in all three modes. -/
def reread : Expr :=
  .cond (.call .memo "f" [.var "x", .call .memo "f" [.var "x", .var "y"]])
    (.call .plain "f" [.var "y", .var "x"]) (.call .solved "f" [.var "y", .var "y"])

/-- A memo table with a single entry, which larger keys lack: it is not monotone in its keys. -/
def spot : Memo := fun key => if key = [.zero, .one] then .one else .zero

/-- The largest memo table of a function of two arguments. -/
def pairs : Memo := fun key => if key.length = 2 then .one else .zero

theorem reread_le :
    eval (Table.ofList rereading) 8 spot (assign (fun _ => .zero) "y" .one) reread = .ok .one ∧
    ∃ v, eval (Table.ofList rereading) 12 pairs (fun _ => .one) reread = .ok v ∧ .one ≤ v := by
  have hmemo : ∀ key, spot key ≤ pairs key := by
    intro key
    by_cases hkey : key = [.zero, .one]
    · rw [hkey]
      decide
    · rw [spot, if_neg hkey]
      exact Definedness.zero_le _
  have hkeys : pairs.KeyMonotone := by
    intro key key' hle
    rw [pairs, pairs, hle.length_eq]
  have hlow : eval (Table.ofList rereading) 8 spot (assign (fun _ => .zero) "y" .one) reread =
      .ok .one := by rfl
  have hhigh : eval (Table.ofList rereading) 12 pairs (fun _ => .one) reread = .ok .one := by rfl
  have henv : ∀ x, assign (fun _ => Definedness.zero) "y" .one x ≤ .one :=
    fun _ => Definedness.le_one _
  exact ⟨hlow, .one, hhigh, eval_le_eval rereading henv hmemo (.inr hkeys) hlow hhigh⟩

-- with a memo table that is not monotone in its keys on both sides, a larger key may read less
example :
    eval (Table.ofList rereading) 2 spot (assign (fun _ => .zero) "y" .one)
        (.call .memo "f" [.var "x", .var "y"]) = .ok .one ∧
    eval (Table.ofList rereading) 2 spot (fun _ => .one)
        (.call .memo "f" [.var "x", .var "y"]) = .ok .zero := ⟨by rfl, by rfl⟩

end StrictnessAnalysis.Abstract
