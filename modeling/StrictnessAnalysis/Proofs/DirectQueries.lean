import Mathlib.Data.Nat.Find
import StrictnessAnalysis.Proofs.Equations

/-! Queries beside direct evaluation. Direct evaluation enters every call of a program of plain
calls, and may never end; a query solves the functions instead, and always ends. Where direct
evaluation ends, no function is entered while it is already running, so what the memo table of a
function under solution holds does not matter, and the two differ only where the query takes a call
into the ring to be anything. -/

namespace StrictnessAnalysis

open Abstract

namespace Definedness

/-- A relation between points that meets and joins carry on. -/
structure Compatible (R : Definedness → Definedness → Prop) : Prop where
  refl : ∀ a, R a a
  meet : ∀ {a a' b b'}, R a a' → R b b' → R (a.meet b) (a'.meet b')
  join : ∀ {a a' b b'}, R a a' → R b b' → R (a.join b) (a'.join b')

theorem compatible_eq : Compatible (· = ·) where
  refl _ := rfl
  meet ha hb := by rw [ha, hb]
  join ha hb := by rw [ha, hb]

theorem compatible_le : Compatible (· ≤ ·) where
  refl _ := le_rfl
  meet ha hb := by
    rw [le_iff, meet_eq_one, meet_eq_one]
    exact And.imp (le_iff.1 ha) (le_iff.1 hb)
  join ha hb := by
    rw [le_iff, join_eq_one, join_eq_one]
    exact Or.imp (le_iff.1 ha) (le_iff.1 hb)

theorem Compatible.foldl_meet {R : Definedness → Definedness → Prop} (hR : Compatible R)
    {xs ys : List Definedness} (h : List.Forall₂ R xs ys) {a b : Definedness} (hab : R a b) :
    R (xs.foldl Definedness.meet a) (ys.foldl Definedness.meet b) := by
  induction h generalizing a b with
  | nil => exact hab
  | cons hxy _ ih => exact ih (hR.meet hab hxy)

end Definedness

namespace Abstract

variable {t : Table} {depth : Nat} {e : Expr}

theorem Fits.exists_least (h : Fits t depth e) :
    ∃ least ≤ depth, Fits t least e ∧ ∀ less < least, ¬ Fits t less e := by
  classical
  have hsome : ∃ depth, Fits t depth e := ⟨depth, h⟩
  exact ⟨Nat.find hsome, Nat.find_min' hsome h, Nat.find_spec hsome, fun _ => Nat.find_min hsome⟩

/-- No depth below this one suffices for the body of the function. So the function is not entered
again by what fits the depth. -/
def Tight (t : Table) (depth : Nat) (inside : Option String) : Prop :=
  ∀ name ∈ inside, ∃ f, t.find? name = some f ∧ ∀ less < depth, ¬ Fits t less f.body

theorem Tight.of_succ {inside : Option String} (h : Tight t (depth + 1) inside) :
    Tight t depth inside := by
  intro name hname
  obtain ⟨f, hf, hnot⟩ := h name hname
  exact ⟨f, hf, fun less hless => hnot less (Nat.lt_succ_of_lt hless)⟩

theorem Tight.ne {inside : Option String} (h : Tight t (depth + 1) inside) {name : String}
    {f : Definition} (hf : t.find? name = some f) (hbody : Fits t depth f.body) :
    inside ≠ some name := by
  rintro rfl
  obtain ⟨g, hg, hnot⟩ := h name rfl
  obtain rfl : f = g := Option.some.inj (hf.symm.trans hg)
  exact hnot depth (Nat.lt_succ_self depth) hbody

end Abstract

namespace Analysis

variable {t : Table} {enough depth : Nat} {R : Definedness → Definedness → Prop}
  {inside : Option String} {memo : Memo} {solved : Family} {name : String}
  {args : List Definedness}

theorem family_of_find?_eq_none (hf : t.find? name = none) (hinside : Tight t depth inside) :
    (ofTable t).family inside memo solved name args = .zero := by
  have hdef : ¬ t.defines name = true := by simp [Table.find?_eq_none_iff.1 hf]
  have hself : inside ≠ some name := by
    rintro rfl
    obtain ⟨f, hf', -⟩ := hinside name rfl
    exact hdef (Table.defines_iff.2 ⟨f, hf'⟩)
  rw [family, if_neg fun hmem => hdef (defines_of_mem_ring hmem), if_neg hself]
  exact if_neg hdef

theorem family_of_find? {f : Definition} (hf : t.find? name = some f)
    (hring : name ∉ (ofTable t).ring) (hself : inside ≠ some name) :
    (ofTable t).family inside memo solved name args = solved name args := by
  rw [family, if_neg hring, if_neg hself]
  exact if_pos (Table.defines_iff.2 ⟨f, hf⟩)

/-- Up to the relation, direct evaluation at the depth finds what a query takes expressions to
mean. -/
def AgreesAt (t : Table) (enough : Nat) (R : Definedness → Definedness → Prop) (depth : Nat) :
    Prop :=
  ∀ (e : Expr) (inside : Option String) (memo memo' : Memo) (env env' : Env), e.Plain →
    Fits t depth e → Tight t depth inside → (∀ x, R (env x) (env' x)) →
    R (value t depth memo env e)
      (e.meaning ((ofTable t).family inside memo' ((ofTable t).solved enough)) env')

/-- To enter a function is to take its solution, or to know less of it. -/
theorem rel_family (h : (ofTable t).Settled enough) (hR : Definedness.Compatible R)
    (hring : ∀ name ∈ (ofTable t).ring, ∀ v, R v .one)
    (hagrees : ∀ less ≤ depth, AgreesAt t enough R less) {f : Definition}
    (hf : t.find? name = some f) (hbody : Fits t depth f.body) (hself : inside ≠ some name)
    {args args' : List Definedness} (hargs : List.Forall₂ R args args') :
    R (value t depth Memo.empty (frame .zero f.params args) f.body)
      ((ofTable t).family inside memo ((ofTable t).solved enough) name args') := by
  by_cases hmem : name ∈ (ofTable t).ring
  · rw [family, if_pos hmem]
    exact hring name hmem _
  · -- the least depth for the body is tight, so its solution reads nothing from its memo table
    obtain ⟨least, hle, hleast, hmin⟩ := hbody.exists_least
    rw [family_of_find? hf hmem hself, solved_fixed h hf hmem, value_eq_of_fits hbody hleast]
    refine hagrees least hle f.body (some name) _ _ _ _ (h.plain f (Table.find?_eq_some_iff.1 hf).1)
      hleast ?_ (frame_rel (hR.refl _) f.params hargs)
    rintro name ⟨⟩
    exact ⟨f, hf, hmin⟩

theorem agreesAt (h : (ofTable t).Settled enough) (hR : Definedness.Compatible R)
    (hring : ∀ name ∈ (ofTable t).ring, ∀ v, R v .one) (depth : Nat) :
    AgreesAt t enough R depth := by
  induction depth using Nat.strong_induction_on with
  | _ depth ih =>
    intro e inside memo memo' env env' he hfits hinside henv
    obtain ⟨depth, rfl⟩ := hfits.exists_succ
    have hpart : ∀ part : Expr, part.Plain → Fits t depth part →
        R (value t depth memo env part)
          (part.meaning ((ofTable t).family inside memo' ((ofTable t).solved enough)) env') :=
      fun part hplain hpart => ih depth (Nat.lt_succ_self depth) part inside memo memo' env env'
        hplain hpart hinside.of_succ henv
    have hall : ∀ {args : List Expr}, (∀ a ∈ args, a.Plain) → (∀ a ∈ args, Fits t depth a) →
        List.Forall₂ R (args.map (value t depth memo env)) (Expr.meaningAll
          ((ofTable t).family inside memo' ((ofTable t).solved enough)) env' args) := by
      intro args hplain hargs
      rw [Expr.meaningAll_eq_map, List.forall₂_map_left_iff, List.forall₂_map_right_iff,
        List.forall₂_same]
      exact fun a ha => hpart a (hplain a ha) (hargs a ha)
    cases e with
    | const n => exact hR.refl _
    | var x => exact henv x
    | cond test yes no =>
      rw [Expr.Plain, Expr.forall_callSites_cond] at he
      exact hR.meet (hpart test he.1 hfits.1)
        (hR.join (hpart yes he.2.1 hfits.2.1) (hpart no he.2.2 hfits.2.2))
    | basic operator args =>
      rw [Expr.Plain, Expr.forall_callSites_basic] at he
      rw [value, Expr.meaning]
      cases hop : Operator.ofName? operator with
      | none => exact hR.refl _
      | some op => exact hR.foldl_meet (hall he (hfits (by simp [hop]))) (hR.refl _)
    | call mode callee args =>
      rw [Expr.Plain, Expr.forall_callSites_call] at he
      obtain rfl : mode = .plain := he.1
      rw [value, Expr.meaning]
      cases hf : t.find? callee with
      | none =>
        rw [family_of_find?_eq_none hf hinside]
        exact hR.refl _
      | some f =>
        obtain ⟨hargs, hbody⟩ := hfits f hf
        exact rel_family h hR hring (fun less hless => ih less (Nat.lt_succ_of_le hless)) hf
          (hbody (by simp)) (hinside.ne hf (hbody (by simp))) (hall he.2 hargs)

/-- Wherever direct evaluation ends, so does the query, with a value that is never below the direct
one, and equal to it if no functions call each other. -/
theorem query_of_direct_eval (defs : List Definition)
    (hplain : ∀ f ∈ (Table.ofList defs).entries, f.body.Plain) {e : Expr} (he : e.Plain) {env : Env}
    {depth : Nat} {v : Definedness}
    (heval : eval (Table.ofList defs) depth Memo.empty env e = .ok v) :
    ∃ q enough, (∀ depth' ≥ enough, (ofTable (Table.ofList defs)).query depth' env e = .ok q) ∧
      v ≤ q ∧ ((ofTable (Table.ofList defs)).ring = [] → q = v) := by
  obtain ⟨enough, hsettled⟩ := exists_settled hplain
  obtain ⟨enough', hquery⟩ := hsettled.exists_query he
  obtain ⟨q, hq⟩ := hquery env
  obtain ⟨hfits, rfl⟩ := eval_eq_ok_iff.1 heval
  have hmeaning := query_eq_meaning hsettled he (hq enough' le_rfl)
  have hinside : Tight (Table.ofList defs) depth none := by simp [Tight]
  refine ⟨q, enough', hq, ?_, fun hring => ?_⟩
  · rw [hmeaning]
    exact agreesAt hsettled Definedness.compatible_le (fun _ _ => Definedness.le_one) depth e none
      _ _ _ _ he hfits hinside fun _ => le_rfl
  · rw [hmeaning]
    exact (agreesAt hsettled Definedness.compatible_eq (by simp [hring]) depth e none
      _ _ _ _ he hfits hinside fun _ => rfl).symm

/-- A function that would call itself where nothing is evaluated, and one that calls it with an
argument too many. -/
def sheltering : List Definition :=
  [⟨"twice", ["n"], .cond (.const 1) (.basic "add" [.var "n", .var "n"])
      (.call .plain "nowhere" [.call .plain "twice" [.var "n"]])⟩,
    ⟨"pick", ["x", "y"], .cond (.var "x") (.var "y") (.call .plain "twice" [.var "y", .const 9])⟩]

theorem sheltered_query :
    eval (Table.ofList sheltering) 7 Memo.empty (assign (fun _ => .zero) "x" .one)
        (.call .plain "pick" [.call .plain "twice" [.var "x"], .const 5]) = .ok .one ∧
    ∃ enough, ∀ depth ≥ enough, (ofTable (Table.ofList sheltering)).query depth
      (assign (fun _ => .zero) "x" .one)
      (.call .plain "pick" [.call .plain "twice" [.var "x"], .const 5]) = .ok .one := by
  have heval : eval (Table.ofList sheltering) 7 Memo.empty (assign (fun _ => .zero) "x" .one)
      (.call .plain "pick" [.call .plain "twice" [.var "x"], .const 5]) = .ok .one := by rfl
  obtain ⟨q, enough, hq, -, heq⟩ := query_of_direct_eval sheltering (by decide) (by decide) heval
  obtain rfl : q = .one := heq (by decide)
  exact ⟨heval, enough, hq⟩

-- two functions that call each other, though only where nothing is evaluated
example :
    let defs : List Definition := [⟨"even", ["n"], .cond (.var "n") (.var "n")
      (.call .plain "nowhere" [.call .plain "odd" []])⟩, ⟨"odd", [], .call .plain "even" []⟩]
    eval (Table.ofList defs) 4 Memo.empty (fun _ => .zero) (.call .plain "even" [.var "x"]) =
        .ok .zero ∧
      (ofTable (Table.ofList defs)).query 4 (fun _ => .zero) (.call .plain "even" [.var "x"]) =
        .ok .one := ⟨by rfl, by rfl⟩

end Analysis

end StrictnessAnalysis
