import StrictnessAnalysis.Abstract
import StrictnessAnalysis.Proofs.CallSites
import StrictnessAnalysis.Standard

/-! What a table is for, beyond the order of its entries. A list of definitions gives every name its
last definition, and both semantics see a table only through the look-up of names. So whatever the
list, evaluation depends on these last definitions alone. -/

namespace StrictnessAnalysis

/-- The definition that counts for a name, which is the last one in the list. -/
def Definition.last? (defs : List Definition) (name : String) : Option Definition :=
  defs.reverse.find? fun f => f.name == name

namespace Table

theorem find?_put (entries : List Definition) (f : Definition) (name : String) :
    (put entries f).find? (fun g => g.name == name) =
      if f.name = name then some f else entries.find? fun g => g.name == name := by
  induction entries with
  | nil => by_cases h : f.name = name <;> simp [put, h]
  | cons g rest ih =>
    by_cases hgf : g.name = f.name
    · by_cases h : f.name = name <;> simp [put, hgf, h]
    · rw [put, if_neg hgf]
      by_cases hg : g.name = name
      · have hf : f.name ≠ name := fun e => hgf (hg.trans e.symm)
        simp [hg, hf]
      · simpa [hg] using ih

theorem find?_insert (t : Table) (f : Definition) (name : String) :
    (t.insert f).find? name = if f.name = name then some f else t.find? name :=
  find?_put t.entries f name

theorem find?_foldl_insert (defs : List Definition) (t : Table) (name : String) :
    (defs.foldl insert t).find? name = (Definition.last? defs name).or (t.find? name) := by
  induction defs generalizing t with
  | nil => rfl
  | cons f defs ih =>
    rw [List.foldl_cons, ih, find?_insert, Definition.last?, Definition.last?, List.reverse_cons,
      List.find?_append]
    by_cases h : f.name = name <;> simp [h]

/-- The table of a list of definitions has the last one of each name. -/
theorem find?_ofList (defs : List Definition) (name : String) :
    (ofList defs).find? name = Definition.last? defs name := by
  rw [ofList, find?_foldl_insert]
  exact Option.or_none

theorem defines_congr {t t' : Table} (h : ∀ name, t.find? name = t'.find? name) (name : String) :
    t.defines name = t'.defines name := by
  rw [Bool.eq_iff_iff, defines_iff, defines_iff, h]

end Table

/-- The standard semantics sees a table only through the look-up of names. -/
theorem Standard.eval_congr {t t' : Table} (h : ∀ name, t.find? name = t'.find? name)
    (depth : Nat) : eval t depth = eval t' depth := by
  induction depth with
  | zero =>
    funext env e
    rfl
  | succ depth ih =>
    funext env e
    cases e with
    | const n => rfl
    | var x => rfl
    | cond test yes no => simp only [eval, ih]
    | basic operator args => simp only [eval, ih]
    | call mode callee args => simp only [eval, ih, h]

/-- The abstract semantics sees a table only through the look-up of names. -/
theorem Abstract.eval_congr {t t' : Table} (h : ∀ name, t.find? name = t'.find? name)
    (depth : Nat) : eval t depth = eval t' depth := by
  induction depth with
  | zero =>
    funext memo env e
    rfl
  | succ depth ih =>
    funext memo env e
    cases e with
    | const n => rfl
    | var x => rfl
    | cond test yes no => simp only [eval, ih]
    | basic operator args => simp only [eval, ih]
    | call mode callee args => simp only [eval, ih, h]

theorem Abstract.solve_congr {t t' : Table} (h : ∀ name, t.find? name = t'.find? name)
    (depth : Nat) : solve t depth = solve t' depth := by
  funext f args
  simp only [solve, apply, eval_congr h]

end StrictnessAnalysis
