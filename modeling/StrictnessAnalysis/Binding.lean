/-! Environments, frames and memo tables are functions from keys to values: what is not bound has a
value of its own, the value of absence. They are built from lists of bindings, in which a later
binding of a key wins over an earlier one. -/

namespace StrictnessAnalysis

variable {κ α : Type} [DecidableEq κ]

/-- The view `base` with one key bound anew. -/
def assign (base : κ → α) (key : κ) (value : α) : κ → α :=
  fun k => if k = key then value else base k

/-- The view `base` overridden by the bindings from left to right. -/
def override (base : κ → α) (bindings : List (κ × α)) : κ → α :=
  bindings.foldl (fun view b => assign view b.1 b.2) base

/-- What a call sees: each parameter bound to its argument. Extra arguments are dropped, and a
parameter without an argument is absent. -/
def frame (absent : α) (params : List String) (args : List α) : String → α :=
  override (fun _ => absent) (params.zip args)

@[simp] theorem assign_self (base : κ → α) (key : κ) (value : α) :
    assign base key value key = value := if_pos rfl

theorem assign_of_ne (base : κ → α) {k key : κ} (value : α) (h : k ≠ key) :
    assign base key value k = base k := if_neg h

@[simp] theorem override_nil (base : κ → α) : override base [] = base := rfl

@[simp] theorem override_cons (base : κ → α) (b : κ × α) (bs : List (κ × α)) :
    override base (b :: bs) = override (assign base b.1 b.2) bs := rfl

end StrictnessAnalysis
