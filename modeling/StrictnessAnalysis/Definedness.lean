/-! The two-point domain of definedness. `zero` says that a value is certainly undefined, `one` that
it may be defined; `zero ≤ one`. Meet and join are the lattice operations, and a value of the
standard semantics is abstracted to the least point that describes it. -/

namespace StrictnessAnalysis

inductive Definedness
  | zero
  | one
  deriving DecidableEq

namespace Definedness

/-- Every point of the domain, least first. -/
def all : List Definedness := [.zero, .one]

def rank : Definedness → Nat
  | .zero => 0
  | .one => 1

instance : LE Definedness := ⟨fun a b => a.rank ≤ b.rank⟩

instance (a b : Definedness) : Decidable (a ≤ b) := inferInstanceAs (Decidable (a.rank ≤ b.rank))

def meet : Definedness → Definedness → Definedness
  | .one, .one => .one
  | _, _ => .zero

def join : Definedness → Definedness → Definedness
  | .zero, .zero => .zero
  | _, _ => .one

/-- The least point that describes a value: an undefined one is certainly undefined. -/
def ofValue : Option Int → Definedness
  | none => .zero
  | some _ => .one

def name : Definedness → String
  | .zero => "ZERO"
  | .one => "ONE"

@[simp] theorem rank_zero : rank .zero = 0 := rfl

@[simp] theorem rank_one : rank .one = 1 := rfl

theorem mem_all (a : Definedness) : a ∈ all := by cases a <;> simp [all]

end Definedness

end StrictnessAnalysis
