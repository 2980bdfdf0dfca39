/-! Least fixed points over a finite domain, by iteration. A recursive function is given by a
functional: its value at a point, a tuple of domain members, in terms of what is known of its values
at all points. Starting from bottom everywhere, rounds compute the values at all points anew until
nothing changes.

The functional may have effects: the solver runs in any monad. -/

namespace StrictnessAnalysis.Solver

variable {m : Type → Type} [Monad m] {α : Type} [DecidableEq α]

/-- All tuples of `n` members of the domain, the last place varying fastest. Members that the domain
lists twice are taken twice. -/
def points (domain : List α) : Nat → List (List α)
  | 0 => [[]]
  | n + 1 =>
    let rest := points domain n
    domain.flatMap fun a => rest.map (a :: ·)

/-- The values found at the points, in the order of the points. -/
abbrev Values (α : Type) := List (List α × α)

/-- Why no value was found: the rounds ran out, or the arguments are no point. -/
inductive Fault (α : Type)
  | diverged
  | outside (args : List α)

/-- Each point can rise once for every member of the domain but bottom, and one more round finds
that nothing rose. -/
def roundLimit (domain : List α) (arity : Nat) : Nat :=
  let size := (points domain arity).length
  size * domain.length + 1 - size

/-- The values at all points, each computed from the values of the round before. -/
def round (functional : List α → (List α → Option α) → m α) (values : Values α) : m (Values α) :=
  values.mapM fun (point, _) => do
    return (point, ← functional point fun key => values.lookup key)

/-- Runs rounds until one changes nothing, `limit` rounds at most. -/
def stabilize (functional : List α → (List α → Option α) → m α) :
    (limit : Nat) → Values α → m (Option (Values α))
  | 0, _ => return none
  | limit + 1, values => do
    let next ← round functional values
    if next = values then return some values else stabilize functional limit next

/-- The value of the least fixed point of the functional at `args`. -/
def solve (functional : List α → (List α → Option α) → m α) (domain : List α) (bottom : α)
    (args : List α) : m (Except (Fault α) α) := do
  let start := (points domain args.length).map fun point => (point, bottom)
  match ← stabilize functional (roundLimit domain args.length) start with
  | none => return .error .diverged
  | some values =>
    match values.lookup args with
    | none => return .error (.outside args)
    | some a => return .ok a

end StrictnessAnalysis.Solver
