import Mathlib.Order.Bounds.Defs
import StrictnessAnalysis.Proofs.Iteration

/-! The solver finds least fixed points within its round limit. What the rounds iterate are
assignments, which give every point a member of the domain and are ordered point by point. A
functional that answers members of the domain, and larger ones when it is told of a larger
assignment, has a least fixed point among them, and the rounds reach it from bottom before the
limit. How its values at different points compare does not matter. -/

namespace StrictnessAnalysis.Solver

variable {α : Type} {domain : List α} {n : Nat}

/-- A member of the domain for every point. -/
abbrev Assignment (domain : List α) (n : Nat) : Type :=
  {p : List α // p ∈ points domain n} → {a : α // a ∈ domain}

namespace Assignment

/-- The values of a function at the points. -/
def ofFunction (f : List α → α) (hf : ∀ p ∈ points domain n, f p ∈ domain) : Assignment domain n :=
  fun p => ⟨f p, hf p p.2⟩

variable [DecidableEq α]

/-- What a round is told of an assignment: the value at the key if it is a point, and nothing
else. -/
def lookup (T : Assignment domain n) (key : List α) : Option α :=
  ((points domain n).attach.find? fun p => p.1 = key).map fun p => (T p).1

theorem lookup_of_mem (T : Assignment domain n) {key : List α} (h : key ∈ points domain n) :
    T.lookup key = some (T ⟨key, h⟩).1 := by
  unfold lookup
  cases hfind : (points domain n).attach.find? fun p => p.1 = key with
  | none => simpa using List.find?_eq_none.1 hfind ⟨key, h⟩ (List.mem_attach _ _)
  | some p =>
    obtain rfl : p.1 = key := by simpa using List.find?_some hfind
    rfl

theorem lookup_of_not_mem (T : Assignment domain n) {key : List α} (h : key ∉ points domain n) :
    T.lookup key = none := by
  rw [lookup, Option.map_eq_none_iff, List.find?_eq_none]
  rintro p - hp
  obtain rfl : p.1 = key := by simpa using hp
  exact h p.2

/-- The assignment as a function on all lists, with a value for those that are no points. -/
def extend (T : Assignment domain n) (outside : α) : List α → α :=
  fun key => (T.lookup key).getD outside

theorem extend_apply (T : Assignment domain n) (outside : α) {key : List α}
    (h : key ∈ points domain n) : T.extend outside key = T ⟨key, h⟩ := by
  rw [extend, T.lookup_of_mem h, Option.getD_some]

theorem extend_mem {outside : α} (T : Assignment domain n) (hout : outside ∈ domain)
    (key : List α) : T.extend outside key ∈ domain := by
  by_cases h : key ∈ points domain n
  · rw [T.extend_apply outside h]
    exact (T ⟨key, h⟩).2
  · rwa [extend, T.lookup_of_not_mem h]

theorem extend_le [PartialOrder α] {T T' : Assignment domain n} (hle : T ≤ T') (outside : α)
    (key : List α) : T.extend outside key ≤ T'.extend outside key := by
  by_cases h : key ∈ points domain n
  · rw [T.extend_apply outside h, T'.extend_apply outside h]
    exact hle ⟨key, h⟩
  · rw [extend, extend, T.lookup_of_not_mem h, T'.lookup_of_not_mem h]

theorem known_extend (T : Assignment domain n) (outside : α) :
    known (points domain n) (T.extend outside) = T.lookup := by
  funext key
  unfold known
  split_ifs with h
  · rw [T.extend_apply outside h, T.lookup_of_mem h]
  · rw [T.lookup_of_not_mem h]

theorem lookup_ofFunction {f : List α → α} (hf : ∀ p ∈ points domain n, f p ∈ domain) :
    lookup (ofFunction f hf) = known (points domain n) f := by
  funext key
  unfold known
  split_ifs with h
  · rw [lookup_of_mem _ h, ofFunction]
  · rw [lookup_of_not_mem _ h]

end Assignment

variable [DecidableEq α] [PartialOrder α] {bottom : α} {F : List α → (List α → Option α) → α}

/-- A functional that keeps to the domain and is monotone in the assignment makes rounds ascend. -/
theorem ascending_of_monotone (hbottom : IsLeast {a | a ∈ domain} bottom)
    (hmember : ∀ (T : Assignment domain n), ∀ p ∈ points domain n, F p T.lookup ∈ domain)
    (hmono : ∀ p ∈ points domain n, Monotone fun T : Assignment domain n => F p T.lookup) :
    Ascending F domain bottom n (fun f => ∀ p ∈ points domain n, f p ∈ domain) where
  bottom_le a ha := hbottom.2 ha
  start _ _ := hbottom.1
  step f hf p hp := by
    rw [improve, ← Assignment.lookup_ofFunction hf]
    exact hmember _ p hp
  member f hf := hf
  mono f g hf hg hle p hp := by
    rw [improve, improve, ← Assignment.lookup_ofFunction hf, ← Assignment.lookup_ofFunction hg]
    exact hmono p hp fun q => hle q q.2

/-- Whatever the order of the domain, the number of arguments and the monotone functional, the
solver does not run out of rounds, and it answers the value at the arguments of the least assignment
that the functional leaves as it is. -/
theorem solve_isLeast_fixedPoint {m : Type → Type} [Monad m] [LawfulMonad m] (args : List α)
    (hbottom : IsLeast {a | a ∈ domain} bottom) (hargs : ∀ a ∈ args, a ∈ domain)
    (hmember : ∀ (T : Assignment domain args.length), ∀ p ∈ points domain args.length,
      F p T.lookup ∈ domain)
    (hmono : ∀ p ∈ points domain args.length,
      Monotone fun T : Assignment domain args.length => F p T.lookup) :
    ∃ T : Assignment domain args.length,
      IsLeast {T : Assignment domain args.length | ∀ p, (T p).1 = F p T.lookup} T ∧
      solve (fun point lookup => pure (F point lookup)) domain bottom args =
        (pure (.ok (T ⟨args, mem_points.2 ⟨rfl, hargs⟩⟩).1) : m (Except (Fault α) α)) := by
  have hascending := ascending_of_monotone hbottom hmember hmono
  have hleast : ∀ p ∈ points domain args.length,
      least F domain bottom args.length p ∈ domain := hascending.invariant _
  refine ⟨.ofFunction (least F domain bottom args.length) hleast,
    ⟨fun p => ?_, fun T hT p => ?_⟩, ?_⟩
  · rw [Assignment.lookup_ofFunction hleast]
    exact hascending.least_fixed p p.2
  · -- another fixed point, read as a function, is something that a round does not raise
    have hpre : ∀ q ∈ points domain args.length,
        improve F (points domain args.length) (T.extend bottom) q ≤ T.extend bottom q := by
      intro q hq
      rw [improve, T.known_extend, T.extend_apply bottom hq]
      exact (hT ⟨q, hq⟩).ge
    have hle : least F domain bottom args.length p ≤ T.extend bottom p :=
      hascending.approximation_le (fun q _ => T.extend_mem hbottom.1 q) hpre _ p p.2
    exact hle.trans_eq (T.extend_apply bottom p.2)
  · exact hascending.solve_eq hargs fun _ _ => rfl

/-- Each point takes over the value of the next higher one, and the highest takes that of the
lowest, one step higher. -/
def relay (point : List Nat) (lookup : List Nat → Option Nat) : Nat :=
  match point with
  | [2] => min 2 ((lookup [0]).getD 0 + 1)
  | [1] => (lookup [2]).getD 0
  | _ => (lookup [1]).getD 0

theorem relay_solved :
    ∃ T : Assignment (List.range 3) 1,
      IsLeast {T : Assignment (List.range 3) 1 | ∀ p, (T p).1 = relay p T.lookup} T ∧
      (T ⟨[1], by decide⟩).1 = 2 := by
  have hbottom : IsLeast {a | a ∈ List.range 3} 0 :=
    ⟨List.mem_range.2 (by omega), fun a _ => Nat.zero_le a⟩
  have hmember : ∀ (T : Assignment (List.range 3) 1), ∀ p ∈ points (List.range 3) 1,
      relay p T.lookup ∈ List.range 3 := by
    intro T p _
    have hvalue : ∀ key, T.extend 0 key < 3 := fun key =>
      List.mem_range.1 (T.extend_mem hbottom.1 key)
    rw [List.mem_range]
    unfold relay
    split
    · omega
    · exact hvalue [2]
    · exact hvalue [1]
  have hmono : ∀ p ∈ points (List.range 3) 1,
      Monotone fun T : Assignment (List.range 3) 1 => relay p T.lookup := by
    intro p _ T T' hle
    have hvalue : ∀ key, (T.lookup key).getD 0 ≤ (T'.lookup key).getD 0 :=
      Assignment.extend_le hle 0
    show relay p T.lookup ≤ relay p T'.lookup
    unfold relay
    split
    · have := hvalue [0]
      omega
    · exact hvalue [2]
    · exact hvalue [1]
  have hrun : solve (m := Id) (fun point lookup => pure (relay point lookup)) (List.range 3) 0 [1] =
      .ok 2 := by rfl
  obtain ⟨T, hT, hsolve⟩ := solve_isLeast_fixedPoint (m := Id) [1] hbottom (by decide) hmember hmono
  exact ⟨T, hT, Except.ok.inj (hsolve.symm.trans hrun)⟩

-- every round of the relay but the last raises one point by one step, so it needs all its rounds
example : stabilize (m := Id) (fun point lookup => pure (relay point lookup))
    (roundLimit (List.range 3) 1 - 1) [([0], 0), ([1], 0), ([2], 0)] = none := by rfl

end StrictnessAnalysis.Solver
