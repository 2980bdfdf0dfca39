import Mathlib.Algebra.GroupWithZero.Nat
import Mathlib.Algebra.Order.BigOperators.Group.List
import Mathlib.Algebra.Order.Group.Nat
import Mathlib.Data.Finset.Card
import Mathlib.Order.Basic
import StrictnessAnalysis.Proofs.Actions
import StrictnessAnalysis.Solver

/-! Iteration without effects. The rounds of the solver are followed on total functions: the `k`-th
approximation is what `k` rounds make of bottom everywhere. When the functional is monotone on the
tables that an invariant describes, each round that changes something raises some point, so the
round limit suffices: the approximation reached there is a fixed point, it is the least one, and it
is what the solver answers in any monad in which the functional has no effect. -/

namespace StrictnessAnalysis.Solver

variable {α : Type} [DecidableEq α]

omit [DecidableEq α] in
theorem mem_points {domain : List α} {n : Nat} {p : List α} :
    p ∈ points domain n ↔ p.length = n ∧ ∀ a ∈ p, a ∈ domain := by
  induction n generalizing p with
  | zero => cases p <;> simp [points]
  | succ n ih =>
    cases p with
    | nil => simp [points]
    | cons a p => simp [points, ih, and_left_comm]

/-- What a round is told of the function `f`: its values at the points. -/
def known (ps : List (List α)) (f : List α → α) : List α → Option α :=
  fun key => if key ∈ ps then some (f key) else none

/-- The values of a function at the points. -/
def tabulate (ps : List (List α)) (f : List α → α) : Values α := ps.map fun p => (p, f p)

theorem lookup_tabulate (ps : List (List α)) (f : List α → α) :
    (fun key => (tabulate ps f).lookup key) = known ps f := by
  funext key
  induction ps with
  | nil => rfl
  | cons p ps ih =>
    by_cases h : key = p
    · subst h
      simp [tabulate, known]
    · have hb : (key == p) = false := by simpa using h
      simp only [tabulate, List.map_cons, List.lookup_cons, hb] at ih ⊢
      rw [ih]
      simp [known, h]

omit [DecidableEq α] in
theorem tabulate_eq_iff {ps : List (List α)} {f g : List α → α} :
    tabulate ps f = tabulate ps g ↔ ∀ p ∈ ps, f p = g p := by
  simp [tabulate, List.map_inj_left]

theorem known_congr {ps : List (List α)} {f g : List α → α} (h : ∀ p ∈ ps, f p = g p) :
    known ps f = known ps g := by
  funext key
  unfold known
  split_ifs with hk
  · rw [h key hk]
  · rfl

/-- One round: every value computed anew. -/
def improve (F : List α → (List α → Option α) → α) (ps : List (List α)) (f : List α → α) :
    List α → α :=
  fun p => F p (known ps f)

/-- What `k` rounds make of bottom everywhere. -/
def approximation (F : List α → (List α → Option α) → α) (ps : List (List α)) (bottom : α) :
    Nat → List α → α
  | 0 => fun _ => bottom
  | k + 1 => improve F ps (approximation F ps bottom k)

/-- The approximation reached by as many rounds as the solver may take. -/
def least (F : List α → (List α → Option α) → α) (domain : List α) (bottom : α) (n : Nat) :
    List α → α :=
  approximation F (points domain n) bottom (roundLimit domain n)

section Stable

variable {F : List α → (List α → Option α) → α} {ps : List (List α)} {bottom : α} {k : Nat}

/-- Another round would change nothing. -/
def Stable (F : List α → (List α → Option α) → α) (ps : List (List α)) (bottom : α) (k : Nat) :
    Prop :=
  ∀ p ∈ ps, approximation F ps bottom (k + 1) p = approximation F ps bottom k p

theorem Stable.agree (h : Stable F ps bottom k) (j : Nat) :
    ∀ p ∈ ps, approximation F ps bottom (k + j) p = approximation F ps bottom k p := by
  induction j with
  | zero => exact fun _ _ => rfl
  | succ j ih =>
    intro p hp
    have hround : approximation F ps bottom (k + (j + 1)) p = approximation F ps bottom (k + 1) p :=
      congrArg (F p) (known_congr ih)
    rw [hround, h p hp]

theorem Stable.agree_of_le (h : Stable F ps bottom k) {j : Nat} (hj : k ≤ j) :
    ∀ p ∈ ps, approximation F ps bottom j p = approximation F ps bottom k p := by
  obtain ⟨i, rfl⟩ := Nat.exists_eq_add_of_le hj
  exact h.agree i

theorem Stable.of_le (h : Stable F ps bottom k) {j : Nat} (hj : k ≤ j) : Stable F ps bottom j :=
  fun p hp => by rw [h.agree_of_le (by omega) p hp, h.agree_of_le hj p hp]

end Stable

/-! ### Runs of the solver -/

section Run

variable {m : Type → Type} [Monad m] [LawfulMonad m]
  {functional : List α → (List α → Option α) → m α} {F : List α → (List α → Option α) → α}
  {ps : List (List α)} {bottom : α}

theorem round_tabulate {f : List α → α}
    (h : ∀ p ∈ ps, functional p (known ps f) = pure (F p (known ps f))) :
    round functional (tabulate ps f) = pure (tabulate ps (improve F ps f)) := by
  have hrow : ∀ row ∈ tabulate ps f,
      (do return (row.1, ← functional row.1 fun key => (tabulate ps f).lookup key) :
        m (List α × α)) = pure (row.1, improve F ps f row.1) := by
    intro row hr
    obtain ⟨p, hp, rfl⟩ := List.mem_map.1 hr
    rw [lookup_tabulate, h p hp, pure_bind]
    rfl
  unfold round
  rw [mapM_eq_pure hrow, tabulate, List.map_map]
  rfl

/-- From the `k`-th approximation on, the solver finds the approximation `N` at which the rounds
become stable, if the limit lets it get there. -/
theorem stabilize_tabulate {N : Nat} (hN : Stable F ps bottom N)
    (h : ∀ k, ∀ p ∈ ps, functional p (known ps (approximation F ps bottom k)) =
      pure (F p (known ps (approximation F ps bottom k)))) :
    ∀ limit k, k ≤ N → N < k + limit →
      stabilize functional limit (tabulate ps (approximation F ps bottom k)) =
        pure (some (tabulate ps (approximation F ps bottom N))) := by
  intro limit
  induction limit with
  | zero => intro k hk hlt; omega
  | succ limit ih =>
    intro k hk hlt
    simp only [stabilize, round_tabulate (h k), pure_bind]
    split_ifs with hnext
    · have hstable : Stable F ps bottom k := tabulate_eq_iff.1 hnext
      rw [tabulate_eq_iff.2 (hstable.agree_of_le hk)]
    · have hne : k ≠ N := by
        rintro rfl
        exact hnext (tabulate_eq_iff.2 hN)
      exact ih (k + 1) (by omega) (by omega)

theorem solve_eq_least {domain : List α} {args : List α} {N : Nat}
    (hN : Stable F (points domain args.length) bottom N) (hlt : N < roundLimit domain args.length)
    (hargs : ∀ a ∈ args, a ∈ domain)
    (h : ∀ k, ∀ p ∈ points domain args.length,
      functional p (known (points domain args.length)
          (approximation F (points domain args.length) bottom k)) =
        pure (F p (known (points domain args.length)
          (approximation F (points domain args.length) bottom k)))) :
    solve functional domain bottom args =
      pure (.ok (least F domain bottom args.length args)) := by
  have hmem : args ∈ points domain args.length := mem_points.2 ⟨rfl, hargs⟩
  have hrun := stabilize_tabulate hN h (roundLimit domain args.length) 0 (Nat.zero_le N) (by omega)
  have hlookup := congrFun (lookup_tabulate (points domain args.length)
    (approximation F (points domain args.length) bottom N)) args
  simp only [tabulate, approximation] at hrun hlookup
  simp only [solve, hrun, pure_bind, hlookup, known, if_pos hmem]
  rw [least, hN.agree_of_le hlt.le args hmem]

end Run

/-! ### Ascent -/

section Height

variable [PartialOrder α]

open scoped Classical in
/-- How many members of the domain lie strictly below `a`. -/
noncomputable def height (domain : List α) (a : α) : Nat :=
  (domain.toFinset.filter (· < a)).card

theorem height_lt {domain : List α} {a b : α} (ha : a ∈ domain) (h : a < b) :
    height domain a < height domain b := by
  classical
  apply Finset.card_lt_card
  rw [Finset.ssubset_iff_of_subset]
  · exact ⟨a, by simp [ha, h], by simp⟩
  · intro c hc
    rw [Finset.mem_filter] at hc ⊢
    exact ⟨hc.1, hc.2.trans h⟩

theorem height_le {domain : List α} {a : α} (ha : a ∈ domain) :
    height domain a + 1 ≤ domain.length := by
  classical
  have hss : domain.toFinset.filter (· < a) ⊂ domain.toFinset := by
    rw [Finset.ssubset_iff_of_subset (Finset.filter_subset _ _)]
    exact ⟨a, by simp [ha], by simp⟩
  have hcard := Finset.card_lt_card hss
  have hlen := List.toFinset_card_le domain
  unfold height
  omega

/-- The heights of the values of a function at the points, added up. -/
noncomputable def weight (domain : List α) (ps : List (List α)) (f : List α → α) : Nat :=
  (ps.map fun p => height domain (f p)).sum

theorem weight_le {domain : List α} {ps : List (List α)} {f : List α → α}
    (hf : ∀ p ∈ ps, f p ∈ domain) : weight domain ps f + ps.length ≤ ps.length * domain.length := by
  induction ps with
  | nil => simp [weight]
  | cons p ps ih =>
    rw [List.forall_mem_cons] at hf
    have hp := height_le hf.1
    have hps := ih hf.2
    simp only [weight, List.map_cons, List.sum_cons, List.length_cons, Nat.succ_mul] at hps ⊢
    omega

/-- A function that rises somewhere and falls nowhere gains weight. -/
theorem weight_lt {domain : List α} {ps : List (List α)} {f g : List α → α}
    (hf : ∀ p ∈ ps, f p ∈ domain) (h : ∀ p ∈ ps, f p ≤ g p) (hne : ∃ p ∈ ps, g p ≠ f p) :
    weight domain ps f < weight domain ps g := by
  obtain ⟨p, hp, hne⟩ := hne
  refine List.sum_lt_sum _ _ (fun q hq => ?_) ⟨p, hp, ?_⟩
  · rcases (h q hq).eq_or_lt with he | hlt
    · rw [he]
    · exact (height_lt (hf q hq) hlt).le
  · exact height_lt (hf p hp) (lt_of_le_of_ne (h p hp) hne.symm)

end Height

section Ascent

variable [PartialOrder α] {F : List α → (List α → Option α) → α} {domain : List α} {bottom : α}
  {n : Nat} {Inv : (List α → α) → Prop}

/-- What makes rounds ascend. The invariant holds of every approximation and keeps its values in the
domain, and a round is monotone from a function that has it to any other in the domain. -/
structure Ascending (F : List α → (List α → Option α) → α) (domain : List α) (bottom : α) (n : Nat)
    (Inv : (List α → α) → Prop) : Prop where
  bottom_le : ∀ a ∈ domain, bottom ≤ a
  start : Inv fun _ => bottom
  step : ∀ f, Inv f → Inv (improve F (points domain n) f)
  member : ∀ f, Inv f → ∀ p ∈ points domain n, f p ∈ domain
  mono : ∀ f g, Inv f → (∀ p ∈ points domain n, g p ∈ domain) →
    (∀ p ∈ points domain n, f p ≤ g p) →
    ∀ p ∈ points domain n, improve F (points domain n) f p ≤ improve F (points domain n) g p

namespace Ascending

theorem invariant (h : Ascending F domain bottom n Inv) (k : Nat) :
    Inv (approximation F (points domain n) bottom k) := by
  induction k with
  | zero => exact h.start
  | succ k ih => exact h.step _ ih

theorem le_succ (h : Ascending F domain bottom n Inv) (k : Nat) :
    ∀ p ∈ points domain n, approximation F (points domain n) bottom k p ≤
      approximation F (points domain n) bottom (k + 1) p := by
  induction k with
  | zero => exact fun p hp => h.bottom_le _ (h.member _ (h.invariant 1) p hp)
  | succ k ih => exact h.mono _ _ (h.invariant k) (h.member _ (h.invariant (k + 1))) ih

/-- As long as every round changed something, the weight is at least the number of rounds. -/
theorem le_weight (h : Ascending F domain bottom n Inv) (k : Nat)
    (hk : ∀ j < k, ¬ Stable F (points domain n) bottom j) :
    k ≤ weight domain (points domain n) (approximation F (points domain n) bottom k) := by
  induction k with
  | zero => exact Nat.zero_le _
  | succ k ih =>
    have hprev := ih fun j hj => hk j (by omega)
    have hrise : ∃ p ∈ points domain n, approximation F (points domain n) bottom (k + 1) p ≠
        approximation F (points domain n) bottom k p := by
      simpa [Stable] using hk k (by omega)
    have hlt := weight_lt (h.member _ (h.invariant k)) (h.le_succ k) hrise
    omega

/-- The rounds become stable before the limit. -/
theorem exists_stable (h : Ascending F domain bottom n Inv) :
    ∃ k, k < roundLimit domain n ∧ Stable F (points domain n) bottom k := by
  by_contra hnone
  simp only [not_exists, not_and] at hnone
  have hlow := h.le_weight (roundLimit domain n) hnone
  have hhigh := weight_le (h.member _ (h.invariant (roundLimit domain n)))
  unfold roundLimit at hlow hhigh
  simp only at hlow hhigh
  omega

theorem least_fixed (h : Ascending F domain bottom n Inv) :
    ∀ p ∈ points domain n,
      least F domain bottom n p = F p (known (points domain n) (least F domain bottom n)) := by
  obtain ⟨k, hlt, hk⟩ := h.exists_stable
  exact fun p hp => (hk.of_le hlt.le p hp).symm

/-- Every approximation lies below whatever a round does not raise. -/
theorem approximation_le (h : Ascending F domain bottom n Inv) {g : List α → α}
    (hg : ∀ p ∈ points domain n, g p ∈ domain)
    (hpre : ∀ p ∈ points domain n, improve F (points domain n) g p ≤ g p) (k : Nat) :
    ∀ p ∈ points domain n, approximation F (points domain n) bottom k p ≤ g p := by
  induction k with
  | zero => exact fun p hp => h.bottom_le _ (hg p hp)
  | succ k ih => exact fun p hp => (h.mono _ _ (h.invariant k) hg ih p hp).trans (hpre p hp)

/-- The solver answers the value of the least fixed point wherever the functional has no effect. -/
theorem solve_eq {m : Type → Type} [Monad m] [LawfulMonad m]
    {functional : List α → (List α → Option α) → m α} {args : List α}
    (h : Ascending F domain bottom args.length Inv) (hargs : ∀ a ∈ args, a ∈ domain)
    (hpure : ∀ p lookup, functional p lookup = pure (F p lookup)) :
    solve functional domain bottom args =
      pure (.ok (least F domain bottom args.length args)) := by
  obtain ⟨k, hlt, hk⟩ := h.exists_stable
  exact solve_eq_least hk hlt hargs fun _ p _ => hpure p _

end Ascending

end Ascent

end StrictnessAnalysis.Solver
