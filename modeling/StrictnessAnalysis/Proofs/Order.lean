import Mathlib.Data.List.Forall2
import Mathlib.Order.Basic
import StrictnessAnalysis.Binding
import StrictnessAnalysis.Definedness

/-! The two-point domain as a partial order, and relations that frames carry from arguments to
parameters. A point is known by whether it is `one`, so every law about meets and joins is stated as
an equivalence of such facts. -/

namespace StrictnessAnalysis

namespace Definedness

instance : PartialOrder Definedness where
  le_refl a := Nat.le_refl a.rank
  le_trans _ _ _ hab hbc := Nat.le_trans hab hbc
  le_antisymm a b hab hba := by
    have h : a.rank = b.rank := Nat.le_antisymm hab hba
    cases a <;> cases b <;> simp_all

theorem le_iff {a b : Definedness} : a ≤ b ↔ (a = .one → b = .one) := by
  cases a <;> cases b <;> decide

theorem zero_le (a : Definedness) : zero ≤ a := le_iff.2 (by simp)

theorem le_one (a : Definedness) : a ≤ one := le_iff.2 (by simp)

theorem meet_eq_one {a b : Definedness} : a.meet b = .one ↔ a = .one ∧ b = .one := by
  cases a <;> cases b <;> decide

theorem join_eq_one {a b : Definedness} : a.join b = .one ↔ a = .one ∨ b = .one := by
  cases a <;> cases b <;> decide

/-- A chain of meets is `one` if all its members are. -/
theorem foldl_meet_eq_one {values : List Definedness} {a : Definedness} :
    values.foldl meet a = .one ↔ a = .one ∧ ∀ v ∈ values, v = .one := by
  induction values generalizing a with
  | nil => simp
  | cons v values ih => rw [List.foldl_cons, ih, meet_eq_one, List.forall_mem_cons, and_assoc]

theorem meet_join_le {a a' b b' c c' : Definedness} (ha : a ≤ a') (hb : b ≤ b') (hc : c ≤ c') :
    a.meet (b.join c) ≤ a'.meet (b'.join c') := by
  rw [le_iff, meet_eq_one, meet_eq_one, join_eq_one, join_eq_one]
  rintro ⟨h, h'⟩
  exact ⟨le_iff.1 ha h, h'.imp (le_iff.1 hb) (le_iff.1 hc)⟩

theorem foldl_meet_le {xs ys : List Definedness} (h : List.Forall₂ (· ≤ ·) xs ys) :
    xs.foldl meet .one ≤ ys.foldl meet .one := by
  rw [le_iff, foldl_meet_eq_one, foldl_meet_eq_one]
  rintro ⟨-, hxs⟩
  refine ⟨rfl, ?_⟩
  induction h with
  | nil => simp
  | cons hxy _ ih =>
    rw [List.forall_mem_cons] at hxs ⊢
    exact ⟨le_iff.1 hxy hxs.1, ih hxs.2⟩

theorem forall₂_le_trans {xs ys zs : List Definedness} (h : List.Forall₂ (· ≤ ·) xs ys)
    (h' : List.Forall₂ (· ≤ ·) ys zs) : List.Forall₂ (· ≤ ·) xs zs := by
  induction h generalizing zs with
  | nil => exact h'
  | cons hxy _ ih =>
    cases h' with
    | cons hyz h' => exact .cons (hxy.trans hyz) (ih h')

/-- The point describes the value: it is `one` unless the value is undefined. -/
def Describes (v : Option Int) (p : Definedness) : Prop := ofValue v ≤ p

theorem describes_none (p : Definedness) : Describes none p := zero_le p

theorem describes_some {n : Int} {p : Definedness} : Describes (some n) p ↔ p = .one := by
  rw [Describes, ofValue, le_iff]
  simp

end Definedness

section

variable {κ α β : Type} [DecidableEq κ] {R : α → β → Prop}

/-- Views overridden by related values stay related at every key. -/
theorem override_rel {base : κ → α} {base' : κ → β} (h : ∀ k, R (base k) (base' k))
    (keys : List κ) {as : List α} {bs : List β} (hv : List.Forall₂ R as bs) (k : κ) :
    R (override base (keys.zip as) k) (override base' (keys.zip bs) k) := by
  induction hv generalizing keys base base' with
  | nil => simpa using h k
  | cons hab _ ih =>
    cases keys with
    | nil => simpa using h k
    | cons key keys =>
      rw [List.zip_cons_cons, List.zip_cons_cons, override_cons, override_cons]
      refine ih (fun x => ?_) keys
      by_cases hx : x = key
      · subst hx
        simpa using hab
      · simpa [assign_of_ne _ _ hx] using h x

/-- A relation between arguments that also holds of absence holds between what calls see. -/
theorem frame_rel {absent : α} {absent' : β} (h : R absent absent') (params : List String)
    {as : List α} {bs : List β} (hv : List.Forall₂ R as bs) (x : String) :
    R (frame absent params as x) (frame absent' params bs x) :=
  override_rel (fun _ => h) params hv x

end

end StrictnessAnalysis
