import Mathlib.Data.List.Forall2

/-! Actions that may fail, one after the other: what a chain of them that succeeds, or one that
fails, says of its members. -/

namespace StrictnessAnalysis

theorem mapM_eq_pure {m : Type → Type} [Monad m] [LawfulMonad m] {β γ : Type} {g : β → m γ}
    {f : β → γ} {xs : List β} (h : ∀ x ∈ xs, g x = pure (f x)) :
    xs.mapM g = pure (xs.map f) := by
  induction xs with
  | nil => simp
  | cons x xs ih =>
    rw [List.forall_mem_cons] at h
    simp [List.mapM_cons, h.1, ih h.2]

theorem mapM_congr_forall₂ {m : Type → Type} [Monad m] [LawfulMonad m] {β β' γ : Type}
    {g : β → m γ} {g' : β' → m γ} {xs : List β} {ys : List β'}
    (h : List.Forall₂ (fun x y => g x = g' y) xs ys) : xs.mapM g = ys.mapM g' := by
  induction h with
  | nil => simp
  | cons hxy _ ih => rw [List.mapM_cons, List.mapM_cons, hxy, ih]

variable {ε β γ : Type} {g : β → Except ε γ} {failure : ε} {xs : List β}

theorem bind_eq_ok_iff {x : Except ε β} {v : γ} :
    x >>= g = .ok v ↔ ∃ b, x = .ok b ∧ g b = .ok v := by
  cases x <;> simp [bind, Except.bind]

theorem bind_eq_error_iff {x : Except ε β} :
    x >>= g = .error failure ↔ x = .error failure ∨ ∃ b, x = .ok b ∧ g b = .error failure := by
  cases x <;> simp [bind, Except.bind]

/-- A chain that succeeds gives one value for each of its members. -/
theorem forall₂_of_mapM_ok {vs : List γ} (h : xs.mapM g = .ok vs) :
    List.Forall₂ (fun x v => g x = .ok v) xs vs := by
  induction xs generalizing vs with
  | nil =>
    obtain rfl : [] = vs := by simpa [pure, Except.pure] using h
    exact .nil
  | cons x xs ih =>
    rw [List.mapM_cons] at h
    obtain ⟨v, hv, h⟩ := bind_eq_ok_iff.1 h
    obtain ⟨vs', hvs, h⟩ := bind_eq_ok_iff.1 h
    obtain rfl : v :: vs' = vs := by simpa [pure, Except.pure] using h
    exact .cons hv (ih hvs)

/-- Values found for the same members compare as those of each member do. -/
theorem forall₂_of_forall₂_of_mem {γ' : Type} {P : β → γ → Prop} {Q : β → γ' → Prop}
    {R : γ → γ' → Prop} {vs : List γ} {vs' : List γ'}
    (h : ∀ x ∈ xs, ∀ v v', P x v → Q x v' → R v v') (hvs : List.Forall₂ P xs vs)
    (hvs' : List.Forall₂ Q xs vs') : List.Forall₂ R vs vs' := by
  induction hvs generalizing vs' with
  | nil =>
    cases hvs'
    exact .nil
  | cons hv _ ih =>
    cases hvs' with
    | cons hv' hrest =>
      rw [List.forall_mem_cons] at h
      exact .cons (h.1 _ _ hv hv') (ih h.2 hrest)

theorem exists_of_forall₂ {R : β → γ → Prop} {vs : List γ} (h : List.Forall₂ R xs vs) {x : β}
    (hx : x ∈ xs) : ∃ v ∈ vs, R x v := by
  induction h with
  | nil => simp at hx
  | cons hr _ ih =>
    rcases List.mem_cons.1 hx with rfl | hx
    · exact ⟨_, List.mem_cons_self, hr⟩
    · obtain ⟨v, hv, hr⟩ := ih hx
      exact ⟨v, List.mem_cons_of_mem _ hv, hr⟩

theorem exists_forall₂ {R : β → γ → Prop} (h : ∀ x ∈ xs, ∃ v, R x v) :
    ∃ vs, List.Forall₂ R xs vs := by
  induction xs with
  | nil => exact ⟨[], .nil⟩
  | cons x xs ih =>
    rw [List.forall_mem_cons] at h
    obtain ⟨v, hv⟩ := h.1
    obtain ⟨vs, hvs⟩ := ih h.2
    exact ⟨v :: vs, .cons hv hvs⟩

theorem forall₂_imp_of_mem {R S : β → γ → Prop} {vs : List γ} (h : List.Forall₂ R xs vs)
    (himp : ∀ x ∈ xs, ∀ v ∈ vs, R x v → S x v) : List.Forall₂ S xs vs := by
  induction h with
  | nil => exact .nil
  | cons hr _ ih =>
    simp only [List.forall_mem_cons] at himp
    exact .cons (himp.1.1 hr) (ih fun x hx => (himp.2 x hx).2)

theorem mapM_eq_error (h : ∀ x ∈ xs, (∃ v, g x = .ok v) ∨ g x = .error failure)
    (hfail : ∃ x ∈ xs, g x = .error failure) : xs.mapM g = .error failure := by
  induction xs with
  | nil => simp at hfail
  | cons x xs ih =>
    rw [List.forall_mem_cons] at h
    rw [List.exists_mem_cons_iff] at hfail
    rw [List.mapM_cons, bind_eq_error_iff]
    rcases h.1 with ⟨v, hv⟩ | hx
    · have hrest : xs.mapM g = .error failure := ih h.2 (hfail.resolve_left (by simp [hv]))
      exact .inr ⟨v, hv, bind_eq_error_iff.2 (.inl hrest)⟩
    · exact .inl hx

/-- A chain that fails does so at one of its members. -/
theorem exists_of_mapM_error (h : xs.mapM g = .error failure) : ∃ x ∈ xs, g x = .error failure := by
  induction xs with
  | nil => simp [pure, Except.pure] at h
  | cons x xs ih =>
    rw [List.mapM_cons] at h
    rcases bind_eq_error_iff.1 h with hx | ⟨v, -, h⟩
    · exact ⟨x, List.mem_cons_self, hx⟩
    · rcases bind_eq_error_iff.1 h with hxs | ⟨vs, -, h⟩
      · obtain ⟨y, hy, hfail⟩ := ih hxs
        exact ⟨y, List.mem_cons_of_mem _ hy, hfail⟩
      · simp [pure, Except.pure] at h

end StrictnessAnalysis
