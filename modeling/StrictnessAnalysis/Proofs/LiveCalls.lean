import Mathlib.Data.Fintype.Card
import Mathlib.Data.Set.Finite.Basic
import StrictnessAnalysis.Proofs.Evaluation
import StrictnessAnalysis.Proofs.Parts

/-! When evaluation in the abstract semantics ends. Nothing in an expression is skipped but the
arguments of what is unknown, a memo call does not run its callee, and the solver runs it at least
once and a bounded number of times. So it only matters which functions are entered from where: an
evaluation ends unless a chain of entered functions leads into a cycle, whatever the memo table and
the environment. -/

namespace StrictnessAnalysis

namespace Table

/-- Evaluating the expression runs the function: a plain or solved call of it is live. -/
def Enters (t : Table) (e : Expr) (name : String) : Prop :=
  t.defines name = true ∧ ∃ mode args, mode ≠ .memo ∧ e.Live t (.call mode name args)

/-- Running the first function runs the second. -/
def LeadsTo (t : Table) (name name' : String) : Prop :=
  ∃ f, t.find? name = some f ∧ t.Enters f.body name'

/-- Evaluating the expression gets into a cycle of functions. -/
def Loops (t : Table) (e : Expr) : Prop :=
  ∃ name name', t.Enters e name ∧ Relation.ReflTransGen t.LeadsTo name name' ∧
    Relation.TransGen t.LeadsTo name' name'

theorem Enters.of_part {t : Table} {e part : Expr} {name : String} (h : t.Enters part name)
    (hopens : e.Opens t) (hpart : e.HasPart part) : t.Enters e name := by
  obtain ⟨hdef, mode, args, hmode, hlive⟩ := h
  exact ⟨hdef, mode, args, hmode, hlive.of_part hopens hpart⟩

end Table

namespace Abstract

variable {t : Table} {e part node : Expr} {depth : Nat} {name name' : String}

/-! ### A depth that suffices rules cycles out -/

theorem Fits.of_part (h : Fits t (depth + 1) e) (hopens : e.Opens t) (hpart : e.HasPart part) :
    Fits t depth part := by
  cases hpart with
  | test => exact h.1
  | yes => exact h.2.1
  | no => exact h.2.2
  | operand hmem => exact h hopens _ hmem
  | argument hmem =>
    obtain ⟨f, hf⟩ := Table.defines_iff.1 hopens
    exact (h f hf).1 _ hmem

theorem Fits.of_live (h : Fits t depth e) (hlive : e.Live t node) : Fits t depth node := by
  induction hlive with
  | refl => exact h
  | tail _ hpart ih =>
    obtain ⟨depth, rfl⟩ := ih.exists_succ
    exact (ih.of_part hpart.1 hpart.2).succ

/-- The depth suffices for the body of a function. -/
def Serves (t : Table) (depth : Nat) (name : String) : Prop :=
  ∃ f, t.find? name = some f ∧ Fits t depth f.body

theorem Fits.serves (h : Fits t (depth + 1) e) (henters : t.Enters e name) :
    Serves t depth name := by
  obtain ⟨hdef, mode, args, hmode, hlive⟩ := henters
  obtain ⟨f, hf⟩ := Table.defines_iff.1 hdef
  exact ⟨f, hf, (h.of_live hlive f hf).2 hmode⟩

/-- Each function that is run takes one off the depth. -/
theorem Serves.of_leadsTo (h : Serves t depth name) (hleads : t.LeadsTo name name') :
    ∃ depth' < depth, Serves t depth' name' := by
  obtain ⟨f, hf, hfits⟩ := h
  obtain ⟨g, hg, henters⟩ := hleads
  obtain rfl : f = g := Option.some.inj (hf.symm.trans hg)
  obtain ⟨depth, rfl⟩ := hfits.exists_succ
  exact ⟨depth, Nat.lt_succ_self depth, hfits.serves henters⟩

theorem Serves.of_chain (h : Serves t depth name)
    (hchain : Relation.TransGen t.LeadsTo name name') :
    ∃ depth' < depth, Serves t depth' name' := by
  induction hchain with
  | single hleads => exact h.of_leadsTo hleads
  | tail _ hleads ih =>
    obtain ⟨depth₁, hlt₁, h₁⟩ := ih
    obtain ⟨depth₂, hlt₂, h₂⟩ := h₁.of_leadsTo hleads
    exact ⟨depth₂, hlt₂.trans hlt₁, h₂⟩

/-- Once around a cycle, a smaller depth would have to suffice, and so on without end. -/
theorem Serves.not_cycle (h : Serves t depth name) : ¬ Relation.TransGen t.LeadsTo name name := by
  intro hcycle
  induction depth using Nat.strong_induction_on with
  | _ depth ih =>
    obtain ⟨depth', hlt, h'⟩ := h.of_chain hcycle
    exact ih depth' hlt h'

theorem Fits.not_loops (h : Fits t depth e) : ¬ t.Loops e := by
  rintro ⟨name, name', henters, hchain, hcycle⟩
  obtain ⟨depth, rfl⟩ := h.exists_succ
  have hname := h.serves henters
  rcases Relation.reflTransGen_iff_eq_or_transGen.1 hchain with rfl | hchain
  · exact hname.not_cycle hcycle
  · obtain ⟨depth', -, hname'⟩ := hname.of_chain hchain
    exact hname'.not_cycle hcycle

/-! ### Without cycles some depth suffices -/

/-- Some depth suffices for an expression, if some depth does for each function that it enters. -/
theorem exists_fits_of_entered (h : ∀ name, t.Enters e name → ∃ depth, Serves t depth name) :
    ∃ depth, Fits t depth e := by
  have hall : ∀ (whole : Expr) {args : List Expr}, whole.Opens t → (∀ a ∈ args, whole.HasPart a) →
      (∀ name, t.Enters whole name → ∃ depth, Serves t depth name) →
      (∀ a ∈ args, (∀ name, t.Enters a name → ∃ depth, Serves t depth name) →
        ∃ depth, Fits t depth a) → ∃ depth, ∀ a ∈ args, Fits t depth a := by
    intro whole args hopens hpart h ih
    exact exists_forall_fits fun a ha => ih a ha fun name hname =>
      h name (hname.of_part hopens (hpart a ha))
  induction e with
  | const n => exact ⟨1, trivial⟩
  | var x => exact ⟨1, trivial⟩
  | cond test yes no ht hy hn =>
    obtain ⟨depth₁, h₁⟩ := ht fun name hname => h name (hname.of_part trivial .test)
    obtain ⟨depth₂, h₂⟩ := hy fun name hname => h name (hname.of_part trivial .yes)
    obtain ⟨depth₃, h₃⟩ := hn fun name hname => h name (hname.of_part trivial .no)
    exact ⟨max depth₁ (max depth₂ depth₃) + 1, h₁.mono (by omega), h₂.mono (by omega),
      h₃.mono (by omega)⟩
  | basic operator args ih =>
    by_cases hop : Operator.ofName? operator = none
    · exact ⟨1, fun hknown => absurd hop hknown⟩
    · obtain ⟨depth, hargs⟩ := hall (.basic operator args) hop (fun _ => .operand) h ih
      exact ⟨depth + 1, fun _ => hargs⟩
  | call mode callee args ih =>
    cases hf : t.find? callee with
    | none => exact ⟨1, fun f hmem => by simp [hf] at hmem⟩
    | some f =>
      have hdef : t.defines callee = true := Table.defines_iff.2 ⟨f, hf⟩
      obtain ⟨depth, hargs⟩ := hall (.call mode callee args) hdef (fun _ => .argument) h ih
      by_cases hmode : mode = .memo
      · exact ⟨depth + 1, fun _ _ => ⟨hargs, fun hne => absurd hmode hne⟩⟩
      · obtain ⟨depth', g, hg, hbody⟩ := h callee ⟨hdef, mode, args, hmode, .refl⟩
        refine ⟨max depth depth' + 1, fun k hk => ⟨fun a ha => (hargs a ha).mono (by omega), ?_⟩⟩
        obtain rfl : g = k := Option.some.inj (hg.symm.trans hk)
        exact fun _ => hbody.mono (by omega)

/-- A defined function that lies on no cycle. -/
def Grounded (t : Table) : Type :=
  { name // t.defines name = true ∧ ¬ Relation.TransGen t.LeadsTo name name }

/-- There are finitely many functions, so chains of calls between those on no cycle end. -/
theorem wellFounded_grounded (t : Table) :
    WellFounded fun g f : Grounded t => Relation.TransGen t.LeadsTo f.1 g.1 := by
  have hfinite : Finite (Grounded t) := by
    refine ((List.finite_toSet t.names).subset fun name h => ?_).to_subtype
    simpa [Table.defines] using h.1
  have htrans : IsTrans (Grounded t) fun g f => Relation.TransGen t.LeadsTo f.1 g.1 :=
    ⟨fun _ _ _ hba hcb => hcb.trans hba⟩
  have hirrefl : Std.Irrefl fun g f : Grounded t => Relation.TransGen t.LeadsTo f.1 g.1 :=
    ⟨fun f hcycle => f.2.2 hcycle⟩
  exact Finite.wellFounded_of_trans_of_irrefl _

theorem exists_serves (hdef : t.defines name = true)
    (h : ∀ name', Relation.ReflTransGen t.LeadsTo name name' →
      ¬ Relation.TransGen t.LeadsTo name' name') : ∃ depth, Serves t depth name := by
  have hall : ∀ f : Grounded t, (∀ name', Relation.ReflTransGen t.LeadsTo f.1 name' →
      ¬ Relation.TransGen t.LeadsTo name' name') → ∃ depth, Serves t depth f.1 := by
    intro f
    induction f using (wellFounded_grounded t).induction with
    | _ f ih =>
      intro hacyclic
      obtain ⟨d, hd⟩ := Table.defines_iff.1 f.2.1
      obtain ⟨depth, hfits⟩ : ∃ depth, Fits t depth d.body := by
        refine exists_fits_of_entered fun name' henters => ?_
        have hleads : t.LeadsTo f.1 name' := ⟨d, hd, henters⟩
        refine ih ⟨name', henters.1, hacyclic name' (.single hleads)⟩ (.single hleads) ?_
        exact fun name'' hchain => hacyclic name'' (.head hleads hchain)
      exact ⟨depth, d, hd, hfits⟩
  exact hall ⟨name, hdef, h name .refl⟩ h

/-- Some depth suffices for an expression if and only if it does not loop. -/
theorem exists_fits_iff : (∃ depth, Fits t depth e) ↔ ¬ t.Loops e := by
  constructor
  · rintro ⟨depth, h⟩
    exact h.not_loops
  · intro h
    refine exists_fits_of_entered fun name henters => exists_serves henters.1 ?_
    exact fun name' hchain hcycle => h ⟨name, name', henters, hchain, hcycle⟩

/-- Evaluation ends, with a value that stays the same from some depth on, if and only if the
expression does not loop; and otherwise no depth is enough. Neither the memo table nor the
environment has a part in it. -/
theorem returns_iff_not_loops (t : Table) (e : Expr) (memo : Memo) (env : Env) :
    ((∃ v enough, ∀ depth ≥ enough, eval t depth memo env e = .ok v) ↔ ¬ t.Loops e) ∧
    ((∀ depth, eval t depth memo env e = .error .tooDeep) ↔ t.Loops e) := by
  rw [← not_iff_not (b := t.Loops e), ← exists_fits_iff]
  refine ⟨⟨?_, ?_⟩, ?_⟩
  · rintro ⟨v, enough, h⟩
    exact ⟨enough, (eval_eq_ok_iff.1 (h enough le_rfl)).1⟩
  · rintro ⟨enough, h⟩
    exact ⟨_, enough, fun depth hdepth =>
      eval_eq_ok_iff.2 ⟨h.mono hdepth, value_of_le h hdepth memo env⟩⟩
  · rw [not_forall]
    refine exists_congr fun depth => ?_
    by_cases h : Fits t depth e
    · simp [(endsAt t depth memo env e).1 h, h]
    · simp [(endsAt t depth memo env e).2 h, h]

end Abstract

end StrictnessAnalysis
