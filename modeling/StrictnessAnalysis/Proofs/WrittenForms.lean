import StrictnessAnalysis.Expr.Printer
import StrictnessAnalysis.Proofs.Legibility
import StrictnessAnalysis.Proofs.Parts

/-! The written form of an expression tells the expression. The name in front of the first
parenthesis tells which of the seven forms it is, and the parts of each form are legible one after
the other: names because they are quoted, constants up to the parenthesis that closes them, and
arguments because a tuple of one has a comma that the empty one lacks. So no two expressions are
written alike, whatever characters their names hold. -/

namespace StrictnessAnalysis.Expr

open Text

/-- The form of an expression, without what it is made of. -/
inductive Shape
  | const
  | var
  | cond
  | basic
  | call (mode : CallMode)

namespace Shape

/-- The name under which a form is written. -/
def label : Shape → String
  | .const => "Const"
  | .var => "Var"
  | .cond => "If"
  | .basic => "BasicFn"
  | .call mode => mode.label

/-- The form that is written under a name. -/
def ofLabel? : String → Option Shape
  | "Const" => some .const
  | "Var" => some .var
  | "If" => some .cond
  | "BasicFn" => some .basic
  | "Call" => some (.call .plain)
  | "MemoCall" => some (.call .memo)
  | "FPICall" => some (.call .solved)
  | _ => none

theorem ofLabel?_label (s : Shape) : ofLabel? s.label = some s := by
  rcases s with _ | _ | _ | _ | (_ | _ | _) <;> rfl

theorem label_injective : Function.Injective label := by
  intro s s' h
  have hsome : some s = some s' := by rw [← ofLabel?_label, h, ofLabel?_label]
  exact Option.some.inj hsome

theorem not_mem_label (s : Shape) : '(' ∉ s.label.toList := by
  rcases s with _ | _ | _ | _ | (_ | _ | _) <;> decide

end Shape

def shape : Expr → Shape
  | .const _ => .const
  | .var _ => .var
  | .cond _ _ _ => .cond
  | .basic _ _ => .basic
  | .call mode _ _ => .call mode

/-- What is written between the parentheses of an expression. -/
def writtenParts : Expr → List (List Char)
  | .const n => [(toString n).toList]
  | .var x => [Quoted.encode x.toList]
  | .cond test yes no => [test.chars, yes.chars, no.chars]
  | .basic operator args => [Quoted.encode operator.toList, tuple (args.map chars)]
  | .call _ callee args => [Quoted.encode callee.toList, tuple (args.map chars)]

theorem charsAll_eq_map (es : List Expr) : charsAll es = es.map chars := by
  induction es with
  | nil => rfl
  | cons e es ih => rw [charsAll, ih, List.map_cons]

theorem chars_eq_form (e : Expr) : e.chars = form e.shape.label e.writtenParts := by
  cases e with
  | const n => rfl
  | var x => rfl
  | cond test yes no => rfl
  | basic operator args => rw [chars, charsAll_eq_map]; rfl
  | call mode callee args => rw [chars, charsAll_eq_map]; rfl

variable {e : Expr}

/-- The name of the form ends at the first parenthesis, so that an expression is legible if it is
told apart from those of its form by what is written between the parentheses. -/
theorem legible_of_writtenParts
    (h : ∀ ⦃e' : Expr⦄ ⦃rest rest' : List Char⦄, e.shape = e'.shape →
      commaSeparated e.writtenParts ++ ')' :: rest =
        commaSeparated e'.writtenParts ++ ')' :: rest' → e = e' ∧ rest = rest') :
    Legible chars e := by
  intro e' rest rest' hchars
  simp only [chars_eq_form, form, List.append_assoc, List.cons_append, List.nil_append] at hchars
  obtain ⟨hlabel, hparts⟩ :=
    append_cons_inj_of_not_mem e.shape.not_mem_label e'.shape.not_mem_label hchars
  exact h (Shape.label_injective (String.toList_injective hlabel)) hparts

/-- No expression starts like the end of a tuple. -/
theorem chars_append_ne (e : Expr) (rest rest' : List Char) : e.chars ++ rest ≠ ')' :: rest' := by
  intro h
  rw [chars_eq_form] at h
  generalize e.shape = s at h
  rcases s with _ | _ | _ | _ | (_ | _ | _) <;>
    exact absurd (List.head_eq_of_cons_eq h) (by decide)

theorem legible_application {name : String} {args : List Expr}
    (hargs : ∀ a ∈ args, Legible chars a) :
    Legible (fun p : String × List Expr =>
      commaSeparated [Quoted.encode p.1.toList, tuple (p.2.map chars)]) (name, args) := by
  have hname : Legible (fun s : String => Quoted.encode s.toList) name := by
    intro name' rest rest' h
    obtain ⟨hlist, hrest⟩ := Quoted.legible_encode _ h
    exact ⟨String.toList_injective hlist, hrest⟩
  exact hname.pair (legible_tuple chars_append_ne hargs)

/-- Written at the front of any text, an expression tells itself and where it ends. -/
theorem legible_chars (e : Expr) : Legible chars e := by
  -- once the other expression has the same form, their parts are compared in order
  induction e with
  | const n =>
    refine legible_of_writtenParts fun e' rest rest' hshape hparts => ?_
    cases e' with
    | const m =>
      have hdigits : (toString n).toList ++ [')'] ++ rest =
          (toString m).toList ++ [')'] ++ rest' := by
        simpa [writtenParts, commaSeparated] using hparts
      obtain ⟨rfl, hrest⟩ := legible_decimal n hdigits
      exact ⟨rfl, hrest⟩
    | _ => cases hshape
  | var x =>
    refine legible_of_writtenParts fun e' rest rest' hshape hparts => ?_
    cases e' with
    | var y =>
      obtain ⟨hname, hrest⟩ := Quoted.legible_encode _ hparts
      exact ⟨congrArg var (String.toList_injective hname), List.tail_eq_of_cons_eq hrest⟩
    | _ => cases hshape
  | cond test yes no htest hyes hno =>
    refine legible_of_writtenParts fun e' rest rest' hshape hparts => ?_
    cases e' with
    | cond test' yes' no' =>
      -- three parts are a first one with a pair behind the comma
      have hlegible := htest.pair (hyes.pair hno)
      obtain ⟨hsame, hrest⟩ := hlegible (b := (test', yes', no')) hparts
      cases hsame
      exact ⟨rfl, List.tail_eq_of_cons_eq hrest⟩
    | _ => cases hshape
  | basic operator args hargs =>
    refine legible_of_writtenParts fun e' rest rest' hshape hparts => ?_
    cases e' with
    | basic operator' args' =>
      obtain ⟨hsame, hrest⟩ := legible_application hargs (b := (operator', args')) hparts
      cases hsame
      exact ⟨rfl, List.tail_eq_of_cons_eq hrest⟩
    | _ => cases hshape
  | call mode callee args hargs =>
    refine legible_of_writtenParts fun e' rest rest' hshape hparts => ?_
    cases e' with
    | call mode' callee' args' =>
      cases hshape
      obtain ⟨hsame, hrest⟩ := legible_application hargs (b := (callee', args')) hparts
      cases hsame
      exact ⟨rfl, List.tail_eq_of_cons_eq hrest⟩
    | _ => cases hshape

theorem render_injective : Function.Injective render := by
  intro e e' h
  exact (legible_chars e).eq_of_eq (String.ofList_injective h)

/-! ### Constants that can be written -/

theorem areWritable_iff {es : List Expr} : areWritable es ↔ ∀ e ∈ es, e.isWritable := by
  induction es with
  | nil => simp [areWritable]
  | cons e es ih => rw [areWritable, Bool.and_eq_true, ih, List.forall_mem_cons]

theorem HasPart.isWritable {part : Expr} (h : e.HasPart part) (he : e.isWritable) :
    part.isWritable := by
  cases h with
  | test => simp_all [Expr.isWritable]
  | yes => simp_all [Expr.isWritable]
  | no => simp_all [Expr.isWritable]
  | operand hmem => exact areWritable_iff.1 he part hmem
  | argument hmem => exact areWritable_iff.1 he part hmem

/-- An expression can be written exactly if every constant that stands anywhere in it can. -/
theorem isWritable_iff : e.isWritable ↔ ∀ n, e.Contains (.const n) → Text.isWritable n := by
  constructor
  · intro he n hn
    have hall : ∀ node, e.Contains node → node.isWritable := by
      intro node hnode
      induction hnode with
      | refl => exact he
      | tail _ hpart ih => exact hpart.isWritable ih
    exact hall (.const n) hn
  · intro h
    induction e with
    | const n => exact h n .refl
    | var x => rfl
    | cond test yes no htest hyes hno =>
      rw [isWritable, htest fun n hn => h n (.head .test hn), hyes fun n hn => h n (.head .yes hn),
        hno fun n hn => h n (.head .no hn)]
      rfl
    | basic operator args ih =>
      exact areWritable_iff.2 fun a ha => ih a ha fun n hn => h n (.head (.operand ha) hn)
    | call mode callee args ih =>
      exact areWritable_iff.2 fun a ha => ih a ha fun n hn => h n (.head (.argument ha) hn)

theorem text?_eq_render (h : ∀ n, e.Contains (.const n) → Text.isWritable n) :
    e.text? = some e.render := if_pos (isWritable_iff.2 h)

/-- Two expressions whose constants can be written have texts, and these are equal exactly if
the expressions are. -/
theorem text_tells_expression {a b : Expr} (ha : ∀ n, a.Contains (.const n) → Text.isWritable n)
    (hb : ∀ n, b.Contains (.const n) → Text.isWritable n) :
    ∃ s t, a.text? = some s ∧ b.text? = some t ∧ (s = t ↔ a = b) :=
  ⟨a.render, b.render, text?_eq_render ha, text?_eq_render hb, render_injective.eq_iff⟩

/-- A call of two arguments. The name of the variable goes on like the text of a second one. -/
def disguised : Expr := .call .plain "f" [.var "x'), Var('y", .const (-7)]

/-- A call of three arguments, as the text of the other one would read with every name set between
single quotes as it is. -/
def spelledOut : Expr := .call .plain "f" [.var "x", .var "y", .const (-7)]

theorem disguised_told_apart :
    (∀ n, disguised.Contains (.const n) → Text.isWritable n) ∧
      (∀ n, spelledOut.Contains (.const n) → Text.isWritable n) ∧
      ∃ s t, disguised.text? = some s ∧ spelledOut.text? = some t ∧ s ≠ t := by
  have hdisguised := isWritable_iff.1 (show disguised.isWritable by decide +kernel)
  have hspelledOut := isWritable_iff.1 (show spelledOut.isWritable by decide +kernel)
  obtain ⟨s, t, hs, ht, hiff⟩ := text_tells_expression hdisguised hspelledOut
  have hne : disguised ≠ spelledOut := by decide
  exact ⟨hdisguised, hspelledOut, s, t, hs, ht, fun h => hne (hiff.1 h)⟩

end StrictnessAnalysis.Expr
