import StrictnessAnalysis.Document

/-! Expression objects by their form. The keys that an object has decide its form, and the form says
which of its values are read, and as what. Reading an expression is stated here form by form, so
that what is proved of it need not look keys up again. -/

namespace StrictnessAnalysis.Document

/-- The keys that tell the forms of expressions apart. -/
def formKeys : List String := ["const", "var", "if", "basic", "call", "memo", "fpi"]

/-- The form of an expression object, with the values that it is read from. -/
inductive Form
  | const (value : Json)
  | var (value : Json)
  | cond (parts : Json)
  | application (key : String) (build : String → List Expr → Expr) (name : Json)
      (args : Option Json)
  | unknown

namespace Form

/-- Of the keys that an object has, the first of `formKeys` decides. -/
def ofFields (fields : List (String × Json)) : Form :=
  match fields.lookup "const", fields.lookup "var", fields.lookup "if" with
  | some value, _, _ => .const value
  | none, some value, _ => .var value
  | none, none, some parts => .cond parts
  | none, none, none =>
    match applications.find? fun form => (fields.lookup form.1).isSome with
    | none => .unknown
    | some (key, build) =>
      .application key build ((fields.lookup key).getD .null) (fields.lookup "args")

/-- The values that are read as expressions. -/
def parts : Form → List Json
  | .cond (.arr items) => items
  | .application _ _ _ (some (.arr items)) => items
  | _ => []

/-- The place of these values, as seen from the place of the object. -/
def partsPlace (place : Place) : Form → Place
  | .cond _ => place.key "if"
  | _ => place.key "args"

/-- The values of an object that make up its form. -/
inductive Spelled (fields : List (String × Json)) : Form → Prop
  | const {value : Json} : fields.lookup "const" = some value → Spelled fields (.const value)
  | var {value : Json} : fields.lookup "const" = none → fields.lookup "var" = some value →
      Spelled fields (.var value)
  | cond {parts : Json} : fields.lookup "const" = none → fields.lookup "var" = none →
      fields.lookup "if" = some parts → Spelled fields (.cond parts)
  | application {key : String} {build : String → List Expr → Expr} {name : Json}
      {args : Option Json} :
      fields.lookup "const" = none → fields.lookup "var" = none → fields.lookup "if" = none →
      applications.find? (fun form => (fields.lookup form.1).isSome) = some (key, build) →
      fields.lookup key = some name → fields.lookup "args" = args →
      Spelled fields (.application key build name args)
  | unknown : (∀ key ∈ formKeys, fields.lookup key = none) → Spelled fields .unknown

theorem formKeys_eq : formKeys = ["const", "var", "if"] ++ applications.map Prod.fst := rfl

theorem mem_formKeys {key : String} (h : key ∈ applications.map Prod.fst) : key ∈ formKeys :=
  List.mem_append_right ["const", "var", "if"] h

theorem find?_eq_none_iff {fields : List (String × Json)} :
    applications.find? (fun form => (fields.lookup form.1).isSome) = none ↔
      ∀ key ∈ applications.map Prod.fst, fields.lookup key = none := by
  simp only [List.find?_eq_none, List.forall_mem_map, Option.not_isSome_iff_eq_none]

theorem spelled_ofFields (fields : List (String × Json)) : Spelled fields (ofFields fields) := by
  unfold ofFields
  split
  case h_1 hconst => exact .const hconst
  case h_2 hconst hvar => exact .var hconst hvar
  case h_3 hconst hvar hif => exact .cond hconst hvar hif
  case h_4 hconst hvar hif =>
    split
    case h_1 hnone =>
      refine .unknown ?_
      rw [formKeys_eq, List.forall_mem_append]
      simp only [List.forall_mem_cons]
      exact ⟨⟨hconst, hvar, hif, List.forall_mem_nil _⟩, find?_eq_none_iff.1 hnone⟩
    case h_2 key build hfind =>
      have hsome := List.find?_some hfind
      obtain ⟨name, hname⟩ := Option.isSome_iff_exists.1 hsome
      rw [hname, Option.getD_some]
      exact .application hconst hvar hif hfind hname rfl

variable {fields : List (String × Json)} {form : Form}

/-- A form without a list of parts has no parts; else they are the list under one key. -/
theorem Spelled.parts_eq (h : Spelled fields form) :
    form.parts = [] ∨ ∃ key ∈ ["if", "args"], (∀ place, form.partsPlace place = place.key key) ∧
      fields.lookup key = some (.arr form.parts) := by
  unfold parts
  split
  case h_1 =>
    cases h with
    | cond _ _ hif => exact .inr ⟨"if", by simp, fun _ => rfl, hif⟩
  case h_2 =>
    cases h with
    | application _ _ _ _ _ hargs => exact .inr ⟨"args", by simp, fun _ => rfl, hargs⟩
  case h_3 => exact .inl rfl

theorem Spelled.sizeOf_parts_lt (h : Spelled fields form) :
    sizeOf form.parts < sizeOf (Json.obj fields) := by
  rcases h.parts_eq with hparts | ⟨key, -, -, hkey⟩
  · rw [hparts, Json.obj.sizeOf_spec, List.nil.sizeOf_spec]
    have : 0 < sizeOf fields := by
      cases fields <;> simp only [List.nil.sizeOf_spec, List.cons.sizeOf_spec] <;> omega
    omega
  · exact Json.sizeOf_items_lt hkey

/-- Induction over values as expressions: a value that is no object has no parts. -/
theorem induction {P : Json → Prop}
    (obj : ∀ fields, (∀ item ∈ (ofFields fields).parts, P item) → P (.obj fields))
    (other : ∀ json, (∀ fields, json ≠ .obj fields) → P json) (json : Json) : P json := by
  cases json with
  | obj fields => exact obj fields fun item _ => induction obj other item
  | _ => exact other _ (by simp)
termination_by sizeOf json
decreasing_by
  exact Nat.lt_trans (List.sizeOf_lt_of_mem ‹_›) (spelled_ofFields fields).sizeOf_parts_lt

end Form

/-- Reads an expression of a known form. -/
def decodeForm (place : Place) (fields : List (String × Json)) : Form → Except Fault Expr
  | .const value => do return .const (← decodeInt (place.key "const") value)
  | .var value => do return .var (← decodeName (place.key "var") value)
  | .cond (.arr [test, yes, no]) => do
    let parts := place.key "if"
    let test ← decodeExpr (parts.index 0) test
    let yes ← decodeExpr (parts.index 1) yes
    let no ← decodeExpr (parts.index 2) no
    return .cond test yes no
  | .cond (.arr _) => .error (.expected (place.key "if") .threeParts)
  | .cond _ => .error (.expected (place.key "if") .list)
  | .application key build name args => do
    let name ← decodeName (place.key key) name
    match args.getD (.arr []) with
    | .arr items => return build name (← decodeItems decodeExpr (place.key "args") 0 items)
    | _ => throw (.expected (place.key "args") .list)
  | .unknown => .error (.unknownForm place (fields.map Prod.fst))

theorem decodeExprs_eq_decodeItems (place : Place) (i : Nat) (items : List Json) :
    decodeExprs place i items = decodeItems decodeExpr place i items := by
  induction items generalizing i with
  | nil => rw [decodeExprs, decodeItems]
  | cons item items ih => simp only [decodeExprs, decodeItems, ih]

theorem decodeExpr_eq_of_find? {fields : List (String × Json)} {key : String}
    {build : String → List Expr → Expr} (place : Place) (hconst : fields.lookup "const" = none)
    (hvar : fields.lookup "var" = none) (hif : fields.lookup "if" = none)
    (hfind : applications.find? (fun form => (fields.lookup form.1).isSome) = some (key, build)) :
    decodeExpr place (.obj fields) = (do
      let name ← decodeName (place.key key) ((fields.lookup key).getD .null)
      match (fields.lookup "args").getD (.arr []) with
      | .arr items => return build name (← decodeExprs (place.key "args") 0 items)
      | _ => throw (.expected (place.key "args") .list)) := by
  rw [decodeExpr, hconst, hvar]
  simp only [hfind]
  split
  case h_4 =>
    congr 1
    funext name
    split
    case h_1 hargs => rw [hargs, Option.getD_none]; simp only [decodeExprs]; rfl
    case h_2 hargs => rw [hargs, Option.getD_some]
    case h_3 value hlist hargs =>
      rw [hargs, Option.getD_some]
      split
      · exact absurd rfl (hlist _)
      · rfl
  all_goals
    rename_i hparts
    simp [hif] at hparts

theorem decodeExpr_of_spelled {fields : List (String × Json)} {form : Form}
    (h : Form.Spelled fields form) (place : Place) :
    decodeExpr place (.obj fields) = decodeForm place fields form := by
  cases h with
  | const hconst => rw [decodeExpr, hconst]; rfl
  | var hconst hvar => rw [decodeExpr, hconst, hvar]; rfl
  | cond hconst hvar hif =>
    rw [decodeExpr, hconst, hvar]
    simp only []
    -- the match keeps an equation for termination, so the look-up in it cannot be rewritten
    split
    case h_1 hparts =>
      cases hif.symm.trans hparts
      rfl
    case h_2 hthree hparts =>
      cases hif.symm.trans hparts
      rw [decodeForm]
      exact hthree
    case h_3 hlist hparts =>
      cases hif.symm.trans hparts
      rw [decodeForm]
      · exact fun _ _ _ => hlist _
      · exact hlist
    case h_4 hparts => cases hif.symm.trans hparts
  | application hconst hvar hif hfind hname hargs =>
    rw [decodeExpr_eq_of_find? place hconst hvar hif hfind, hname, hargs]
    simp only [decodeExprs_eq_decodeItems, Option.getD_some]
    rfl
  | unknown hnone =>
    have hfind := Form.find?_eq_none_iff.2 fun key hkey => hnone key (Form.mem_formKeys hkey)
    rw [decodeExpr, hnone "const" (by decide), hnone "var" (by decide)]
    simp only [hfind]
    split
    case h_4 => rfl
    all_goals
      rename_i hparts
      cases (hnone "if" (by decide)).symm.trans hparts

end StrictnessAnalysis.Document
