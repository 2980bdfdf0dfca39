import Mathlib.Data.List.Forall2
import Mathlib.Data.List.Nodup
import StrictnessAnalysis.Loading
import StrictnessAnalysis.Proofs.Actions
import StrictnessAnalysis.Proofs.CallSites
import StrictnessAnalysis.Proofs.Forms

/-! Programs written as documents. The format leaves a writer some freedom: the members of an object
may stand in any order, lists and environments may be left out when they are empty, and members that
the format does not name may be added. Whatever use is made of it, the document is read back as the
program that was written, and nothing is complained of. -/

namespace StrictnessAnalysis.Document

/-! ### Members of objects -/

/-- The fields of an object that consists of the given members, in any order, and of others with
keys that are not reserved. No key occurs twice. -/
structure Composed (reserved : List String) (members fields : List (String × Json)) : Prop where
  distinct : (fields.map Prod.fst).Nodup
  perm : ∃ others, fields.Perm (members ++ others) ∧ ∀ m ∈ others, m.1 ∉ reserved

/-- How a member is given that may be left out when it is empty. -/
inductive Optional (key : String) (empty : Json) : Json → List (String × Json) → Prop
  | given (value : Json) : Optional key empty value [(key, value)]
  | omitted : Optional key empty empty []

variable {reserved : List String} {members fields part : List (String × Json)} {key : String}
  {value args empty : Json}

theorem Composed.lookup (h : Composed reserved members fields) (hmem : (key, value) ∈ members) :
    fields.lookup key = some value := by
  obtain ⟨others, hperm, -⟩ := h.perm
  obtain ⟨before, after, rfl⟩ :=
    List.append_of_mem (hperm.mem_iff.2 (List.mem_append_left others hmem))
  refine List.lookup_eq_some_iff.2 ⟨before, after, rfl, fun m hm => ?_⟩
  have hdistinct := h.distinct
  rw [List.map_append, List.nodup_append] at hdistinct
  have hne : m.1 ≠ key := hdistinct.2.2 m.1 (List.mem_map_of_mem hm) key (by simp)
  simpa using hne.symm

theorem Composed.lookup_eq_none (h : Composed reserved members fields) (hkey : key ∈ reserved)
    (hmem : key ∉ members.map Prod.fst) : fields.lookup key = none := by
  obtain ⟨others, hperm, hothers⟩ := h.perm
  refine List.lookup_eq_none_iff.2 fun m hm => ?_
  have hne : key ≠ m.1 := by
    rintro rfl
    rcases List.mem_append.1 (hperm.mem_iff.1 hm) with hm | hm
    · exact hmem (List.mem_map_of_mem hm)
    · exact hothers m hm hkey
  simpa using hne

/-- A member that is left out is read as the empty one. -/
theorem Composed.lookup_getD (h : Composed reserved members fields) (hkey : key ∈ reserved)
    (hpart : Optional key empty value part) (hsubset : part ⊆ members)
    (honly : ∀ m ∈ members, m ∉ part → m.1 ≠ key) : (fields.lookup key).getD empty = value := by
  cases hpart with
  | given => rw [h.lookup (hsubset List.mem_cons_self), Option.getD_some]
  | omitted =>
    rw [h.lookup_eq_none hkey, Option.getD_none]
    intro hmem
    obtain ⟨m, hm, heq⟩ := List.mem_map.1 hmem
    exact honly m hm List.not_mem_nil heq

/-! ### The format -/

def modeKey : CallMode → String
  | .plain => "call"
  | .memo => "memo"
  | .solved => "fpi"

/-- The expression is written as this value. -/
inductive WrittenExpr : Expr → Json → Prop
  | const {n : Int} {fields : List (String × Json)} :
    Composed formKeys [("const", .int n)] fields → WrittenExpr (.const n) (.obj fields)
  | var {x : String} {fields : List (String × Json)} :
    Composed formKeys [("var", .str x)] fields → WrittenExpr (.var x) (.obj fields)
  | cond {test yes no : Expr} {test' yes' no' : Json} {fields : List (String × Json)} :
    WrittenExpr test test' → WrittenExpr yes yes' → WrittenExpr no no' →
      Composed formKeys [("if", .arr [test', yes', no'])] fields →
      WrittenExpr (.cond test yes no) (.obj fields)
  | basic {operator : String} {args : List Expr} {items : List Json}
    {part fields : List (String × Json)} :
    List.Forall₂ WrittenExpr args items → Optional "args" (.arr []) (.arr items) part →
      Composed ("args" :: formKeys) (("basic", .str operator) :: part) fields →
      WrittenExpr (.basic operator args) (.obj fields)
  | call {mode : CallMode} {callee : String} {args : List Expr} {items : List Json}
    {part fields : List (String × Json)} :
    List.Forall₂ WrittenExpr args items → Optional "args" (.arr []) (.arr items) part →
      Composed ("args" :: formKeys) ((modeKey mode, .str callee) :: part) fields →
      WrittenExpr (.call mode callee args) (.obj fields)

/-- The definition is written as this value. -/
inductive WrittenDefinition : Definition → Json → Prop
  | intro {name : String} {params : List String} {body : Expr} {body' : Json}
    {part fields : List (String × Json)} :
    WrittenExpr body body' → Optional "params" (.arr []) (.arr (params.map .str)) part →
      Composed ["name", "params", "body"] (("name", .str name) :: ("body", body') :: part) fields →
      WrittenDefinition ⟨name, params, body⟩ (.obj fields)

/-- A binding of an environment as a member of an object. -/
def ofBinding (binding : String × Option Int) : String × Json :=
  (binding.1, binding.2.elim .null .int)

/-- The query is written as this value, with its environment in the same order. -/
inductive WrittenQuery : Query → Json → Prop
  | intro {expr : Expr} {env : List (String × Option Int)} {expr' : Json}
    {part fields : List (String × Json)} :
    WrittenExpr expr expr' → (env.map Prod.fst).Nodup →
      Optional "env" (.obj []) (.obj (env.map ofBinding)) part →
      Composed ["expr", "env"] (("expr", expr') :: part) fields →
      WrittenQuery ⟨expr, env⟩ (.obj fields)

/-- The program is written as this document. -/
inductive Written : Program → Json → Prop
  | intro {functions : List Definition} {queries : List Query} {functions' queries' : List Json}
    {part part' fields : List (String × Json)} :
    List.Forall₂ WrittenDefinition functions functions' →
      List.Forall₂ WrittenQuery queries queries' →
      Optional "functions" (.arr []) (.arr functions') part →
      Optional "queries" (.arr []) (.arr queries') part' →
      Composed ["functions", "queries"] (part ++ part') fields →
      Written ⟨functions, queries⟩ (.obj fields)

/-! ### Reading expressions back -/

theorem Optional.key_eq (h : Optional key empty value part) {m : String × Json} (hm : m ∈ part) :
    m.1 = key := by
  cases h with
  | given => rw [List.mem_singleton.1 hm]
  | omitted => simp at hm

/-- Of the keys that tell forms apart, an expression has its own only. -/
theorem Composed.lookup_form (h : Composed ("args" :: formKeys) ((key, value) :: part) fields)
    (hpart : Optional "args" empty args part) {other : String} (hother : other ∈ formKeys)
    (hne : other ≠ key) : fields.lookup other = none := by
  refine h.lookup_eq_none (List.mem_cons_of_mem _ hother) fun hmem => ?_
  rcases List.mem_cons.1 hmem with heq | hmem
  · exact hne heq
  · obtain ⟨m, hm, rfl⟩ := List.mem_map.1 hmem
    rw [hpart.key_eq hm] at hother
    exact absurd hother (by decide)

theorem decodeItems_of_forall₂ {α : Type} {decode : Place → Json → Except Fault α} {as : List α}
    {items : List Json}
    (h : List.Forall₂ (fun a item => ∀ place, decode place item = .ok a) as items) (place : Place)
    (i : Nat) : decodeItems decode place i items = .ok as := by
  induction h generalizing i with
  | nil => rfl
  | cons ha _ ih =>
    rw [decodeItems, ha, ih]
    rfl

section Application

variable {build : String → List Expr → Expr}

theorem find?_applications (hform : (key, build) ∈ applications)
    (hsome : (fields.lookup key).isSome)
    (hnone : ∀ other ∈ formKeys, other ≠ key → fields.lookup other = none) :
    applications.find? (fun form => (fields.lookup form.1).isSome) = some (key, build) := by
  simp only [applications, List.mem_cons, Prod.mk.injEq, List.not_mem_nil, or_false] at hform
  rcases hform with ⟨rfl, rfl⟩ | ⟨rfl, rfl⟩ | ⟨rfl, rfl⟩ | ⟨rfl, rfl⟩
  · simp [applications, hsome]
  · simp [applications, hsome, hnone "basic" (by decide) (by decide)]
  · simp [applications, hsome, hnone "basic" (by decide) (by decide),
      hnone "call" (by decide) (by decide)]
  · simp [applications, hsome, hnone "basic" (by decide) (by decide),
      hnone "call" (by decide) (by decide), hnone "memo" (by decide) (by decide)]

theorem decodeExpr_application {name : String} {args : List Expr} {items : List Json}
    (h : Composed ("args" :: formKeys) ((key, .str name) :: part) fields)
    (hpart : Optional "args" (.arr []) (.arr items) part) (hform : (key, build) ∈ applications)
    (hargs : List.Forall₂ (fun e item => ∀ place, decodeExpr place item = .ok e) args items)
    (place : Place) :
    decodeExpr place (.obj fields) = .ok (build name args) := by
  -- no form of application has a key that is looked up before it, nor the key of its arguments
  have hne : ∀ other ∈ ["const", "var", "if", "args"], other ≠ key := by
    have hkeys : ∀ other ∈ ["const", "var", "if", "args"], other ∉ applications.map Prod.fst := by
      decide
    rintro other hother rfl
    exact hkeys other hother (List.mem_map_of_mem hform)
  have hnone : ∀ other ∈ formKeys, other ≠ key → fields.lookup other = none :=
    fun _ => h.lookup_form hpart
  have hname : fields.lookup key = some (.str name) := h.lookup List.mem_cons_self
  have hitems : (fields.lookup "args").getD (.arr []) = .arr items := by
    refine h.lookup_getD List.mem_cons_self hpart (List.subset_cons_self _ _) fun m hm hpart => ?_
    rw [(List.mem_cons.1 hm).resolve_right hpart]
    exact (hne "args" (by decide)).symm
  have hspelled : Form.Spelled fields (.application key build (.str name) (fields.lookup "args")) :=
    .application (hnone _ (by decide) (hne "const" (by decide)))
      (hnone _ (by decide) (hne "var" (by decide))) (hnone _ (by decide) (hne "if" (by decide)))
      (find?_applications hform (by rw [hname]; rfl) hnone) hname rfl
  rw [decodeExpr_of_spelled hspelled, decodeForm, hitems]
  simp only [decodeItems_of_forall₂ hargs]
  rfl

end Application

theorem decodeExpr_of_written {e : Expr} {json : Json} (h : WrittenExpr e json) (place : Place) :
    decodeExpr place json = .ok e := by
  induction e generalizing json place with
  | const n =>
    cases h with
    | const h =>
      rw [decodeExpr_of_spelled (.const (h.lookup List.mem_cons_self))]
      rfl
  | var x =>
    cases h with
    | @var _ fields h =>
      have hconst : fields.lookup "const" = none := h.lookup_eq_none (by decide) (by simp)
      rw [decodeExpr_of_spelled (.var hconst (h.lookup List.mem_cons_self))]
      rfl
  | cond test yes no iht ihy ihn =>
    cases h with
    | @cond _ _ _ _ _ _ fields ht hy hn h =>
      have hconst : fields.lookup "const" = none := h.lookup_eq_none (by decide) (by simp)
      have hvar : fields.lookup "var" = none := h.lookup_eq_none (by decide) (by simp)
      rw [decodeExpr_of_spelled (.cond hconst hvar (h.lookup List.mem_cons_self)), decodeForm,
        iht ht, ihy hy, ihn hn]
      rfl
  | basic operator args ih =>
    cases h with
    | basic hargs hpart h =>
      have hform : ("basic", Expr.basic) ∈ applications := by simp [applications]
      refine decodeExpr_application h hpart hform (forall₂_imp_of_mem hargs ?_) place
      exact fun a ha _ _ hitem => ih a ha hitem
  | call mode callee args ih =>
    cases h with
    | call hargs hpart h =>
      have hform : (modeKey mode, Expr.call mode) ∈ applications := by
        cases mode <;> simp [applications, modeKey]
      refine decodeExpr_application h hpart hform (forall₂_imp_of_mem hargs ?_) place
      exact fun a ha _ _ hitem => ih a ha hitem

/-! ### Reading programs back -/

theorem decodeList_of_forall₂ {α : Type} {decode : Place → Json → Except Fault α} {as : List α}
    {items : List Json} (hlookup : (fields.lookup key).getD (.arr []) = .arr items)
    (h : List.Forall₂ (fun a item => ∀ place, decode place item = .ok a) as items) (place : Place) :
    decodeList decode place fields key = .ok as := by
  rw [decodeList, hlookup]
  exact decodeItems_of_forall₂ h _ _

theorem decodeDefinition_of_written {f : Definition} {json : Json} (h : WrittenDefinition f json)
    (place : Place) : decodeDefinition place json = .ok f := by
  obtain @⟨name, params, body, body', part, fields, hbody, hpart, h⟩ := h
  have hname : fields.lookup "name" = some (.str name) := h.lookup (by simp)
  have hbody' : fields.lookup "body" = some body' := h.lookup (by simp)
  have hparams : (fields.lookup "params").getD (.arr []) = .arr (params.map .str) :=
    h.lookup_getD (by decide) hpart (by simp) (by simp +contextual)
  have hnames : decodeList decodeName place fields "params" = .ok params := by
    refine decodeList_of_forall₂ hparams (List.forall₂_map_right_iff.2 ?_) place
    exact List.forall₂_same.2 fun _ _ _ => rfl
  rw [decodeDefinition, hname, hbody', hnames, Option.getD_some, Option.getD_some,
    decodeExpr_of_written hbody]
  rfl

theorem decodeBindings_ofBinding (place : Place) (env : List (String × Option Int)) :
    decodeBindings place (env.map ofBinding) = .ok env := by
  induction env with
  | nil => rfl
  | cons binding env ih =>
    obtain ⟨name, _ | n⟩ := binding
    · simp only [List.map_cons, ofBinding, Option.elim_none, decodeBindings, ih]
      rfl
    · simp only [List.map_cons, ofBinding, Option.elim_some, decodeBindings, ih]
      rfl

theorem decodeQuery_of_written {q : Query} {json : Json} (h : WrittenQuery q json) (place : Place) :
    decodeQuery place json = .ok q := by
  obtain @⟨expr, env, expr', part, fields, hexpr, -, hpart, h⟩ := h
  have hexpr' : fields.lookup "expr" = some expr' := h.lookup (by simp)
  have henv : (fields.lookup "env").getD (.obj []) = .obj (env.map ofBinding) :=
    h.lookup_getD (by decide) hpart (by simp) (by simp +contextual)
  rw [decodeQuery, henv, hexpr', Option.getD_some, decodeExpr_of_written hexpr]
  simp only [decodeBindings_ofBinding]
  rfl

theorem decodeProgram_of_written {p : Program} {json : Json} (h : Written p json) :
    decodeProgram json = .ok p := by
  obtain @⟨functions, queries, functions', queries', part, part', fields, hfunctions, hqueries,
    hpart, hpart', h⟩ := h
  have hfields : (fields.lookup "functions").getD (.arr []) = .arr functions' := by
    refine h.lookup_getD (by decide) hpart (List.subset_append_left _ _) fun m hm hnot => ?_
    rw [hpart'.key_eq ((List.mem_append.1 hm).resolve_left hnot)]
    decide
  have hfields' : (fields.lookup "queries").getD (.arr []) = .arr queries' := by
    refine h.lookup_getD (by decide) hpart' (List.subset_append_right _ _) fun m hm hnot => ?_
    rw [hpart.key_eq ((List.mem_append.1 hm).resolve_right hnot)]
    decide
  rw [decodeProgram,
    decodeList_of_forall₂ hfields (hfunctions.imp fun _ _ => decodeDefinition_of_written),
    decodeList_of_forall₂ hfields' (hqueries.imp fun _ _ => decodeQuery_of_written)]
  rfl

/-! ### Writing programs -/

theorem Composed.self (h : (members.map Prod.fst).Nodup) : Composed reserved members members :=
  ⟨h, [], by simp, by simp⟩

theorem Composed.reversed (others : List (String × Json))
    (h : ((members ++ others).map Prod.fst).Nodup) (hothers : ∀ m ∈ others, m.1 ∉ reserved) :
    Composed reserved members (members ++ others).reverse := by
  refine ⟨?_, others, List.reverse_perm _, hothers⟩
  rwa [List.map_reverse, List.nodup_reverse]

theorem exists_writtenExpr (e : Expr) : ∃ json, WrittenExpr e json := by
  induction e with
  | const n => exact ⟨_, .const (.self (by simp))⟩
  | var x => exact ⟨_, .var (.self (by simp))⟩
  | cond test yes no iht ihy ihn =>
    obtain ⟨test', ht⟩ := iht
    obtain ⟨yes', hy⟩ := ihy
    obtain ⟨no', hn⟩ := ihn
    exact ⟨_, .cond ht hy hn (.self (by simp))⟩
  | basic operator args ih =>
    obtain ⟨items, hitems⟩ := exists_forall₂ ih
    exact ⟨_, .basic hitems (.given _) (.self (by simp))⟩
  | call mode callee args ih =>
    obtain ⟨items, hitems⟩ := exists_forall₂ ih
    exact ⟨_, .call hitems (.given _) (.self (by cases mode <;> simp [modeKey]))⟩

theorem exists_writtenDefinition (f : Definition) : ∃ json, WrittenDefinition f json := by
  obtain ⟨body', hbody⟩ := exists_writtenExpr f.body
  exact ⟨_, .intro hbody (.given _) (.self (by simp))⟩

theorem exists_writtenQuery {q : Query} (hq : (q.env.map Prod.fst).Nodup) :
    ∃ json, WrittenQuery q json := by
  obtain ⟨expr', hexpr⟩ := exists_writtenExpr q.expr
  exact ⟨_, .intro hexpr hq (.given _) (.self (by simp))⟩

theorem exists_written {p : Program} (hp : ∀ q ∈ p.queries, (q.env.map Prod.fst).Nodup) :
    ∃ json, Written p json := by
  obtain ⟨functions', hfunctions⟩ := exists_forall₂ fun f _ => exists_writtenDefinition f
  obtain ⟨queries', hqueries⟩ := exists_forall₂ fun q hq => exists_writtenQuery (hp q hq)
  exact ⟨_, .intro hfunctions hqueries (.given _) (.given _) (.self (by simp))⟩

/-- The same program but for the order of its environments. -/
structure Rearranged (p p' : Program) : Prop where
  functions : p'.functions = p.functions
  queries : List.Forall₂ (fun q q' => q'.expr = q.expr ∧ q'.env.Perm q.env) p.queries p'.queries

theorem Rearranged.nodup {p p' : Program} (h : Rearranged p p')
    (hp : ∀ q ∈ p.queries, (q.env.map Prod.fst).Nodup) :
    ∀ q ∈ p'.queries, (q.env.map Prod.fst).Nodup := by
  intro q' hq'
  obtain ⟨q, hq, -, hperm⟩ := exists_of_forall₂ h.queries.flip hq'
  exact (hperm.map Prod.fst).nodup_iff.2 (hp q hq)

/-- Every program can be written, with its environments in any order, and however this is done it is
loaded back with the environments in that order, and the report stays as it was. -/
theorem load_written (p p' : Program) (hp : ∀ q ∈ p.queries, (q.env.map Prod.fst).Nodup)
    (h : Rearranged p p') :
    (∃ json, Written p' json) ∧ ∀ json, Written p' json → decodeProgram json = .ok p' ∧
      ∀ depth path text report, Json.read (.document depth) text = .ok json →
        Program.load depth path text report = (report, .ok (some p')) := by
  refine ⟨exists_written (h.nodup hp), fun json hjson => ?_⟩
  have hdecode := decodeProgram_of_written hjson
  refine ⟨hdecode, fun depth path text report hread => ?_⟩
  simp only [Program.load, hread, hdecode]

/-- A function without parameters that calls itself, and a query with the given environment. -/
def summing (env : List (String × Option Int)) : Program :=
  ⟨[⟨"f", [], .call .memo "f" []⟩], [⟨.basic "add" [.var "x", .var "y"], env⟩]⟩

/-- The program written last to first and with notes, without what is empty. -/
def summingDocument : Json :=
  .obj [
    ("note", .int 0),
    ("queries", .arr [.obj [
      ("env", .obj [("y", .null), ("x", .int 3)]),
      ("expr", .obj [
        ("args", .arr [.obj [("var", .str "x")], .obj [("var", .str "y")]]),
        ("basic", .str "add")])]]),
    ("functions", .arr [.obj [
      ("body", .obj [("note", .str "args"), ("memo", .str "f")]),
      ("name", .str "f")]])]

theorem written_summing : Written (summing [("y", none), ("x", some 3)]) summingDocument := by
  have hvar (x : String) : WrittenExpr (.var x) (.obj [("var", .str x)]) := .var (.self (by simp))
  have hexpr : WrittenExpr (.basic "add" [.var "x", .var "y"]) _ :=
    .basic (.cons (hvar "x") (.cons (hvar "y") .nil)) (.given _) (.reversed [] (by simp) (by simp))
  have hbody : WrittenExpr (.call .memo "f" []) _ :=
    .call .nil .omitted (.reversed [("note", .str "args")] (by simp [modeKey]) (by decide))
  have hf : WrittenDefinition ⟨"f", [], .call .memo "f" []⟩ _ :=
    .intro hbody .omitted (.reversed [] (by simp) (by simp))
  have hq : WrittenQuery ⟨.basic "add" [.var "x", .var "y"], [("y", none), ("x", some 3)]⟩ _ :=
    .intro hexpr (by simp) (.given _) (.reversed [] (by simp) (by simp))
  exact .intro (.cons hf .nil) (.cons hq .nil) (.given _) (.given _)
    (.reversed [("note", .int 0)] (by simp) (by simp))

theorem summing_loads :
    (∀ q ∈ (summing [("x", some 3), ("y", none)]).queries, (q.env.map Prod.fst).Nodup) ∧
    Rearranged (summing [("x", some 3), ("y", none)]) (summing [("y", none), ("x", some 3)]) ∧
    decodeProgram summingDocument = .ok (summing [("y", none), ("x", some 3)]) ∧
    ∀ depth path text report, Json.read (.document depth) text = .ok summingDocument →
      Program.load depth path text report =
        (report, .ok (some (summing [("y", none), ("x", some 3)]))) := by
  have hp : ∀ q ∈ (summing [("x", some 3), ("y", none)]).queries, (q.env.map Prod.fst).Nodup := by
    simp [summing]
  have h : Rearranged (summing [("x", some 3), ("y", none)])
      (summing [("y", none), ("x", some 3)]) :=
    ⟨rfl, .cons ⟨rfl, .swap _ _ _⟩ .nil⟩
  exact ⟨hp, h, (load_written _ _ hp h).2 _ written_summing⟩

end StrictnessAnalysis.Document
