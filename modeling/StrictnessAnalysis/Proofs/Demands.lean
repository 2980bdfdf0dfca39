import Mathlib.Data.List.Basic
import StrictnessAnalysis.Proofs.Forms

/-! What the format demands of a document, in the order in which it is read: functions before
queries, the items of a list from left to right, the name of a definition before its parameters and
these before its body, the environment of a query before its expression. A document is read if all
demands are met, and else the fault is that of the first one that is not. -/

namespace StrictnessAnalysis.Document

/-! ### Single demands -/

/-- What is found at a place, if anything, is what is expected there. -/
def Expectation.admits : Expectation → Option Json → Bool
  | .expression, some (.obj _) => true
  | .integer, some (.int _) => true
  | .name, some (.str _) => true
  | .list, some (.arr _) => true
  | .threeParts, some (.arr items) => items.length == 3
  | .definition, some (.obj _) => true
  | .query, some (.obj _) => true
  | .bindings, some (.obj _) => true
  | .program, some (.obj _) => true
  | _, _ => false

/-- A demand on what is found at a place: to be as expected, or, of an expression object, to have
one of the keys that tell the forms apart. -/
inductive Demand
  | kind (place : Place) (expectation : Expectation) (found : Option Json)
  | form (place : Place) (fields : List (String × Json))

namespace Demand

def place : Demand → Place
  | .kind place _ _ => place
  | .form place _ => place

/-- The value at the place, if there is one. -/
def found : Demand → Option Json
  | .kind _ _ found => found
  | .form _ fields => some (.obj fields)

def isMet : Demand → Bool
  | .kind _ expectation found => expectation.admits found
  | .form _ fields => formKeys.any fun key => (fields.lookup key).isSome

/-- What is wrong if the demand is not met. -/
def fault : Demand → Fault
  | .kind place expectation _ => .expected place expectation
  | .form place fields => .unknownForm place (fields.map Prod.fst)

end Demand

/-! ### The demands of the format -/

/-- The demands of the items of a list, of which the first has index `i`. -/
def itemDemands (demands : Place → Json → List Demand) (place : Place) :
    (i : Nat) → List Json → List Demand
  | _, [] => []
  | i, item :: rest => demands (place.index i) item ++ itemDemands demands place (i + 1) rest

/-- The demands of a member that is a list and may be left out. -/
def listDemands (demands : Place → Json → List Demand) (place : Place)
    (fields : List (String × Json)) (key : String) : List Demand :=
  match fields.lookup key with
  | none => []
  | some value => .kind (place.key key) .list (some value) ::
    match value with
    | .arr items => itemDemands demands (place.key key) 0 items
    | _ => []

def nameDemands (place : Place) (json : Json) : List Demand := [.kind place .name (some json)]

/-- The demands of a form apart from those of its parts. -/
def Form.demands (place : Place) : Form → List Demand
  | .const value => [.kind (place.key "const") .integer (some value)]
  | .var value => [.kind (place.key "var") .name (some value)]
  | .cond (.arr items) =>
    [.kind (place.key "if") .list (some (.arr items)),
      .kind (place.key "if") .threeParts (some (.arr items))]
  | .cond parts => [.kind (place.key "if") .list (some parts)]
  | .application key _ name none => [.kind (place.key key) .name (some name)]
  | .application key _ name (some args) =>
    [.kind (place.key key) .name (some name), .kind (place.key "args") .list (some args)]
  | .unknown => []

mutual

def exprDemands (place : Place) (json : Json) : List Demand :=
  .kind place .expression (some json) ::
    match json with
    | .obj fields =>
      let form := Form.ofFields fields
      .form place fields :: form.demands place ++ exprsDemands (form.partsPlace place) 0 form.parts
    | _ => []
termination_by sizeOf json
decreasing_by exact (Form.spelled_ofFields fields).sizeOf_parts_lt

def exprsDemands (place : Place) (i : Nat) (items : List Json) : List Demand :=
  match items with
  | [] => []
  | item :: rest => exprDemands (place.index i) item ++ exprsDemands place (i + 1) rest
termination_by sizeOf items
decreasing_by
  all_goals
    simp only [List.cons.sizeOf_spec]
    omega

end

/-- The demands of a member that is an expression. -/
def memberDemands (place : Place) (fields : List (String × Json)) (key : String) : List Demand :=
  match fields.lookup key with
  | none => [.kind (place.key key) .expression none]
  | some value => exprDemands (place.key key) value

def definitionDemands (place : Place) (json : Json) : List Demand :=
  .kind place .definition (some json) ::
    match json with
    | .obj fields =>
      .kind (place.key "name") .name (fields.lookup "name") ::
        listDemands nameDemands place fields "params" ++ memberDemands place fields "body"
    | _ => []

/-- What is bound to a name is an integer unless it is null. -/
def bindingDemands (place : Place) : List (String × Json) → List Demand
  | [] => []
  | (_, .null) :: rest => bindingDemands place rest
  | (name, value) :: rest =>
    .kind (place.key name) .integer (some value) :: bindingDemands place rest

def envDemands (place : Place) (fields : List (String × Json)) : List Demand :=
  match fields.lookup "env" with
  | none => []
  | some env => .kind (place.key "env") .bindings (some env) ::
    match env with
    | .obj bindings => bindingDemands (place.key "env") bindings
    | _ => []

def queryDemands (place : Place) (json : Json) : List Demand :=
  .kind place .query (some json) ::
    match json with
    | .obj fields => envDemands place fields ++ memberDemands place fields "expr"
    | _ => []

/-- All demands on a document, as they are read. -/
def demands (json : Json) : List Demand :=
  .kind [] .program (some json) ::
    match json with
    | .obj fields =>
      listDemands definitionDemands [] fields "functions" ++
        listDemands queryDemands [] fields "queries"
    | _ => []

theorem exprsDemands_eq (place : Place) (i : Nat) (items : List Json) :
    exprsDemands place i items = itemDemands exprDemands place i items := by
  induction items generalizing i with
  | nil => rw [exprsDemands, itemDemands]
  | cons item items ih => rw [exprsDemands, itemDemands, ih]

theorem exprDemands_obj (place : Place) (fields : List (String × Json)) :
    exprDemands place (.obj fields) =
      .kind place .expression (some (.obj fields)) :: .form place fields ::
        (Form.ofFields fields).demands place ++
          itemDemands exprDemands ((Form.ofFields fields).partsPlace place) 0
            (Form.ofFields fields).parts := by
  rw [exprDemands]
  simp only [exprsDemands_eq]
  rfl

/-! ### Following the demands -/

/-- The result of reading something with these demands: a value if all are met, and else the fault
of the first that is not. -/
inductive Follows {α : Type} : Except Fault α → List Demand → Prop
  | done (a : α) : Follows (.ok a) []
  | met {d : Demand} {result : Except Fault α} {ds : List Demand} :
      d.isMet → Follows result ds → Follows result (d :: ds)
  | unmet {d : Demand} {ds : List Demand} : d.isMet = false → Follows (.error d.fault) (d :: ds)

section Follows

variable {α β : Type} {ds ds' : List Demand} {result : Except Fault α} {f : α → Except Fault β}

theorem Follows.unexpected {place : Place} {expectation : Expectation} {found : Option Json}
    (h : expectation.admits found = false) :
    Follows (.error (.expected place expectation) : Except Fault α)
      (.kind place expectation found :: ds) :=
  .unmet (d := .kind place expectation found) h

theorem Follows.bind (h : Follows result ds) (hf : ∀ a, result = .ok a → Follows (f a) ds') :
    Follows (result >>= f) (ds ++ ds') := by
  induction h with
  | done a => exact hf a rfl
  | met hd _ ih => exact .met hd (ih hf)
  | unmet hd => exact .unmet hd

theorem Follows.map (h : Follows result ds) (f : α → β) :
    Follows (do return f (← result)) ds := by
  have hbind := h.bind (f := fun a => pure (f a)) fun a _ => .done (f a)
  rwa [List.append_nil] at hbind

/-- A fault is that of a demand that is not met, while all before it are. -/
theorem Follows.exists_unmet {fault : Fault} (h : Follows (.error fault : Except Fault α) ds) :
    ∃ before d after, ds = before ++ d :: after ∧ (∀ d' ∈ before, d'.isMet) ∧ d.isMet = false ∧
      d.fault = fault := by
  generalize hresult : (.error fault : Except Fault α) = result at h
  induction h with
  | done a => cases hresult
  | met hd _ ih =>
    obtain ⟨before, d, after, rfl, hbefore, hd', hfault⟩ := ih hresult
    exact ⟨_ :: before, d, after, rfl, List.forall_mem_cons.2 ⟨hd, hbefore⟩, hd', hfault⟩
  | unmet hd =>
    cases hresult
    exact ⟨[], _, _, rfl, List.forall_mem_nil _, hd, rfl⟩

end Follows

theorem follows_decodeName (place : Place) (found : Option Json) :
    Follows (decodeName place (found.getD .null)) [.kind place .name found] := by
  obtain _ | json := found
  · exact .unexpected rfl
  · cases json with
    | str name => exact .met rfl (.done name)
    | _ => exact .unexpected rfl

theorem follows_decodeInt (place : Place) (json : Json) :
    Follows (decodeInt place json) [.kind place .integer (some json)] := by
  cases json with
  | int n => exact .met rfl (.done n)
  | _ => exact .unexpected rfl

section Lists

variable {α : Type} {decode : Place → Json → Except Fault α} {demands : Place → Json → List Demand}

theorem follows_decodeItems {items : List Json}
    (h : ∀ item ∈ items, ∀ place, Follows (decode place item) (demands place item)) (place : Place)
    (i : Nat) : Follows (decodeItems decode place i items) (itemDemands demands place i items) := by
  induction items generalizing i with
  | nil => exact .done []
  | cons item items ih =>
    rw [List.forall_mem_cons] at h
    exact (h.1 _).bind fun a _ => (ih h.2 _).map (a :: ·)

theorem follows_decodeList (h : ∀ place item, Follows (decode place item) (demands place item))
    (place : Place) (fields : List (String × Json)) (key : String) :
    Follows (decodeList decode place fields key) (listDemands demands place fields key) := by
  unfold decodeList listDemands
  cases fields.lookup key with
  | none => exact .done []
  | some value =>
    cases value with
    | arr items => exact .met rfl (follows_decodeItems (fun item _ place => h place item) _ _)
    | _ => exact .unexpected rfl

end Lists

/-! ### Reading follows the demands -/

theorem isMet_form {place : Place} {fields : List (String × Json)} {key : String} {value : Json}
    (hkey : key ∈ formKeys) (hlookup : fields.lookup key = some value) :
    (Demand.form place fields).isMet :=
  List.any_eq_true.2 ⟨key, hkey, by rw [hlookup]; rfl⟩

theorem isMet_form_eq_false {place : Place} {fields : List (String × Json)}
    (h : ∀ key ∈ formKeys, fields.lookup key = none) :
    (Demand.form place fields).isMet = false := by
  rw [Demand.isMet, List.any_eq_false]
  intro key hkey
  simp [h key hkey]

theorem follows_decodeForm {fields : List (String × Json)} {form : Form}
    (h : Form.Spelled fields form)
    (ih : ∀ item ∈ form.parts, ∀ place, Follows (decodeExpr place item) (exprDemands place item))
    (place : Place) :
    Follows (decodeForm place fields form) (.form place fields :: form.demands place ++
      itemDemands exprDemands (form.partsPlace place) 0 form.parts) := by
  cases h with
  | const hconst =>
    refine .met (isMet_form (by decide) hconst) ?_
    exact (follows_decodeInt _ _).map Expr.const
  | var hconst hvar =>
    refine .met (isMet_form (by decide) hvar) ?_
    exact (follows_decodeName _ (some _)).map Expr.var
  | @cond parts hconst hvar hif =>
    refine .met (isMet_form (by decide) hif) ?_
    cases parts with
    | arr items =>
      refine .met rfl ?_
      by_cases hthree : items.length = 3
      · obtain ⟨test, yes, no, rfl⟩ := List.length_eq_three.1 hthree
        refine .met rfl ?_
        have hpart := fun item hitem => ih item hitem
        simp only [Form.parts, List.forall_mem_cons] at hpart
        exact (hpart.1 _).bind fun test _ => (hpart.2.1 _).bind fun yes _ =>
          (hpart.2.2.1 _).bind fun no _ => .done (Expr.cond test yes no)
      · rw [decodeForm]
        · exact .unexpected (beq_eq_false_iff_ne.2 hthree)
        · rintro test yes no rfl
          exact hthree rfl
    | _ => exact .unexpected rfl
  | @application key build name args hconst hvar hif hfind hname hargs =>
    have hkey : key ∈ applications.map Prod.fst :=
      List.mem_map_of_mem (List.mem_of_find?_eq_some hfind)
    refine .met (isMet_form (Form.mem_formKeys hkey) hname) ?_
    obtain _ | args := args
    · simp only [decodeForm, Option.getD_none, decodeItems]
      exact (follows_decodeName _ (some name)).map (build · [])
    · have hname := follows_decodeName (place.key key) (some name)
      cases args with
      | arr items =>
        refine hname.bind fun name _ => .met rfl ?_
        exact (follows_decodeItems ih _ _).map (build name)
      | _ => exact hname.bind fun name _ => .unexpected rfl
  | unknown hnone => exact .unmet (isMet_form_eq_false hnone)

theorem follows_decodeExpr (json : Json) (place : Place) :
    Follows (decodeExpr place json) (exprDemands place json) := by
  induction json using Form.induction generalizing place with
  | obj fields ih =>
    rw [exprDemands_obj, decodeExpr_of_spelled (Form.spelled_ofFields fields)]
    exact .met rfl (follows_decodeForm (Form.spelled_ofFields fields) ih place)
  | other json hother =>
    rw [exprDemands, decodeExpr]
    · cases json with
      | obj fields => exact absurd rfl (hother fields)
      | _ => exact .unexpected rfl
    · exact hother
    · exact hother

theorem follows_member (place : Place) (fields : List (String × Json)) (key : String) :
    Follows (decodeExpr (place.key key) ((fields.lookup key).getD .null))
      (memberDemands place fields key) := by
  unfold memberDemands
  cases fields.lookup key with
  | none =>
    rw [Option.getD_none, decodeExpr]
    · exact .unexpected rfl
    · simp
  | some value => exact follows_decodeExpr value _

theorem follows_params (place : Place) (fields : List (String × Json)) :
    Follows (decodeList decodeName place fields "params")
      (listDemands nameDemands place fields "params") :=
  follows_decodeList (fun place item => follows_decodeName place (some item)) _ _ _

theorem follows_decodeDefinition (place : Place) (json : Json) :
    Follows (decodeDefinition place json) (definitionDemands place json) := by
  cases json with
  | obj fields =>
    refine .met rfl ((follows_decodeName _ _).bind fun name _ => ?_)
    exact (follows_params _ _).bind fun params _ =>
      (follows_member _ _ _).map (Definition.mk name params)
  | _ => exact .unexpected rfl

theorem follows_decodeBindings (place : Place) (bindings : List (String × Json)) :
    Follows (decodeBindings place bindings) (bindingDemands place bindings) := by
  induction bindings with
  | nil => exact .done []
  | cons binding bindings ih =>
    obtain ⟨name, value⟩ := binding
    cases value with
    | null => exact ih.map ((name, none) :: ·)
    | _ => exact (follows_decodeInt _ _).bind fun n _ => ih.map ((name, some n) :: ·)

theorem follows_decodeQuery (place : Place) (json : Json) :
    Follows (decodeQuery place json) (queryDemands place json) := by
  cases json with
  | obj fields =>
    have hexpr (env : List (String × Option Int)) :=
      (follows_member place fields "expr").map (Query.mk · env)
    refine .met rfl ?_
    simp only [decodeQuery, envDemands]
    cases fields.lookup "env" with
    | none => exact hexpr []
    | some env =>
      cases env with
      | obj bindings =>
        exact .met rfl ((follows_decodeBindings _ _).bind fun env _ => hexpr env)
      | _ => exact .unexpected rfl
  | _ => exact .unexpected rfl

/-- Reading a document follows its demands. -/
theorem follows_decodeProgram (json : Json) : Follows (decodeProgram json) (demands json) := by
  cases json with
  | obj fields =>
    have hfunctions := follows_decodeList follows_decodeDefinition [] fields "functions"
    have hqueries := follows_decodeList follows_decodeQuery [] fields "queries"
    exact .met rfl (hfunctions.bind fun fs _ => hqueries.map (Program.mk fs))
  | _ => exact .unexpected rfl

end StrictnessAnalysis.Document
