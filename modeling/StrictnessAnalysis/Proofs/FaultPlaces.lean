import StrictnessAnalysis.Loading
import StrictnessAnalysis.Proofs.Demands
import StrictnessAnalysis.Proofs.Places

/-! A complaint about a document points at what is wrong with it. The text of its place, read as
steps from the root of the document, leads to a value, or to a key that an object lacks, and what is
there is not what the complaint says it should be; all that is read before is as it should be. -/

namespace StrictnessAnalysis.Document

/-! ### Following a place -/

/-- The steps lead from the root to this value, or to a key that is missing from the object to which
all steps but the last one lead. -/
inductive Leads (root : Json) : Place → Option Json → Prop
  | root : Leads root [] (some root)
  | member {place : Place} {fields : List (String × Json)} {key : String} {value : Json} :
      Leads root place (some (.obj fields)) → (key, value) ∈ fields →
      Leads root (place.key key) (some value)
  | absent {place : Place} {fields : List (String × Json)} {key : String} :
      Leads root place (some (.obj fields)) → (∀ value, (key, value) ∉ fields) →
      Leads root (place.key key) none
  | item {place : Place} {items : List Json} {i : Nat} {item : Json} :
      Leads root place (some (.arr items)) → items[i]? = some item →
      Leads root (place.index i) (some item)

variable {root : Json} {place : Place} {fields : List (String × Json)}

/-- Looking a key up takes a step, whether the key is there or not. -/
theorem Leads.lookup (h : Leads root place (some (.obj fields))) (key : String) :
    Leads root (place.key key) (fields.lookup key) := by
  cases hlookup : fields.lookup key with
  | none =>
    refine .absent h fun value hmem => ?_
    simpa using List.lookup_eq_none_iff.1 hlookup _ hmem
  | some value =>
    obtain ⟨before, after, rfl, -⟩ := List.lookup_eq_some_iff.1 hlookup
    exact .member h (by simp)

theorem Leads.of_lookup (h : Leads root place (some (.obj fields))) {key : String} {value : Json}
    (hlookup : fields.lookup key = some value) : Leads root (place.key key) (some value) :=
  hlookup ▸ h.lookup key

/-! ### The places of demands -/

/-- Of a list only is it demanded to have three parts. -/
def Demand.Fair : Demand → Prop
  | .kind _ .threeParts found => ∃ items, found = some (.arr items)
  | _ => True

/-- The place of a demand leads to what it is about, and can be read from its text. -/
structure Sited (root : Json) (d : Demand) : Prop where
  leads : Leads root d.place d.found
  readable : d.place.Readable
  fair : d.Fair

/-- All demands on a value are sited wherever the value stands. -/
def Sites (root : Json) (demands : Place → Json → List Demand) (json : Json) : Prop :=
  ∀ place, place.Plain → Leads root place (some json) → ∀ d ∈ demands place json, Sited root d

theorem sited_kind {expectation : Expectation} {found : Option Json} (h : Leads root place found)
    (hplain : place.Plain) (hfair : (Demand.kind place expectation found).Fair) :
    Sited root (.kind place expectation found) :=
  ⟨h, .plain hplain, hfair⟩

section Lists

variable {demands : Place → Json → List Demand}

theorem sited_itemDemands {all items : List Json} (h : ∀ item ∈ items, Sites root demands item)
    (hplain : place.Plain) (hall : Leads root place (some (.arr all))) {i : Nat}
    (hitems : all.drop i = items) : ∀ d ∈ itemDemands demands place i items, Sited root d := by
  induction items generalizing i with
  | nil => exact List.forall_mem_nil _
  | cons item items ih =>
    rw [List.forall_mem_cons] at h
    have hitem : all[i]? = some item := by
      rw [← List.head?_drop, hitems, List.head?_cons]
    have hrest : all.drop (i + 1) = items := by
      rw [← List.tail_drop, hitems, List.tail_cons]
    rw [itemDemands, List.forall_mem_append]
    exact ⟨h.1 _ (hplain.index i) (.item hall hitem), ih h.2 hrest⟩

theorem sited_listDemands (h : ∀ item, Sites root demands item) {key : String}
    (hplain : (place.key key).Plain) (hfields : Leads root place (some (.obj fields))) :
    ∀ d ∈ listDemands demands place fields key, Sited root d := by
  unfold listDemands
  cases hlookup : fields.lookup key with
  | none => exact List.forall_mem_nil _
  | some value =>
    have hvalue := hfields.of_lookup hlookup
    rw [List.forall_mem_cons]
    refine ⟨sited_kind hvalue hplain trivial, ?_⟩
    cases value with
    | arr items => exact sited_itemDemands (fun item _ => h item) hplain hvalue List.drop_zero
    | _ => exact List.forall_mem_nil _

end Lists

theorem sites_nameDemands (json : Json) : Sites root nameDemands json := by
  intro place hplain hleads
  exact List.forall_mem_singleton.2 (sited_kind hleads hplain trivial)

theorem sited_formDemands {form : Form} (h : Form.Spelled fields form) (hplain : place.Plain)
    (hfields : Leads root place (some (.obj fields))) :
    ∀ d ∈ form.demands place, Sited root d := by
  have hsited : ∀ key ∈ Place.formatKeys, ∀ value expectation, fields.lookup key = some value →
      (Demand.kind (place.key key) expectation (some value)).Fair →
      Sited root (.kind (place.key key) expectation (some value)) :=
    fun key hkey value _ hlookup => sited_kind (hfields.of_lookup hlookup) (hplain.key hkey)
  cases h with
  | const hconst => exact List.forall_mem_singleton.2 (hsited _ (by decide) _ _ hconst trivial)
  | var _ hvar => exact List.forall_mem_singleton.2 (hsited _ (by decide) _ _ hvar trivial)
  | @cond parts _ _ hif =>
    have hlist := hsited _ (by decide) _ .list hif trivial
    cases parts with
    | arr items =>
      simp only [Form.demands, List.forall_mem_cons]
      exact ⟨hlist, hsited _ (by decide) _ _ hif ⟨items, rfl⟩, List.forall_mem_nil _⟩
    | _ => exact List.forall_mem_singleton.2 hlist
  | @application key build name args _ _ _ hfind hname hargs =>
    have hkey : key ∈ Place.formatKeys := by
      have hkeys : ∀ form ∈ applications, form.1 ∈ Place.formatKeys := by decide
      exact hkeys _ (List.mem_of_find?_eq_some hfind)
    cases args with
    | none => exact List.forall_mem_singleton.2 (hsited _ hkey _ _ hname trivial)
    | some args =>
      simp only [Form.demands, List.forall_mem_cons]
      exact ⟨hsited _ hkey _ _ hname trivial, hsited _ (by decide) _ _ hargs trivial,
        List.forall_mem_nil _⟩
  | unknown => exact List.forall_mem_nil _

theorem sites_exprDemands (json : Json) : Sites root exprDemands json := by
  induction json using Form.induction with
  | obj fields ih =>
    intro place hplain hleads
    have hspelled := Form.spelled_ofFields fields
    rw [exprDemands_obj]
    simp only [List.cons_append, List.forall_mem_cons, List.forall_mem_append]
    refine ⟨sited_kind hleads hplain trivial, ⟨hleads, .plain hplain, trivial⟩,
      sited_formDemands hspelled hplain hleads, ?_⟩
    rcases hspelled.parts_eq with hparts | ⟨key, hkey, hplace, hlookup⟩
    · rw [hparts]
      exact List.forall_mem_nil _
    · have hformat : key ∈ Place.formatKeys := by
        have hkeys : ["if", "args"] ⊆ Place.formatKeys := by decide
        exact hkeys hkey
      rw [hplace]
      exact sited_itemDemands ih (hplain.key hformat) (hleads.of_lookup hlookup) List.drop_zero
  | other json hother =>
    intro place hplain hleads
    rw [exprDemands]
    · exact List.forall_mem_singleton.2 (sited_kind hleads hplain trivial)
    · exact hother

theorem sited_memberDemands {key : String} (hplain : (place.key key).Plain)
    (hfields : Leads root place (some (.obj fields))) :
    ∀ d ∈ memberDemands place fields key, Sited root d := by
  have hlookup := hfields.lookup key
  unfold memberDemands
  cases hmember : fields.lookup key with
  | none => exact List.forall_mem_singleton.2 (sited_kind (hmember ▸ hlookup) hplain trivial)
  | some value => exact sites_exprDemands value _ hplain (hmember ▸ hlookup)

theorem sites_definitionDemands (json : Json) : Sites root definitionDemands json := by
  intro place hplain hleads
  unfold definitionDemands
  rw [List.forall_mem_cons]
  refine ⟨sited_kind hleads hplain trivial, ?_⟩
  cases json with
  | obj fields =>
    have hkey : ∀ key ∈ ["name", "params", "body"], (place.key key).Plain :=
      fun key hmem => hplain.key ((by decide : ["name", "params", "body"] ⊆ Place.formatKeys) hmem)
    simp only [List.cons_append, List.forall_mem_cons, List.forall_mem_append]
    exact ⟨sited_kind (hleads.lookup "name") (hkey _ (by simp)) trivial,
      sited_listDemands sites_nameDemands (hkey _ (by simp)) hleads,
      sited_memberDemands (hkey _ (by simp)) hleads⟩
  | _ => exact List.forall_mem_nil _

theorem exists_mem_of_mem_bindingDemands {bindings : List (String × Json)} {d : Demand}
    (h : d ∈ bindingDemands place bindings) :
    ∃ name value, (name, value) ∈ bindings ∧ d = .kind (place.key name) .integer (some value) := by
  induction bindings with
  | nil => cases h
  | cons binding bindings ih =>
    obtain ⟨name, value⟩ := binding
    have hrest (h : d ∈ bindingDemands place bindings) :
        ∃ name' value', (name', value') ∈ (name, value) :: bindings ∧
          d = .kind (place.key name') .integer (some value') := by
      obtain ⟨name', value', hmem, hd⟩ := ih h
      exact ⟨name', value', List.mem_cons_of_mem _ hmem, hd⟩
    cases value with
    | null => exact hrest h
    | _ =>
      rcases List.mem_cons.1 h with hd | h
      · exact ⟨name, _, List.mem_cons_self, hd⟩
      · exact hrest h

theorem sited_envDemands (hplain : place.Plain) (hfields : Leads root place (some (.obj fields))) :
    ∀ d ∈ envDemands place fields, Sited root d := by
  unfold envDemands
  cases hlookup : fields.lookup "env" with
  | none => exact List.forall_mem_nil _
  | some env =>
    have henv := hfields.of_lookup hlookup
    rw [List.forall_mem_cons]
    refine ⟨⟨henv, .env hplain, trivial⟩, ?_⟩
    cases env with
    | obj bindings =>
      intro d hd
      obtain ⟨name, value, hmem, rfl⟩ := exists_mem_of_mem_bindingDemands hd
      exact ⟨.member henv hmem, .binding name hplain, trivial⟩
    | _ => exact List.forall_mem_nil _

theorem sites_queryDemands (json : Json) : Sites root queryDemands json := by
  intro place hplain hleads
  unfold queryDemands
  rw [List.forall_mem_cons]
  refine ⟨sited_kind hleads hplain trivial, ?_⟩
  cases json with
  | obj fields =>
    rw [List.forall_mem_append]
    exact ⟨sited_envDemands hplain hleads,
      sited_memberDemands (hplain.key (by decide)) hleads⟩
  | _ => exact List.forall_mem_nil _

theorem sited_demands (json : Json) : ∀ d ∈ demands json, Sited json d := by
  unfold demands
  rw [List.forall_mem_cons]
  refine ⟨⟨.root, .root, trivial⟩, ?_⟩
  cases json with
  | obj fields =>
    have hfunctions := Place.plain_key (by decide : "functions" ∈ Place.formatKeys)
    have hqueries := Place.plain_key (by decide : "queries" ∈ Place.formatKeys)
    rw [List.forall_mem_append]
    exact ⟨sited_listDemands sites_definitionDemands hfunctions .root,
      sited_listDemands sites_queryDemands hqueries .root⟩
  | _ => exact List.forall_mem_nil _

/-! ### Complaints -/

/-- What is found is not what is demanded, and how this is said: in an introduction and in remarks
behind the place. -/
inductive Demand.Broken : Demand → String → List String → Prop
  | integer {place : Place} {found : Option Json} : (∀ n, found ≠ some (.int n)) →
    Broken (.kind place .integer found) "Expected an integer here." []
  | name {place : Place} {found : Option Json} : (∀ s, found ≠ some (.str s)) →
    Broken (.kind place .name found) "Expected a name here." []
  | list {place : Place} {found : Option Json} : (∀ items, found ≠ some (.arr items)) →
    Broken (.kind place .list found) "Expected a list here." []
  | threeParts {place : Place} {items : List Json} : items.length ≠ 3 →
    Broken (.kind place .threeParts (some (.arr items)))
      "Expected exactly three parts: condition, then, else here." []
  | expression {place : Place} {found : Option Json} : (∀ fields, found ≠ some (.obj fields)) →
    Broken (.kind place .expression found) "Expected an expression object here." []
  | definition {place : Place} {found : Option Json} : (∀ fields, found ≠ some (.obj fields)) →
    Broken (.kind place .definition found) "Expected a function definition object here." []
  | query {place : Place} {found : Option Json} : (∀ fields, found ≠ some (.obj fields)) →
    Broken (.kind place .query found) "Expected a query object here." []
  | bindings {place : Place} {found : Option Json} : (∀ fields, found ≠ some (.obj fields)) →
    Broken (.kind place .bindings found)
      "Expected an object mapping names to integers or null here." []
  | program {place : Place} {found : Option Json} : (∀ fields, found ≠ some (.obj fields)) →
    Broken (.kind place .program found)
      "Expected an object with \"functions\" and maybe \"queries\" here." []
  | form {place : Place} {fields : List (String × Json)} :
    (∀ key ∈ ["const", "var", "if", "basic", "call", "memo", "fpi"],
      ∀ value, (key, value) ∉ fields) →
    Broken (.form place fields) "This is not any kind of expression I know."
      ["(Keys were: " ++ String.intercalate ", "
          (fields.map fun member => String.ofList (Text.Quoted.encode member.1.toList)) ++ ")",
        "Try one of: const, var, if, basic, call, memo, fpi"]

/-- The complaint about a demand that is not met says so. -/
theorem Demand.broken_of_unmet {d : Demand} (h : d.isMet = false) (hfair : d.Fair) :
    d.Broken d.fault.notice.intro d.fault.notice.remarks := by
  cases d with
  | kind place expectation found =>
    cases expectation with
    | integer => exact .integer (by rintro n rfl; cases h)
    | name => exact .name (by rintro s rfl; cases h)
    | list => exact .list (by rintro items rfl; cases h)
    | threeParts =>
      obtain ⟨items, rfl⟩ := hfair
      exact .threeParts (beq_eq_false_iff_ne.1 h)
    | expression => exact .expression (by rintro fields rfl; cases h)
    | definition => exact .definition (by rintro fields rfl; cases h)
    | query => exact .query (by rintro fields rfl; cases h)
    | bindings => exact .bindings (by rintro fields rfl; cases h)
    | program => exact .program (by rintro fields rfl; cases h)
  | form place fields =>
    have hnone : ∀ key ∈ formKeys, ∀ value, (key, value) ∉ fields := by
      intro key hkey value hmem
      have hlookup := List.any_eq_false.1 h key hkey
      rw [Option.not_isSome_iff_eq_none, List.lookup_eq_none_iff] at hlookup
      simpa using hlookup _ hmem
    have hkeys : (fields.map Prod.fst).map Text.Quoted.quoted =
        fields.map fun member => String.ofList (Text.Quoted.encode member.1.toList) := by
      rw [List.map_map]
      rfl
    rw [fault, Fault.notice, Notice.unknownForm, hkeys]
    exact .form hnone

theorem places_notice (d : Demand) : d.fault.notice.places = [d.place.render] := by
  cases d <;> rfl

/-- A document that is rejected breaks a demand and meets all that are read before. The fault is
that of this demand. The place that the complaint names, read from its text, leads to the value that
breaks it or to the key whose absence does, and the rest of the complaint says what was demanded. -/
theorem complaint_points_at_fault {json : Json} {fault : Fault}
    (h : decodeProgram json = .error fault) :
    ∃ before d after, demands json = before ++ d :: after ∧ (∀ d' ∈ before, d'.isMet) ∧
      d.isMet = false ∧ d.fault = fault ∧ Leads json d.place d.found ∧
      fault.notice.places.map Place.ofText? = [some d.place] ∧
      d.Broken fault.notice.intro fault.notice.remarks ∧
      ∀ depth path text report, Json.read (.document depth) text = .ok json →
        (Program.load depth path text report).1.issues = report.issues ++ [fault.notice] := by
  have hfollows := follows_decodeProgram json
  rw [h] at hfollows
  obtain ⟨before, d, after, hdemands, hbefore, hunmet, rfl⟩ := hfollows.exists_unmet
  have hsited : Sited json d := sited_demands json d (by rw [hdemands]; simp)
  refine ⟨before, d, after, hdemands, hbefore, hunmet, rfl, hsited.leads, ?_,
    Demand.broken_of_unmet hunmet hsited.fair, ?_⟩
  · rw [places_notice, List.map_singleton, Place.ofText?_render hsited.readable]
  · intro depth path text report hread
    rw [Program.load, hread]
    simp only [h]
    rfl

/-- A document in which a name that looks like a place is bound to a truth value. -/
def flagged : Json :=
  .obj [("queries", .arr [.obj [("expr", .obj [("args", .null)]),
      ("env", .obj [("n", .null), ("m", .int 2), ("a.b[0]", .bool true)])]]),
    ("functions", .arr [])]

def flaggedFault : Fault :=
  .expected [.key "queries", .index 0, .key "env", .key "a.b[0]"] .integer

/-- The binding is what the complaint is about, not the expression, which is read later. -/
theorem flagged_points_at_binding :
    decodeProgram flagged = .error flaggedFault ∧
      ∃ before d after, demands flagged = before ++ d :: after ∧ (∀ d' ∈ before, d'.isMet) ∧
        d.isMet = false ∧ d.fault = flaggedFault ∧ Leads flagged d.place d.found ∧
        flaggedFault.notice.places.map Place.ofText? = [some d.place] ∧
        d.Broken flaggedFault.notice.intro flaggedFault.notice.remarks ∧
        ∀ depth path text report, Json.read (.document depth) text = .ok flagged →
          (Program.load depth path text report).1.issues =
            report.issues ++ [flaggedFault.notice] := by
  have hreject : decodeProgram flagged = .error flaggedFault := rfl
  exact ⟨hreject, complaint_points_at_fault hreject⟩

end StrictnessAnalysis.Document
