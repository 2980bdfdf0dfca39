import StrictnessAnalysis.Draft
import StrictnessAnalysis.Loading
import StrictnessAnalysis.Proofs.Demands

/-! Loading is all or nothing: either a text gives a program and the report stays as it was, or one
issue is added to it and there is no program.

The reader makes expressions outright. Here a document is also assembled from its raw values by the
constructors of drafts, which refuse parts that do not fit. What the format demands of an object is
checked before its constructor is reached, and this is enough: no constructor ever refuses, not even
in a document that is rejected in the end. -/

namespace StrictnessAnalysis

/-! ### Expressions as drafts -/

namespace Draft

mutual

def ofExpr : Expr → Draft
  | .const n => .const n
  | .var x => .var x
  | .cond test yes no => .cond (ofExpr test) (ofExpr yes) (ofExpr no)
  | .basic operator args => .apply .basic operator (ofExprs args)
  | .call mode callee args => .apply (.call mode) callee (ofExprs args)

def ofExprs : List Expr → List Draft
  | [] => []
  | e :: es => ofExpr e :: ofExprs es

end

def ofDefinition (f : Definition) : Draft :=
  .definition (.str f.name) (f.params.map .str) (ofExpr f.body)

theorem ofExprs_eq_map (es : List Expr) : ofExprs es = es.map ofExpr := by
  induction es with
  | nil => rfl
  | cons e es ih => rw [ofExprs, ih, List.map_cons]

theorem requireNode_ofExpr (e : Expr) : requireNode (ofExpr e) = .ok () := by
  cases e <;> rfl

theorem forM_requireNode_ofExpr (es : List Expr) :
    (es.map ofExpr).forM requireNode = .ok () := by
  induction es with
  | nil => rfl
  | cons e es ih =>
    rw [List.map_cons, List.forM, requireNode_ofExpr]
    exact ih

theorem makeApply_ofExpr (applied : Applied) (name : String) (es : List Expr) :
    makeApply applied (.str name) (.list (es.map ofExpr)) =
      .ok (.apply applied name (es.map ofExpr)) := by
  have hmembers : members (.list (es.map ofExpr)) = .ok (es.map ofExpr) := rfl
  rw [makeApply, hmembers]
  change ((es.map ofExpr).forM requireNode >>= fun _ => _) = _
  rw [forM_requireNode_ofExpr]
  rfl

theorem makeDefinition_ofExpr (f : Definition) :
    makeDefinition (.str f.name) (.list (f.params.map .str)) (ofExpr f.body) =
      .ok (ofDefinition f) := by
  rw [makeDefinition, requireNode_ofExpr]
  rfl

theorem ofItems_str (names : List String) : ofItems (names.map .str) = names.map .str := by
  induction names with
  | nil => rfl
  | cons name names ih =>
    rw [List.map_cons, ofItems, ofJson, ih, List.map_cons]

end Draft

namespace Document

/-! ### Assembly -/

/-- Why a document is not assembled: it has a fault, a constructor refuses its parts, or there is no
constructor for so many of them. -/
inductive Halt
  | fault (fault : Fault)
  | refused (refusal : Draft.Refusal)
  | stuck

/-- Checks demands in order. -/
def require : List Demand → Except Halt Unit
  | [] => .ok ()
  | d :: ds => if d.isMet then require ds else .error (.fault d.fault)

def accept : Except Draft.Refusal Draft → Except Halt Draft
  | .ok d => .ok d
  | .error refusal => .error (.refused refusal)

/-- What a name is applied as under the key of an application. -/
def appliedAs : String → Applied
  | "basic" => .basic
  | "call" => .call .plain
  | "memo" => .call .memo
  | "fpi" => .call .solved
  | _ => .bare

/-- The constructor of a form, with the raw values of the form and its assembled parts. -/
def Form.construct : Form → List Draft → Except Halt Draft
  | .const value, _ => accept (Draft.makeConst (.ofJson value))
  | .var value, _ => accept (Draft.makeVar (.ofJson value))
  | .cond _, [test, yes, no] => .ok (.cond test yes no)
  | .application key _ name _, args =>
    accept (Draft.makeApply (appliedAs key) (.ofJson name) (.list args))
  | _, _ => .error .stuck

mutual

/-- An expression object is checked, its parts are assembled, and its constructor is called. -/
def assembleExpr (place : Place) (json : Json) : Except Halt Draft :=
  match json with
  | .obj fields => do
    let form := Form.ofFields fields
    require (.form place fields :: form.demands place)
    let parts ← assembleExprs (form.partsPlace place) 0 form.parts
    form.construct parts
  | _ => .error (.fault (.expected place .expression))
termination_by sizeOf json
decreasing_by exact (Form.spelled_ofFields fields).sizeOf_parts_lt

def assembleExprs (place : Place) (i : Nat) (items : List Json) : Except Halt (List Draft) :=
  match items with
  | [] => .ok []
  | item :: rest => do
    let d ← assembleExpr (place.index i) item
    return d :: (← assembleExprs place (i + 1) rest)
termination_by sizeOf items
decreasing_by
  all_goals
    simp only [List.cons.sizeOf_spec]
    omega

end

def assembleItems (assemble : Place → Json → Except Halt Draft) (place : Place) :
    (i : Nat) → List Json → Except Halt (List Draft)
  | _, [] => .ok []
  | i, item :: rest => do
    let d ← assemble (place.index i) item
    return d :: (← assembleItems assemble place (i + 1) rest)

def assembleList (assemble : Place → Json → Except Halt Draft) (place : Place)
    (fields : List (String × Json)) (key : String) : Except Halt (List Draft) :=
  match (fields.lookup key).getD (.arr []) with
  | .arr items => assembleItems assemble (place.key key) 0 items
  | _ => .error (.fault (.expected (place.key key) .list))

def assembleDefinition (place : Place) : Json → Except Halt Draft
  | .obj fields => do
    require [.kind (place.key "name") .name (fields.lookup "name")]
    require (listDemands nameDemands place fields "params")
    let body ← assembleExpr (place.key "body") ((fields.lookup "body").getD .null)
    let name := (fields.lookup "name").getD .null
    let params := (fields.lookup "params").getD (.arr [])
    accept (Draft.makeDefinition (.ofJson name) (.ofJson params) body)
  | _ => .error (.fault (.expected place .definition))

/-- The expression of a query, after its environment is checked. -/
def assembleQuery (place : Place) : Json → Except Halt Draft
  | .obj fields => do
    require (envDemands place fields)
    assembleExpr (place.key "expr") ((fields.lookup "expr").getD .null)
  | _ => .error (.fault (.expected place .query))

/-- The definitions of a document and the expressions of its queries. -/
def assemble : Json → Except Halt (List Draft × List Draft)
  | .obj fields => do
    let functions ← assembleList assembleDefinition [] fields "functions"
    let queries ← assembleList assembleQuery [] fields "queries"
    return (functions, queries)
  | _ => .error (.fault (.expected [] .program))

theorem assembleExprs_eq (place : Place) (i : Nat) (items : List Json) :
    assembleExprs place i items = assembleItems assembleExpr place i items := by
  induction items generalizing i with
  | nil => rw [assembleExprs, assembleItems]
  | cons item items ih => simp only [assembleExprs, assembleItems, ih]

/-! ### Assembly and reading -/

/-- What assembly gives if it agrees with reading. -/
def lift {α β : Type} (f : α → β) : Except Fault α → Except Halt β
  | .ok a => .ok (f a)
  | .error fault => .error (.fault fault)

section Lift

variable {α β γ δ : Type}

/-- Agreement goes on from step to step. -/
theorem lift_bind {f : α → β} {g : γ → δ} {result : Except Fault α} {next : β → Except Halt δ}
    {next' : α → Except Fault γ} (h : ∀ a, result = .ok a → next (f a) = lift g (next' a)) :
    (lift f result >>= next) = lift g (result >>= next') := by
  cases result with
  | ok a => exact h a rfl
  | error fault => rfl

theorem require_of_follows {result : Except Fault α} {ds : List Demand} (h : Follows result ds) :
    require ds = lift (fun _ => ()) result := by
  induction h with
  | done a => rfl
  | met hd _ ih => rw [require, if_pos hd, ih]
  | unmet hd => rw [require, hd]; rfl

theorem assembleItems_eq {assemble : Place → Json → Except Halt Draft}
    {decode : Place → Json → Except Fault α} {f : α → Draft} {items : List Json}
    (h : ∀ item ∈ items, ∀ place, assemble place item = lift f (decode place item)) (place : Place)
    (i : Nat) : assembleItems assemble place i items =
      lift (List.map f) (decodeItems decode place i items) := by
  induction items generalizing i with
  | nil => rfl
  | cons item items ih =>
    rw [List.forall_mem_cons] at h
    rw [assembleItems, decodeItems, h.1, ih h.2]
    exact lift_bind fun a _ => lift_bind fun as _ => rfl

theorem assembleList_eq {assemble : Place → Json → Except Halt Draft}
    {decode : Place → Json → Except Fault α} {f : α → Draft}
    (h : ∀ item place, assemble place item = lift f (decode place item)) (place : Place)
    (fields : List (String × Json)) (key : String) :
    assembleList assemble place fields key =
      lift (List.map f) (decodeList decode place fields key) := by
  unfold assembleList decodeList
  cases (fields.lookup key).getD (.arr []) with
  | arr items => exact assembleItems_eq (fun item _ => h item) _ _
  | _ => rfl

end Lift

theorem eq_int_of_decodeInt {place : Place} {json : Json} {n : Int}
    (h : decodeInt place json = .ok n) : json = .int n := by
  cases json with
  | int m => cases h; rfl
  | _ => cases h

theorem eq_str_of_decodeName {place : Place} {json : Json} {name : String}
    (h : decodeName place json = .ok name) : json = .str name := by
  cases json with
  | str name' => cases h; rfl
  | _ => cases h

theorem eq_map_str_of_decodeItems {place : Place} {items : List Json} {i : Nat}
    {names : List String} (h : decodeItems decodeName place i items = .ok names) :
    items = names.map .str := by
  induction items generalizing i names with
  | nil => cases h; rfl
  | cons item items ih =>
    rw [decodeItems] at h
    cases hname : decodeName (place.index i) item with
    | error fault => rw [hname] at h; cases h
    | ok name =>
      cases hnames : decodeItems decodeName place (i + 1) items with
      | error fault => rw [hname, hnames] at h; cases h
      | ok rest =>
        rw [hname, hnames] at h
        cases h
        rw [eq_str_of_decodeName hname, ih hnames, List.map_cons]

theorem ofJson_of_decodeList {place : Place} {fields : List (String × Json)} {key : String}
    {names : List String} (h : decodeList decodeName place fields key = .ok names) :
    Draft.ofJson ((fields.lookup key).getD (.arr [])) = .list (names.map .str) := by
  unfold decodeList at h
  cases hjson : (fields.lookup key).getD (.arr []) with
  | arr items =>
    rw [hjson] at h
    rw [Draft.ofJson, eq_map_str_of_decodeItems h, Draft.ofItems_str]
  | _ =>
    rw [hjson] at h
    cases h

theorem ofExpr_build {key : String} {build : String → List Expr → Expr}
    (h : (key, build) ∈ applications) (name : String) (args : List Expr) :
    Draft.ofExpr (build name args) = .apply (appliedAs key) name (args.map Draft.ofExpr) := by
  rw [← Draft.ofExprs_eq_map]
  simp only [applications, List.mem_cons, Prod.mk.injEq, List.not_mem_nil, or_false] at h
  rcases h with ⟨rfl, rfl⟩ | ⟨rfl, rfl⟩ | ⟨rfl, rfl⟩ | ⟨rfl, rfl⟩ <;> rfl

theorem require_cons_of_met {d : Demand} {ds : List Demand} (h : d.isMet) :
    require (d :: ds) = require ds := by
  rw [require, if_pos h]

/-- Checks, parts and constructor of a form give what is read. -/
theorem assembleForm_eq {fields : List (String × Json)} {form : Form}
    (h : Form.Spelled fields form)
    (ih : ∀ item ∈ form.parts, ∀ place,
      assembleExpr place item = lift Draft.ofExpr (decodeExpr place item)) (place : Place) :
    (do
      require (.form place fields :: form.demands place)
      let parts ← assembleItems assembleExpr (form.partsPlace place) 0 form.parts
      form.construct parts) = lift Draft.ofExpr (decodeForm place fields form) := by
  have hparts := assembleItems_eq ih (form.partsPlace place) 0
  cases h with
  | @const value hconst =>
    rw [require_cons_of_met (isMet_form (by decide) hconst), Form.demands,
      require_of_follows (follows_decodeInt (place.key "const") value)]
    refine lift_bind fun n hn => ?_
    cases eq_int_of_decodeInt hn
    rfl
  | @var value hconst hvar =>
    rw [require_cons_of_met (isMet_form (by decide) hvar), Form.demands,
      require_of_follows (follows_decodeName (place.key "var") (some value))]
    refine lift_bind fun x hx => ?_
    cases eq_str_of_decodeName hx
    rfl
  | @cond parts hconst hvar hif =>
    rw [require_cons_of_met (isMet_form (by decide) hif)]
    cases parts with
    | arr items =>
      by_cases hthree : items.length = 3
      · obtain ⟨test, yes, no, rfl⟩ := List.length_eq_three.1 hthree
        -- the parts are assembled one by one, as they are read
        have hpart := ih
        simp only [Form.parts, List.forall_mem_cons] at hpart
        simp only [Form.parts, assembleItems, hpart, bind_assoc, pure_bind]
        exact lift_bind fun test _ => lift_bind fun yes _ => lift_bind fun no _ => rfl
      · have hunmet : ((items.length == 3) = true) = False := by simpa using hthree
        rw [decodeForm]
        · simp only [Form.demands, require, Demand.isMet, Expectation.admits, hunmet]
          rfl
        · rintro test yes no rfl
          exact hthree rfl
    | _ => rfl
  | @application key build name args hconst hvar hif hfind hname hargs =>
    have hkey : (key, build) ∈ applications := List.mem_of_find?_eq_some hfind
    have hform : key ∈ formKeys := Form.mem_formKeys (List.mem_map_of_mem hkey)
    have hconstruct (x : String) (args : Option Json) (es : List Expr) :
        (Form.application key build (.str x) args).construct (es.map Draft.ofExpr) =
          .ok (Draft.ofExpr (build x es)) := by
      rw [ofExpr_build hkey, Form.construct, Draft.ofJson, Draft.makeApply_ofExpr, accept]
    rw [require_cons_of_met (isMet_form hform hname)]
    cases name with
    | str x =>
      obtain _ | args := args
      · exact hconstruct x none []
      · cases args with
        | arr items =>
          rw [hparts]
          exact lift_bind fun es _ => hconstruct x _ es
        | _ => rfl
    | _ => cases args <;> rfl
  | unknown hnone =>
    rw [require, isMet_form_eq_false hnone]
    rfl

theorem assembleExpr_eq (json : Json) (place : Place) :
    assembleExpr place json = lift Draft.ofExpr (decodeExpr place json) := by
  induction json using Form.induction generalizing place with
  | obj fields ih =>
    rw [assembleExpr, decodeExpr_of_spelled (Form.spelled_ofFields fields)]
    simp only [assembleExprs_eq]
    exact assembleForm_eq (Form.spelled_ofFields fields) ih place
  | other json hother =>
    rw [assembleExpr, decodeExpr]
    · rfl
    · exact hother
    · exact hother

theorem assembleDefinition_eq (json : Json) (place : Place) :
    assembleDefinition place json = lift Draft.ofDefinition (decodeDefinition place json) := by
  cases json with
  | obj fields =>
    have hname := require_of_follows (follows_decodeName (place.key "name") (fields.lookup "name"))
    have hparams := require_of_follows (follows_params place fields)
    rw [assembleDefinition, decodeDefinition, hname, hparams, assembleExpr_eq]
    refine lift_bind fun name hname => lift_bind fun params hparams => lift_bind fun body _ => ?_
    simp only [eq_str_of_decodeName hname, ofJson_of_decodeList hparams, Draft.ofJson]
    rw [Draft.makeDefinition_ofExpr ⟨name, params, body⟩]
    rfl
  | _ => rfl

theorem assembleQuery_eq (json : Json) (place : Place) :
    assembleQuery place json =
      lift (fun q => Draft.ofExpr q.expr) (decodeQuery place json) := by
  cases json with
  | obj fields =>
    have hexpr (result : Except Fault Expr) (env : List (String × Option Int)) :
        lift Draft.ofExpr result =
          lift (fun q => Draft.ofExpr q.expr) (do return Query.mk (← result) env) := by
      cases result <;> rfl
    rw [assembleQuery, assembleExpr_eq]
    simp only [decodeQuery, envDemands]
    cases fields.lookup "env" with
    | none => exact hexpr _ []
    | some env =>
      cases env with
      | obj bindings =>
        rw [require_cons_of_met rfl, require_of_follows (follows_decodeBindings _ _)]
        exact lift_bind fun env _ => hexpr _ env
      | _ => rfl
  | _ => rfl

/-- What is read is what the constructors make of the document. -/
theorem assemble_eq (json : Json) :
    assemble json = lift (fun program => (program.functions.map Draft.ofDefinition,
      program.queries.map fun q => Draft.ofExpr q.expr)) (decodeProgram json) := by
  cases json with
  | obj fields =>
    rw [assemble, decodeProgram, assembleList_eq assembleDefinition_eq,
      assembleList_eq assembleQuery_eq]
    exact lift_bind fun functions _ => lift_bind fun queries _ => rfl
  | _ => rfl

end Document

/-! ### Loading -/

theorem Report.issue_eq (r : Report) (n : Notice) :
    r.issue n = ({ r with issues := r.issues ++ [n] },
      decide ((r.issues.length : Int) + 1 = r.limit)) := by
  simp [issue, Bool.beq_eq_decide_eq]

theorem Report.reject_eq (r : Report) (n : Notice) :
    r.reject n = ({ r with issues := r.issues ++ [n] },
      if (r.issues.length : Int) + 1 = r.limit then .error .tooManyIssues else .ok none) := by
  simp [reject, issue_eq]

theorem Report.reject_ne_some {r r' : Report} {n : Notice} {program : Program} :
    r.reject n ≠ (r', .ok (some program)) := by
  rw [reject_eq]
  split <;> simp

/-- A program that was loaded leaves the report as it was. -/
theorem Program.report_of_loadFile {depth : Nat} {location : Location}
    {content : Except ReadFailure (List UInt8)} {report report' : Report} {program : Program}
    (h : Program.loadFile depth location content report = (report', .ok (some program))) :
    report' = report := by
  unfold loadFile at h
  split at h
  case h_3 bytes =>
    split at h
    case h_2 text _ =>
      unfold load at h
      split at h
      case h_4 json _ =>
        split at h
        · cases h; rfl
        · exact absurd h Report.reject_ne_some
      case h_3 => exact absurd h Report.reject_ne_some
      all_goals cases h
    case h_1 => exact absurd h Report.reject_ne_some
  all_goals exact absurd h Report.reject_ne_some

/-- Unless the reader meets a limit, a text gives a program and leaves the report as it was, or it
gives none and adds one issue, which interrupts the run if it is the last that the report takes. And
every document is assembled just as it is read, so no constructor refuses. -/
theorem load_all_or_nothing (depth : Nat) (path : String) (text : List Char) (report : Report)
    (h : ∀ failure, Json.read (.document depth) text = .error failure →
      ∃ complaint left, failure = .malformed complaint left) :
    ((∃ json program, Json.read (.document depth) text = .ok json ∧
        Document.decodeProgram json = .ok program ∧
        Program.load depth path text report = (report, .ok (some program))) ∨
      ∃ notice, (∀ json program, Json.read (.document depth) text = .ok json →
          Document.decodeProgram json ≠ .ok program) ∧
        Program.load depth path text report = ({ report with issues := report.issues ++ [notice] },
          if (report.issues.length : Int) + 1 = report.limit then .error .tooManyIssues
          else .ok none)) ∧
    ∀ json, Document.assemble json =
      Document.lift (fun program => (program.functions.map Draft.ofDefinition,
        program.queries.map fun q => Draft.ofExpr q.expr)) (Document.decodeProgram json) := by
  refine ⟨?_, Document.assemble_eq⟩
  unfold Program.load
  cases hread : Json.read (.document depth) text with
  | error failure =>
    obtain ⟨complaint, left, rfl⟩ := h failure hread
    exact .inr ⟨_, by simp, report.reject_eq _⟩
  | ok json =>
    cases hdecode : Document.decodeProgram json with
    | error fault =>
      refine .inr ⟨fault.notice, ?_, ?_⟩
      · rintro _ program ⟨rfl⟩ hprogram
        cases hdecode.symm.trans hprogram
      · simp only [hdecode, report.reject_eq]
    | ok program => exact .inl ⟨json, program, rfl, hdecode, by simp only [hdecode]⟩

/-- A report that takes one more issue. -/
def crowded : Report :=
  { issues := [.noSuchFile "one.json", .noSuchFile "two.json"] }

/-- A number is no program. -/
theorem number_interrupts :
    Json.read (.document 1) ['7'] = .ok (.int 7) ∧
      ∃ notice, Program.load 1 "seven.json" ['7'] crowded =
        ({ crowded with issues := crowded.issues ++ [notice] }, .error .tooManyIssues) := by
  have hread : Json.read (.document 1) ['7'] = .ok (.int 7) := by
    have hvalue : Json.value (.document 1) 1 ['7'] = .ok (.int 7, ⟨[], by decide⟩) := by
      rw [Json.value]
      · rfl
      all_goals simp
    change (Json.value (.document 1) 1 ['7'] >>= fun _ => _) = _
    rw [hvalue]
    rfl
  have hfailure : ∀ failure, Json.read (.document 1) ['7'] = .error failure →
      ∃ complaint left, failure = .malformed complaint left := by
    simp [hread]
  obtain ⟨json, program, hjson, hprogram, -⟩ | ⟨notice, -, hload⟩ :=
    (load_all_or_nothing 1 "seven.json" ['7'] crowded hfailure).1
  · cases hread.symm.trans hjson
    cases hprogram
  · exact ⟨hread, notice, hload⟩

end StrictnessAnalysis
