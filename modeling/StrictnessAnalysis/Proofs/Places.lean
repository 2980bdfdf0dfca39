import StrictnessAnalysis.Document

/-! Places read back from their texts. A key in a text stands behind a dot, which the first one
lacks, and an index stands in brackets. The keys of the format consist of letters. Only a name that
is bound in an environment may hold any characters, dots and brackets included; it ends the place,
so that all the rest of the text is its own. -/

namespace StrictnessAnalysis.Document.Place

/-- The steps of a text in which every key stands behind a dot. -/
def readSteps (s : List Char) : Option Place :=
  match s with
  | [] => some []
  | '.' :: rest =>
    let name := String.ofList (rest.takeWhile Char.isAlpha)
    let behind := rest.dropWhile Char.isAlpha
    if name = "env" ∧ behind.head? = some '.' then
      some [.key name, .key (String.ofList behind.tail)]
    else (readSteps behind).map (.key name :: ·)
  | '[' :: rest =>
    let index := Nat.ofDigitChars 10 (rest.takeWhile Char.isDigit) 0
    let behind := rest.dropWhile Char.isDigit
    if behind.head? = some ']' then (readSteps behind.tail).map (.index index :: ·) else none
  | _ => none
termination_by s.length
decreasing_by
  all_goals
    have := (List.dropWhile_suffix Char.isAlpha (l := rest)).length_le
    have := (List.dropWhile_suffix Char.isDigit (l := rest)).length_le
    simp only [List.length_tail, List.length_cons]
    omega

/-- The place that a text names. -/
def ofText? (text : String) : Option Place :=
  if text = "(document)" then some [] else readSteps ('.' :: text.toList)

/-! ### Single steps -/

theorem readSteps_nil : readSteps [] = some [] := by rw [readSteps]

theorem takeWhile_dropWhile_append {p : Char → Bool} {s rest : List Char} (hs : ∀ c ∈ s, p c)
    (hrest : ∀ c ∈ rest.head?, p c = false) :
    (s ++ rest).takeWhile p = s ∧ (s ++ rest).dropWhile p = rest := by
  rw [List.takeWhile_append_of_pos hs, List.dropWhile_append_of_pos hs]
  cases rest with
  | nil => simp
  | cons c rest =>
    have hc : p c = false := hrest c rfl
    simp [hc]

theorem readSteps_key {name : String} {rest : List Char} (hname : ∀ c ∈ name.toList, c.isAlpha)
    (hrest : ∀ c ∈ rest.head?, c.isAlpha = false) (henv : name = "env" → rest = []) :
    readSteps ('.' :: name.toList ++ rest) = (readSteps rest).map (.key name :: ·) := by
  obtain ⟨htake, hdrop⟩ := takeWhile_dropWhile_append hname hrest
  rw [List.cons_append, readSteps]
  simp only [htake, hdrop, String.ofList_toList]
  rw [if_neg]
  rintro ⟨hname, hdot⟩
  simp [henv hname] at hdot

theorem readSteps_binding (name : String) :
    readSteps ('.' :: "env".toList ++ '.' :: name.toList) = some [.key "env", .key name] := by
  rw [List.cons_append, readSteps]
  simp

theorem readSteps_index (i : Nat) (rest : List Char) :
    readSteps ('[' :: (toString i).toList ++ ']' :: rest) =
      (readSteps rest).map (.index i :: ·) := by
  have hdigits : ∀ c ∈ (toString i).toList, c.isDigit := by
    rw [Nat.toString_eq_repr, Nat.toList_repr]
    exact fun c => Nat.isDigit_of_mem_toDigits (by decide) (by decide)
  have hbracket : ∀ c ∈ (']' :: rest).head?, c.isDigit = false := by simp
  have hindex : Nat.ofDigitChars 10 (toString i).toList 0 = i := by
    rw [Nat.toString_eq_repr, Nat.toList_repr]
    exact Nat.ofDigitChars_toDigits (by decide) (by decide)
  obtain ⟨htake, hdrop⟩ := takeWhile_dropWhile_append hdigits hbracket
  rw [List.cons_append, readSteps]
  simp only [htake, hdrop, hindex]
  rfl

theorem toList_render_key (name : String) :
    (Step.key name).render.toList = '.' :: name.toList := by
  simp [Step.render]

theorem toList_render_index (i : Nat) :
    (Step.index i).render.toList = '[' :: (toString i).toList ++ [']'] := by
  simp [Step.render]

/-! ### Places of the format -/

/-- The keys that may stand anywhere in a place. -/
def formatKeys : List String :=
  ["functions", "queries", "name", "params", "body", "expr", "const", "var", "if", "basic", "call",
    "memo", "fpi", "args"]

/-- The text of a place with a dot before its first key. -/
def chars (p : Place) : List Char := p.flatMap fun step => step.render.toList

/-- A place that starts with a key and has no other keys than those that may stand anywhere. -/
structure Plain (p : Place) : Prop where
  headed : ∃ name rest, p = .key name :: rest
  keys : ∀ name, Step.key name ∈ p → name ∈ formatKeys

theorem plain_key {name : String} (h : name ∈ formatKeys) : Plain (key [] name) :=
  ⟨⟨name, [], rfl⟩, by simpa [key] using h⟩

theorem Plain.append_singleton {p : Place} (h : p.Plain) {step : Step}
    (hstep : ∀ name, step = .key name → name ∈ formatKeys) : Plain (p ++ [step]) := by
  obtain ⟨⟨name, rest, rfl⟩, hkeys⟩ := h
  refine ⟨⟨name, rest ++ [step], rfl⟩, fun name' hname => ?_⟩
  rcases List.mem_append.1 hname with hname | hname
  · exact hkeys name' hname
  · exact hstep name' (List.mem_singleton.1 hname).symm

theorem Plain.key {p : Place} (h : p.Plain) {name : String} (hname : name ∈ formatKeys) :
    (p.key name).Plain :=
  h.append_singleton fun _ heq => (Step.key.inj heq) ▸ hname

theorem Plain.index {p : Place} (h : p.Plain) (i : Nat) : (p.index i).Plain :=
  h.append_singleton fun _ heq => by cases heq

theorem isAlpha_of_mem {name : String} (h : name ∈ "env" :: formatKeys) :
    ∀ c ∈ name.toList, c.isAlpha := by
  have hall : ("env" :: formatKeys).all fun name => name.toList.all Char.isAlpha := by
    decide +kernel
  exact List.all_eq_true.1 (List.all_eq_true.1 hall name h)

theorem head?_chars (p : Place) {rest : List Char} (hrest : ∀ c ∈ rest.head?, c.isAlpha = false) :
    ∀ c ∈ (p.chars ++ rest).head?, c.isAlpha = false := by
  cases p with
  | nil => exact hrest
  | cons step p => cases step <;> simp [chars, Step.render]

theorem readSteps_chars {p : Place} (hp : ∀ name, Step.key name ∈ p → name ∈ formatKeys)
    {rest : List Char} (hrest : ∀ c ∈ rest.head?, c.isAlpha = false) :
    readSteps (p.chars ++ rest) = (readSteps rest).map (p ++ ·) := by
  induction p with
  | nil => simp [chars]
  | cons step p ih =>
    have hrec := ih fun name hname => hp name (List.mem_cons_of_mem _ hname)
    rw [chars, List.flatMap_cons, List.append_assoc, ← chars]
    cases step with
    | key name =>
      have hname := hp name List.mem_cons_self
      have henv : name = "env" → chars p ++ rest = [] := by
        rintro rfl
        exact absurd hname (by decide)
      rw [toList_render_key, readSteps_key (isAlpha_of_mem (List.mem_cons_of_mem _ hname))
        (head?_chars p hrest) henv, hrec, Option.map_map]
      rfl
    | index i =>
      rw [toList_render_index, List.append_assoc, List.singleton_append, readSteps_index, hrec,
        Option.map_map]
      rfl

theorem chars_of_headed {name : String} {p : Place} :
    chars (.key name :: p) = '.' :: (render (.key name :: p)).toList := by
  rw [chars, List.flatMap_cons, toList_render_key, render, String.toList_append, String.toList_join,
    List.flatMap_map, List.cons_append]

/-- What stands behind plain steps is read on its own. -/
theorem ofText?_append {p tail : Place} (hp : p.Plain) (hread : readSteps tail.chars = some tail) :
    ofText? (render (p ++ tail)) = some (p ++ tail) := by
  have hhead : ∀ c ∈ tail.chars.head?, c.isAlpha = false := by
    have hnil : ∀ c ∈ ([] : List Char).head?, c.isAlpha = false := by simp
    simpa using head?_chars tail hnil
  have hsteps : readSteps (chars (p ++ tail)) = some (p ++ tail) := by
    rw [chars, List.flatMap_append, ← chars, ← chars, readSteps_chars hp.keys hhead, hread]
    rfl
  obtain ⟨name, rest, rfl⟩ := hp.headed
  rw [List.cons_append, chars_of_headed] at hsteps
  rw [ofText?, List.cons_append, if_neg, hsteps]
  -- the text of the root has no steps
  intro hroot
  rw [hroot, readSteps] at hsteps
  simp [readSteps] at hsteps

/-- The places at which something is demanded: the root, places of plain steps, environments of
queries, and names bound in them. -/
inductive Readable : Place → Prop
  | root : Readable []
  | plain {p : Place} : p.Plain → Readable p
  | env {p : Place} : p.Plain → Readable (p.key "env")
  | binding {p : Place} (name : String) : p.Plain → Readable ((p.key "env").key name)

theorem ofText?_render {p : Place} (h : Readable p) : ofText? p.render = some p := by
  cases h with
  | root => rfl
  | plain hp =>
    have hread : readSteps (chars []) = some [] := readSteps_nil
    simpa using ofText?_append hp hread
  | env hp =>
    have hread : readSteps (chars [.key "env"]) = some [.key "env"] := by
      have hkey : chars [.key "env"] = '.' :: "env".toList ++ [] := by
        rw [chars, List.flatMap_singleton, toList_render_key, List.append_nil]
      rw [hkey, readSteps_key (isAlpha_of_mem List.mem_cons_self) (by simp) fun _ => rfl,
        readSteps_nil]
      rfl
    exact ofText?_append hp hread
  | @binding p name hp =>
    have hread : readSteps (chars [.key "env", .key name]) = some [.key "env", .key name] := by
      have hkeys : chars [.key "env", .key name] = '.' :: "env".toList ++ '.' :: name.toList := by
        rw [chars, List.flatMap_cons, List.flatMap_singleton, toList_render_key, toList_render_key]
      rw [hkeys, readSteps_binding]
    have hplace : (p.key "env").key name = p ++ [.key "env", .key name] := by simp [key]
    rw [hplace]
    exact ofText?_append hp hread

end StrictnessAnalysis.Document.Place
