import StrictnessAnalysis.Json.Token

/-! Reading JSON text. A text is read from left to right, and the first thing amiss is complained of
at its place. -/

namespace StrictnessAnalysis.Json

mutual

/-- One value at the start of the text, which has no blanks before it. -/
def value (limits : Limits) (depth : Nat) (s : List Char) : Except Failure (Json × Rest s) :=
  match s with
  | '\x22' :: t => do
    let (text, rest) ← string t
    return (.str text, ⟨rest.1, by have := rest.2; simp only [List.length_cons]; omega⟩)
  | '[' :: t =>
    match depth with
    | 0 => .error .tooDeep
    | depth + 1 =>
      match h : skipBlanks t with
      | ']' :: rest => .ok (.arr [], ⟨rest, by
          have := length_lt_of_skipBlanks h; simp only [List.length_cons]; omega⟩)
      | _ => do
        let (items, rest) ← elements limits depth (skipBlanks t)
        return (.arr items, ⟨rest.1, by
          have := rest.2; have := length_skipBlanks_le t; simp only [List.length_cons]; omega⟩)
  | '\x7b' :: t =>
    match depth with
    | 0 => .error .tooDeep
    | depth + 1 =>
      match h : skipBlanks t with
      | '\x7d' :: rest => .ok (.obj [], ⟨rest, by
          have := length_lt_of_skipBlanks h; simp only [List.length_cons]; omega⟩)
      | _ => do
        let (fields, rest) ← members limits depth [] (skipBlanks t)
        return (.obj fields, ⟨rest.1, by
          have := rest.2; have := length_skipBlanks_le t; simp only [List.length_cons]; omega⟩)
  | s =>
    match literal? s with
    | some result => .ok result
    | none => number limits s
termination_by (s.length, 0)
decreasing_by
  all_goals
    have := length_skipBlanks_le t
    simp only [List.length_cons]
    exact Prod.Lex.left _ _ (by omega)

/-- One or more elements of an array, up to the closing bracket. -/
def elements (limits : Limits) (depth : Nat) (s : List Char) :
    Except Failure (List Json × Rest s) := do
  let (item, after) ← value limits depth s
  match h : skipBlanks after.1 with
  | ']' :: rest => return ([item], ⟨rest, by
      have := after.2; have := length_lt_of_skipBlanks h; omega⟩)
  | ',' :: next =>
    let (items, rest) ← elements limits depth (skipBlanks next)
    return (item :: items, ⟨rest.1, by
      have := after.2; have := length_lt_of_skipBlanks h
      have := length_skipBlanks_le next; have := rest.2; omega⟩)
  | other => throw (.malformed .comma other.length)
termination_by (s.length, 1)
decreasing_by
  · exact Prod.Lex.right _ (by omega)
  · have := after.2
    have := length_lt_of_skipBlanks h
    have := length_skipBlanks_le next
    exact Prod.Lex.left _ _ (by omega)

/-- One or more members of an object, up to the closing brace, behind the members in `fields`. Of
members with the same key the last value counts, at the place of the first. -/
def members (limits : Limits) (depth : Nat) (fields : List (String × Json)) (s : List Char) :
    Except Failure (List (String × Json) × Rest s) :=
  match s with
  | '\x22' :: t => do
    let (key, afterKey) ← string t
    match hkey : skipBlanks afterKey.1 with
    | ':' :: start =>
      let (item, after) ← value limits depth (skipBlanks start)
      match h : skipBlanks after.1 with
      | '\x7d' :: rest => return (setField fields key item, ⟨rest, by
          have := afterKey.2; have := length_lt_of_skipBlanks hkey
          have := length_skipBlanks_le start; have := after.2
          have := length_lt_of_skipBlanks h; simp only [List.length_cons]; omega⟩)
      | ',' :: next =>
        let (fields, rest) ← members limits depth (setField fields key item) (skipBlanks next)
        return (fields, ⟨rest.1, by
          have := afterKey.2; have := length_lt_of_skipBlanks hkey
          have := length_skipBlanks_le start; have := after.2
          have := length_lt_of_skipBlanks h; have := length_skipBlanks_le next
          have := rest.2; simp only [List.length_cons]; omega⟩)
      | other => throw (.malformed .comma other.length)
    | other => throw (.malformed .colon other.length)
  | s => .error (.malformed .propertyName s.length)
termination_by (s.length, 0)
decreasing_by
  · have := afterKey.2
    have := length_lt_of_skipBlanks hkey
    have := length_skipBlanks_le start
    exact Prod.Lex.left _ _ (by simp only [List.length_cons]; omega)
  · have := afterKey.2
    have := length_lt_of_skipBlanks hkey
    have := length_skipBlanks_le start
    have := after.2
    have := length_lt_of_skipBlanks h
    have := length_skipBlanks_le next
    exact Prod.Lex.left _ _ (by simp only [List.length_cons]; omega)

end

/-- Reads a text that holds one value. -/
def read (limits : Limits) (text : List Char) : Except Failure Json :=
  match text with
  | '\ufeff' :: _ => .error (.malformed .byteOrderMark text.length)
  | _ => do
    let (result, rest) ← value limits limits.depth (skipBlanks text)
    match skipBlanks rest.1 with
    | [] => return result
    | other => throw (.malformed .extraData other.length)

end StrictnessAnalysis.Json
