import StrictnessAnalysis.Expr

/-! Function definitions and tables of them. A table lists its definitions in the order in which
their names were first defined. Defining a name again keeps its place and changes its content, so
every name has one entry. -/

namespace StrictnessAnalysis

structure Definition where
  name : String
  params : List String
  body : Expr
  deriving DecidableEq

namespace Definition

def arity (f : Definition) : Nat := f.params.length

/-- The same name and parameters with the body changed. -/
def mapBody (f : Definition) (g : Expr → Expr) : Definition := { f with body := g f.body }

end Definition

structure Table where
  entries : List Definition
  nodup : (entries.map Definition.name).Nodup

namespace Table

def empty : Table := ⟨[], List.nodup_nil⟩

def names (t : Table) : List String := t.entries.map Definition.name

def find? (t : Table) (name : String) : Option Definition :=
  t.entries.find? fun f => f.name == name

/-- The name has an entry. -/
def defines (t : Table) (name : String) : Bool := t.names.contains name

/-- Puts `f` in the place of the entry of its name, or at the end if there is none. -/
def put : List Definition → Definition → List Definition
  | [], f => [f]
  | g :: rest, f => if g.name = f.name then f :: rest else g :: put rest f

theorem names_put (entries : List Definition) (f : Definition) :
    (put entries f).map Definition.name =
      if f.name ∈ entries.map Definition.name then entries.map Definition.name
      else entries.map Definition.name ++ [f.name] := by
  induction entries with
  | nil => rfl
  | cons g rest ih =>
    by_cases h : g.name = f.name
    · simp [put, h]
    · have h' : f.name ≠ g.name := fun e => h e.symm
      simp only [put, if_neg h, List.map_cons, ih, List.mem_cons, h', false_or]
      split <;> rfl

theorem nodup_put {entries : List Definition} (h : (entries.map Definition.name).Nodup)
    (f : Definition) : ((put entries f).map Definition.name).Nodup := by
  rw [names_put]
  split
  · exact h
  · next hf =>
    rw [List.nodup_append]
    refine ⟨h, by simp, fun a ha b hb => ?_⟩
    rw [List.mem_singleton] at hb
    rintro rfl
    exact hf (hb ▸ ha)

def insert (t : Table) (f : Definition) : Table := ⟨put t.entries f, nodup_put t.nodup f⟩

/-- The table of a list of definitions, of which a later one wins over an earlier one of the same
name. -/
def ofList (defs : List Definition) : Table := defs.foldl insert empty

/-- Every body changed, depending on its definition. -/
def mapBodies (t : Table) (g : Definition → Expr) : Table :=
  ⟨t.entries.map fun f => { f with body := g f }, by
    rw [List.map_map]; exact t.nodup⟩

end Table

end StrictnessAnalysis
