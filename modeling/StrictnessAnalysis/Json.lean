import StrictnessAnalysis.Decimal

/-! JSON values. Members of an object are kept in document order. An integer is a number written
without fraction and exponent. -/

namespace StrictnessAnalysis

inductive Json
  | null
  | bool (value : Bool)
  | int (value : Int)
  | real (value : Decimal)
  | str (value : String)
  | arr (items : List Json)
  | obj (fields : List (String × Json))

namespace Json

/-- Members with one set: a key keeps its place, a new one goes to the end. -/
def setField : List (String × Json) → String → Json → List (String × Json)
  | [], key, value => [(key, value)]
  | (k, v) :: rest, key, value =>
    if k = key then (k, value) :: rest else (k, v) :: setField rest key value

theorem sizeOf_lt_of_lookup {fields : List (String × Json)} {key : String} {value : Json}
    (h : fields.lookup key = some value) : sizeOf value < sizeOf fields := by
  induction fields with
  | nil => simp at h
  | cons field rest ih =>
    obtain ⟨k, v⟩ := field
    rw [List.lookup_cons] at h
    split at h
    · cases h
      simp only [List.cons.sizeOf_spec, Prod.mk.sizeOf_spec]
      omega
    · have := ih h
      simp only [List.cons.sizeOf_spec]
      omega

theorem sizeOf_items_lt {fields : List (String × Json)} {key : String} {items : List Json}
    (h : fields.lookup key = some (.arr items)) : sizeOf items < sizeOf (obj fields) := by
  have := sizeOf_lt_of_lookup h
  simp only [arr.sizeOf_spec] at this
  simp only [obj.sizeOf_spec]
  omega

theorem sizeOf_item_lt {fields : List (String × Json)} {key : String} {items : List Json}
    {item : Json} (h : fields.lookup key = some (.arr items)) (hmem : item ∈ items) :
    sizeOf item < sizeOf (obj fields) :=
  Nat.lt_trans (List.sizeOf_lt_of_mem hmem) (sizeOf_items_lt h)

end Json

end StrictnessAnalysis
