import OmniRoute.Lib.Json

/-!
# Fields of JSON objects

Writing one field of an object leaves the other fields as they are, and writing back what a field
holds leaves the object as it is.
-/

namespace Json

variable {N : Type}

/-- Neither null nor an array. -/
def isRecord : Json N → Bool
  | obj _ => true
  | _ => false

/-- A field is replaced in its place or added at the end. -/
def putField (name : String) (value : Json N) :
    List (String × Json N) → List (String × Json N)
  | [] => [(name, value)]
  | (key, old) :: fields =>
    if key = name then (key, value) :: fields else (key, old) :: putField name value fields

/-- `{ ...value, [name]: field }`; a field that is undefined goes. -/
def withField (value : Json N) (name : String) (field : Option (Json N)) : Json N :=
  match value, field with
  | obj fields, some field => obj (putField name field fields)
  | obj fields, none => obj (fields.filter fun f => f.1 ≠ name)
  | value, _ => value

theorem lookup_cons (key name : String) (value : Json N) (fields : List (String × Json N)) :
    ((key, value) :: fields).lookup name = if name = key then some value else fields.lookup name := by
  by_cases h : name = key
  · simp [List.lookup, h]
  · simp [List.lookup, h, beq_eq_false_iff_ne.2 h]

theorem lookup_putField_ne {name other : String} (h : other ≠ name) (value : Json N)
    (fields : List (String × Json N)) :
    (putField name value fields).lookup other = fields.lookup other := by
  induction fields with
  | nil => simp [putField, lookup_cons, h]
  | cons f fields ih =>
    obtain ⟨key, old⟩ := f
    rw [putField]
    split
    · next hkey =>
      have hother : other ≠ key := hkey ▸ h
      rw [lookup_cons, lookup_cons, if_neg hother, if_neg hother]
    · rw [lookup_cons, lookup_cons, ih]

theorem lookup_filter_ne {name other : String} (h : other ≠ name)
    (fields : List (String × Json N)) :
    (fields.filter fun f => f.1 ≠ name).lookup other = fields.lookup other := by
  induction fields with
  | nil => rfl
  | cons f fields ih =>
    obtain ⟨key, old⟩ := f
    rw [List.filter_cons]
    split
    · rw [lookup_cons, lookup_cons, ih]
    · next hkey =>
      have hname : key = name := by simpa using hkey
      rw [lookup_cons, if_neg (hname ▸ h), ih]

theorem prop_withField_ne {name other : String} (h : other ≠ name) (value : Json N)
    (field : Option (Json N)) : (value.withField name field).prop other = value.prop other := by
  cases value with
  | obj fields =>
    cases field with
    | some field => exact lookup_putField_ne h field fields
    | none => exact lookup_filter_ne h fields
  | _ => rfl

end Json
