/-!
# JSON values

A JSON value as data. Integers of 64 bits keep their exact value, every other number is a
floating-point number. The fields of an object are in ascending order of their names and no name
occurs twice; `Json.insertField` keeps both.
-/

namespace CacheLayer

/-- A JSON number. -/
inductive Json.Number where
  /-- An integer from 0 up to the greatest of 64 bits. -/
  | nat (n : Nat)
  /-- The integer `-n`, for `n` from 1 up to `2 ^ 63`. -/
  | negative (n : Nat)
  /-- Any other number. -/
  | float (x : Float)

/-- A JSON value. -/
inductive Json where
  | null
  | bool (b : Bool)
  | number (n : Json.Number)
  | string (s : String)
  | array (elements : List Json)
  | object (fields : List (String × Json))

namespace Json

instance : Inhabited Json := ⟨null⟩

/-- Puts a field where its name belongs; a field of that name is replaced. -/
def insertField (name : String) (value : Json) : List (String × Json) → List (String × Json)
  | [] => [(name, value)]
  | (n, v) :: fields =>
    if name < n then (name, value) :: (n, v) :: fields
    else if name = n then (name, value) :: fields
    else (n, v) :: insertField name value fields

/-- The object with the given fields; of two fields with one name the last counts. -/
def ofFields (fields : List (String × Json)) : Json :=
  object (fields.foldl (fun sorted f => insertField f.1 f.2 sorted) [])

/-- The value of a field of an object. -/
def field? (name : String) : Json → Option Json
  | object fields => fields.lookup name
  | _ => none

end Json

end CacheLayer
