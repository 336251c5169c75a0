/-!
# JSON values
-/

namespace AutoAwait

/-- A JSON value. A number is kept as it is written; the fields of an object have distinct names. -/
inductive Json where
  | null
  | bool (b : Bool)
  | number (text : String)
  | string (s : String)
  | array (items : List Json)
  | object (fields : List (String × Json))

instance : Inhabited Json := ⟨.null⟩

end AutoAwait
