/-! Trees of data. -/

namespace AbstractMemory.Yaml

inductive Tree where
  | null
  | bool (b : Bool)
  | number (n : Nat)
  | text (s : String)
  | list (items : List Tree)
  | map (entries : List (String × Tree))
deriving Repr, Inhabited

end AbstractMemory.Yaml
