/-! The structural text of a value: constructors by name, fields in order. -/

namespace PagedKernel

class Debug (α : Type) where
  debug : α → String

export Debug (debug)

namespace Text

def tuple (name : String) (fields : List String) : String :=
  name ++ "(" ++ ", ".intercalate fields ++ ")"

def record (name : String) (fields : List (String × String)) : String :=
  name ++ " \x7b " ++ ", ".intercalate (fields.map fun f => f.1 ++ ": " ++ f.2) ++ " \x7d"

def sequence (items : List String) : String :=
  "[" ++ ", ".intercalate items ++ "]"

end Text

instance : Debug Nat where
  debug n := toString n

instance : Debug Int where
  debug n := toString n

instance : Debug Bool where
  debug b := if b then "true" else "false"

instance {α : Type} [Debug α] : Debug (Option α) where
  debug
    | none => "None"
    | some a => Text.tuple "Some" [debug a]

instance {ε α : Type} [Debug ε] [Debug α] : Debug (Except ε α) where
  debug
    | .ok a => Text.tuple "Ok" [debug a]
    | .error e => Text.tuple "Err" [debug e]

instance {α : Type} [Debug α] : Debug (List α) where
  debug items := Text.sequence (items.map debug)

end PagedKernel
