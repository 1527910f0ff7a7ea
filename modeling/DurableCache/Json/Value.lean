/-!
# JSON values

The data that a JSON text stands for. Numbers are exact integers of sixty-four bits or
doubles, and the members of an object keep the order in which they are to be written.
-/

namespace DurableCache.Json

/-- The value of a JSON text. -/
inductive Value where
  | null
  | bool (b : Bool)
  | integer (n : Int)
  | float (x : Float)
  | string (s : String)
  | array (items : List Value)
  | object (members : List (String × Value))
  deriving Inhabited, Repr

namespace Value

/-- An unsigned number. -/
def natural (n : Nat) : Value := .integer n

/-- A value, or null where there is none. -/
def ofOption {α : Type} (f : α → Value) : Option α → Value
  | none => .null
  | some a => f a

/-- The value of the first member of that name in an object. -/
def member? (name : String) : Value → Option Value
  | .object members => (members.find? fun m => m.1 == name).map Prod.snd
  | _ => none

end Value

end DurableCache.Json
