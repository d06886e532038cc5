import Mathlib.Data.List.Basic

/-!
# JSON values

An object is the list of its members in order; `get?` finds the first with a key.
-/

namespace LlmkubeRuntimes.Lib

inductive Json where
  | null
  | bool (b : Bool)
  /-- A number, as it is written. -/
  | num (text : String)
  | str (s : String)
  | arr (items : List Json)
  | obj (members : List (String × Json))

namespace Json

def int (n : Int) : Json := .num (toString n)

/-- The member of an object with the given key. -/
def get? (key : String) : Json → Option Json
  | .obj members => (members.find? fun m => m.1 = key).map Prod.snd
  | _ => none

/-- The first item of an array. -/
def head? : Json → Option Json
  | .arr (item :: _) => some item
  | _ => none

def str? : Json → Option String
  | .str s => some s
  | _ => none

end Json

end LlmkubeRuntimes.Lib
