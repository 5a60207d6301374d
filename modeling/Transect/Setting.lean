import Transect.Text.Decimal
import Transect.Text.Quoted

/-!
# Setting values

A setting is given from outside and may hold any plain value, sensible or not. What the library asks
of one is whether it counts as on, whether it names something, and how to show it.
-/
namespace Transect

inductive Setting where
  | missing
  | flag (on : Bool)
  | whole (n : Int)
  | real (x : Float)
  | text (s : String)
  | list (items : List Setting)
  | record (fields : List (String × Setting))
  deriving Inhabited

namespace Setting

/-- Whether a value counts as on: zeros and everything empty do not. -/
def isOn : Setting → Bool
  | missing => false
  | flag on => on
  | whole n => n != 0
  | real x => x != 0.0
  | text s => !s.isEmpty
  | list items => !items.isEmpty
  | record fields => !fields.isEmpty

mutual

/-- A value as it is written down, texts in quotes. -/
def literal : Setting → String
  | missing => "None"
  | flag on => if on then "True" else "False"
  | whole n => toString n
  | real x => Text.plain x
  | text s => Text.quoted s
  | list items => "[" ++ ", ".intercalate (literals items) ++ "]"
  | record fields => "\x7b" ++ ", ".intercalate (entries fields) ++ "\x7d"

def literals : List Setting → List String
  | [] => []
  | v :: rest => literal v :: literals rest

def entries : List (String × Setting) → List String
  | [] => []
  | (k, v) :: rest => (Text.quoted k ++ ": " ++ literal v) :: entries rest

end

/-- A value as it appears in running text: a text stands for itself. -/
def shown : Setting → String
  | text s => s
  | v => v.literal

end Setting

end Transect
