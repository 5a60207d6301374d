import Transect.Setting

/-!
# Sampling strategies

The three ways of sampling that can be asked for by name.
-/
namespace Transect

inductive Strategy where
  | nearest
  | interpolated
  | derivative
  deriving DecidableEq

namespace Strategy

/-- The strategies in the order in which they are offered. -/
def all : List Strategy := [nearest, interpolated, derivative]

def name : Strategy → String
  | nearest => "nearest_neighbour"
  | interpolated => "interpolated"
  | derivative => "interpolated_derivative"

def ofSetting? : Setting → Option Strategy
  | .text s => all.find? fun strategy => strategy.name = s
  | _ => none

theorem ofSetting?_name (s : Strategy) : ofSetting? (.text s.name) = some s := by
  cases s <;> simp [ofSetting?, all, name]

end Strategy

end Transect
