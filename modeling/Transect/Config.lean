import Transect.Scalar
import Transect.Setting

/-!
# Configuration

What can be chosen about sampling, about profile models and about the search, each with its standard
values.
-/
namespace Transect

structure SamplingConfig where
  strategy : Setting := .text "interpolated"
  /-- Whether lines are stretched so that neighbouring samples are one pixel apart. -/
  unitStep : Setting := .flag false

structure ProfileConfig (α : Type) where
  /-- Samples per band along the footprint of the model. -/
  footprint : Int
  conditionLimit : α

structure SearchConfig (α : Type) where
  /-- Samples per band along the window that is searched. -/
  window : Int
  /-- The search ends when the movement falls below this. -/
  threshold : α
  stepLimit : Int

variable {α : Type} [Scalar α]

def ProfileConfig.standard : ProfileConfig α := ⟨11, 1e12⟩

def SearchConfig.standard : SearchConfig α := ⟨21, 0.1, 10⟩

end Transect
