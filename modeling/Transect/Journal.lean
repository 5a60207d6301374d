import Transect.Geometry
import Transect.Sampler.Basic

/-!
# The journal

What the library reports about its work, as data. The wording stands apart from the events, so that
only the words need numbers that can be printed.
-/
namespace Transect

inductive Level where
  | debug
  | info
  deriving DecidableEq

def Level.name : Level → String
  | debug => "DEBUG"
  | info => "INFO"

/-- The part of the library that reports. -/
inductive Source where
  | sampling
  | model
  | search
  deriving DecidableEq

inductive Event (α : Type) where
  | samplerCreated (strategy : Strategy) (unitStep : Setting)
  | modelCreated (footprint : Nat) (sampler : SamplerName)
  | modelUpdated (count : Nat)
  | identityUsed (count dimension : Nat)
  | searchStep (step : Nat) (point : Point α) (movement : α)
  | searchStopped (steps : Nat) (movement : α)

namespace Event

def source {α : Type} : Event α → Source
  | samplerCreated .. => .sampling
  | modelCreated .. | modelUpdated .. | identityUsed .. => .model
  | searchStep .. | searchStopped .. => .search

def level {α : Type} : Event α → Level
  | samplerCreated .. => .info
  | _ => .debug

def text : Event Float → String
  | samplerCreated strategy unitStep =>
    "Created line sampler: strategy=" ++ strategy.name ++ ", unit_step=" ++ unitStep.shown
  | modelCreated footprint sampler =>
    "StatisticalProfileModel created: nsamples=" ++ toString footprint ++ ", sampler=" ++
      sampler.text
  | modelUpdated count => "Profile model updated: count=" ++ toString count
  | identityUsed count dimension =>
    "Covariance not invertible (count=" ++ toString count ++ ", dimension=" ++ toString dimension ++
      "), using identity"
  | searchStep step point movement =>
    "Search step " ++ toString step ++ ": point=(" ++ Text.fixed 2 point.x ++ ", " ++
      Text.fixed 2 point.y ++ "), movement=" ++ Text.fixed 3 movement
  | searchStopped steps movement =>
    "Search did not converge after " ++ toString steps ++ " iterations (movement=" ++
      Text.fixed 3 movement ++ ")"

end Event

end Transect
