import Transect.Config
import Transect.Journal

/-!
# Choosing a sampler

The sampler that a strategy stands for, and the sampler that a configuration asks for.
-/
namespace Transect

variable {α : Type} [Scalar α]

def Strategy.sampler : Strategy → Sampler α
  | .nearest => .nearest
  | .interpolated => .interpolated
  | .derivative => .derivative

/-- The samplers that this library comes with: a strategy, wrapped any number of times. -/
def Sampler.shipped (strategy : Strategy) (wraps : Nat) : Sampler α :=
  strategy.sampler.wrapped wraps

namespace SamplingConfig

/-- The sampler that a configuration asks for, with a report of its creation. -/
def sampler (config : SamplingConfig) : Except (Failure α) (Sampler α × Event α) :=
  match Strategy.ofSetting? config.strategy with
  | none => .error (.unknownStrategy config.strategy)
  | some strategy =>
    .ok (.shipped strategy (if config.unitStep.isOn then 1 else 0),
      .samplerCreated strategy config.unitStep)

end SamplingConfig

end Transect
