import Transect.Validation.Checks

/-!
# Command line

Without arguments the end-to-end checks are run and reported; `settings` lists the standard
settings.
-/
namespace Transect

open Validation

/-- Runs the searches that are timed, between two looks at the clock. -/
def timeSearches (noise : Noise) : IO (Bool × Float) := do
  match newModel with
  | .error e => throw (IO.userError e.message)
  | .ok model =>
    match (latencyModel.run noise).run model.start with
    | .error e _ => throw (IO.userError e.message)
    | .ok (frame, noise) session =>
      let started ← IO.monoNanosNow
      match ((latencyWork frame).run noise).run session with
      | .error e _ => throw (IO.userError e.message)
      | .ok _ _ =>
        let finished ← IO.monoNanosNow
        return latency (started.toFloat / 1e9) (finished.toFloat / 1e9)

def validate : IO UInt32 := do
  let noise : Noise := { multiplier := 37, stride := 11, seed := 42 }
  let timed ← timeSearches noise
  match allChecks noise timed with
  | .error e => throw (IO.userError e.message)
  | .ok outcomes =>
    outcomes.report.forM IO.println
    return outcomes.exitCode.toUInt32

end Transect

def main (arguments : List String) : IO UInt32 := do
  if arguments = ["settings"] then
    Transect.Settings.listing.forM IO.println
    return 0
  else Transect.validate
