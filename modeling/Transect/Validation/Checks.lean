import Transect.Linear.SingularValues
import Transect.Sampler.Choice
import Transect.Search
import Transect.Settings
import Transect.Validation.Scene

/-!
# End-to-end checks

Four checks on the synthetic scene: a moving bar is tracked within a pixel, a static frame never
makes the tracked point drift, a position is found fast enough, and a dark frame is refused without
any harm to the model. `report` puts their outcomes into words.
-/
namespace Transect.Validation

/-- A trial works on a model and takes its noise from a source. -/
abbrev Trial := StateT Noise (ModelM Float)

def footprint : Int := 15

/-- Samples per band along the searched window: with these, offsets stand for footprint centres. -/
def window : Int := 29

def frameHeight : Nat := 120

def frameWidth : Nat := 200

def newModel : Except (Failure Float) (Model Float) := do
  let config : SamplingConfig := { strategy := .text "interpolated", unitStep := .flag true }
  let (sampler, _) ← config.sampler
  Model.create footprint sampler ProfileConfig.standard.conditionLimit

def searchConfig : SearchConfig Float := { SearchConfig.standard with window }

def runTrial {β : Type} (noise : Noise) (trial : Trial β) : Except (Failure Float) (β × Noise) := do
  match (trial.run noise).run (← newModel).start with
  | .ok result _ => .ok result
  | .error e _ => .error e

def nextFrame (barX : Float) : Trial (Raster Float) := do
  let (frame, noise) ← ModelM.lift (barFrame (← get) barX frameHeight frameWidth)
  set noise
  return frame.raster

/-- The line of the tests on a bar at column 100. -/
def restLine : Line Float := .ofCoordinates 93.0 60.0 107.0 60.0

/-- Follows a bar for the given number of frames, learning each, and collects the errors. -/
def follow : Nat → Float → Line Float → Trial (List Float)
  | 0, _, _ => return []
  | n + 1, barX, line => do
    let barX := barX + 1.5
    let frame ← nextFrame barX
    let (result, learned) ← ModelM.track searchConfig frame line
    ModelM.lift learned
    return (result.point.x - barX).abs :: (← follow n barX result.line)

def greatest : List Float → Float
  | [] => 0.0
  | x :: rest => rest.foldl (fun m y => if m < y then y else m) x

/-- The largest error while the bar moves by one and a half columns from frame to frame. -/
def tracking : Trial (Bool × Float) := do
  let line : Line Float := .ofCoordinates 53.0 60.0 67.0 60.0
  ModelM.learnImage (← nextFrame 60.0) line
  let error := greatest (← follow 40 60.0 line)
  return (error ≤ 1.0, error)

def refineTimes (frame : Raster Float) : Nat → Line Float → ModelM Float (Line Float)
  | 0, line => return line
  | n + 1, line => do refineTimes frame n (← ModelM.refine searchConfig frame line).line

/-- How far twenty searches on a learned frame move the line. -/
def staticDrift (noise : Noise) : Trial (Bool × Float) := do
  let (frame, _) ← ModelM.lift
    (barFrame { noise with seed := 0, draws := 0 } 100.0 frameHeight frameWidth)
  for _ in [0:3] do ModelM.learnImage frame.raster restLine
  let line ← refineTimes frame.raster 20 restLine
  let drift := line.centre.distance restLine.centre
  return (drift == 0.0, drift)

/-- Trains a model on a bar that trembles, and gives the frame to be timed. -/
def latencyModel : Trial (Raster Float) := do
  for _ in [0:60] do
    let barX := 100.0 + (← get).between (-0.5) 0.5
    modify Noise.next
    ModelM.learnImage (← nextFrame barX) restLine
  let frame ← nextFrame 102.0
  discard <| ModelM.bestPosition frame restLine window
  return frame

def latencyWork (frame : Raster Float) : Trial Unit := do
  for _ in [0:100] do discard <| ModelM.bestPosition frame restLine window

/-- Milliseconds for one search, from the clock in seconds before and after a hundred of them. -/
def latency (started finished : Float) : Bool × Float :=
  let each := (finished - started) * 1000.0 / 100.0
  (each < 5.0, each)

/-- Whether a dark frame is refused and not counted, with the reason. -/
def darkRefused (noise : Noise) : Trial (Bool × String) := do
  let (frame, _) ← ModelM.lift
    (barFrame { noise with seed := 1, draws := 0 } 100.0 frameHeight frameWidth)
  ModelM.learnImage frame.raster restLine
  try
    ModelM.learnImage (Frame.dark frameHeight frameWidth).raster restLine
    return (false, "accepted zero-sum profile")
  catch
    | .degenerateProfile total length =>
      let model ← (ModelM.model : ModelM Float (Model Float))
      let reason : Failure Float := .degenerateProfile total length
      return (model.count = 1, "rejected (" ++ reason.message ++ ")")
    | e => throw e

structure Outcomes where
  tracking : Bool × Float
  drift : Bool × Float
  latency : Bool × Float
  dark : Bool × String

namespace Outcomes

def passed (o : Outcomes) : Nat :=
  [o.tracking.1, o.drift.1, o.latency.1, o.dark.1].count true

def status (passed : Bool) : String := if passed then "[PASS] " else "[FAIL] "

def report (o : Outcomes) : List String :=
  ["", Settings.ruler, "Profile Model Validation", Settings.ruler, "",
    status o.tracking.1 ++ "Moving bar tracking: max error " ++ Text.fixed 2 o.tracking.2 ++
      "px (threshold: <=1px)",
    status o.drift.1 ++ "Static frame drift: " ++ Text.fixed 2 o.drift.2 ++ "px (threshold: 0px)",
    status o.latency.1 ++ "best_position latency: " ++ Text.fixed 2 o.latency.2 ++
      "ms (threshold: <5ms)",
    status o.dark.1 ++ "Zero-sum profile: " ++ o.dark.2,
    "", "Results: " ++ toString o.passed ++ "/4 passed", Settings.ruler, ""]

def exitCode (o : Outcomes) : Nat := if o.passed = 4 then 0 else 1

end Outcomes

/-- All checks on one source of noise, given the outcome of the one that needs a clock. The searches
that are timed draw no noise, but the training before them does. -/
def allChecks (noise : Noise) (timed : Bool × Float) : Except (Failure Float) Outcomes := do
  let (tracked, noise) ← runTrial noise tracking
  let (drift, noise) ← runTrial noise (staticDrift noise)
  let (_, noise) ← runTrial noise latencyModel
  let (dark, _) ← runTrial noise (darkRefused noise)
  return { tracking := tracked, drift, latency := timed, dark }

end Transect.Validation
