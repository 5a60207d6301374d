import Transect.Config
import Transect.Model.Score

/-!
# Search

A search moves a line to where a model matches best: each step centres the line on the best position
within the window along it, until a step moves it hardly at all or there have been enough steps.
-/
namespace Transect

variable {α : Type}

structure SearchResult (α : Type) where
  point : Point α
  line : Line α
  steps : Nat
  movement : α
  converged : Bool

/-- `SearchResult(point=(1.00, 2.00), iterations=3, movement=0.000, converged=True)`. -/
def SearchResult.text (r : SearchResult Float) : String :=
  "SearchResult(point=(" ++ Text.fixed 2 r.point.x ++ ", " ++ Text.fixed 2 r.point.y ++
    "), iterations=" ++ toString r.steps ++ ", movement=" ++ Text.fixed 3 r.movement ++
    ", converged=" ++ (if r.converged then "True" else "False") ++ ")"

namespace ModelM

variable [Scalar α] [LinearAlgebra α]

/-- One step: the best position along a line and how far it lies from the centre. -/
def searchStep (image : Raster α) (line : Line α) (window : Int) : ModelM α (Point α × α) := do
  let point ← bestPosition image line window
  let movement ← lift ((← model).movement image line window point)
  return (point, movement)

/-- At most `left + 1` more steps after `done` ones. A search that ends within the threshold answers
with the position that it found, any other with the centre of the line it got to. -/
def searchFrom (image : Raster α) (window : Int) (threshold : α) :
    (left done : Nat) → Line α → ModelM α (SearchResult α)
  | left, done, line => do
    let (point, movement) ← searchStep image line window
    let line := line.centredAt point
    let steps := done + 1
    report (.searchStep steps point movement)
    if movement < threshold then return ⟨point, line, steps, movement, true⟩
    else match left with
      | 0 =>
        report (.searchStopped steps movement)
        return ⟨line.centre, line, steps, movement, false⟩
      | left + 1 => searchFrom image window threshold left steps line

def refine (config : SearchConfig α) (image : Raster α) (line : Line α) :
    ModelM α (SearchResult α) := do
  if config.stepLimit < 1 then throw (.iterationsBelowOne config.stepLimit)
  else searchFrom image config.window config.threshold (config.stepLimit.toNat - 1) 0 line

/-- One frame of a tracking run: the line is refined in it, and the frame is then learned along the
refined line. The line stands even if the frame cannot be learned. -/
def track (config : SearchConfig α) (image : Raster α) (line : Line α) :
    ModelM α (SearchResult α × Except (Failure α) Unit) := do
  let result ← refine config image line
  let learned ← attempt (learnImage image result.line)
  return (result, learned)

end ModelM

end Transect
