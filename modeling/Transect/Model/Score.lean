import Transect.Model.Basic

/-!
# Scoring profiles

The score of a profile is its squared Mahalanobis distance from the mean of the model, so that lower
is better. A window wider than the footprint is scored at every offset, and the best offset gives a
position on the line.
-/
namespace Transect

variable {α : Type} [Scalar α]

def Derived.distance (d : Derived α) (profile : List α) : Except (Failure α) α :=
  if h : profile.length = d.dimension then
    .ok (d.inversion.matrix.form (Vec.sub (Vec.ofList profile h) d.mean))
  else .error (.dimensionMismatch d.dimension profile.length)

/-- The least of some numbers and its place, the first of several. A number that is undefined counts
as less than all others. -/
def least : List α → Option (Nat × α)
  | [] => none
  | x :: rest =>
    match least rest with
    | none => some (0, x)
    | some (i, y) => if x == x && (y < x || !(y == y)) then some (i + 1, y) else some (0, x)

/-- How far a point lies from the centre of a line, as a share of half its length. -/
def Line.movement (l : Line α) (p : Point α) : α :=
  let offset := l.centre.distance p
  if l.length == 0 then if offset == 0 then 0 else Scalar.inf
  else 2.0 * offset / l.length

namespace Sampler

/-- How far a point lies from the centre of the window that is sampled along a line. -/
def movement (s : Sampler α) (image : Raster α) (line : Line α) (count : Int) (p : Point α) :
    Except (Failure α) α := do
  let band ← image.band 0
  return (s.sampleLine line band count).movement p

/-- The position at a whole number of steps along the line that is sampled. -/
def stepPosition (s : Sampler α) (image : Raster α) (line : Line α) (count steps : Int) :
    Except (Failure α) (Point α) := do
  let band ← image.band 0
  let l := s.sampleLine line band count
  if count = 1 then .error .noStep
  else
    let parts : α := Scalar.ofInt (count - 1)
    let steps : α := Scalar.ofInt steps
    return ⟨l.start.x + steps * ((l.finish.x - l.start.x) / parts),
      l.start.y + steps * ((l.finish.y - l.start.y) / parts)⟩

end Sampler

def Model.movement (m : Model α) (image : Raster α) (line : Line α) (count : Int) (p : Point α) :
    Except (Failure α) α := m.sampler.movement image line count p

namespace ModelM

variable [LinearAlgebra α]

def score (profile : List α) : ModelM α α := do
  lift ((← derived).distance profile)

def scoreImage (image : Raster α) (line : Line α) : ModelM α α := do
  let m ← model
  score (← lift (m.sampler.profile image line m.footprint))

/-- The score at one offset of a window. Samples that cannot be normalized score infinitely high,
whatever the model. -/
def scoreOffset (w : Window α) (n i : Nat) : ModelM α α := do
  let samples := w.part n i
  let total := Scalar.sum samples
  -- The normalization makes the same test, but would fail.
  if total == 0 || !Scalar.isFinite total then return Scalar.inf
  else score (← lift (normalize samples))

/-- Both tests of the sum agree. -/
theorem scoreOffset_eq_match (w : Window α) (n i : Nat) :
    scoreOffset w n i = match normalize (w.part n i) with
      | .ok profile => score profile
      | .error _ => pure Scalar.inf := by
  unfold scoreOffset normalize divisor
  dsimp only
  cases Scalar.sum (w.part n i) == 0 || !Scalar.isFinite (Scalar.sum (w.part n i)) <;> rfl

/-- The scores at all offsets of a window, each of whose parts is normalized on its own. -/
def scoreWindow (w : Window α) : ModelM α (List α) := do
  let n := (← model).footprint
  if w.length < n then throw (.windowTooShort w.length n)
  else (List.range (w.length - n + 1)).mapM fun i => scoreOffset w n i

def scoreWindowImage (image : Raster α) (line : Line α) (count : Int) : ModelM α (List α) := do
  scoreWindow (← lift ((← model).sampler.window image line count))

/-- The position along a line that matches the model best. If the centred offset scores as well as
the best one, that is the centre of the line. -/
def bestPosition (image : Raster α) (line : Line α) (count : Int) : ModelM α (Point α) := do
  let scores ← scoreWindowImage image line count
  let m ← model
  let offset := (count - m.footprint).fdiv 2
  match least scores, (axisIndex? scores.length offset).bind (scores[·]?) with
  | some (i, best), some centred =>
    if centred == best then return line.centre
    else lift (m.sampler.stepPosition image line count (i + offset))
  | _, _ => throw (.centreNotScored offset scores.length)

end ModelM

end Transect
