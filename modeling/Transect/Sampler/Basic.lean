import Transect.Sampler.Lookup

/-!
# Samplers

A sampler takes a number of samples of one band along a line. It also reports the line along which
the samples really lie, from the position of the first to that of the last: the models use it to
turn sample offsets into image coordinates.

`nearest` and `interpolated` sample evenly along the line itself, `derivative` takes the differences
of neighbouring interpolated values, and `unitStep` first stretches the line so that neighbouring
samples of the sampler inside are one pixel apart.
-/
namespace Transect

variable {α : Type} [Scalar α]

/-- What a sampler is called: a sampler that wraps another also names the one inside. -/
structure SamplerName where
  own : String
  inner : Option String := none

def SamplerName.text (n : SamplerName) : String :=
  match n.inner with
  | none => n.own
  | some inner => n.own ++ "(" ++ inner ++ ")"

structure Sampler (α : Type) where
  name : SamplerName
  samples : Line α → Raster α → Int → Except (Failure α) (List α)
  /-- The line from the first to the last sample position. -/
  sampleLine : Line α → Raster α → Int → Line α

namespace Raster

def planar (r : Raster α) : Except (Failure α) (Plane α) :=
  match r.plane? with
  | some p => .ok p
  | none => .error (.bandNotPlanar r.extents)

end Raster

namespace Plane

def interpolate (p : Plane α) (positions : List (Point α)) : Except (Failure α) (List α) :=
  let extent := max positions.length (max p.height p.width)
  if p.isEmpty then .error .nothingToResample
  else if lookupLimit ≤ extent then .error (.tooLargeToResample extent)
  else .ok (positions.map p.bilinear)

end Plane

def differences : List α → List α
  | u :: v :: rest => Scalar.abs (v - u) :: differences (v :: rest)
  | _ => []

theorem length_differences (xs : List α) : (differences xs).length = xs.length - 1 := by
  induction xs with
  | nil => rfl
  | cons u xs ih =>
    cases xs with
    | nil => rfl
    | cons v rest => simp [differences, ih]

namespace Sampler

def nearest : Sampler α where
  name := ⟨"NearestNeighbourSampler", none⟩
  samples line band count := do
    let plane ← band.planar
    let points ← line.points count
    if plane.isEmpty then .error .noPixels else .ok (points.map plane.nearest)
  sampleLine line _ _ := line

def interpolated : Sampler α where
  name := ⟨"InterpolatedSampler", none⟩
  samples line band count := do
    let plane ← band.planar
    plane.interpolate (← line.points count)
  sampleLine line _ _ := line

/-- Half of one of `count` steps along a line. -/
def halfStep (line : Line α) (count : Int) : α × α :=
  let parts : α := 2.0 * Scalar.ofInt count
  ((line.finish.x - line.start.x) / parts, (line.finish.y - line.start.y) / parts)

/-- The steepness along the line. Each difference belongs halfway between the two values that it is
taken of, so that half a step is missing at both ends of the line. -/
def derivative : Sampler α where
  name := ⟨"InterpolatedDerivativeSampler", none⟩
  samples line band count := do
    let plane ← band.planar
    if count < 1 then .error (.countBelowOne count)
    else return differences (← plane.interpolate (← line.points (count + 1)))
  sampleLine line _ count :=
    let (dx, dy) := halfStep line count
    ⟨⟨line.start.x + dx, line.start.y + dy⟩, ⟨line.finish.x - dx, line.finish.y - dy⟩⟩

end Sampler

/-- The line of the same centre and direction on which `count` samples are one pixel apart. -/
def Line.unitSteps (line : Line α) (count : Int) : Line α :=
  let (ux, uy) := line.direction
  let hx := ux * Scalar.ofInt (count - 1) / 2.0
  let hy := uy * Scalar.ofInt (count - 1) / 2.0
  let c := line.centre
  ⟨⟨c.x - hx, c.y - hy⟩, ⟨c.x + hx, c.y + hy⟩⟩

namespace Sampler

/-- A sampler used with steps of one pixel, however many samples are taken. -/
def unitStep (inner : Sampler α) : Sampler α where
  name := ⟨"UnitStepSampler", some inner.name.own⟩
  samples line band count := inner.samples (line.unitSteps count) band count
  sampleLine line band count := inner.sampleLine (line.unitSteps count) band count

def wrapped (s : Sampler α) : Nat → Sampler α
  | 0 => s
  | n + 1 => unitStep (s.wrapped n)

end Sampler

end Transect
