import Transect.Failure

/-!
# Points and lines

Profiles are taken along directed line segments in image coordinates, x counting columns and y
counting rows. A line is sampled from its start towards its finish.
-/
namespace Transect

variable {α : Type} [Scalar α]

structure Point (α : Type) where
  x : α
  y : α
  deriving BEq

structure Line (α : Type) where
  start : Point α
  finish : Point α
  deriving BEq

namespace Point

def distance (p q : Point α) : α := Scalar.hypot (p.x - q.x) (p.y - q.y)

def translated (p : Point α) (dx dy : α) : Point α := ⟨p.x + dx, p.y + dy⟩

end Point

namespace Line

def ofCoordinates (x₁ y₁ x₂ y₂ : α) : Line α := ⟨⟨x₁, y₁⟩, ⟨x₂, y₂⟩⟩

def centre (l : Line α) : Point α :=
  ⟨(l.start.x + l.finish.x) / 2.0, (l.start.y + l.finish.y) / 2.0⟩

def length (l : Line α) : α := l.start.distance l.finish

/-- The components of the unit vector from start to finish. A line shorter than `1e-12` has no
direction and gets zeros. -/
def direction (l : Line α) : α × α :=
  let dx := l.finish.x - l.start.x
  let dy := l.finish.y - l.start.y
  let norm := Scalar.sqrt (dx * dx + dy * dy)
  if norm < 1e-12 then (0, 0) else (dx / norm, dy / norm)

def translated (l : Line α) (dx dy : α) : Line α :=
  ⟨l.start.translated dx dy, l.finish.translated dx dy⟩

def centredAt (l : Line α) (p : Point α) : Line α :=
  l.translated (p.x - l.centre.x) (p.y - l.centre.y)

def pointAt (l : Line α) (t : α) : Point α :=
  ⟨l.start.x + t * (l.finish.x - l.start.x), l.start.y + t * (l.finish.y - l.start.y)⟩

/-- The fraction of the way at which the `i`-th of `n` evenly spaced positions lies, for `n` at
least two: whole multiples of one step, and exactly one for the last. -/
def fraction (n i : Nat) : α :=
  if i + 1 = n then 1 else Scalar.ofNat i * (1.0 / Scalar.ofNat (n - 1))

/-- The `n` evenly spaced positions from start to finish; a single one lies in the centre. -/
def positions (l : Line α) (n : Nat) : List (Point α) :=
  if n = 1 then [l.centre] else (List.range n).map fun i => l.pointAt (fraction n i)

@[simp] theorem length_positions (l : Line α) (n : Nat) : (l.positions n).length = n := by
  by_cases h : n = 1 <;> simp [positions, h]

/-- The `count` evenly spaced positions of a line, of which there has to be one at least. -/
def points (l : Line α) (count : Int) : Except (Failure α) (List (Point α)) :=
  if count < 1 then .error (.countBelowOne count) else .ok (l.positions count.toNat)

end Line

end Transect
