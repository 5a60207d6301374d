import Transect.Linear.Basic

/-!
# Reduction to two diagonals

Reflections from the left and from the right, taken by turns, leave of a matrix its diagonal and the
entries right above it, and keep its singular values. `bidiagonal` gives these entries in the order
in which they are found, diagonal and upper ones alternating.
-/
namespace Transect

/-- The reflection of a column onto its first axis: the entry that is left there, and what is added
to other columns, as a multiple of a direction with a leading one. -/
structure Reflection where
  value : Float
  factor : Float
  direction : FloatArray

namespace Reflection

/-- The binary exponent of the largest entry of a column. -/
def exponent (x : FloatArray) : Int :=
  (x.foldl (fun m a => if m < a.abs then a.abs else m) 0.0).frExp.2

def scaled (x : FloatArray) (e : Int) : FloatArray :=
  x.foldl (fun y a => y.push (a.scaleB e)) (FloatArray.emptyWithCapacity x.size)

/-- The length of a column. Its entries are brought to the size of one before they are squared. -/
def length (x : FloatArray) : Float :=
  let e := exponent x
  ((scaled x (-e)).foldl (fun acc a => acc + a * a) 0.0).sqrt.scaleB e

/-- The length of the hypotenuse over two finite sides, from the ratio of the shorter to the longer
one. -/
def overSides (x y : Float) : Float :=
  let long := if x.abs < y.abs then y.abs else x.abs
  let short := if x.abs < y.abs then x.abs else y.abs
  if short == 0.0 then long else long * (1.0 + (short / long) * (short / long)).sqrt

/-- The reflection that clears a column below its first entry. That entry changes its sign, so that
nothing cancels. -/
def ofColumn (x : FloatArray) : Reflection :=
  let e := exponent x
  let y := scaled x (-e)
  let first := y.get! 0
  let below := Fin.foldl (y.size - 1) (fun below k => below.push (y.get! (k.val + 1)))
    (FloatArray.emptyWithCapacity y.size)
  let rest := length below
  if rest == 0.0 then ⟨x.get! 0, 0.0, x⟩
  else
    let side := overSides first rest
    let value := if first < 0.0 then side else -side
    let share := 1.0 / (first - value)
    ⟨value.scaleB e, (value - first) / value,
      below.foldl (fun d a => d.push (a * share))
        ((FloatArray.emptyWithCapacity y.size).push 1.0)⟩

def apply (r : Reflection) (y : FloatArray) : FloatArray :=
  if r.factor == 0.0 then y
  else
    let along := Fin.foldl y.size (fun acc k => acc + r.direction.get! k.val * y.get! k.val) 0.0
    let step := -r.factor * along
    Fin.foldl y.size (fun y k => y.set! k.val (y.get! k.val + r.direction.get! k.val * step)) y

end Reflection

def transposed (size : Nat) (columns : List FloatArray) : List FloatArray :=
  (List.range size).map fun i =>
    columns.foldl (fun row column => row.push (column.get! i))
      (FloatArray.emptyWithCapacity columns.length)

/-- The entries found in a number of steps. Each step clears the first column, which then plays no
part any more, and goes on with the rows of all others. -/
def bidiagonalSteps : Nat → List FloatArray → List Float
  | 0, _ => []
  | _, [] => []
  | n + 1, column :: others =>
    let r := Reflection.ofColumn column
    r.value :: bidiagonalSteps n (transposed column.size (others.map r.apply))

/-- The diagonal and the entries above it, by turns, that a square matrix is reduced to. -/
def Mat.bidiagonal {n : Nat} (A : Mat Float n n) : List Float :=
  let rows := A.toList.map fun row => row.foldl FloatArray.push (FloatArray.emptyWithCapacity n)
  bidiagonalSteps (2 * n - 1) (transposed n rows)

end Transect
