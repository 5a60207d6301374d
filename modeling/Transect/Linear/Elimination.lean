import Transect.Linear.Table

/-!
# Inversion by elimination

A table is brought into two triangles column by column, each column with its largest remaining value
as the pivot. The inverse is what solving both triangles makes of the identity. A column without a
pivot shows that there is none.
-/
namespace Transect

/-- Two triangles in one table: on and above the diagonal the upper one, below it the factors of the
lower one, whose diagonal would be one. Step `k` of the elimination has exchanged row `k` with row
`exchanges[k]`. -/
structure Triangles where
  table : FloatTable
  exchanges : Array Nat

namespace FloatTable

/-- The smallest double of full precision. -/
def smallestNormal : Float := (1.0 : Float).scaleB (-1022)

/-- The row, from `k` on, with the largest absolute value in column `k`; the first of several. -/
def pivotRow (t : FloatTable) (k : Nat) : Nat :=
  (List.range t.size).foldl (fun best i =>
    if k < i ∧ (t.get best k).abs < (t.get i k).abs then i else best) k

/-- The first `count` entries of row `i` times those of column `j`. -/
def along (t : FloatTable) (i j count : Nat) : Float :=
  Fin.foldl count (fun acc k => acc + t.get i k.val * t.get k.val j) 0.0

/-- Exchanges entries of column `j` as the rows were exchanged step by step. -/
def exchangeColumn (t : FloatTable) (exchanges : Array Nat) (j : Nat) : FloatTable :=
  Fin.foldl exchanges.size (fun t k => t.swapCells k.val exchanges[k] j) t

/-- Takes off column `j` what the columns before it account for. -/
def reduceColumn (t : FloatTable) (j : Nat) : FloatTable :=
  Fin.foldl t.size (fun t i => t.put i.val j (t.get i.val j - t.along i.val j (min i.val j))) t

/-- The factors of column `k`, by the reciprocal of its pivot. Under an infinite pivot all of them
are zero. -/
def divideColumn (t : FloatTable) (k : Nat) : FloatTable :=
  let share := 1.0 / t.get k k
  Fin.foldl t.size (fun t i =>
    if i.val ≤ k then t
    else t.put i.val k (if share == 0.0 then 0.0 else t.get i.val k * share)) t

end FloatTable

namespace Triangles

/-- Adds column `k` to the triangles of the columns before it. The reciprocal of a pivot below the
smallest normal double may be infinite: such a pivot divides nothing, the rows found so far stay
where they are, and the exchange counts only for what comes after. -/
def addColumn? (s : Triangles) (k : Nat) : Option Triangles :=
  let t := (s.table.exchangeColumn s.exchanges k).reduceColumn k
  let p := t.pivotRow k
  let pivot := t.get p k
  if pivot == 0.0 then none
  else
    let t :=
      if FloatTable.smallestNormal ≤ pivot.abs then (t.swapRows k p (k + 1)).divideColumn k else t
    some ⟨t, s.exchanges.push p⟩

/-- The triangles of a table, unless a column has no pivot. -/
def ofTable? (t : FloatTable) : Option Triangles :=
  (List.range t.size).foldlM addColumn? ⟨t, #[]⟩

/-- Takes row `k`, in which the lower triangle is solved, off the rows after it. -/
def stepForward (s : Triangles) (right : FloatTable) (k : Nat) : FloatTable :=
  Fin.foldl right.size (fun right i =>
    if i.val ≤ k then right else right.reduceRow k i.val (s.table.get i.val k)) right

/-- Solves the upper triangle in row `k`, the rows after it being solved, and takes it off the rows
before it. -/
def stepBack (s : Triangles) (right : FloatTable) (k : Nat) : FloatTable :=
  let right := right.scaleRow k (1.0 / s.table.get k k)
  Fin.foldl k (fun right i => right.reduceRow k i.val (s.table.get i.val k)) right

/-- What the table that the triangles stand for has to be multiplied by to give `right`. -/
def solve (s : Triangles) (right : FloatTable) : FloatTable :=
  let steps := List.range right.size
  let right := Fin.foldl s.exchanges.size (fun right k =>
    right.swapRows k.val s.exchanges[k] right.size) right
  steps.foldr (fun k right => s.stepBack right k) (steps.foldl s.stepForward right)

end Triangles

def FloatTable.inverse? (t : FloatTable) : Option FloatTable :=
  (Triangles.ofTable? t).map (·.solve (identity t.size))

end Transect
