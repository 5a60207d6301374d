import Transect.Binary

/-!
# The numbers that positions, samples and scores are made of

`Scalar α` names the operations that sampling, training and searching use, and asserts no law of
them. The library is written over any such `α`; it runs at `Float`, and read at an exact number
system the same definitions are the textbook ones.
-/
namespace Transect

/-- Arithmetic with an infinity and an undefined value. `single` rounds to single precision where
numbers have a precision, and changes nothing where they have none. -/
class Scalar (α : Type) extends Add α, Sub α, Mul α, Div α, Neg α, Zero α, One α, BEq α, LT α, LE α,
    OfScientific α where
  decidableLT : DecidableLT α
  decidableLE : DecidableLE α
  ofInt : Int → α
  inf : α
  nan : α
  isFinite : α → Bool
  abs : α → α
  sqrt : α → α
  /-- The length of the hypotenuse over two sides, infinite as soon as one side is. -/
  hypot : α → α → α
  single : α → α
  /-- The nearest integer of a finite number, the even one of two that are equally near. -/
  roundEven? : α → Option Int

attribute [reducible, instance] Scalar.decidableLT Scalar.decidableLE

namespace Scalar

variable {α : Type} [Scalar α]

def ofNat (n : Nat) : α := ofInt (n : Int)

/-- Neighbours added to each other. -/
def addPairs : List α → List α
  | x :: y :: rest => (x + y) :: addPairs rest
  | xs => xs

/-- Eight running sums that take the items by turns. In the end they are added up in pairs, and the
items that are left over come last. -/
def addByTurns (sums xs : List α) : α :=
  if 8 ≤ xs.length then addByTurns (sums.zipWith (· + ·) (xs.take 8)) (xs.drop 8)
  else xs.foldl (· + ·) ((addPairs (addPairs (addPairs sums))).headD 0)
termination_by xs.length

/-- The sum of at least eight items. More than 128 of them are summed in two parts, the first of
which can be taken by turns without anything left over. -/
def addHalves (xs : List α) : α :=
  if xs.length ≤ 128 then addByTurns (xs.take 8) (xs.drop 8)
  else
    let half := xs.length / 16 * 8
    addHalves (xs.take half) + addHalves (xs.drop half)
termination_by xs.length
decreasing_by all_goals simp; omega

/-- The sum of a list, summed in pairs so that rounding errors hardly add up. Fewer than eight items
are taken from the left. Both start at zero. -/
def sum (xs : List α) : α :=
  if xs.length < 8 then xs.foldl (· + ·) 0 else 0 + addHalves xs

end Scalar

/-- An infinite side decides before an undefined one does. -/
def hypotFloat (x y : Float) : Float :=
  if x.isInf || y.isInf then 1.0 / 0.0
  else match Binary.ofFloat? x, Binary.ofFloat? y with
    | some a, some b => Binary.hypotenuse a b
    | _, _ => 0.0 / 0.0

instance : Scalar Float where
  zero := 0.0
  one := 1.0
  decidableLT := inferInstance
  decidableLE := inferInstance
  ofInt := Float.ofInt
  inf := 1.0 / 0.0
  nan := 0.0 / 0.0
  isFinite := Float.isFinite
  abs := Float.abs
  sqrt := Float.sqrt
  hypot := hypotFloat
  single x := x.toFloat32.toFloat
  roundEven? x := (Binary.ofFloat? x).map Binary.toInt

end Transect
