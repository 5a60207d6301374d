import Transect.Linear.Basic
import Transect.Raster

/-!
# Inverting with a way out

A matrix that is singular, nearly so, or not finite is replaced by the identity instead of being
inverted. How condition numbers and inverses are computed is left to `LinearAlgebra`.
-/
namespace Transect

variable {α : Type}

/-- The two computations on square matrices that everything else here relies on. -/
class LinearAlgebra (α : Type) where
  /-- The largest singular value divided by the smallest one, infinite when the smallest is zero. -/
  condition {n : Nat} : Mat α n n → α
  inverse? {n : Nat} : Mat α n n → Option (Mat α n n)

/-- What stands in for the inverse of a matrix, and whether it is the inverse. -/
structure Inversion (α : Type) (n : Nat) where
  matrix : Mat α n n
  inverted : Bool

variable [Scalar α] [LinearAlgebra α]

def Inversion.fallback (n : Nat) : Inversion α n := ⟨Mat.identity n, false⟩

/-- The inverse of a matrix whose condition number is at most `limit`, or else the identity. A limit
that is no number lets nothing pass. Without any entry there is no condition number. -/
def Mat.invert {n : Nat} (A : Mat α n n) (limit : α) : Except (Failure α) (Inversion α n) :=
  if !A.isFinite then .ok (.fallback n)
  else if n = 0 then .error .conditionUndefined
  else if LinearAlgebra.condition A ≤ limit then
    match LinearAlgebra.inverse? A with
    | some B => .ok ⟨B, true⟩
    | none => .ok (.fallback n)
  else .ok (.fallback n)

namespace Raster

omit [LinearAlgebra α] in
def identity (n : Nat) : Raster α where
  extents := [n, n]
  cell
    | [i, j] => if i = j then 1 else 0
    | _ => 0

/-- The same for an array of any number of axes. The last two are the rows and columns of a matrix,
and those before them may count one matrix only. A matrix that is not square has no inverse, so that
the identity with its number of rows stands in for it. -/
def invert (r : Raster α) (limit : α) : Except (Failure α) (Raster α × Bool) :=
  match r.extents.reverse with
  | [] => .error .noRows
  | n :: outer =>
    let fallback : Raster α × Bool := (identity (r.extents.headD 0), false)
    if !r.values.all Scalar.isFinite then .ok fallback
    else match outer with
      | [] => .error .conditionUndefined
      | m :: stack =>
        if m * n = 0 then .error .conditionUndefined
        else if size stack ≠ 1 then .error .conditionAmbiguous
        else if m ≠ n then .ok fallback
        else do
          let first := List.replicate stack.length 0
          let result ← (Mat.ofFn fun i j : Fin n => r.cell (first ++ [i.val, j.val])).invert limit
          if result.inverted then
            let rows := result.matrix.toLists
            return (⟨r.extents, fun index =>
              match index.drop stack.length with
              | [i, j] => (rows.getD i []).getD j 0
              | _ => 0⟩, true)
          else return fallback

end Raster

end Transect
