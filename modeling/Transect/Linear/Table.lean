import Transect.Linear.Basic

/-!
# Square tables of doubles

Doubles laid out row by row in one flat array, which is what the numeric procedures work on.
-/
namespace Transect

structure FloatTable where
  size : Nat
  cells : FloatArray

namespace FloatTable

@[inline] def get (t : FloatTable) (i j : Nat) : Float := t.cells.get! (i * t.size + j)

@[inline] def put (t : FloatTable) (i j : Nat) (x : Float) : FloatTable :=
  { t with cells := t.cells.set! (i * t.size + j) x }

def ofMat {n : Nat} (A : Mat Float n n) : FloatTable :=
  ⟨n, A.foldl (fun cells row => row.foldl FloatArray.push cells)
    (FloatArray.emptyWithCapacity (n * n))⟩

def toMat (t : FloatTable) (n : Nat) : Mat Float n n := Mat.ofFn fun i j => t.get i j

def identity (n : Nat) : FloatTable := ofMat (Mat.identity n)

def swapCells (t : FloatTable) (p q j : Nat) : FloatTable :=
  let x := t.get p j
  let y := t.get q j
  (t.put p j y).put q j x

def swapRows (t : FloatTable) (p q width : Nat) : FloatTable :=
  Fin.foldl width (fun t j => t.swapCells p q j.val) t

/-- Takes a multiple of row `p` off row `q`. -/
def reduceRow (t : FloatTable) (p q : Nat) (factor : Float) : FloatTable :=
  Fin.foldl t.size (fun t k => t.put q k.val (t.get q k.val - factor * t.get p k.val)) t

def scaleRow (t : FloatTable) (p : Nat) (factor : Float) : FloatTable :=
  Fin.foldl t.size (fun t k => t.put p k.val (t.get p k.val * factor)) t

end FloatTable

end Transect
