import Transect.Scalar

/-!
# Vectors and matrices

Vectors and matrices of a fixed size, and the few products that statistics need. Sums run over the
indices in ascending order and start at zero.
-/
namespace Transect

variable {α : Type}

abbrev Vec (α : Type) (n : Nat) := Vector α n

/-- A matrix of `m` rows and `n` columns, row by row. -/
abbrev Mat (α : Type) (m n : Nat) := Vector (Vector α n) m

def sumOver [Scalar α] (n : Nat) (f : Fin n → α) : α := Fin.foldl n (fun acc i => acc + f i) 0

namespace Vec

@[simp] theorem get_ofFn {n : Nat} (f : Fin n → α) (i : Fin n) : (Vector.ofFn f).get i = f i := by
  change (Vector.ofFn f)[i.val] = f i
  simp

theorem ext_get {n : Nat} {u v : Vec α n} (h : ∀ i, u.get i = v.get i) : u = v := by
  apply Vector.ext
  intro i hi
  exact h ⟨i, hi⟩

def ofList {n : Nat} (xs : List α) (h : xs.length = n) : Vec α n := ⟨xs.toArray, by simpa using h⟩

def sub [Scalar α] {n : Nat} (u v : Vec α n) : Vec α n := Vector.ofFn fun i => u.get i - v.get i

def dot [Scalar α] {n : Nat} (u v : Vec α n) : α := sumOver n fun i => u.get i * v.get i

end Vec

namespace Mat

def ofFn {m n : Nat} (f : Fin m → Fin n → α) : Mat α m n :=
  Vector.ofFn fun i => Vector.ofFn fun j => f i j

def entry {m n : Nat} (A : Mat α m n) (i : Fin m) (j : Fin n) : α := (A.get i).get j

@[simp] theorem entry_ofFn {m n : Nat} (f : Fin m → Fin n → α) (i : Fin m) (j : Fin n) :
    (ofFn f).entry i j = f i j := by simp [ofFn, entry]

def toLists {m n : Nat} (A : Mat α m n) : List (List α) := A.toList.map Vector.toList

variable [Scalar α]

def identity (n : Nat) : Mat α n n := ofFn fun i j => if i = j then 1 else 0

def vecMul {m n : Nat} (v : Vec α m) (A : Mat α m n) : Vec α n :=
  Vector.ofFn fun j => sumOver m fun i => v.get i * A.entry i j

def form {n : Nat} (A : Mat α n n) (v : Vec α n) : α := (vecMul v A).dot v

def isFinite {m n : Nat} (A : Mat α m n) : Bool := A.all fun row => row.all Scalar.isFinite

end Mat

end Transect
