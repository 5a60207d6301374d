import Mathlib.Analysis.CStarAlgebra.Matrix
import Mathlib.Analysis.Matrix.Order
import Transect.Linear.Inversion
import Transect.Proofs.Exact

/-!
# Exact vectors and matrices

Vectors and matrices of finite numbers are those of the reals. Of the two computations that
inversion leaves open only one law is asked, that what is returned as an inverse is one; it is
enough for what stands in for the inverse of a covariance to be positive definite, and to be the
identity if the covariance is singular.
-/
namespace Transect
open Matrix

/-- The real numbers of a vector as a list of finite ones. -/
def Exact.ofReals {n : ℕ} (v : Fin n → ℝ) : List Exact := List.ofFn fun i => (v i : Exact)

@[simp] theorem Exact.length_ofReals {n : ℕ} (v : Fin n → ℝ) : (ofReals v).length = n := by
  simp [ofReals]

namespace Vec

variable {n : ℕ}

theorem get_replicate {α : Type} (a : α) (i : Fin n) : (Vector.replicate n a).get i = a := by
  change (Vector.replicate n a)[i.val] = a
  simp

noncomputable def ofReal (v : Fin n → ℝ) : Vec Exact n := Vector.ofFn fun i => (v i : Exact)

@[simp] theorem get_ofReal (v : Fin n → ℝ) (i : Fin n) : (ofReal v).get i = v i := get_ofFn _ i

@[simp] theorem ofList_ofReals (v : Fin n → ℝ) :
    ofList (Exact.ofReals v) (Exact.length_ofReals v) = ofReal v := by
  apply ext_get
  intro i
  rw [get_ofReal]
  exact List.getElem_ofFn (by simp)

theorem ofReal_inj {u v : Fin n → ℝ} : ofReal u = ofReal v ↔ u = v := by
  constructor
  · intro h
    funext i
    have hi := congrArg (fun w => w.get i) h
    simpa using hi
  · exact congrArg ofReal

theorem sub_ofReal (u v : Fin n → ℝ) : sub (ofReal u) (ofReal v) = ofReal (u - v) := by
  apply ext_get
  intro i
  simp [sub, Exact.coe_sub]

theorem dot_ofReal (u v : Fin n → ℝ) : dot (ofReal u) (ofReal v) = ((u ⬝ᵥ v : ℝ) : Exact) := by
  simp only [dot, Exact.sumOver_eq_sum, get_ofReal, dotProduct, Exact.coe_sum, Exact.coe_mul]

end Vec

namespace Mat

variable {m n : ℕ}

noncomputable def ofReal (A : Matrix (Fin m) (Fin n) ℝ) : Mat Exact m n :=
  Mat.ofFn fun i j => (A i j : Exact)

@[simp] theorem entry_ofReal (A : Matrix (Fin m) (Fin n) ℝ) (i : Fin m) (j : Fin n) :
    (ofReal A).entry i j = A i j := entry_ofFn _ i j

theorem ext_entry {α : Type} {A B : Mat α m n} (h : ∀ i j, A.entry i j = B.entry i j) : A = B :=
  Vec.ext_get fun i => Vec.ext_get (h i)

theorem ofReal_inj {A B : Matrix (Fin m) (Fin n) ℝ} : ofReal A = ofReal B ↔ A = B := by
  constructor
  · intro h
    ext i j
    have hij := congrArg (fun C => C.entry i j) h
    simpa using hij
  · exact congrArg ofReal

theorem identity_eq_ofReal (n : ℕ) : (identity n : Mat Exact n n) = ofReal 1 := by
  apply ext_entry
  intro i j
  by_cases h : i = j <;> simp [identity, h]

@[simp] theorem isFinite_ofReal (A : Matrix (Fin m) (Fin n) ℝ) : (ofReal A).isFinite = true := by
  simp [isFinite, ofReal, ofFn, Vector.all_eq_true]

theorem vecMul_ofReal (v : Fin m → ℝ) (A : Matrix (Fin m) (Fin n) ℝ) :
    vecMul (Vec.ofReal v) (ofReal A) = Vec.ofReal (v ᵥ* A) := by
  apply Vec.ext_get
  intro j
  simp only [vecMul, Vec.get_ofFn, Exact.sumOver_eq_sum, Vec.get_ofReal, entry_ofReal,
    Matrix.vecMul, dotProduct, Exact.coe_sum, Exact.coe_mul]

theorem form_ofReal (A : Matrix (Fin n) (Fin n) ℝ) (v : Fin n → ℝ) :
    (ofReal A).form (Vec.ofReal v) = ((v ⬝ᵥ A *ᵥ v : ℝ) : Exact) := by
  rw [form, vecMul_ofReal, Vec.dot_ofReal, dotProduct_mulVec]

end Mat

/-- What is returned as the inverse of a finite matrix is its inverse. -/
class LawfulInverse [LinearAlgebra Exact] : Prop where
  mul_eq_one {n : ℕ} {A : Matrix (Fin n) (Fin n) ℝ} {B : Mat Exact n n}
    (h : LinearAlgebra.inverse? (Mat.ofReal A) = some B) : ∃ C, B = Mat.ofReal C ∧ A * C = 1

/-- What may stand in for the inverse of a matrix: the inverse itself, or else the identity. -/
def StandsIn {n : ℕ} (A B : Matrix (Fin n) (Fin n) ℝ) (inverted : Bool) : Prop :=
  inverted = true ∧ A * B = 1 ∨ inverted = false ∧ B = 1

namespace StandsIn

variable {n : ℕ} {A B : Matrix (Fin n) (Fin n) ℝ} {inverted : Bool}

/-- Whatever stands in for the inverse of a positive semidefinite matrix is positive definite: the
identity is, and so is the inverse if there is one. -/
theorem posDef (h : StandsIn A B inverted) (hA : A.PosSemidef) : B.PosDef := by
  rcases h with ⟨-, hmul⟩ | ⟨-, rfl⟩
  · have hunit : IsUnit A := IsUnit.of_mul_eq_one B hmul
    rw [← Matrix.inv_eq_right_inv hmul]
    exact (hA.posDef_iff_isUnit.mpr hunit).inv
  · exact PosDef.one

theorem of_not_isUnit (h : StandsIn A B inverted) (hA : ¬ IsUnit A) :
    B = 1 ∧ inverted = false := by
  rcases h with ⟨-, hmul⟩ | ⟨hinverted, hone⟩
  · exact absurd (IsUnit.of_mul_eq_one B hmul) hA
  · exact ⟨hone, hinverted⟩

end StandsIn

section

variable [LinearAlgebra Exact] [LawfulInverse] {n : ℕ}

theorem Mat.invert_ofReal (hn : 0 < n) (A : Matrix (Fin n) (Fin n) ℝ) (limit : Exact) :
    ∃ B inverted, (Mat.ofReal A).invert limit = .ok ⟨Mat.ofReal B, inverted⟩ ∧
      StandsIn A B inverted := by
  have hfallback : (.ok (.fallback n) : Except (Failure Exact) (Inversion Exact n)) =
      .ok ⟨Mat.ofReal 1, false⟩ := by rw [Inversion.fallback, Mat.identity_eq_ofReal]
  simp only [Mat.invert, Mat.isFinite_ofReal, Bool.not_true, Bool.false_eq_true, if_false,
    if_neg hn.ne']
  split_ifs
  · cases h : LinearAlgebra.inverse? (Mat.ofReal A) with
    | none => exact ⟨1, false, hfallback, Or.inr ⟨rfl, rfl⟩⟩
    | some B =>
      obtain ⟨C, rfl, hC⟩ := LawfulInverse.mul_eq_one h
      exact ⟨C, true, rfl, Or.inl ⟨rfl, hC⟩⟩
  · exact ⟨1, false, hfallback, Or.inr ⟨rfl, rfl⟩⟩

end

section
open scoped Matrix.Norms.L2Operator

/-- The number that a finite one is; zero in place of any other. -/
def Exact.toReal : Exact → ℝ
  | finite x => x
  | _ => 0

def Mat.toReal {m n : ℕ} (A : Mat Exact m n) : Matrix (Fin m) (Fin n) ℝ :=
  fun i j => (A.entry i j).toReal

@[simp] theorem Mat.toReal_ofReal {m n : ℕ} (A : Matrix (Fin m) (Fin n) ℝ) :
    (Mat.ofReal A).toReal = A := by
  ext i j
  simp [Mat.toReal, Exact.toReal]

/-- The two computations without rounding. The largest singular value of a matrix is its norm, and
the smallest one is the reciprocal of the norm of its inverse. -/
noncomputable instance : LinearAlgebra Exact where
  condition A :=
    if A.toReal.det = 0 then Scalar.inf else ((‖A.toReal‖ * ‖A.toReal⁻¹‖ : ℝ) : Exact)
  inverse? A := if A.toReal.det = 0 then none else some (Mat.ofReal A.toReal⁻¹)

instance : LawfulInverse where
  mul_eq_one {n A B} h := by
    simp only [LinearAlgebra.inverse?, Mat.toReal_ofReal] at h
    split_ifs at h with hdet
    exact ⟨A⁻¹, (Option.some.inj h).symm, Matrix.mul_nonsing_inv A (Ne.isUnit hdet)⟩

end

end Transect
