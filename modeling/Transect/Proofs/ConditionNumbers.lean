import Mathlib.Analysis.InnerProductSpace.SingularValues
import Mathlib.Analysis.Matrix.Spectrum
import Transect.Proofs.SafeInverses

/-!
# Condition numbers

Condition numbers depend on singular values only, and whatever has an inverse is inverted. Taking
the rows and columns of a matrix in another order does not change its singular values.
-/
namespace Transect
open Matrix

section

variable {n : ℕ} {A B : Matrix (Fin n) (Fin n) ℝ}

theorem singularValues_eq_iff : A.toEuclideanLin.singularValues = B.toEuclideanLin.singularValues ↔
    (Aᴴ * A).charpoly = (Bᴴ * B).charpoly := by
  have hdim : Module.finrank ℝ (EuclideanSpace ℝ (Fin n)) = n := finrank_euclideanSpace_fin
  have hcharpoly (M : Matrix (Fin n) (Fin n) ℝ) :
      (M.toEuclideanLin.adjoint ∘ₗ M.toEuclideanLin).charpoly = (Mᴴ * M).charpoly := by
    rw [← toEuclideanLin_conjTranspose_eq_adjoint, toEuclideanLin_eq_toLin_orthonormal,
      ← toLin_mul, charpoly_toLin]
  rw [← hcharpoly A, ← hcharpoly B, ← LinearMap.IsSymmetric.eigenvalues_eq_eigenvalues_iff
    A.toEuclideanLin.isSymmetric_adjoint_comp_self hdim
    B.toEuclideanLin.isSymmetric_adjoint_comp_self hdim]
  constructor
  · intro h
    funext i
    rw [← LinearMap.sq_singularValues_fin, ← LinearMap.sq_singularValues_fin, h]
  · intro h
    ext i
    by_cases hi : i < n
    · rw [LinearMap.singularValues_of_lt _ hdim hi, LinearMap.singularValues_of_lt _ hdim hi, h]
    · have hbeyond := hdim.trans_le (not_lt.mp hi)
      rw [LinearMap.singularValues_of_finrank_le _ hbeyond,
        LinearMap.singularValues_of_finrank_le _ hbeyond]

theorem singularValues_submatrix (π : Equiv.Perm (Fin n)) (A : Matrix (Fin n) (Fin n) ℝ) :
    (A.submatrix π π).toEuclideanLin.singularValues = A.toEuclideanLin.singularValues := by
  rw [singularValues_eq_iff, conjTranspose_submatrix, submatrix_mul_equiv]
  exact charpoly_reindex π.symm (Aᴴ * A)

open scoped Matrix.Norms.L2Operator

/-- Symmetric matrices are as large as their eigenvalues, and so are their inverses. -/
theorem norm_of_isHermitian (hA : A.IsHermitian) :
    ‖A‖ = ‖diagonal hA.eigenvalues‖ ∧ ‖A⁻¹‖ = ‖(diagonal hA.eigenvalues)⁻¹‖ := by
  have hdiagonal : A = hA.eigenvectorUnitary * diagonal hA.eigenvalues *
      (star hA.eigenvectorUnitary : unitaryGroup (Fin n) ℝ) := hA.spectral_theorem
  generalize hA.eigenvectorUnitary = U at hdiagonal
  generalize hA.eigenvalues = values at hdiagonal
  subst hdiagonal
  have hinv (V : unitaryGroup (Fin n) ℝ) :
      (V : Matrix (Fin n) (Fin n) ℝ)⁻¹ = (star V : unitaryGroup (Fin n) ℝ) :=
    inv_eq_left_inv (Unitary.coe_star_mul_self V)
  constructor
  · rw [CStarRing.norm_mul_coe_unitary, CStarRing.norm_coe_unitary_mul]
  · rw [Matrix.mul_inv_rev, Matrix.mul_inv_rev, hinv, hinv, CStarRing.norm_coe_unitary_mul,
      CStarRing.norm_mul_coe_unitary]

theorem norm_eq_of_charpoly (h : (Aᴴ * A).charpoly = (Bᴴ * B).charpoly) :
    ‖A‖ = ‖B‖ ∧ ‖A⁻¹‖ = ‖B⁻¹‖ := by
  have hA := isHermitian_conjTranspose_mul_self A
  have hB := isHermitian_conjTranspose_mul_self B
  have hvalues := (hA.eigenvalues_eq_eigenvalues_iff hB).mpr h
  obtain ⟨hnormA, hinvA⟩ := norm_of_isHermitian hA
  obtain ⟨hnormB, hinvB⟩ := norm_of_isHermitian hB
  have hinverse (M : Matrix (Fin n) (Fin n) ℝ) : ‖(Mᴴ * M)⁻¹‖ = ‖M⁻¹‖ * ‖M⁻¹‖ := by
    rw [Matrix.mul_inv_rev, ← conjTranspose_nonsing_inv, ← l2_opNorm_conjTranspose M⁻¹,
      ← l2_opNorm_conjTranspose_mul_self, conjTranspose_conjTranspose]
  constructor
  · rw [← mul_self_inj (norm_nonneg A) (norm_nonneg B), ← l2_opNorm_conjTranspose_mul_self,
      ← l2_opNorm_conjTranspose_mul_self, hnormA, hnormB, hvalues]
  · rw [← mul_self_inj (norm_nonneg _) (norm_nonneg _), ← hinverse, ← hinverse, hinvA, hinvB,
      hvalues]

end

/-- The condition number depends on the singular values of a matrix only, and an inverse is found
where there is one. -/
class LawfulLinearAlgebra [LinearAlgebra Exact] : Prop extends LawfulInverse where
  condition_congr {n : ℕ} {A B : Matrix (Fin n) (Fin n) ℝ}
    (h : A.toEuclideanLin.singularValues = B.toEuclideanLin.singularValues) :
    LinearAlgebra.condition (Mat.ofReal A) = LinearAlgebra.condition (Mat.ofReal B)
  exists_inverse {n : ℕ} {A : Matrix (Fin n) (Fin n) ℝ} (h : IsUnit A) :
    ∃ B, LinearAlgebra.inverse? (Mat.ofReal A) = some B

instance : LawfulLinearAlgebra where
  condition_congr {n A B} h := by
    have hcharpoly := singularValues_eq_iff.mp h
    have hdet : A.det = 0 ↔ B.det = 0 := by
      have hproduct : (Aᴴ * A).det = (Bᴴ * B).det := by
        rw [det_eq_sign_charpoly_coeff, det_eq_sign_charpoly_coeff, hcharpoly]
      rw [det_mul, det_mul, det_conjTranspose, det_conjTranspose, star_trivial, star_trivial]
        at hproduct
      rw [← mul_self_eq_zero, hproduct, mul_self_eq_zero]
    obtain ⟨hnorm, hinv⟩ := norm_eq_of_charpoly hcharpoly
    simp only [LinearAlgebra.condition, Mat.toReal_ofReal, hdet, hnorm, hinv]
  exists_inverse {n A} h := by
    have hdet : A.det ≠ 0 := ((isUnit_iff_isUnit_det A).mp h).ne_zero
    exact ⟨Mat.ofReal A⁻¹, by simp only [LinearAlgebra.inverse?, Mat.toReal_ofReal, if_neg hdet]⟩

end Transect
