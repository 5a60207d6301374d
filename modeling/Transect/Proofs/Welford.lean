import Mathlib.Tactic.FieldSimp
import Mathlib.Tactic.LinearCombination
import Transect.Proofs.ExactLinear
import Transect.Statistics

/-!
# Running statistics are batch statistics

Observed one at a time and forgotten, the vectors of a list leave behind the mean and the co-moment
of the whole list. What one more vector does to these two is a step lemma about the list; everything
else follows by induction over it.
-/
namespace Transect
open Matrix

namespace Sample

variable {D : ℕ}

noncomputable def mean (xs : List (Fin D → ℝ)) : Fin D → ℝ := (xs.length : ℝ)⁻¹ • xs.sum

noncomputable def comoment (xs : List (Fin D → ℝ)) : Matrix (Fin D) (Fin D) ℝ :=
  (xs.map fun x => vecMulVec (x - mean xs) (x - mean xs)).sum

/-- The unbiased covariance, for at least two vectors. -/
noncomputable def covariance (xs : List (Fin D → ℝ)) : Matrix (Fin D) (Fin D) ℝ :=
  ((xs.length : ℝ) - 1)⁻¹ • comoment xs

theorem length_mul_mean (xs : List (Fin D → ℝ)) (i : Fin D) :
    (xs.length : ℝ) * mean xs i = xs.sum i := by
  cases xs with
  | nil => simp
  | cons x xs =>
    have hlength : ((x :: xs).length : ℝ) ≠ 0 := by
      rw [List.length_cons, Nat.cast_ne_zero]
      omega
    simp only [mean, Pi.smul_apply, smul_eq_mul, mul_inv_cancel_left₀ hlength]

/-- The mean with one more vector; the old one counts as often as there were vectors before. -/
theorem mean_append_mul (xs : List (Fin D → ℝ)) (x : Fin D → ℝ) (i : Fin D) :
    ((xs.length : ℝ) + 1) * mean (xs ++ [x]) i = xs.length * mean xs i + x i := by
  have h := length_mul_mean (xs ++ [x]) i
  simpa [length_mul_mean xs i] using h

theorem mean_append (xs : List (Fin D → ℝ)) (x : Fin D → ℝ) (i : Fin D) :
    mean (xs ++ [x]) i = mean xs i + (x i - mean xs i) / ((xs.length : ℝ) + 1) := by
  have hlength : (xs.length : ℝ) + 1 ≠ 0 := by positivity
  have h := mean_append_mul xs x i
  field_simp
  linear_combination h

/-- Products of deviations from any centre, summed up. -/
private theorem sum_deviations (xs : List (Fin D → ℝ)) (c : Fin D → ℝ) (i j : Fin D) :
    (xs.map fun x => vecMulVec (x - c) (x - c)).sum i j =
      (xs.map fun x => x i * x j).sum - c i * xs.sum j - c j * xs.sum i +
        xs.length * (c i * c j) := by
  induction xs with
  | nil => simp
  | cons x xs ih =>
    simp only [List.map_cons, List.sum_cons, Matrix.add_apply, ih, vecMulVec_apply, Pi.sub_apply,
      Pi.add_apply, List.length_cons, Nat.cast_add, Nat.cast_one]
    ring

theorem comoment_apply (xs : List (Fin D → ℝ)) (i j : Fin D) :
    comoment xs i j = (xs.map fun x => x i * x j).sum - xs.length * (mean xs i * mean xs j) := by
  rw [comoment, sum_deviations, ← length_mul_mean xs i, ← length_mul_mean xs j]
  ring

/-- The co-moment with one more vector. One factor of what is added is a deviation from the mean
without that vector, the other one from the mean with it. -/
theorem comoment_append (xs : List (Fin D → ℝ)) (x : Fin D → ℝ) (i j : Fin D) :
    comoment (xs ++ [x]) i j =
      comoment xs i j + (x i - mean xs i) * (x j - mean (xs ++ [x]) j) := by
  have hi := mean_append_mul xs x i
  have hj := mean_append_mul xs x j
  simp only [comoment_apply, List.map_append, List.sum_append, List.length_append, List.map_cons,
    List.map_nil, List.sum_singleton, List.length_singleton, Nat.cast_add, Nat.cast_one]
  linear_combination (-mean (xs ++ [x]) j) * hi - mean xs i * hj

theorem comoment_symm (xs : List (Fin D → ℝ)) (i j : Fin D) :
    comoment xs i j = comoment xs j i := by
  simp only [comoment_apply, mul_comm]

theorem mean_perm {xs ys : List (Fin D → ℝ)} (h : xs.Perm ys) : mean xs = mean ys := by
  rw [mean, mean, h.length_eq, h.sum_eq]

theorem comoment_perm {xs ys : List (Fin D → ℝ)} (h : xs.Perm ys) :
    comoment xs = comoment ys := by
  rw [comoment, comoment, mean_perm h, (h.map _).sum_eq]

end Sample

namespace Moments

variable {D : ℕ}

noncomputable def ofSample (xs : List (Fin D → ℝ)) : Moments Exact D :=
  ⟨xs.length, Vec.ofReal (Sample.mean xs), Mat.ofReal (Sample.comoment xs)⟩

theorem zero_eq_ofSample (D : ℕ) : (zero D : Moments Exact D) = ofSample [] := by
  simp only [zero, ofSample, List.length_nil, mk.injEq, true_and]
  constructor
  · apply Vec.ext_get
    intro i
    rw [Vec.get_replicate, Vec.get_ofReal]
    simp [Sample.mean]
  · apply Mat.ext_entry
    intro i j
    rw [Mat.entry_ofReal, Mat.entry, Vec.get_replicate, Vec.get_replicate]
    simp [Sample.comoment]

theorem add_ofSample (xs : List (Fin D → ℝ)) (x : Fin D → ℝ) :
    (ofSample xs).add (Vec.ofReal x) = ofSample (xs ++ [x]) := by
  have hlength : ((xs.length + 1 : ℕ) : ℝ) ≠ 0 := by positivity
  have hmean : (Vector.ofFn fun i => (Vec.ofReal (Sample.mean xs)).get i +
      (Vec.ofReal (x - Sample.mean xs)).get i / Scalar.ofNat (xs.length + 1) : Vec Exact D) =
      Vec.ofReal (Sample.mean (xs ++ [x])) := by
    apply Vec.ext_get
    intro i
    simp only [Vec.get_ofFn, Vec.get_ofReal, Exact.ofNat_eq_coe, ← Exact.coe_div _ hlength,
      ← Exact.coe_add, Exact.coe_inj, Sample.mean_append, Pi.sub_apply]
    push_cast
    rfl
  simp only [add, ofSample, Vec.sub_ofReal, hmean, mk.injEq, List.length_append,
    List.length_singleton, true_and]
  apply Mat.ext_entry
  intro i j
  simp only [Mat.entry_ofFn, Mat.entry_ofReal, Vec.get_ofReal, Sample.comoment_append]
  norm_cast

theorem ofSample_perm {xs ys : List (Fin D → ℝ)} (h : xs.Perm ys) :
    ofSample xs = ofSample ys := by
  rw [ofSample, ofSample, h.length_eq, Sample.mean_perm h, Sample.comoment_perm h]

/-- Averaging with the transposed matrix changes nothing, as nothing is rounded. -/
theorem covariance_ofSample {xs : List (Fin D → ℝ)} (h : 2 ≤ xs.length) :
    (ofSample xs).covariance = Mat.ofReal (Sample.covariance xs) := by
  have hcount : (ofSample xs).count ≠ 1 := by
    simp only [ofSample]
    omega
  have hlength : ((xs.length - 1 : ℕ) : ℝ) ≠ 0 := by
    rw [Nat.cast_ne_zero]
    omega
  simp only [covariance, if_neg hcount]
  apply Mat.ext_entry
  intro i j
  simp only [ofSample, Mat.entry_ofFn, Mat.entry_ofReal, Exact.ofNat_eq_coe,
    ← Exact.coe_div _ hlength, ← Exact.coe_add, ← Exact.coe_div_two, Sample.comoment_symm xs j i,
    Exact.coe_inj, Sample.covariance, Matrix.smul_apply, smul_eq_mul]
  rw [Nat.cast_sub (by omega), Nat.cast_one]
  ring

end Moments

namespace Statistics

variable {D : ℕ}

private theorem foldlM_add_ofSample (xs ys : List (Fin D → ℝ)) :
    (ys.map Exact.ofReals).foldlM add (.ofLength D (.ofSample xs)) =
      .ok (.ofLength D (.ofSample (xs ++ ys))) := by
  -- On the vectors to come; those before them stand in the statistics.
  induction ys generalizing xs with
  | nil => simp [pure, Except.pure]
  | cons y ys ih =>
    have hadd : add (.ofLength D (.ofSample xs)) (Exact.ofReals y) =
        .ok (.ofLength D (.ofSample (xs ++ [y]))) := by
      simp [add, Moments.add_ofSample]
    have h := ih (xs ++ [y])
    rw [List.append_assoc, List.singleton_append] at h
    rw [List.map_cons, List.foldlM_cons, hadd]
    exact h

theorem add_empty {α : Type} [Scalar α] {n : ℕ} {x : List α} (h : x.length = n) :
    add empty x = .ok (.ofLength n ((Moments.zero n).add (Vec.ofList x h))) := by
  subst h
  rfl

theorem ofVectors_ofReals {xs : List (Fin D → ℝ)} (h : xs ≠ []) :
    ofVectors (xs.map Exact.ofReals) = .ok (.ofLength D (.ofSample xs)) := by
  obtain ⟨x, xs, rfl⟩ := List.exists_cons_of_ne_nil h
  rw [ofVectors, List.map_cons, List.foldlM_cons, add_empty (Exact.length_ofReals x),
    Vec.ofList_ofReals, Moments.zero_eq_ofSample, Moments.add_ofSample]
  exact foldlM_add_ofSample [x] xs

/-- The running statistics of a list are those of the list as a whole, in whatever order its vectors
were observed. -/
theorem ofVectors_eq_batch {xs : List (Fin D → ℝ)} (h : xs ≠ []) :
    ∃ m : Moments Exact D,
      ofVectors (xs.map Exact.ofReals) = .ok (.ofLength D m) ∧
      m.count = xs.length ∧
      m.mean = Vec.ofReal (Sample.mean xs) ∧
      m.comoment = Mat.ofReal (Sample.comoment xs) ∧
      (2 ≤ xs.length → m.covariance = Mat.ofReal (Sample.covariance xs)) ∧
      ∀ ys : List (Fin D → ℝ), ys.Perm xs →
        ofVectors (ys.map Exact.ofReals) >>= estimate = .ok ⟨D, m.mean, m.covariance⟩ := by
  refine ⟨.ofSample xs, ofVectors_ofReals h, rfl, rfl, rfl, Moments.covariance_ofSample, ?_⟩
  intro ys hys
  have hne : ys ≠ [] := by
    rintro rfl
    exact h hys.symm.eq_nil
  rw [ofVectors_ofReals hne, Moments.ofSample_perm hys]
  rfl

theorem ofVectors_eq_batch_two : ∃ m : Moments Exact 2,
    ofVectors ([![1, 2], ![3, 5]].map Exact.ofReals) = .ok (.ofLength 2 m) ∧
    m.mean = Vec.ofReal ![2, 7 / 2] ∧ m.covariance = Mat.ofReal !![2, 3; 3, 9 / 2] := by
  have hne : ([![1, 2], ![3, 5]] : List (Fin 2 → ℝ)) ≠ [] := by simp
  obtain ⟨m, h, -, hmean, -, hcovariance, -⟩ := ofVectors_eq_batch hne
  refine ⟨m, h, ?_, ?_⟩
  · rw [hmean, Vec.ofReal_inj]
    funext i
    fin_cases i <;> norm_num [Sample.mean]
  · rw [hcovariance (by simp), Mat.ofReal_inj]
    ext i j
    fin_cases i <;> fin_cases j <;>
      norm_num [Sample.covariance, Sample.comoment, Sample.mean, vecMulVec_apply]

end Statistics
end Transect
