import Transect.Proofs.Trained

/-!
# Scores are distances

What a trained model gives as its covariance is symmetric and positive semidefinite, and what it
scores with in place of the inverse is symmetric and positive definite, whatever the limit was. So
the score of a profile is never negative, and it is zero at the mean and nowhere else.
-/
namespace Transect
open Matrix

/-- The derived values of a trained model, and what they make of its scores. The only law that is
asked of the inversion is that it returns no matrix which is not the inverse. -/
theorem score_is_distance [LinearAlgebra Exact] [LawfulInverse] {D : ℕ} (hD : 0 < D)
    {xs : List (Fin D → ℝ)} (hxs : xs ≠ []) {s : Session Exact}
    (hlearned : s.model.Learned (xs.map Exact.ofReals)) :
    ∃ (C : Mat Exact D D) (B : Matrix (Fin D) (Fin D) ℝ) (inverted : Bool),
      ModelM.derived.answer s =
        .ok ⟨⟨D, Vec.ofReal (Sample.mean xs), C⟩, ⟨Mat.ofReal B, inverted⟩⟩ ∧
      (∀ v : Fin D → ℝ, ∃ r : ℝ, (ModelM.score (Exact.ofReals v)).answer s = .ok r ∧ 0 ≤ r ∧
        (r = 0 ↔ v = Sample.mean xs)) ∧
      (2 ≤ s.model.count → ∃ A : Matrix (Fin D) (Fin D) ℝ,
        C = Mat.ofReal A ∧ A.IsSymm ∧ A.PosSemidef) ∧
      B.IsSymm ∧ B.PosDef := by
  obtain ⟨B, inverted, hderivation, hB⟩ := hlearned.exists_derivation hxs hD
  have hsemidefinite := Sample.posSemidef_covariance hxs
  have hdefinite := hB.posDef hsemidefinite
  refine ⟨(Moments.ofSample xs).covariance, B, inverted, ?_, ?_, ?_, ?_, hdefinite⟩
  · exact (ModelM.yields_derived s).answer_eq.trans hderivation
  · intro v
    obtain ⟨r, hr, hnonneg, hzero⟩ := hlearned.score_ofReals hxs hD v
    exact ⟨r, (ModelM.yields_score _ s).answer_eq.trans hr, hnonneg, hzero⟩
  · intro hcount
    rw [hlearned.count_eq hxs] at hcount
    refine ⟨Sample.covariance xs, Moments.covariance_ofSample hcount, ?_, hsemidefinite⟩
    exact isHermitian_iff_isSymm.mp hsemidefinite.isHermitian
  · exact isHermitian_iff_isSymm.mp hdefinite.isHermitian

/-- Three vectors in general position, and a limit under which their covariance is inverted. -/
theorem score_is_distance_of_three :
    let requests : List (Request Exact) :=
      [.updateVector (Exact.ofReals ![0, 0]), .setLimit Scalar.inf,
        .updateVector (Exact.ofReals ![2, 0]), .updateVector (Exact.ofReals ![1, 3])]
    ∃ m : Model Exact, Model.create 2 .nearest 1 = .ok m ∧
      (ModelM.score (Exact.ofReals ![1, 1])).answer (m.start.after requests) = .ok 0 ∧
      ∃ r : ℝ, 0 < r ∧
        (ModelM.score (Exact.ofReals ![2, 1])).answer (m.start.after requests) = .ok r := by
  intro requests
  obtain ⟨m, hm⟩ : ∃ m : Model Exact, Model.create 2 .nearest 1 = .ok m := ⟨_, rfl⟩
  let xs : List (Fin 2 → ℝ) := [![0, 0], ![2, 0], ![1, 3]]
  have hlearned : (m.start.after requests).model.Learned (xs.map Exact.ofReals) :=
    learned_after hm requests
  have hmean : Sample.mean xs = ![1, 1] := by
    funext i
    fin_cases i <;> norm_num [xs, Sample.mean]
  obtain ⟨-, -, -, -, hscore, -⟩ := score_is_distance (show 0 < 2 by decide) (by simp [xs]) hlearned
  rw [hmean] at hscore
  obtain ⟨r, hr, -, hzero⟩ := hscore ![1, 1]
  obtain ⟨t, ht, hnonneg, hpos⟩ := hscore ![2, 1]
  refine ⟨m, hm, ?_, t, ?_, ht⟩
  · rw [hr, hzero.mpr rfl, Exact.coe_zero]
  · refine hnonneg.lt_of_ne' fun h => ?_
    have hfirst := congrFun (hpos.mp h) 0
    norm_num at hfirst

end Transect
