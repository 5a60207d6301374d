import Mathlib.LinearAlgebra.Matrix.Rank
import Mathlib.LinearAlgebra.Matrix.ToLinearEquiv
import Transect.Proofs.Lifecycle

/-!
# Singular covariances

Two kinds of training leave a covariance that cannot be inverted. Each vector after the first adds
one to the rank at most, so that there have to be more vectors than components. And vectors whose
components add up to the same number, as those of all profiles of images do, vary in no direction
that changes this number. In both cases the identity stands in for the inverse, whatever the limit
is, and scores are squared Euclidean distances from the mean.
-/
namespace Transect
open Matrix

theorem rank_add_le {m n : ℕ} (A B : Matrix (Fin m) (Fin n) ℝ) :
    (A + B).rank ≤ A.rank + B.rank := by
  have h := LinearMap.rank_add_le A.mulVecLin B.mulVecLin
  simp only [LinearMap.rank, ← Module.finrank_eq_rank] at h
  rw [rank, rank, rank, mulVecLin_add]
  exact_mod_cast h

theorem not_isUnit_of_mulVec_one {D : ℕ} (hD : 0 < D) {A : Matrix (Fin D) (Fin D) ℝ}
    (h : A *ᵥ 1 = 0) : ¬ IsUnit A := by
  have hone : (1 : Fin D → ℝ) ≠ 0 := fun hzero => one_ne_zero (congrFun hzero ⟨0, hD⟩)
  rw [isUnit_iff_isUnit_det, exists_mulVec_eq_zero_iff.mp ⟨1, hone, h⟩]
  exact not_isUnit_zero

namespace Sample

variable {D : ℕ} {xs : List (Fin D → ℝ)} {c : ℝ}

theorem comoment_append_eq (xs : List (Fin D → ℝ)) (x : Fin D → ℝ) :
    comoment (xs ++ [x]) =
      comoment xs + vecMulVec (x - mean xs) (x - mean (xs ++ [x])) := by
  ext i j
  exact comoment_append xs x i j

@[simp] theorem comoment_singleton (x : Fin D → ℝ) : comoment [x] = 0 := by
  simp [comoment, mean]

theorem rank_comoment_cons_le (x : Fin D → ℝ) (xs : List (Fin D → ℝ)) :
    (comoment (x :: xs)).rank ≤ xs.length := by
  induction xs using List.reverseRecOn with
  | nil => rw [comoment_singleton, rank_zero, List.length_nil]
  | append_singleton xs y ih =>
    rw [← List.cons_append, comoment_append_eq, List.length_append, List.length_singleton]
    exact (rank_add_le _ _).trans (Nat.add_le_add ih (rank_vecMulVec_le _ _))

theorem rank_covariance_le (hxs : xs ≠ []) : (covariance xs).rank ≤ xs.length - 1 := by
  obtain ⟨x, xs, rfl⟩ := List.exists_cons_of_ne_nil hxs
  have hscaled : covariance (x :: xs) =
      ((((x :: xs).length : ℝ) - 1)⁻¹ • 1 : Matrix (Fin D) (Fin D) ℝ) * comoment (x :: xs) := by
    rw [covariance, smul_mul, one_mul]
  rw [hscaled]
  exact (rank_mul_le_right _ _).trans (rank_comoment_cons_le x xs)

theorem not_isUnit_covariance (hxs : xs ≠ []) (h : xs.length ≤ D) : ¬ IsUnit (covariance xs) := by
  intro hunit
  have hrank := rank_of_isUnit _ hunit
  have hle := rank_covariance_le hxs
  have hpos := List.length_pos_of_ne_nil hxs
  rw [Fintype.card_fin] at hrank
  omega

theorem sum_mean (hxs : xs ≠ []) (h : ∀ x ∈ xs, ∑ i, x i = c) : ∑ i, mean xs i = c := by
  have hsum : ∀ ys : List (Fin D → ℝ), (∀ y ∈ ys, ∑ i, y i = c) →
      ∑ i, ys.sum i = ys.length * c := by
    intro ys
    induction ys with
    | nil => intro _; simp
    | cons y ys ih =>
      intro hys
      obtain ⟨hy, hrest⟩ := List.forall_mem_cons.mp hys
      simp only [List.sum_cons, Pi.add_apply, Finset.sum_add_distrib, hy, ih hrest,
        List.length_cons, Nat.cast_add, Nat.cast_one]
      ring
  have hlength : (xs.length : ℝ) ≠ 0 :=
    Nat.cast_ne_zero.mpr (List.length_pos_of_ne_nil hxs).ne'
  apply mul_left_cancel₀ hlength
  rw [Finset.mul_sum, ← hsum xs h]
  exact Finset.sum_congr rfl fun i _ => length_mul_mean xs i

/-- Deviations from the mean add up to nothing, and so do the rows of the products of deviations. -/
theorem comoment_mulVec_one (h : ∀ x ∈ xs, ∑ i, x i = c) : comoment xs *ᵥ 1 = 0 := by
  apply List.sum_induction (fun A : Matrix (Fin D) (Fin D) ℝ => A *ᵥ 1 = 0)
  · intro A B hA hB
    rw [add_mulVec, hA, hB, add_zero]
  · exact zero_mulVec 1
  · intro A hA
    obtain ⟨x, hx, rfl⟩ := List.mem_map.mp hA
    have hdeviation : (x - mean xs) ⬝ᵥ 1 = 0 := by
      simp only [dotProduct_one, Pi.sub_apply, Finset.sum_sub_distrib, h x hx,
        sum_mean (List.ne_nil_of_mem hx) h, sub_self]
    rw [vecMulVec_mulVec, hdeviation]
    simp

theorem covariance_mulVec_one (h : ∀ x ∈ xs, ∑ i, x i = c) : covariance xs *ᵥ 1 = 0 := by
  rw [covariance, smul_mulVec, comoment_mulVec_one h, smul_zero]

theorem isSymm_covariance (xs : List (Fin D → ℝ)) : (covariance xs).IsSymm := by
  ext i j
  simp only [transpose_apply, covariance, Matrix.smul_apply, comoment_symm xs j i]

end Sample

section

variable [LinearAlgebra Exact] [LawfulInverse] {D : ℕ}

/-- A model that has not seen more vectors than they have components scores by the identity. Of the
covariance of more than one vector this says that its rank is below their number. -/
theorem few_vectors_score_by_identity (hD : 0 < D) {xs : List (Fin D → ℝ)} (hxs : xs ≠ [])
    {s : Session Exact} (hlearned : s.model.Learned (xs.map Exact.ofReals)) :
    s.model.count = xs.length ∧
      ∃ (C B : Mat Exact D D) (inverted : Bool),
        ModelM.derived.answer s = .ok ⟨⟨D, Vec.ofReal (Sample.mean xs), C⟩, ⟨B, inverted⟩⟩ ∧
        (xs.length ≤ D → B = Mat.identity D ∧ inverted = false) ∧
        (2 ≤ xs.length → ∃ A : Matrix (Fin D) (Fin D) ℝ,
          C = Mat.ofReal A ∧ A.rank ≤ xs.length - 1) ∧
        (inverted = true → D < s.model.count) := by
  obtain ⟨B, inverted, hderivation, hB⟩ := hlearned.exists_derivation hxs hD
  have hcount := hlearned.count_eq hxs
  have hfew : xs.length ≤ D → B = 1 ∧ inverted = false := fun hle =>
    hB.of_not_isUnit (Sample.not_isUnit_covariance hxs hle)
  refine ⟨hcount, (Moments.ofSample xs).covariance, Mat.ofReal B, inverted, ?_, ?_, ?_, ?_⟩
  · exact (ModelM.yields_derived s).answer_eq.trans hderivation
  · intro hle
    obtain ⟨rfl, hinverted⟩ := hfew hle
    exact ⟨(Mat.identity_eq_ofReal D).symm, hinverted⟩
  · intro htwo
    exact ⟨_, Moments.covariance_ofSample htwo, Sample.rank_covariance_le hxs⟩
  · intro hinverted
    rw [hcount]
    by_contra hle
    rw [(hfew (not_lt.mp hle)).2] at hinverted
    cases hinverted

end

/-- Three vectors of three components, and a limit that lets every condition number pass. -/
theorem few_vectors_score_by_identity_of_three :
    let xs : List (Fin 3 → ℝ) := [![1, 2, 0], ![3, 5, 1], ![2, 2, 7]]
    let m : Model Exact := ⟨3, by decide, .nearest, Scalar.inf, .ofLength 3 (.ofSample xs), none⟩
    ∃ C, ModelM.derived.answer m.start =
      .ok ⟨⟨3, Vec.ofReal (Sample.mean xs), C⟩, ⟨Mat.identity 3, false⟩⟩ := by
  intro xs m
  have hxs : xs ≠ [] := by simp [xs]
  have hlearned : m.Learned (xs.map Exact.ofReals) :=
    ⟨Statistics.ofVectors_ofReals hxs, fun d hd => by cases hd⟩
  obtain ⟨-, C, B, inverted, hanswer, hfew, -⟩ :=
    few_vectors_score_by_identity (s := m.start) (show 0 < 3 by decide) hxs hlearned
  obtain ⟨rfl, rfl⟩ := hfew le_rfl
  exact ⟨C, hanswer⟩

section

variable [LinearAlgebra Exact] [LawfulInverse] {D : ℕ}

/-- The identity stands in for the inverse, the components of the mean add up to `total`, and each
row and each column of the covariance adds up to nothing. -/
def Session.ScoresEuclidean (s : Session Exact) (D : ℕ) (total : ℝ) : Prop :=
  ∃ (mean : Fin D → ℝ) (C : Mat Exact D D),
    ModelM.derived.answer s = .ok ⟨⟨D, Vec.ofReal mean, C⟩, ⟨Mat.identity D, false⟩⟩ ∧
    ∑ i, mean i = total ∧
    (2 ≤ s.model.count → ∃ A : Matrix (Fin D) (Fin D) ℝ,
      C = Mat.ofReal A ∧ (∀ i, ∑ j, A i j = 0) ∧ ∀ j, ∑ i, A i j = 0) ∧
    ∀ v : Fin D → ℝ, (ModelM.score (Exact.ofReals v)).answer s =
      .ok ((∑ i, (v i - mean i) ^ 2 : ℝ) : Exact)

theorem Model.Learned.scoresEuclidean {s : Session Exact} {xs : List (Fin D → ℝ)} {c : ℝ}
    (hlearned : s.model.Learned (xs.map Exact.ofReals)) (hD : 0 < D) (hxs : xs ≠ [])
    (h : ∀ x ∈ xs, ∑ i, x i = c) : s.ScoresEuclidean D c := by
  obtain ⟨B, inverted, hderivation, hB⟩ := hlearned.exists_derivation hxs hD
  have hones := Sample.covariance_mulVec_one h
  obtain ⟨rfl, rfl⟩ := hB.of_not_isUnit (not_isUnit_of_mulVec_one hD hones)
  have hrow : ∀ i, ∑ j, Sample.covariance xs i j = 0 := fun i => by
    simpa [mulVec, dotProduct_one] using congrFun hones i
  refine ⟨Sample.mean xs, (Moments.ofSample xs).covariance, ?_, Sample.sum_mean hxs h, ?_, ?_⟩
  · rw [Mat.identity_eq_ofReal]
    exact (ModelM.yields_derived s).answer_eq.trans hderivation
  · intro hcount
    rw [hlearned.count_eq hxs] at hcount
    refine ⟨_, Moments.covariance_ofSample hcount, hrow, fun j => ?_⟩
    simpa only [(Sample.isSymm_covariance xs).apply] using hrow j
  · intro v
    refine (ModelM.yields_score _ s).answer_eq.trans ?_
    rw [Model.score_of_derivation hderivation, one_mulVec]
    simp only [dotProduct, Pi.sub_apply, pow_two]

end

/-- What a model learns from images only has components that add up to one. -/
theorem Session.exists_learned_of_images [LinearAlgebra Exact] {samples : ℤ}
    {sampler : Sampler Exact} {limit : Exact} {m : Model Exact}
    (hm : Model.create samples sampler limit = .ok m) {requests : List (Request Exact)}
    (himages : ∀ request ∈ requests, ∀ v, request ≠ .updateVector v)
    (htrained : (m.start.after requests).model.isTrained = true) :
    ∃ (D : ℕ) (xs : List (Fin D → ℝ)), 0 < D ∧ xs ≠ [] ∧
      (m.start.after requests).model.Learned (xs.map Exact.ofReals) ∧ ∀ x ∈ xs, ∑ i, x i = 1 := by
  have hlearned := learned_after hm requests
  have hprofiles : ∀ v ∈ ((Reference.start samples.toNat sampler limit).after requests).accepted,
      ∃ window : Window Exact, normalize window.samples = .ok v := by
    refine Reference.forall_accepted_after (fun request hrequest v hlesson => ?_)
      (List.forall_mem_nil _)
    rcases hlesson with rfl | ⟨image, line, rfl, hv⟩
    · exact absurd rfl (himages _ hrequest v)
    · obtain ⟨window, -, hnormalize⟩ := bind_eq_ok.mp hv
      exact ⟨window, hnormalize⟩
  generalize ((Reference.start samples.toNat sampler limit).after requests).accepted = vectors at *
  obtain ⟨first, rest, hcons⟩ := List.exists_cons_of_ne_nil (hlearned.ne_nil htrained)
  have hfirst : first ∈ vectors := hcons ▸ List.mem_cons_self
  have hdimension := Statistics.dimension?_of_mem hlearned.statistics
  have hreal : ∀ v ∈ vectors, ∃ x : Fin first.length → ℝ, v = Exact.ofReals x ∧ ∑ i, x i = 1 := by
    intro v hv
    obtain ⟨window, hnormalize⟩ := hprofiles v hv
    have hlength := Option.some.inj ((hdimension v hv).symm.trans (hdimension first hfirst))
    exact exists_ofReals_of_normalize hnormalize ((length_normalize hnormalize).symm.trans hlength)
  choose! x hx hone using hreal
  have hvectors : (vectors.map x).map Exact.ofReals = vectors := by
    rw [List.map_map]
    exact (List.map_congr_left fun v hv => (hx v hv).symm).trans (List.map_id vectors)
  refine ⟨first.length, vectors.map x, ?_, ?_, hvectors.symm ▸ hlearned, ?_⟩
  · obtain ⟨window, hnormalize⟩ := hprofiles first hfirst
    rw [length_normalize hnormalize]
    exact List.length_pos_of_ne_nil (ne_nil_of_normalize hnormalize)
  · exact List.map_eq_nil_iff.not.mpr (hlearned.ne_nil htrained)
  · exact List.forall_mem_map.mpr hone

/-- Vectors with the same sum of components make a model score by Euclidean distances, and models
that have learned from images only are such. -/
theorem equal_sums_score_euclidean [LinearAlgebra Exact] [LawfulInverse] :
    (∀ (s : Session Exact) (D : ℕ) (xs : List (Fin D → ℝ)) (c : ℝ), 0 < D → xs ≠ [] →
      s.model.Learned (xs.map Exact.ofReals) → (∀ x ∈ xs, ∑ i, x i = c) →
      s.ScoresEuclidean D c) ∧
    ∀ (samples : ℤ) (sampler : Sampler Exact) (limit : Exact) (m : Model Exact)
      (requests : List (Request Exact)), Model.create samples sampler limit = .ok m →
      (∀ request ∈ requests, ∀ v, request ≠ .updateVector v) →
      (m.start.after requests).model.isTrained = true →
      ∃ D, 0 < D ∧ (m.start.after requests).ScoresEuclidean D 1 := by
  constructor
  · intro s D xs c hD hxs hlearned hsums
    exact hlearned.scoresEuclidean hD hxs hsums
  · intro samples sampler limit m requests hm himages htrained
    obtain ⟨D, xs, hD, hxs, hlearned, hsums⟩ := Session.exists_learned_of_images hm himages htrained
    exact ⟨D, hD, hlearned.scoresEuclidean hD hxs hsums⟩

noncomputable def Raster.pixel (a b : ℝ) : Raster Exact :=
  ⟨[1, 1, 2], fun index => if index.getD 2 0 = 0 then a else b⟩

theorem Sampler.profile_pixel {a b : ℝ} (h : a + b ≠ 0) (line : Line Exact) :
    nearest.profile (.pixel a b) line 1 = .ok (Exact.ofReals ![a / (a + b), b / (a + b)]) := by
  have hbands := Raster.bands_of_three (r := .pixel a b) rfl
  have hsamples : ∀ band ∈ (List.range 2).map (Raster.pixel a b).atThird,
      nearest.samples line band 1 = .ok [band.cell [0, 0]] := by
    intro band hband
    obtain ⟨i, -, rfl⟩ := List.mem_map.mp hband
    rw [samples_nearest (Raster.planar_of_extents rfl) (by decide),
      if_neg (Plane.not_isEmpty Nat.one_pos Nat.one_pos)]
    rfl
  obtain ⟨w, hw, -, hwbands⟩ := window_eq_ok hbands (by simp) hsamples fun _ _ => rfl
  have hpixels : w.samples = [a, b].map Exact.finite := by
    rw [Window.samples, hwbands]
    rfl
  rw [profile, hw, ok_bind, hpixels, normalize_finite (by simpa using h)]
  simp [Exact.ofReals, List.ofFn_succ]

/-- A model that learns two different pixels, and one that learns vectors whose sums are five. -/
theorem equal_sums_score_euclidean_of_two :
    let line : Line Exact := ⟨⟨0, 0⟩, ⟨0, 0⟩⟩
    let requests : List (Request Exact) :=
      [.update (.pixel 1 3) line, .setLimit Scalar.inf, .update (.pixel 3 1) line]
    let xs : List (Fin 2 → ℝ) := [![1, 4], ![2, 3], ![5, 0]]
    (∃ m : Model Exact, Model.create 1 .nearest 1 = .ok m ∧
      ∃ D, 0 < D ∧ (m.start.after requests).ScoresEuclidean D 1) ∧
    (Model.start ⟨1, by decide, .nearest, 1, .ofLength 2 (.ofSample xs), none⟩).ScoresEuclidean
      2 5 := by
  intro line requests xs
  obtain ⟨hsums, himages⟩ := equal_sums_score_euclidean
  constructor
  · obtain ⟨m, hm⟩ : ∃ m : Model Exact, Model.create 1 .nearest 1 = .ok m := ⟨_, rfl⟩
    refine ⟨m, hm, himages 1 .nearest 1 m requests hm ?_ ?_⟩
    · intro request hrequest v
      simp only [requests, List.mem_cons, List.not_mem_nil, or_false] at hrequest
      rcases hrequest with rfl | rfl | rfl <;> nofun
    · cases hm
      have hprofile := Sampler.profile_pixel (show (1 : ℝ) + 3 ≠ 0 by norm_num) line
      have hsettled := Session.dimension?_after_cons (r := .update (.pixel 1 3) line)
        (s := Model.start ⟨1, by decide, .nearest, 1, .empty, none⟩) (congrArg some hprofile) rfl
        requests.tail
      rw [← Session.isSome_dimension?_after rfl requests]
      exact Option.isSome_of_eq_some hsettled
  · have hxs : xs ≠ [] := by simp [xs]
    refine hsums _ 2 xs 5 (by decide) hxs
      ⟨Statistics.ofVectors_ofReals hxs, fun d hd => by cases hd⟩ fun x hx => ?_
    simp only [xs, List.mem_cons, List.not_mem_nil, or_false] at hx
    rcases hx with rfl | rfl | rfl <;> norm_num

end Transect
