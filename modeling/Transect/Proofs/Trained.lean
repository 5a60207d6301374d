import Transect.Proofs.Pointwise
import Transect.Proofs.Reference
import Transect.Proofs.Welford

/-!
# Trained models

Whatever has been asked of a model and whenever its limit was changed, what it scores with is worked
out from the vectors that it has accepted. The score of a profile is then a distance from their
mean: it is never negative, and it vanishes at the mean only, whether or not the covariance could be
inverted.
-/
namespace Transect
open Matrix

section

variable {α : Type} [Scalar α] [LinearAlgebra α]

def Statistics.derive (statistics : Statistics α) (limit : α) :
    Except (Failure α) (Derived α) := do
  let estimate ← statistics.estimate
  let inversion ← estimate.covariance.invert limit
  return { estimate with inversion }

/-- What has been kept was derived from the statistics of these vectors, at some limit. -/
structure Model.Learned (m : Model α) (vectors : List (List α)) : Prop where
  statistics : Statistics.ofVectors vectors = .ok m.statistics
  kept : ∀ d, m.derived? = some d → ∃ limit, m.statistics.derive limit = .ok d

def Session.after : Session α → List (Request α) → Session α
  | s, [] => s
  | s, request :: rest =>
    match request.run.run s with
    | .ok _ t | .error _ t => t.after rest

def Reference.after (r : Reference α) (requests : List (Request α)) : Reference α :=
  requests.foldl (fun r request => (r.serve request).2) r

variable {r : Reference α} {m : Model α} {s : Session α} {vectors : List (List α)}

theorem Simulates.after (h : Simulates r s.model) (requests : List (Request α)) :
    Simulates (r.after requests) (s.after requests).model := by
  -- On the requests: both agree again after the first one, whether or not it fails.
  induction requests generalizing r s with
  | nil => exact h
  | cons request rest ih =>
    obtain ⟨t, hnext, hrun⟩ := h.serves request
    have hafter : s.after (request :: rest) = t.after rest := by
      cases hanswer : (r.serve request).1 <;> simp [Session.after, hrun, hanswer, ModelM.ending]
    rw [hafter]
    exact ih hnext

theorem Simulates.learned (h : Simulates r m) : m.Learned r.accepted := by
  refine ⟨h.statistics, fun d hd => ?_⟩
  rcases h.derived with ⟨hnone, -⟩ | ⟨d', limit, hkept, hsettled, hderive⟩
  · rw [hnone] at hd
    cases hd
  · rw [hkept] at hd
    cases hd
    refine ⟨limit, ?_⟩
    rw [← hderive]
    simp [Statistics.derive, Reference.derive, h.statistics, Reference.limitInForce, hsettled]

theorem learned_after {samples : Int} {sampler : Sampler α} {limit : α}
    (h : Model.create samples sampler limit = .ok m) (requests : List (Request α)) :
    (m.start.after requests).model.Learned
      ((Reference.start samples.toNat sampler limit).after requests).accepted :=
  ((simulates_start h).after requests).learned

namespace Model.Learned

theorem derivation_eq (h : m.Learned vectors) :
    ∃ limit, m.derivation = m.statistics.derive limit := by
  cases hd : m.derived? with
  | none => exact ⟨m.conditionLimit, by simp only [derivation, hd]; rfl⟩
  | some d =>
    obtain ⟨limit, hlimit⟩ := h.kept d hd
    exact ⟨limit, by simp only [derivation, hd, hlimit]⟩

theorem ne_nil (h : m.Learned vectors) (htrained : m.isTrained = true) :
    vectors ≠ [] := by
  rintro rfl
  rw [isTrained, count, ← Except.ok.inj h.statistics] at htrained
  cases htrained

end Model.Learned
end

namespace Sample

variable {D : ℕ}

theorem posSemidef_comoment (xs : List (Fin D → ℝ)) : (comoment xs).PosSemidef := by
  apply List.sum_induction _ fun _ _ => PosSemidef.add
  · exact PosSemidef.zero
  · intro A hA
    obtain ⟨x, -, rfl⟩ := List.mem_map.mp hA
    exact posSemidef_vecMulVec_self_star (x - mean xs)

theorem posSemidef_covariance {xs : List (Fin D → ℝ)} (h : xs ≠ []) :
    (covariance xs).PosSemidef := by
  have hlength : 1 ≤ xs.length := List.length_pos_of_ne_nil h
  have hcast : (1 : ℝ) ≤ xs.length := by exact_mod_cast hlength
  exact (posSemidef_comoment xs).smul (inv_nonneg.mpr (by linarith))

end Sample

theorem Exact.ofReals_inj {D : ℕ} {u v : Fin D → ℝ} : ofReals u = ofReals v ↔ u = v := by
  rw [ofReals, ofReals, List.ofFn_inj]
  constructor
  · intro h
    funext i
    exact Exact.coe_inj.mp (congrFun h i)
  · rintro rfl
    rfl

theorem Exact.exists_ofReals {D : ℕ} {ys : List ℝ} (h : ys.length = D) :
    ∃ v : Fin D → ℝ, ys.map finite = ofReals v ∧ ∑ i, v i = ys.sum := by
  subst h
  exact ⟨ys.get, by simp [ofReals, ← List.ofFn_getElem_eq_map], Fin.sum_univ_getElem ys⟩

theorem normalize_eq_ok {samples profile : List Exact} (h : normalize samples = .ok profile) :
    ∃ total : ℝ, total ≠ 0 ∧ samples.sum = total ∧ profile = samples.map (· / (total : Exact)) := by
  unfold normalize divisor at h
  rw [Exact.sum_eq_list_sum] at h
  by_cases hdegenerate : (samples.sum == 0 || !Scalar.isFinite samples.sum) = true
  · rw [if_pos hdegenerate] at h
    cases h
  · rw [if_neg hdegenerate] at h
    rw [Bool.or_eq_true, not_or] at hdegenerate
    obtain ⟨hne, hfinite⟩ := hdegenerate
    obtain ⟨total, htotal⟩ := Exact.exists_coe_of_isFinite (by simpa using hfinite)
    rw [htotal] at h hne
    refine ⟨total, ?_, htotal, (Except.ok.inj h).symm⟩
    rintro rfl
    exact hne (by simp [← Exact.coe_zero])

theorem normalize_eq_error {α : Type} [Scalar α] {samples : List α} {e : Failure α}
    (h : normalize samples = .error e) : ∃ total, e = .degenerateProfile total samples.length := by
  simp only [normalize, divisor] at h
  split at h
  · exact ⟨_, (Except.error.inj h).symm⟩
  · cases h

theorem normalize_finite {ys : List ℝ} (h : ys.sum ≠ 0) :
    normalize (ys.map Exact.finite) = .ok ((ys.map (· / ys.sum)).map Exact.finite) := by
  have hsum : (ys.map Exact.finite).sum = (ys.sum : Exact) := (Exact.coe_list_sum ys).symm
  have hdefined : ¬ (((ys.sum : Exact) == 0) || !Scalar.isFinite (ys.sum : Exact)) = true := by
    simp [← Exact.coe_zero, h]
  rw [normalize, divisor, Exact.sum_eq_list_sum, hsum, if_neg hdefined, ok_bind]
  simp only [List.map_map, Function.comp_def, Exact.coe_div _ h]
  rfl

theorem ne_nil_of_normalize {samples profile : List Exact} (h : normalize samples = .ok profile) :
    samples ≠ [] := by
  obtain ⟨total, hne, hsum, -⟩ := normalize_eq_ok h
  rintro rfl
  exact hne (Exact.coe_inj.mp hsum.symm)

theorem exists_ofReals_of_normalize {D : ℕ} {samples profile : List Exact}
    (h : normalize samples = .ok profile) (hlength : samples.length = D) :
    ∃ v : Fin D → ℝ, profile = Exact.ofReals v ∧ ∑ i, v i = 1 := by
  obtain ⟨total, hne, hsum, rfl⟩ := normalize_eq_ok h
  obtain ⟨ys, rfl⟩ := Exact.exists_coe_of_sum_eq_coe hsum
  rw [← Exact.coe_list_sum, Exact.coe_inj] at hsum
  have hshares : (ys.map Exact.finite).map (· / (total : Exact)) =
      (ys.map (· / total)).map Exact.finite := by
    simp [Exact.coe_div _ hne]
  have hshort : (ys.map (· / total)).length = D := by simpa using hlength
  obtain ⟨v, hv, htotal⟩ := Exact.exists_ofReals hshort
  refine ⟨v, hshares.trans hv, ?_⟩
  simp only [htotal, div_eq_mul_inv, List.sum_map_mul_right, List.map_id', hsum]
  exact mul_inv_cancel₀ hne

theorem posDef_form {D : ℕ} {B : Matrix (Fin D) (Fin D) ℝ} (hB : B.PosDef) (v : Fin D → ℝ) :
    0 ≤ v ⬝ᵥ B *ᵥ v ∧ (v ⬝ᵥ B *ᵥ v = 0 ↔ v = 0) := by
  by_cases hv : v = 0
  · simp [hv]
  · have hpos : 0 < v ⬝ᵥ B *ᵥ v := by simpa using hB.dotProduct_mulVec_pos hv
    exact ⟨hpos.le, iff_of_false hpos.ne' hv⟩

section

variable [LinearAlgebra Exact] [LawfulInverse] {D : ℕ} {xs : List (Fin D → ℝ)}

omit [LawfulInverse] in
theorem Mat.invert_of_not_finite {A : Mat Exact D D} (h : ¬ A.isFinite = true) (limit : Exact) :
    A.invert limit = .ok (.fallback D) := by
  rw [invert, if_pos (by simpa using h)]

omit [LawfulInverse] in
/-- The covariance of a single vector is undefined, and the identity stands in for its inverse. -/
theorem Mat.invert_nan (hD : 0 < D) (limit : Exact) :
    (Mat.ofFn fun _ _ => Scalar.nan : Mat Exact D D).invert limit = .ok (.fallback D) := by
  refine invert_of_not_finite (fun h => ?_) limit
  have hrow := Vector.all_eq_true.mp h 0 hD
  have hcell := Vector.all_eq_true.mp hrow 0 hD
  simp [Mat.ofFn] at hcell

/-- What stands in for the inverse of the covariance, for a single vector too. -/
theorem Moments.invert_covariance (hxs : xs ≠ []) (hD : 0 < D) (limit : Exact) :
    ∃ B inverted, (ofSample xs).covariance.invert limit = .ok ⟨Mat.ofReal B, inverted⟩ ∧
      StandsIn (Sample.covariance xs) B inverted := by
  by_cases hlength : 2 ≤ xs.length
  · rw [covariance_ofSample hlength]
    exact Mat.invert_ofReal hD (Sample.covariance xs) limit
  · have hone : (ofSample xs).count = 1 := by
      have hpos := List.length_pos_of_ne_nil hxs
      simp only [ofSample]
      omega
    refine ⟨1, false, ?_, Or.inr ⟨rfl, rfl⟩⟩
    rw [covariance, if_pos hone, Mat.invert_nan hD limit, Inversion.fallback,
      Mat.identity_eq_ofReal]

theorem Statistics.derive_ofSample (hxs : xs ≠ []) (hD : 0 < D) (limit : Exact) :
    ∃ B inverted, (ofLength D (.ofSample xs)).derive limit =
        .ok ⟨⟨D, Vec.ofReal (Sample.mean xs), (Moments.ofSample xs).covariance⟩,
          ⟨Mat.ofReal B, inverted⟩⟩ ∧
      StandsIn (Sample.covariance xs) B inverted := by
  obtain ⟨B, inverted, hinvert, hB⟩ := Moments.invert_covariance hxs hD limit
  refine ⟨B, inverted, ?_, hB⟩
  simp only [derive, estimate, ok_bind, hinvert]
  rfl

/-- The score of samples that a model gives: infinite if they cannot be normalized, and otherwise a
number that vanishes at the mean only. -/
def Model.Rates (m : Model Exact) (mean : Fin D → ℝ) (samples : List Exact)
    (x : Exact) : Prop :=
  match normalize samples with
  | .ok profile => m.scorer.score profile = .ok x ∧
      ∃ r : ℝ, x = r ∧ 0 ≤ r ∧ (r = 0 ↔ profile = Exact.ofReals mean)
  | .error _ => x = Scalar.inf

omit [LawfulInverse] in
theorem Model.score_of_derivation {m : Model Exact} {mean : Fin D → ℝ} {C : Mat Exact D D}
    {B : Matrix (Fin D) (Fin D) ℝ} {inverted : Bool}
    (h : m.derivation = .ok ⟨⟨D, Vec.ofReal mean, C⟩, ⟨Mat.ofReal B, inverted⟩⟩)
    (v : Fin D → ℝ) :
    m.scorer.score (Exact.ofReals v) = .ok ((v - mean) ⬝ᵥ B *ᵥ (v - mean) : ℝ) := by
  simp only [Scorer.score, Model.scorer, h, ok_bind, Derived.distance, Exact.length_ofReals,
    dite_true, Vec.ofList_ofReals, Vec.sub_ofReal, Mat.form_ofReal]

namespace Model.Learned

variable {m : Model Exact}

omit [LawfulInverse] in
theorem statistics_eq (h : m.Learned (xs.map Exact.ofReals)) (hxs : xs ≠ []) :
    m.statistics = .ofLength D (.ofSample xs) := by
  have hvectors := h.statistics
  rw [Statistics.ofVectors_ofReals hxs] at hvectors
  exact (Except.ok.inj hvectors).symm

omit [LawfulInverse] in
theorem count_eq (h : m.Learned (xs.map Exact.ofReals)) (hxs : xs ≠ []) :
    m.count = xs.length := by
  rw [Model.count, h.statistics_eq hxs]
  rfl

theorem exists_derivation (h : m.Learned (xs.map Exact.ofReals)) (hxs : xs ≠ []) (hD : 0 < D) :
    ∃ B inverted, m.derivation =
        .ok ⟨⟨D, Vec.ofReal (Sample.mean xs), (Moments.ofSample xs).covariance⟩,
          ⟨Mat.ofReal B, inverted⟩⟩ ∧
      StandsIn (Sample.covariance xs) B inverted := by
  obtain ⟨limit, hlimit⟩ := h.derivation_eq
  rw [hlimit, h.statistics_eq hxs]
  exact Statistics.derive_ofSample hxs hD limit

/-- A trained model scores every profile of the right length, with zero at the mean only. -/
theorem score_ofReals (h : m.Learned (xs.map Exact.ofReals)) (hxs : xs ≠ []) (hD : 0 < D)
    (v : Fin D → ℝ) :
    ∃ r : ℝ, m.scorer.score (Exact.ofReals v) = .ok r ∧ 0 ≤ r ∧ (r = 0 ↔ v = Sample.mean xs) := by
  obtain ⟨B, inverted, hderivation, hB⟩ := h.exists_derivation hxs hD
  have hdefinite := hB.posDef (Sample.posSemidef_covariance hxs)
  obtain ⟨hnonneg, hzero⟩ := posDef_form hdefinite (v - Sample.mean xs)
  exact ⟨_, score_of_derivation hderivation v, hnonneg, hzero.trans sub_eq_zero⟩

theorem score_normalize (h : m.Learned (xs.map Exact.ofReals)) (hxs : xs ≠ [])
    {samples profile : List Exact} (hprofile : normalize samples = .ok profile)
    (hlength : samples.length = D) :
    ∃ r : ℝ, m.scorer.score profile = .ok r ∧ 0 ≤ r ∧
      (r = 0 ↔ profile = Exact.ofReals (Sample.mean xs)) := by
  obtain ⟨v, rfl, -⟩ := exists_ofReals_of_normalize hprofile hlength
  have hD : 0 < D := by
    rw [← hlength]
    exact List.length_pos_of_ne_nil (ne_nil_of_normalize hprofile)
  obtain ⟨r, hr, hnonneg, hzero⟩ := h.score_ofReals hxs hD v
  exact ⟨r, hr, hnonneg, hzero.trans Exact.ofReals_inj.symm⟩

theorem exists_scoreOffset (h : m.Learned (xs.map Exact.ofReals)) (hxs : xs ≠ [])
    {w : Window Exact} (hD : w.bands.length * m.footprint = D) {i : ℕ}
    (hi : i + m.footprint ≤ w.length) :
    ∃ x, m.scorer.scoreOffset w i = .ok x ∧
      m.Rates (Sample.mean xs) (w.part m.footprint i) x := by
  have hlength : (w.part m.footprint i).length = D := (w.length_part hi).trans hD
  have hfootprint : m.scorer.footprint = m.footprint := rfl
  unfold Rates
  rw [Scorer.scoreOffset_eq_match, hfootprint]
  cases hprofile : normalize (w.part m.footprint i) with
  | error e => exact ⟨Scalar.inf, rfl, rfl⟩
  | ok profile =>
    obtain ⟨r, hr, hnonneg, hzero⟩ := h.score_normalize hxs hprofile hlength
    exact ⟨r, hr, hr, r, rfl, hnonneg, hzero⟩

theorem exists_scoreWindow (h : m.Learned (xs.map Exact.ofReals)) (hxs : xs ≠ [])
    {w : Window Exact} (hD : w.bands.length * m.footprint = D) (hw : m.footprint ≤ w.length) :
    ∃ scores, m.scorer.scoreWindow w = .ok scores ∧
      scores.length = w.length - m.footprint + 1 ∧
      ∀ i, i + m.footprint ≤ w.length → ∃ x, scores[i]? = some x ∧
        m.Rates (Sample.mean xs) (w.part m.footprint i) x := by
  have hfootprint : m.scorer.footprint = m.footprint := rfl
  choose! score hscore hrates using fun i => h.exists_scoreOffset hxs hD (i := i)
  have hall : ∀ i ∈ List.range (w.length - m.footprint + 1),
      m.scorer.scoreOffset w i = .ok (score i) := by
    intro i hi
    rw [List.mem_range] at hi
    exact hscore i (by omega)
  refine ⟨(List.range (w.length - m.footprint + 1)).map score, ?_, by simp, fun i hi => ?_⟩
  · rw [Scorer.scoreWindow, hfootprint, if_neg (by omega), mapM_eq_ok hall]
  · have hlt : i < w.length - m.footprint + 1 := by omega
    exact ⟨score i, by simp [hlt], hrates i hi⟩

theorem rates_of_scoreWindow (h : m.Learned (xs.map Exact.ofReals)) (hxs : xs ≠ [])
    {w : Window Exact} (hD : w.bands.length * m.footprint = D) {scores : List Exact}
    (hscores : m.scorer.scoreWindow w = .ok scores) {i : ℕ} {x : Exact} (hx : scores[i]? = some x) :
    i + m.footprint ≤ w.length ∧ m.Rates (Sample.mean xs) (w.part m.footprint i) x := by
  have hw : m.footprint ≤ w.length := (Scorer.length_scores hscores).1
  obtain ⟨rated, hrated, hlength, hall⟩ := h.exists_scoreWindow hxs hD hw
  have hsame : rated = scores := Except.ok.inj (hrated.symm.trans hscores)
  have hi := (List.getElem?_eq_some_iff.mp hx).1
  rw [hsame] at hlength hall
  obtain ⟨y, hy, hrates⟩ := hall i (by omega)
  rw [Option.some.inj (hx.symm.trans hy)]
  exact ⟨by omega, hrates⟩

end Model.Learned
end

end Transect
