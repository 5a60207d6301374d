import Transect.Proofs.NonnegativeSamples
import Transect.Proofs.SafeInverses
import Transect.Proofs.SingularCovariances

/-!
# Costs of shares

Profiles of samples that are not negative are shares of a whole, and so is the mean of such
profiles. A model that has learned nothing else scores by squared Euclidean distances, and two
points of the simplex are no further apart than the root of two. So two is the worst of all costs,
and a score that is not between zero and two is the infinite one of a window whose samples are all
zero.
-/
namespace Transect
open Matrix

namespace Sample

variable {D : ℕ} {xs : List (Fin D → ℝ)}

theorem mean_append_eq (xs : List (Fin D → ℝ)) (x : Fin D → ℝ) :
    mean (xs ++ [x]) =
      (1 - ((xs.length : ℝ) + 1)⁻¹) • mean xs + ((xs.length : ℝ) + 1)⁻¹ • x := by
  funext i
  simp only [mean_append, Pi.add_apply, Pi.smul_apply, smul_eq_mul]
  ring

theorem mean_mem {S : Set (Fin D → ℝ)} (hS : Convex ℝ S) (hxs : xs ≠ []) (h : ∀ x ∈ xs, x ∈ S) :
    mean xs ∈ S := by
  induction xs using List.reverseRecOn with
  | nil => exact absurd rfl hxs
  | append_singleton before x ih =>
    obtain ⟨hbefore, hx⟩ := List.forall_mem_append.mp h
    have hx := List.forall_mem_singleton.mp hx
    by_cases hfirst : before = []
    · subst hfirst
      simpa [mean] using hx
    · have hshare : ((before.length : ℝ) + 1)⁻¹ ≤ 1 :=
        inv_le_one_of_one_le₀ (le_add_of_nonneg_left (Nat.cast_nonneg _))
      rw [mean_append_eq]
      exact hS (ih hfirst hbefore) hx (sub_nonneg.mpr hshare) (by positivity)
        (sub_add_cancel _ _)

end Sample

theorem sum_sq_sub_le_two {D : ℕ} {u v : Fin D → ℝ} (hu : u ∈ stdSimplex ℝ (Fin D))
    (hv : v ∈ stdSimplex ℝ (Fin D)) : ∑ i, (u i - v i) ^ 2 ≤ 2 := by
  have hterm (i : Fin D) : (u i - v i) ^ 2 ≤ u i + v i := by
    obtain ⟨hu₀, hu₁⟩ := mem_Icc_of_mem_stdSimplex hu i
    obtain ⟨hv₀, hv₁⟩ := mem_Icc_of_mem_stdSimplex hv i
    nlinarith
  calc ∑ i, (u i - v i) ^ 2 ≤ ∑ i, (u i + v i) := Finset.sum_le_sum fun i _ => hterm i
    _ = 2 := by
      rw [Finset.sum_add_distrib, hu.2, hv.2]
      norm_num

section

variable [LinearAlgebra Exact] {D : ℕ} {xs : List (Fin D → ℝ)}

theorem Session.exists_learned_of_shares {samples : ℤ} {sampler : Sampler Exact} {limit : Exact}
    {m : Model Exact} (hm : Model.create samples sampler limit = .ok m)
    {operations : List (Operation Exact)}
    (hshares : ∀ v ∈ m.start.accepted operations,
      ∃ D, ∃ x ∈ stdSimplex ℝ (Fin D), v = Exact.ofReals x)
    {D : ℕ} (hD : (m.start.through operations).model.statistics.dimension? = some D) :
    ∃ xs : List (Fin D → ℝ), 0 < D ∧ xs ≠ [] ∧
      (m.start.through operations).model.Learned (xs.map Exact.ofReals) ∧
      ∀ x ∈ xs, x ∈ stdSimplex ℝ (Fin D) := by
  have hlearned := learned_of_create hm operations
  generalize m.start.accepted operations = vectors at hshares hlearned
  have hne : vectors ≠ [] := by
    rintro rfl
    rw [← Except.ok.inj hlearned.statistics] at hD
    cases hD
  have hreal : ∀ v ∈ vectors, ∃ x ∈ stdSimplex ℝ (Fin D), v = Exact.ofReals x := by
    intro v hv
    obtain ⟨E, x, hx, rfl⟩ := hshares v hv
    have hlength := Statistics.dimension?_of_mem hlearned.statistics _ hv
    rw [hD, Exact.length_ofReals] at hlength
    cases hlength
    exact ⟨x, hx, rfl⟩
  choose! x hx hv using hreal
  have hvectors : (vectors.map x).map Exact.ofReals = vectors := by
    rw [List.map_map]
    exact (List.map_congr_left fun v h => (hv v h).symm).trans (List.map_id vectors)
  obtain ⟨v, hmem⟩ := List.exists_mem_of_ne_nil vectors hne
  refine ⟨vectors.map x, ?_, List.map_eq_nil_iff.not.mpr hne, hvectors.symm ▸ hlearned,
    List.forall_mem_map.mpr hx⟩
  -- Without components there is nothing that adds up to one.
  apply Nat.pos_of_ne_zero
  rintro rfl
  have hone := (hx v hmem).2
  simp at hone

variable [LawfulInverse]

theorem Model.Learned.score_shares {s : Session Exact} (h : s.model.Learned (xs.map Exact.ofReals))
    (hD : 0 < D) (hxs : xs ≠ []) (hshares : ∀ x ∈ xs, x ∈ stdSimplex ℝ (Fin D)) {v : Fin D → ℝ}
    (hv : v ∈ stdSimplex ℝ (Fin D)) :
    ∃ r : ℝ, s.model.scorer.score (Exact.ofReals v) = .ok r ∧ 0 ≤ r ∧ r ≤ 2 := by
  obtain ⟨mean, C, hderived, -, -, hscore⟩ := h.scoresEuclidean hD hxs fun x hx => (hshares x hx).2
  obtain ⟨B, inverted, hderivation, -⟩ := h.exists_derivation hxs hD
  obtain rfl : mean = Sample.mean xs := by
    have hsame := Except.ok.inj
      (hderived.symm.trans ((ModelM.yields_derived s).answer_eq.trans hderivation))
    injection hsame with hestimate
    injection hestimate with _ hmean
    exact Vec.ofReal_inj.mp hmean
  have hmean := Sample.mean_mem (convex_stdSimplex ℝ (Fin D)) hxs hshares
  exact ⟨_, (ModelM.yields_score _ s).answer_eq.symm.trans (hscore v),
    Finset.sum_nonneg fun i _ => sq_nonneg _, sum_sq_sub_le_two hv hmean⟩

/-- Windows of samples that are not negative are scored with numbers up to two, and with infinity
where all samples are zero. -/
theorem Model.Learned.scores_shares {s : Session Exact} (h : s.model.Learned (xs.map Exact.ofReals))
    (hD : 0 < D) (hxs : xs ≠ []) (hshares : ∀ x ∈ xs, x ∈ stdSimplex ℝ (Fin D))
    {w : Window Exact} (hw : w.bands.length * s.model.footprint = D)
    (hle : s.model.footprint ≤ w.length)
    (hnonneg : ∀ i, Exact.AllIn (Set.Ici 0) (w.part s.model.footprint i)) :
    ∃ scores, s.model.scorer.scoreWindow w = .ok scores ∧
      scores.length = w.length - s.model.footprint + 1 ∧
      ∀ (i : ℕ) (x : Exact), scores[i]? = some x →
        (x = Scalar.inf ↔ ∀ y ∈ w.part s.model.footprint i, y = 0) ∧
        (x = Scalar.inf ∨ ∃ r : ℝ, x = r ∧ 0 ≤ r ∧ r ≤ 2) := by
  obtain ⟨scores, hscores, hlength, -⟩ := h.exists_scoreWindow hxs hw hle
  refine ⟨scores, hscores, hlength, fun i x hx => ?_⟩
  obtain ⟨hi, hoffset⟩ := Scorer.of_scoreWindow_eq_ok hscores hx
  have hpart : (w.part s.model.footprint i).length = D := (w.length_part hi).trans hw
  obtain ⟨hzero, hsome⟩ := normalize_of_nonneg (hnonneg i) hpart
  by_cases hall : ∀ y ∈ w.part s.model.footprint i, y = 0
  · have hinf : x = Scalar.inf := by
      rw [Scorer.scoreOffset_eq_match, show s.model.scorer.footprint = s.model.footprint from rfl,
        hzero hall] at hoffset
      exact (Except.ok.inj hoffset).symm
    exact ⟨iff_of_true hinf hall, Or.inl hinf⟩
  · obtain ⟨v, hv, hprofile⟩ := hsome hall
    obtain ⟨r, hr, hlow, hhigh⟩ := h.score_shares hD hxs hshares hv
    rw [Scorer.scoreOffset_of_normalize (k := s.model.scorer) hprofile, hr] at hoffset
    have hx : x = r := (Except.ok.inj hoffset).symm
    refine ⟨iff_of_false (fun hinf => ?_) hall, Or.inr ⟨r, hx, hlow, hhigh⟩⟩
    cases hinf.symm.trans hx

end

section

variable {α : Type} [Scalar α] [LinearAlgebra α]

/-- A vector that has been accepted is the profile that some operation asked the model to learn. -/
theorem Model.exists_lesson_of_accepted {m : Model α} {operations : List (Operation α)}
    {v : List α} (hv : v ∈ m.accepted operations) :
    ∃ o ∈ operations, ∃ k : Model α, k.footprint = m.footprint ∧ k.sampler = m.sampler ∧
      o.lesson? k = some (.ok v) := by
  induction operations generalizing m with
  | nil => cases hv
  | cons o rest ih =>
    rcases List.mem_append.mp hv with hv | hv
    · refine ⟨o, List.mem_cons_self, m, rfl, rfl, ?_⟩
      unfold Operation.accepted at hv
      split at hv
      · next profile hlesson =>
        split_ifs at hv with hadd
        · rw [hlesson, List.mem_singleton.mp hv]
        · cases hv
      · cases hv
    · obtain ⟨o', ho', k, hfootprint, hsampler, hlesson⟩ := ih hv
      obtain ⟨hfixed, hsame⟩ := o.fixed_next m
      exact ⟨o', List.mem_cons_of_mem o ho', k, hfootprint.trans hfixed, hsampler.trans hsame,
        hlesson⟩

end

theorem Vec.toList_ofReal {n : ℕ} (v : Fin n → ℝ) : (ofReal v).toList = Exact.ofReals v :=
  Vector.toList_ofFn

theorem Window.length_samples (w : Window Exact) :
    w.samples.length = w.bands.length * w.length := by
  rw [← w.part_zero, w.length_part (by omega)]

/-- A model whose lessons were profiles of images that its sampler admits. All profiles of such
images are shares, and there is a profile unless all samples are zero, which for differences means
that the values that they are taken of are constant. The mean is made of shares, too. The cost of an
image of as many bands is a number up to two, and so is every score of a window, but where all
samples are zero there is no cost and the score is infinite. -/
theorem costs_of_shares [LinearAlgebra Exact] [LawfulInverse] {samples : ℤ} {strategy : Strategy}
    {wraps : ℕ} {limit : Exact} {m : Model Exact}
    (h : Model.create samples (.shipped strategy wraps) limit = .ok m)
    (operations : List (Operation Exact))
    (hlessons : ∀ v ∈ m.start.accepted operations, ∃ image line, strategy.Admits image ∧
      (Sampler.shipped strategy wraps).profile image line m.footprint = .ok v) :
    let sampler : Sampler Exact := .shipped strategy wraps
    let s := m.start.through operations
    let n := s.model.footprint
    let AllZero (xs : List Exact) := ∀ x ∈ xs, x = 0
    (∀ image line count, strategy.Admits image →
      (∀ profile, sampler.profile image line count = .ok profile → AreShares profile) ∧
      ((∃ total length, sampler.profile image line count =
          .error (.degenerateProfile total length)) ↔
        ∃ w, sampler.window image line count = .ok w ∧ AllZero w.samples)) ∧
    (strategy = .derivative → ∀ image line count w bands, strategy.Admits image →
      sampler.window image line count = .ok w → image.bands = .ok bands →
      (AllZero w.samples ↔ ∀ band ∈ bands, ∃ p, band.planar = .ok p ∧ ∃ c,
        ∀ q ∈ (Sampler.innerLine count wraps line).positions (count.toNat + 1),
          p.bilinear q = c)) ∧
    (s.model.isTrained = true →
      ∃ mean, Question.mean.run.answer s = .ok (.numbers mean) ∧ AreShares mean) ∧
    ∀ image line count w, strategy.Admits image → sampler.window image line count = .ok w →
      s.model.statistics.dimension? = some (w.bands.length * n) →
      (count = n →
        (AllZero w.samples → (ModelM.scoreImage image line).answer s =
          .error (.degenerateProfile 0 (w.bands.length * n))) ∧
        (¬ AllZero w.samples → ∃ r : ℝ,
          (ModelM.scoreImage image line).answer s = .ok (r : Exact) ∧ 0 ≤ r ∧ r ≤ 2)) ∧
      (n ≤ count → ∃ scores, (ModelM.scoreWindowImage image line count).answer s = .ok scores ∧
        scores.length = w.length - n + 1 ∧ ∀ (i : ℕ) (x : Exact), scores[i]? = some x →
          (x = Scalar.inf ↔ AllZero (w.part n i)) ∧
          (x = Scalar.inf ∨ ∃ r : ℝ, x = r ∧ 0 ≤ r ∧ r ≤ 2)) := by
  intro sampler s n AllZero
  have hshares : ∀ v ∈ m.start.accepted operations,
      ∃ D, ∃ x ∈ stdSimplex ℝ (Fin D), v = Exact.ofReals x := by
    intro v hv
    obtain ⟨image, line, himage, hprofile⟩ := hlessons v hv
    exact Sampler.exists_of_profile himage hprofile
  have hsampler : s.model.sampler = sampler := by
    rw [Session.model_through]
    exact (m.fixed_through operations).2.trans (Model.of_create h).2.1
  refine ⟨fun image line count himage => ⟨fun profile hprofile => ?_,
    Sampler.profile_degenerate_iff himage⟩, ?_, fun htrained => ?_, ?_⟩
  · obtain ⟨D, v, hv, rfl⟩ := Sampler.exists_of_profile himage hprofile
    exact areShares_ofReals hv
  · rintro rfl image line count w bands himage hw hbands
    exact Sampler.differences_of_window himage.real hw hbands
  · have hstatistics := (Session.learned_of_create h operations).statistics
    have hcount := Statistics.count_ofVectors hstatistics
    have hpos : 0 < s.model.statistics.count := of_decide_eq_true htrained
    obtain ⟨v, hv⟩ := List.exists_mem_of_length_pos (hpos.trans_eq hcount)
    obtain ⟨xs, hD, hxs, hlearned, hmem⟩ := Session.exists_learned_of_shares h hshares
      (Statistics.dimension?_of_mem hstatistics v hv)
    obtain ⟨B, inverted, hderivation, -⟩ := hlearned.exists_derivation hxs hD
    obtain ⟨hmean, -⟩ := Session.answer_of_derivation hderivation
    refine ⟨_, hmean, ?_⟩
    rw [Vec.toList_ofReal]
    exact areShares_ofReals (Sample.mean_mem (convex_stdSimplex ℝ _) hxs hmem)
  · -- The dimension of the model is that of the window, so that its vectors are known as shares.
    intro image line count w himage hw hdimension
    obtain ⟨xs, hD, hxs, hlearned, hmem⟩ := Session.exists_learned_of_shares h hshares hdimension
    obtain ⟨hcount, hlength⟩ := Sampler.length_window_shipped hw
    constructor
    · rintro rfl
      have hwidth : w.samples.length = w.bands.length * n := by
        rw [w.length_samples, hlength, Int.toNat_natCast]
      obtain ⟨hzero, hsome⟩ := Sampler.profile_of_window himage hw hwidth
      have hanswer : (ModelM.scoreImage image line).answer s =
          (sampler.profile image line n >>= s.model.scorer.score) := by
        rw [(ModelM.yields_scoreImage image line s).answer_eq, ← hsampler]
        rfl
      rw [hanswer]
      refine ⟨fun hall => ?_, fun hnot => ?_⟩
      · rw [hzero hall, error_bind]
      · obtain ⟨v, hv, hprofile⟩ := hsome hnot
        rw [hprofile, ok_bind]
        exact hlearned.score_shares hD hxs hmem hv
    · intro hle
      have hwide : n ≤ w.length := by omega
      obtain ⟨scores, hscores, hnumber, hall⟩ := hlearned.scores_shares hD hxs hmem rfl hwide
        (Sampler.part_nonneg himage hw n)
      refine ⟨scores, ?_, hnumber, hall⟩
      rw [← show s.model.scorer.sampler = sampler from hsampler] at hw
      rw [(ModelM.yields_scoreWindowImage image line count s).answer_eq]
      exact (Scorer.scoreWindowImage_of_window hw).trans hscores

theorem Strategy.admits_pixel (strategy : Strategy) {a b : ℝ} (ha : 0 ≤ a) (hb : 0 ≤ b) :
    strategy.Admits (.pixel a b) := by
  refine Or.inl fun x hx => ?_
  have hvalues : (Raster.pixel a b).values = [(a : Exact), (b : Exact)] := rfl
  rw [hvalues, List.mem_cons, List.mem_singleton] at hx
  rcases hx with rfl | rfl
  · exact ⟨a, Set.mem_Ici.mpr ha, rfl⟩
  · exact ⟨b, Set.mem_Ici.mpr hb, rfl⟩

/-- A pixel of two bands is learned, and the cost of another one is asked for. -/
theorem costs_of_shares_of_pixel :
    let line : Line Exact := ⟨⟨0, 0⟩, ⟨0, 0⟩⟩
    let operations : List (Operation Exact) := [.request (.update (.pixel 1 3) line)]
    ∃ m : Model Exact, Model.create 1 (.shipped .nearest 0) 1 = .ok m ∧
      let s := m.start.through operations
      (∃ mean, Question.mean.run.answer s = .ok (.numbers mean) ∧ AreShares mean) ∧
      ∃ r : ℝ, (ModelM.scoreImage (.pixel 3 1) line).answer s = .ok (r : Exact) ∧
        0 ≤ r ∧ r ≤ 2 := by
  intro line operations
  obtain ⟨m, hm⟩ : ∃ m : Model Exact, Model.create 1 (.shipped .nearest 0) 1 = .ok m := ⟨_, rfl⟩
  obtain ⟨hfootprint, hsampler, -, hempty, -⟩ := Model.of_create hm
  have hprofile : m.sampler.profile (.pixel 1 3) line m.footprint =
      .ok (Exact.ofReals ![1 / (1 + 3), 3 / (1 + 3)]) := by
    rw [hsampler, hfootprint]
    exact Sampler.profile_pixel (show (1 : ℝ) + 3 ≠ 0 by norm_num) line
  have haccepted : m.start.accepted operations =
      [Exact.ofReals ![1 / (1 + 3), 3 / (1 + 3)]] := by
    rw [Session.accepted_eq]
    simp only [operations, Model.start, Model.accepted, Operation.accepted, Operation.lesson?,
      Request.lesson?, hprofile, hempty, Statistics.add, List.append_nil]
    rfl
  have hstatistics := (Session.learned_of_create hm operations).statistics
  have hfixed : (m.start.through operations).model.footprint = 1 := by
    rw [Session.model_through]
    exact (m.fixed_through operations).1.trans hfootprint
  obtain ⟨hprofiles, -, hmean, hcosts⟩ := costs_of_shares hm operations fun v hv => by
    rw [Session.accepted_eq] at hv
    obtain ⟨o, ho, k, hk, hsame, hlesson⟩ := Model.exists_lesson_of_accepted hv
    obtain rfl := List.mem_singleton.mp ho
    refine ⟨.pixel 1 3, line, Strategy.admits_pixel _ zero_le_one (by norm_num), ?_⟩
    have hlearned := Option.some.inj hlesson
    rw [hk, hsame] at hlearned
    rw [← hsampler]
    exact hlearned
  have hthree := Strategy.nearest.admits_pixel (show (0 : ℝ) ≤ 3 by norm_num) zero_le_one
  obtain ⟨w, hw, -, hbands⟩ :
      ∃ w, (Sampler.shipped .nearest 0).window (.pixel 3 1) line (1 : ℕ) = .ok w ∧ w.length = 1 ∧
        w.bands.length = 2 :=
    Sampler.exists_window_shipped (Or.inr rfl) Nat.one_pos Nat.one_pos two_pos Nat.one_pos
      (Or.inl rfl) line
  have hdimension : (m.start.through operations).model.statistics.dimension? =
      some (w.bands.length * (m.start.through operations).model.footprint) := by
    rw [Statistics.dimension?_of_mem hstatistics _ (haccepted ▸ List.mem_cons_self), hbands, hfixed]
    rfl
  obtain ⟨hcost, -⟩ := hcosts (.pixel 3 1) line 1 w hthree hw hdimension
  have htrained : (m.start.through operations).model.isTrained = true := by
    have hcount := Statistics.count_ofVectors hstatistics
    rw [haccepted] at hcount
    exact decide_eq_true (Nat.one_pos.trans_eq hcount.symm)
  refine ⟨m, hm, hmean htrained, (hcost (by rw [hfixed]; rfl)).2 fun hall => ?_⟩
  obtain ⟨total, length, hdegenerate⟩ := (hprofiles _ line 1 hthree).2.mpr ⟨w, hw, hall⟩
  cases hdegenerate.symm.trans (Sampler.profile_pixel (show (3 : ℝ) + 1 ≠ 0 by norm_num) line)

end Transect
