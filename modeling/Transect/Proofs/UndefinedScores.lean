import Transect.Proofs.BestPositions
import Transect.Proofs.FlatImages

/-!
# Scores that are undefined

A model that has learned numbers which are not finite may give scores that are not finite. No score
lies below all numbers, so that an infinite one does not win against a number. An undefined one
does: it counts as the least, and as it does not even equal itself, a search does not return the
centre of the line where all scores are undefined alike.
-/
namespace Transect

theorem least_of_undefined {xs : List Exact} {i : ℕ} (h : xs[i]? = some Scalar.nan)
    (hfirst : ∀ j < i, xs[j]? ≠ some Scalar.nan) : least xs = some (i, Scalar.nan) := by
  have hself : ((Scalar.nan : Exact) == Scalar.nan) = false := rfl
  induction xs generalizing i with
  | nil => simp at h
  | cons x rest ih =>
    cases i with
    | zero =>
      obtain rfl : x = Scalar.nan := by simpa using h
      cases hleast : least rest with
      | none => simp [least, hleast]
      | some best => simp [least, hleast, hself]
    | succ i =>
      have hx : (x == x) = true :=
        Exact.beq_self_iff.mpr fun hx => hfirst 0 (Nat.succ_pos i) (by simp [hx])
      have hrest := ih (by simpa using h) fun j hj =>
        by simpa using hfirst (j + 1) (Nat.succ_lt_succ hj)
      simp [least, hrest, hx, hself]

namespace Mat

variable {n : ℕ} (v : Vec Exact n)

/-- What the identity makes of a vector: every component is left as it is, or becomes undefined if
another one is not finite. -/
theorem get_vecMul_identity (j : Fin n) :
    (vecMul v (identity n)).get j = v.get j ∨ (vecMul v (identity n)).get j = Scalar.nan := by
  have hothers : ∑ i ∈ Finset.univ.erase j, v.get i * (if i = j then 1 else 0) = 0 ∨
      ∑ i ∈ Finset.univ.erase j, v.get i * (if i = j then 1 else 0) = Scalar.nan := by
    refine Finset.sum_induction _ (fun x : Exact => x = 0 ∨ x = Scalar.nan) ?_ (Or.inl rfl) ?_
    · rintro x y (rfl | rfl) (rfl | rfl)
      · exact Or.inl (zero_add 0)
      · exact Or.inr (zero_add _)
      · exact Or.inr (add_zero _)
      · exact Or.inr rfl
    · intro i hi
      rw [if_neg (Finset.ne_of_mem_erase hi)]
      exact Exact.mul_zero_cases _
  simp only [vecMul, Vec.get_ofFn, Exact.sumOver_eq_sum, identity, entry_ofFn]
  rw [← Finset.add_sum_erase _ _ (Finset.mem_univ j), if_pos rfl, Exact.mul_one_eq]
  rcases hothers with h | h
  · exact Or.inl (by rw [h, add_zero])
  · exact Or.inr (by rw [h, Exact.add_nan])

theorem not_form_identity_neg : ¬ (identity n).form v < 0 := by
  rw [form, Vec.dot, Exact.sumOver_eq_sum]
  refine Exact.sum_not_neg fun j => ?_
  rcases get_vecMul_identity v j with h | h
  · rw [h]
    exact Exact.mul_self_not_neg _
  · rw [h]
    exact Exact.undefined_mul_not_neg _

theorem form_identity_of_undefined {v : Vec Exact n} {i : Fin n} (h : v.get i = Scalar.nan) :
    (identity n).form v = Scalar.nan := by
  rw [form, Vec.dot, Exact.sumOver_eq_sum]
  refine Exact.sum_of_nan (i := i) ?_
  rcases get_vecMul_identity v i with hkept | hlost
  · rw [hkept, h]
    rfl
  · rw [hlost, h]
    rfl

theorem ofReal_toReal {A : Mat Exact n n} (h : A.isFinite = true) : ofReal A.toReal = A := by
  apply ext_entry
  intro i j
  have hrow := Vector.all_eq_true.mp h i i.isLt
  have hentry : Scalar.isFinite (A.entry i j) = true := Vector.all_eq_true.mp hrow j j.isLt
  obtain ⟨a, ha⟩ := Exact.exists_coe_of_isFinite hentry
  rw [entry_ofReal, toReal, ha, Exact.toReal]

end Mat

namespace Moments

variable {n : ℕ} {m : Moments Exact n} {x : Vec Exact n} {i : Fin n}

/-- What one more vector adds to the co-moment is finite only if the vector and the mean are. -/
theorem exists_mean_of_comoment (h : Scalar.isFinite ((m.add x).comoment.entry i i) = true) :
    ∃ a : ℝ, (m.add x).mean.get i = a := by
  have hcount : ((m.count + 1 : ℕ) : ℝ) ≠ 0 := Nat.cast_ne_zero.mpr (Nat.succ_ne_zero _)
  simp only [add, Mat.entry_ofFn] at h
  obtain ⟨d, hd⟩ := Exact.exists_coe_of_isFinite (Exact.isFinite_of_mul (Exact.isFinite_of_add h).2)
  rw [Vec.sub, Vec.get_ofFn] at hd
  obtain ⟨b, c, hb, hc⟩ := Exact.sub_eq_coe hd
  refine ⟨c + (b - c) / ((m.count + 1 : ℕ) : ℝ), ?_⟩
  simp only [add, Vec.sub, Vec.get_ofFn, hb, hc, Exact.ofNat_eq_coe]
  rw [Exact.coe_add, Exact.coe_div _ hcount, Exact.coe_sub]

theorem exists_mean_of_covariance (h : (m.add x).covariance.isFinite = true) :
    ∃ mean, (m.add x).mean = Vec.ofReal mean := by
  have hall : ∀ i, ∃ a : ℝ, (m.add x).mean.get i = a := by
    intro i
    have hentry : Scalar.isFinite ((m.add x).covariance.entry i i) = true := by
      rw [← Mat.ofReal_toReal h, Mat.entry_ofReal, Exact.isFinite_coe]
    rw [covariance] at hentry
    split_ifs at hentry with hone
    · simp at hentry
    · simp only [Mat.entry_ofFn, Exact.ofScientific_eq_coe, Exact.ofNat_eq_coe] at hentry
      exact exists_mean_of_comoment
        (Exact.isFinite_of_div (Exact.isFinite_of_add (Exact.isFinite_of_div hentry)).1)
  choose mean hmean using hall
  exact ⟨mean, Vec.ext_get fun i => by rw [hmean, Vec.get_ofReal]⟩

theorem mean_of_undefined (h : m.mean.get i = Scalar.nan ∨ x.get i = Scalar.nan) :
    (m.add x).mean.get i = Scalar.nan := by
  have hdelta : x.get i - m.mean.get i = Scalar.nan := by
    rcases h with h | h
    · rw [h, Exact.sub_nan]
    · rw [h, Exact.nan_sub]
  simp only [add, Vec.sub, Vec.get_ofFn]
  rw [hdelta, Exact.nan_div, Exact.add_nan]

end Moments

namespace Statistics

/-- A finite covariance comes with a finite mean. -/
def MeanFollows : Statistics Exact → Prop
  | empty => True
  | ofLength _ moments =>
    moments.covariance.isFinite = true → ∃ mean, moments.mean = Vec.ofReal mean

def MeanUndefined : Statistics Exact → Prop
  | empty => False
  | ofLength _ moments => ∃ i, moments.mean.get i = Scalar.nan

variable {s t : Statistics Exact} {x : List Exact}

theorem meanFollows_add (h : s.add x = .ok t) : t.MeanFollows := by
  cases s with
  | empty =>
    cases h
    exact Moments.exists_mean_of_covariance
  | ofLength n moments =>
    rw [add] at h
    split_ifs at h
    cases h
    exact Moments.exists_mean_of_covariance

theorem meanUndefined_add (h : s.add x = .ok t) (hundefined : s.MeanUndefined ∨ Scalar.nan ∈ x) :
    t.MeanUndefined := by
  have hcomponent : ∀ {n} (hlength : x.length = n), Scalar.nan ∈ x →
      ∃ i, (Vec.ofList x hlength).get i = Scalar.nan := by
    rintro n rfl hx
    obtain ⟨i, hi⟩ := List.mem_iff_get.mp hx
    exact ⟨i, hi⟩
  cases s with
  | empty =>
    cases h
    obtain ⟨i, hi⟩ := hcomponent rfl (hundefined.resolve_left not_false)
    exact ⟨i, Moments.mean_of_undefined (Or.inr hi)⟩
  | ofLength n moments =>
    rw [add] at h
    split_ifs at h with hlength
    cases h
    rcases hundefined with ⟨i, hi⟩ | hx
    · exact ⟨i, Moments.mean_of_undefined (Or.inl hi)⟩
    · obtain ⟨i, hi⟩ := hcomponent hlength hx
      exact ⟨i, Moments.mean_of_undefined (Or.inr hi)⟩

variable {vectors : List (List Exact)}

/-- The last vector tells. -/
theorem meanFollows_of_ofVectors (h : ofVectors vectors = .ok s) : s.MeanFollows := by
  rcases List.eq_nil_or_concat vectors with rfl | ⟨before, last, rfl⟩
  · cases h
    trivial
  · rw [List.concat_eq_append, ofVectors_append] at h
    obtain ⟨t, -, hadd⟩ := bind_eq_ok.mp h
    exact meanFollows_add hadd

/-- Any vector may tell, however many follow it. -/
theorem meanUndefined_of_ofVectors {v : List Exact} (h : ofVectors vectors = .ok s)
    (hv : v ∈ vectors) (hundefined : Scalar.nan ∈ v) : s.MeanUndefined := by
  -- The last vector is taken off: the mean was undefined before it, or it is the vector itself.
  induction vectors using List.reverseRecOn generalizing s with
  | nil => cases hv
  | append_singleton before last ih =>
    rw [ofVectors_append] at h
    obtain ⟨t, hbefore, hadd⟩ := bind_eq_ok.mp h
    refine meanUndefined_add hadd ?_
    rcases List.mem_append.mp hv with hv | hv
    · exact Or.inl (ih hbefore hv)
    · exact Or.inr (List.mem_singleton.mp hv ▸ hundefined)

end Statistics

section

variable [LinearAlgebra Exact]

namespace Model.Learned

variable {m : Model Exact} {vectors : List (List Exact)} (h : m.Learned vectors)
include h

/-- A score is the form, at the deviation from the mean, of what stands in for an inverse. -/
theorem exists_form {profile : List Exact} {x : Exact} (hx : m.scorer.score profile = .ok x) :
    ∃ (n : ℕ) (moments : Moments Exact n) (limit : Exact) (inversion : Inversion Exact n)
      (hlength : profile.length = n),
      m.statistics = .ofLength n moments ∧ moments.covariance.invert limit = .ok inversion ∧
      x = inversion.matrix.form (Vec.sub (Vec.ofList profile hlength) moments.mean) := by
  obtain ⟨limit, hlimit⟩ := h.derivation_eq
  obtain ⟨d, hd, hdistance⟩ := bind_eq_ok.mp hx
  rw [show m.scorer.derived = m.derivation from rfl, hlimit] at hd
  obtain ⟨estimate, hestimate, hd⟩ := bind_eq_ok.mp hd
  obtain ⟨inversion, hinversion, hd⟩ := bind_eq_ok.mp hd
  cases hd
  cases hs : m.statistics with
  | empty =>
    rw [hs] at hestimate
    cases hestimate
  | ofLength n moments =>
    rw [hs] at hestimate
    cases hestimate
    rw [Derived.distance] at hdistance
    split_ifs at hdistance with hlength
    cases hdistance
    exact ⟨n, moments, limit, inversion, hlength, rfl, hinversion, rfl⟩

/-- One undefined number among all those learned makes all scores undefined. -/
theorem score_of_undefined {v profile : List Exact} {x : Exact} (hv : v ∈ vectors)
    (hundefined : Scalar.nan ∈ v) (hx : m.scorer.score profile = .ok x) : x = Scalar.nan := by
  obtain ⟨n, moments, limit, inversion, hlength, hs, hinversion, rfl⟩ := h.exists_form hx
  have hfollows := Statistics.meanFollows_of_ofVectors h.statistics
  have hmean := Statistics.meanUndefined_of_ofVectors h.statistics hv hundefined
  rw [hs] at hfollows hmean
  obtain ⟨i, hi⟩ := hmean
  have hfinite : ¬ moments.covariance.isFinite = true := by
    intro hfinite
    obtain ⟨mean, hmean⟩ := hfollows hfinite
    rw [hmean, Vec.get_ofReal] at hi
    cases hi
  rw [Mat.invert_of_not_finite hfinite] at hinversion
  cases hinversion
  refine Mat.form_identity_of_undefined (i := i) ?_
  rw [Vec.sub, Vec.get_ofFn, hi, Exact.sub_nan]

/-- No number is scored below all numbers: with a finite covariance the score is a number, and with
any other one it is the form of the identity. -/
theorem score_ne_negInf [LawfulInverse] {D : ℕ} {v : Fin D → ℝ} {x : Exact}
    (hx : m.scorer.score (Exact.ofReals v) = .ok x) : x ≠ .negInf := by
  obtain ⟨n, moments, limit, inversion, hlength, hs, hinversion, rfl⟩ := h.exists_form hx
  have hfollows := Statistics.meanFollows_of_ofVectors h.statistics
  rw [hs] at hfollows
  obtain rfl : D = n := by simpa using hlength
  by_cases hfinite : moments.covariance.isFinite = true
  · obtain ⟨mean, hmean⟩ := hfollows hfinite
    have hn : D ≠ 0 := by
      rintro rfl
      rw [Mat.invert, if_neg (by simpa using hfinite), if_pos rfl] at hinversion
      cases hinversion
    rw [← Mat.ofReal_toReal hfinite] at hinversion
    obtain ⟨B, inverted, hB, -⟩ :=
      Mat.invert_ofReal (Nat.pos_of_ne_zero hn) moments.covariance.toReal limit
    obtain rfl : inversion = _ := Except.ok.inj (hinversion.symm.trans hB)
    rw [Vec.ofList_ofReals, hmean, Vec.sub_ofReal, Mat.form_ofReal]
    intro heq
    cases heq
  · rw [Mat.invert_of_not_finite hfinite] at hinversion
    cases hinversion
    have hnegative : (.negInf : Exact) < 0 := Exact.neg_iff_sign.mpr rfl
    intro heq
    rw [← heq] at hnegative
    exact Mat.not_form_identity_neg _ hnegative

end Model.Learned

end

namespace Scorer

variable {k : Scorer Exact} {w : Window Exact} {scores : List Exact}

/-- What holds of infinity and of all scores of profiles holds of all scores of a window. -/
theorem forall_scores (h : k.scoreWindow w = .ok scores) {P : Exact → Prop} (hinf : P Scalar.inf)
    (hscore : ∀ (v : Fin (w.bands.length * k.footprint) → ℝ) x,
      k.score (Exact.ofReals v) = .ok x → P x) : ∀ x ∈ scores, P x := by
  intro x hx
  obtain ⟨i, hi⟩ := List.mem_iff_getElem?.mp hx
  obtain ⟨hwithin, hoffset⟩ := of_scoreWindow_eq_ok h hi
  rw [scoreOffset_eq_match] at hoffset
  cases hprofile : normalize (w.part k.footprint i) with
  | error e =>
    rw [hprofile] at hoffset
    exact Except.ok.inj hoffset ▸ hinf
  | ok profile =>
    rw [hprofile] at hoffset
    obtain ⟨v, rfl, -⟩ := exists_ofReals_of_normalize hprofile (w.length_part hwithin)
    exact hscore v x hoffset

variable {image : Raster Exact} {line : Line Exact} {count : ℕ} {centred : Exact}
  (hscores : k.scoreWindowImage image line count = .ok scores) (hle : k.footprint ≤ count)
  (hcentred : scores[(count - k.footprint) / 2]? = some centred)
include hscores hle hcentred

/-- Of defined scores only a finite one that is less than the centred one leads away. -/
theorem bestPosition_of_defined {band : Raster Exact} (hband : image.band 0 = .ok band)
    (hlength : scores.length = count - k.footprint + 1) (hpos : 0 < k.footprint)
    (hlow : ∀ x ∈ scores, x ≠ .negInf) (hdefined : ∀ x ∈ scores, x ≠ Scalar.nan) :
    ∃ p, k.bestPosition image line count = .ok p ∧ (p ≠ line.centre →
      ∃ i x, FirstLeast scores i x ∧ (∃ r : ℝ, x = r) ∧ x < centred) := by
  have hself : ∀ x ∈ scores, (x == x) = true := fun x hx => Exact.beq_self_iff.mpr (hdefined x hx)
  obtain ⟨i, x, hleast, hfirst⟩ := exists_firstLeast (List.ne_nil_of_length_pos (by omega)) hself
  have hx := List.mem_of_getElem? hfirst.value_at
  have hmem := List.mem_of_getElem? hcentred
  rw [bestPosition_eq hscores hle hleast hcentred]
  split_ifs with hsame
  · exact ⟨line.centre, rfl, fun hne => absurd rfl hne⟩
  · have hne : centred ≠ x := fun heq => hsame ((Exact.beq_iff_eq (hself _ hmem)).mpr heq)
    have hlt : x < centred := Exact.lt_of_le_of_ne (hfirst.minimal _ hmem) hne.symm
    have hone : (count : ℤ) ≠ 1 :=
      mt Nat.cast_eq_one.mp (count_ne_one_of_ne hpos hlength hfirst.value_at hcentred hne)
    have hfinite : ∃ r : ℝ, x = r := by
      cases x with
      | finite r => exact ⟨r, rfl⟩
      | posInf => exact absurd hlt (Exact.not_inf_lt _)
      | negInf => exact absurd rfl (hlow _ hx)
      | undefined => exact absurd rfl (hdefined _ hx)
    rw [Sampler.stepPosition, hband, ok_bind, if_neg hone]
    exact ⟨_, rfl, fun _ => ⟨i, x, hfirst, hfinite, hlt⟩⟩

/-- The first undefined score leads away, as it equals no score at the centre. -/
theorem bestPosition_of_undefined {i : ℕ} (hi : scores[i]? = some Scalar.nan)
    (hfirst : ∀ j < i, scores[j]? ≠ some Scalar.nan) : k.bestPosition image line count =
      k.sampler.stepPosition image line count ((i + (count - k.footprint) / 2 : ℕ) : ℤ) := by
  have hdiffer : ¬ (centred == Scalar.nan) = true := by
    cases centred <;> exact nofun
  rw [bestPosition_eq hscores hle (least_of_undefined hi hfirst) hcentred, if_neg hdiffer]

end Scorer

namespace Session

variable [LinearAlgebra Exact] {s : Session Exact} (hfootprint : s.model.footprint = 1)
  (hsampler : s.model.sampler = .shipped .nearest 0) (hlearned : s.model.Learned [[Scalar.nan]])
  (line : Line Exact) {count : ℕ} (hcount : 0 < count)
include hfootprint hsampler hlearned hcount

theorem scores_of_undefined :
    (ModelM.scoreWindowImage (.filled 1 2 1) line count).answer s =
      .ok (List.replicate count Scalar.nan) := by
  obtain ⟨w, hw, hlength, hbands⟩ := Sampler.exists_window_filled Nat.one_pos two_pos hcount 0
    (((1 : ℝ) : Exact)) line
  rw [← hsampler] at hw
  have hfootprint : s.model.scorer.footprint = 1 := hfootprint
  have hdimension : s.model.statistics.dimension? = some 1 := by
    rw [← Except.ok.inj hlearned.statistics]
    rfl
  obtain ⟨scores, hscores⟩ : ∃ scores, s.model.scorer.scoreWindow w = .ok scores :=
    Scorer.exists_scoreWindow (by omega) fun profile hprofile =>
      hlearned.exists_score Nat.one_pos hdimension (by simpa [hbands, hfootprint] using hprofile)
  have hundefined : ∀ x ∈ scores, x = Scalar.nan := by
    intro x hx
    obtain ⟨i, hi⟩ := List.mem_iff_getElem?.mp hx
    obtain ⟨hwithin, hoffset⟩ := Scorer.of_scoreWindow_eq_ok hscores hi
    have hpart : w.part s.model.scorer.footprint i = [((1 : ℝ) : Exact)] := by
      rw [Window.part, hbands, List.flatMap_singleton, List.drop_replicate, List.take_replicate,
        show min s.model.scorer.footprint (count - i) = 1 by omega, List.replicate_one]
    rw [Scorer.scoreOffset_of_normalize (by rw [hpart, normalize_singleton one_ne_zero])] at hoffset
    exact hlearned.score_of_undefined List.mem_cons_self List.mem_cons_self hoffset
  rw [(ModelM.yields_scoreWindowImage _ _ _ s).answer_eq]
  refine (Scorer.scoreWindowImage_of_window hw).trans (hscores.trans (congrArg Except.ok ?_))
  refine List.eq_replicate_iff.mpr ⟨?_, hundefined⟩
  have hwidth := (Scorer.length_scores hscores).2
  omega

theorem bestPosition_of_undefined : (ModelM.bestPosition (.filled 1 2 1) line count).answer s =
    (Sampler.shipped .nearest 0).stepPosition (.filled 1 2 1) line count
      (((count - 1) / 2 : ℕ) : ℤ) := by
  have hscores := (ModelM.yields_scoreWindowImage _ _ _ s).answer_eq.symm.trans
    (scores_of_undefined hfootprint hsampler hlearned line hcount)
  have hundefined : ∀ i < count, (List.replicate count (Scalar.nan : Exact))[i]? =
      some Scalar.nan := fun i hi => List.getElem?_replicate_of_lt hi
  have hfootprint : s.model.scorer.footprint = 1 := hfootprint
  have hmoved := Scorer.bestPosition_of_undefined hscores (by omega)
    (hundefined ((count - s.model.scorer.footprint) / 2) (by omega)) (hundefined 0 hcount) nofun
  rw [Nat.zero_add, hfootprint, show s.model.scorer.sampler = _ from hsampler] at hmoved
  exact (ModelM.yields_bestPosition _ _ _ s).answer_eq.trans hmoved

end Session

/-- What the search for the best position makes of any scores, for a sampler that takes as many
samples as it is asked for. If none is undefined, only a finite score that is less than the centred
one leads away from the centre. Otherwise the first undefined one is taken for the best, wherever it
is, and its place alone says where the search ends. A single undefined number among all those
learned is enough for that. -/
theorem bestPosition_of_scores [LinearAlgebra Exact] [LawfulInverse] {samples : ℤ}
    {sampler : Sampler Exact} {limit : Exact} {m : Model Exact}
    (h : Model.create samples sampler limit = .ok m) (requests : List (Request Exact))
    {image : Raster Exact} {line : Line Exact} {count : ℕ} {scores : List Exact}
    (hcounted : ∀ band xs, sampler.samples line band count = .ok xs → xs.length = count)
    (hscores : (ModelM.scoreWindowImage image line count).answer (m.start.after requests) =
      .ok scores) :
    let s := m.start.after requests
    let n := s.model.footprint
    let o := (count - n) / 2
    let answer := (ModelM.bestPosition image line count).answer s
    n ≤ count ∧ scores.length = count - n + 1 ∧
    (∀ x ∈ scores, x ≠ .negInf) ∧
    (∀ vectors, s.model.Learned vectors → ∀ v ∈ vectors, Scalar.nan ∈ v →
      ∀ x ∈ scores, x = Scalar.inf ∨ x = Scalar.nan) ∧
    ∃ centred, scores[o]? = some centred ∧
    ((∀ x ∈ scores, x ≠ Scalar.nan) → ∃ p, answer = .ok p ∧ (p ≠ line.centre →
      ∃ i x, FirstLeast scores i x ∧ (∃ r : ℝ, x = r) ∧ x < centred)) ∧
    ∀ i : ℕ, scores[i]? = some Scalar.nan → (∀ j < i, scores[j]? ≠ some Scalar.nan) →
      (count = 1 → answer = .error .noStep) ∧
      ∀ band l, image.band 0 = .ok band → sampler.sampleLine line band count = .ofReal l →
        count ≠ 1 → answer = .ok (.ofReal (l.start.stepped (l.step count) (i + o))) := by
  intro s n o answer
  have hsampler : s.model.scorer.sampler = sampler := (Session.fixed_after h requests).2
  have hlearned : s.model.Learned _ := learned_after h requests
  have hpure := (ModelM.yields_scoreWindowImage image _ count s).answer_eq.symm.trans hscores
  have hanswer : answer = _ := (ModelM.yields_bestPosition image _ count s).answer_eq
  obtain ⟨w, hw, hwindow⟩ := bind_eq_ok.mp hpure
  obtain ⟨hle, hlength⟩ := Scorer.length_scores hwindow
  rw [hsampler] at hw
  obtain ⟨hcount, band, hband⟩ := Sampler.length_window_of_counted hcounted hw
  have hpos : 0 < n := s.model.footprint_pos
  have hle : n ≤ count := hcount ▸ hle
  have hlength : scores.length = count - n + 1 := hcount ▸ hlength
  have hlow : ∀ x ∈ scores, x ≠ .negInf :=
    Scorer.forall_scores hwindow nofun fun v x hx => hlearned.score_ne_negInf hx
  obtain ⟨centred, hcentred⟩ : ∃ centred, scores[o]? = some centred :=
    ⟨_, List.getElem?_eq_getElem (show o < scores.length by omega)⟩
  refine ⟨hle, hlength, hlow, fun vectors hvectors v hv hundefined => ?_, centred, hcentred,
    fun hdefined => ?_, fun i hi hfirst => ?_⟩
  · exact Scorer.forall_scores hwindow (Or.inl rfl) fun u x hx =>
      Or.inr (hvectors.score_of_undefined hv hundefined hx)
  · rw [hanswer]
    exact Scorer.bestPosition_of_defined hpure hle hcentred hband hlength hpos hlow hdefined
  · have hmoved := hanswer.trans (Scorer.bestPosition_of_undefined hpure hle hcentred hi hfirst)
    rw [hsampler] at hmoved
    refine ⟨?_, fun band l hband hline hone => ?_⟩
    · rintro rfl
      rw [hmoved, Sampler.stepPosition, hband, ok_bind, if_pos Nat.cast_one]
    · refine (hmoved.trans (Sampler.stepPosition_eq hband hline hone _)).trans ?_
      push_cast
      rfl

/-- Two undefined scores, and a search that ends at the start of the line. -/
theorem bestPosition_of_scores_of_two :
    let image : Raster Exact := .filled 1 2 1
    let line : Line Exact := .ofReal (.alongRow 2)
    ∃ m : Model Exact, Model.create 1 (.shipped .nearest 0) 1 = .ok m ∧
      (ModelM.bestPosition image line 2).answer (m.start.after [.updateVector [Scalar.nan]]) =
        .ok (.ofReal ⟨0, 0⟩) := by
  intro image line
  obtain ⟨m, hm⟩ : ∃ m : Model Exact, Model.create 1 (.shipped .nearest 0) 1 = .ok m := ⟨_, rfl⟩
  let s : Session Exact := m.start.after [.updateVector [Scalar.nan]]
  have hlearned : s.model.Learned [[Scalar.nan]] := learned_after hm _
  obtain ⟨hfootprint, hsampler⟩ := Session.fixed_after hm [.updateVector [Scalar.nan]]
  have hcounted : ∀ band xs, Strategy.nearest.sampler.samples line band (2 : ℕ) = .ok xs →
      xs.length = 2 := fun band xs h => (Sampler.length_samples_strategy h).2
  obtain ⟨-, -, -, -, _, -, -, hmoved⟩ := bestPosition_of_scores hm _ hcounted
    (Session.scores_of_undefined hfootprint hsampler hlearned line two_pos)
  obtain ⟨-, hanswer⟩ := hmoved 0 rfl nofun
  refine ⟨m, hm, (hanswer image (.alongRow 2) rfl rfl (by decide)).trans ?_⟩
  rw [hfootprint]
  norm_num [Line.alongRow, Line.step, Line.vector, Point.stepped]

/-- The same undefined score everywhere leads away from the centre. It does so if there is a single
score too, and then the search fails. -/
theorem search_moved_by_undefined :
    let image : Raster Exact := .filled 1 2 1
    let line : Line Exact := .ofReal (.alongRow 2)
    ∃ m : Model Exact, Model.create 1 (.shipped .nearest 0) 1 = .ok m ∧
      let s := m.start.after [.updateVector [Scalar.nan]]
      (ModelM.scoreWindowImage image line 2).answer s = .ok [Scalar.nan, Scalar.nan] ∧
      (ModelM.bestPosition image line 2).answer s = .ok (.ofReal ⟨0, 0⟩) ∧
      line.centre ≠ .ofReal ⟨0, 0⟩ ∧
      (ModelM.scoreWindowImage image line 1).answer s = .ok [Scalar.nan] ∧
      (ModelM.bestPosition image line 1).answer s = .error .noStep := by
  intro image line
  obtain ⟨m, hm⟩ : ∃ m : Model Exact, Model.create 1 (.shipped .nearest 0) 1 = .ok m := ⟨_, rfl⟩
  let s : Session Exact := m.start.after [.updateVector [Scalar.nan]]
  have hlearned : s.model.Learned [[Scalar.nan]] := learned_after hm _
  obtain ⟨hfootprint, hsampler⟩ := Session.fixed_after hm [.updateVector [Scalar.nan]]
  have hscores : ∀ {count : ℕ}, 0 < count → _ := fun hcount =>
    Session.scores_of_undefined hfootprint hsampler hlearned line hcount
  have hmoved : ∀ {count : ℕ}, 0 < count → _ := fun hcount =>
    Session.bestPosition_of_undefined hfootprint hsampler hlearned line hcount
  have hposition := Sampler.stepPosition_eq (show image.band 0 = .ok image from rfl)
    (show (Sampler.shipped .nearest 0).sampleLine line image (2 : ℕ) = .ofReal (.alongRow 2) from
      rfl) (by decide) ((2 - 1) / 2 : ℕ)
  refine ⟨m, hm, hscores two_pos, ((hmoved two_pos).trans hposition).trans ?_, ?_,
    hscores Nat.one_pos, hmoved Nat.one_pos⟩
  · norm_num [Line.alongRow, Line.step, Line.vector, Point.stepped]
  · rw [Line.centre_ofReal]
    intro heq
    have hx : ((Line.alongRow 2).middle.x : Exact) = (0 : ℝ) := congrArg Point.x heq
    rw [Exact.coe_inj] at hx
    norm_num [Line.alongRow, Line.middle] at hx

end Transect
