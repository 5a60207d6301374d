import Transect.Proofs.Transparency
import Transect.Proofs.UndefinedScores

/-!
# A model that has learned answers

Whatever a model has learned, and whatever its limit is, mean and covariance are there, and so is
something to score with: the inverse of the covariance if it is finite and passes the limit, and the
identity otherwise. An inverse that passes a limit passes all that are higher.
-/
namespace Transect

variable {α : Type} [Scalar α]

theorem Exact.not_le_nan (x : Exact) : ¬ x ≤ Scalar.nan := by
  rintro ⟨-, -, _, hplace, -⟩
  cases hplace

theorem Exact.le_inf {x y : Exact} (h : x ≤ y) : x ≤ Scalar.inf := by
  obtain ⟨a, ha, -⟩ := h
  exact ⟨a, ha, ⊤, rfl, le_top⟩

section

variable [LinearAlgebra α] {n : ℕ} {A : Mat α n n} {limit : α}

/-- An inverse that is used passed all that is asked of it. -/
theorem Mat.of_invert_eq_inverse {B : Mat α n n} (h : A.invert limit = .ok ⟨B, true⟩) :
    n ≠ 0 ∧ A.isFinite = true ∧ LinearAlgebra.condition A ≤ limit ∧
      LinearAlgebra.inverse? A = some B := by
  have hfallback : (.ok (.fallback n) : Except (Failure α) (Inversion α n)) ≠ .ok ⟨B, true⟩ :=
    nofun
  unfold invert at h
  split_ifs at h with hfinite hempty hle
  · exact absurd h hfallback
  · split at h
    · next C hC =>
      cases h
      exact ⟨hempty, by simpa using hfinite, hle, hC⟩
    · exact absurd h hfallback
  · exact absurd h hfallback

theorem Mat.invert_eq_inverse {B : Mat α n n} (hn : n ≠ 0) (hfinite : A.isFinite = true)
    (hle : LinearAlgebra.condition A ≤ limit) (hB : LinearAlgebra.inverse? A = some B) :
    A.invert limit = .ok ⟨B, true⟩ := by
  simp [invert, hn, hfinite, hle, hB]

theorem Mat.of_invert_eq_fallback {B : Mat α n n} (h : A.invert limit = .ok ⟨B, false⟩) :
    B = identity n := by
  unfold invert at h
  split_ifs at h
  · cases h
    rfl
  · split at h <;> cases h
    rfl
  · cases h
    rfl

end

namespace Mat

variable [LinearAlgebra Exact] {n : ℕ} {A B : Mat Exact n n} {limit : Exact}

theorem invert_of_le {higher : Exact} (h : A.invert limit = .ok ⟨B, true⟩) (hle : limit ≤ higher) :
    A.invert higher = .ok ⟨B, true⟩ := by
  obtain ⟨hn, hfinite, hcondition, hB⟩ := of_invert_eq_inverse h
  exact invert_eq_inverse hn hfinite (Exact.le_trans hcondition hle) hB

theorem exists_mul_eq_one [LawfulInverse] (h : A.invert limit = .ok ⟨B, true⟩) :
    ∃ R S : Matrix (Fin n) (Fin n) ℝ, A = ofReal R ∧ B = ofReal S ∧ R * S = 1 ∧ S * R = 1 := by
  obtain ⟨-, hfinite, -, hB⟩ := of_invert_eq_inverse h
  rw [← ofReal_toReal hfinite] at hB
  obtain ⟨S, hS, hmul⟩ := LawfulInverse.mul_eq_one hB
  exact ⟨A.toReal, S, (ofReal_toReal hfinite).symm, hS, hmul, mul_eq_one_comm.mp hmul⟩

end Mat

theorem Statistics.count_ofVectors {vectors : List (List α)} {s : Statistics α}
    (h : ofVectors vectors = .ok s) : s.count = vectors.length := by
  induction vectors using List.reverseRecOn generalizing s with
  | nil =>
    cases h
    rfl
  | append_singleton before last ih =>
    rw [ofVectors_append] at h
    obtain ⟨t, hbefore, hadd⟩ := bind_eq_ok.mp h
    rw [(of_add hadd).1, ih hbefore, List.length_append, List.length_singleton]

/-- The vectors have one length, and their moments are what the statistics are. -/
theorem Statistics.exists_moments {vectors : List (List α)} {s : Statistics α}
    (h : ofVectors vectors = .ok s) {v : List α} (hv : v ∈ vectors) :
    (∀ u ∈ vectors, u.length = v.length) ∧ ∃ moments : Moments α v.length,
      s = .ofLength v.length moments ∧ moments.count = vectors.length := by
  have hdimension := dimension?_of_mem h
  have hcount := count_ofVectors h
  refine ⟨fun u hu => Option.some.inj ((hdimension u hu).symm.trans (hdimension v hv)), ?_⟩
  cases s with
  | empty => cases hdimension v hv
  | ofLength n moments =>
    cases hdimension v hv
    exact ⟨moments, rfl, hcount⟩

theorem Moments.count_ne_one {n : ℕ} {m : Moments Exact n} (hn : n ≠ 0)
    (h : m.covariance.isFinite = true) : m.count ≠ 1 := by
  intro hone
  let i : Fin n := ⟨0, Nat.pos_of_ne_zero hn⟩
  have hentry : m.covariance.entry i i = m.covariance.toReal i i := by
    rw [← Mat.entry_ofReal, Mat.ofReal_toReal h]
  rw [covariance, if_pos hone, Mat.entry_ofFn] at hentry
  cases hentry

section

variable [LinearAlgebra α] {samples : ℤ} {sampler : Sampler α} {limit : α} {m : Model α}

theorem Session.derivesAt_of_create (h : Model.create samples sampler limit = .ok m)
    (operations : List (Operation α)) :
    (m.start.through operations).model.DerivesAt (m.start.limitInForce limit operations) := by
  obtain ⟨-, -, hlimit, -, hnone⟩ := Model.of_create h
  exact derivesAt_through (s := m.start) (hlimit ▸ Model.derivesAt_of_none hnone) operations

theorem Session.learned_of_create (h : Model.create samples sampler limit = .ok m)
    (operations : List (Operation α)) :
    (m.start.through operations).model.Learned (m.start.accepted operations) := by
  rw [accepted_eq, model_through]
  exact (Model.learned_of_create h).through operations

/-- All questions but those about images are about what has been derived. -/
theorem Session.answer_of_derivation {s : Session α} {n : ℕ} {mean : Vec α n} {C : Mat α n n}
    {inversion : Inversion α n} (h : s.model.derivation = .ok ⟨⟨n, mean, C⟩, inversion⟩) :
    Question.mean.run.answer s = .ok (.numbers mean.toList) ∧
    Question.covariance.run.answer s = .ok (.matrix C.toLists) ∧
    Question.inverseCovariance.run.answer s = .ok (.matrix inversion.matrix.toLists) ∧
    ∀ profile, profile.length = n →
      ∃ x, (Question.score profile).run.answer s = .ok (.number x) := by
  have hscorer : s.model.scorer.derived = .ok ⟨⟨n, mean, C⟩, inversion⟩ := h
  simp only [(Question.yields _ s).answer_eq, Question.answer, Scorer.score, hscorer, ok_bind]
  refine ⟨rfl, rfl, rfl, fun profile hprofile => ?_⟩
  rw [Derived.distance, dif_pos hprofile]
  exact ⟨_, rfl⟩

end

/-- A model that has accepted vectors which are not empty answers all questions about them, whatever
numbers they are made of and whatever the limits were. What it uses for the inverse of the
covariance is the identity, or an inverse on both sides. The latter takes two vectors, a covariance
that is finite, and a condition number within the limit in force; and every model that has accepted
the same vectors and has a limit in force that is at least as high uses the same inverse. -/
theorem answers_of_accepted [LinearAlgebra Exact] [LawfulInverse] {samples : ℤ}
    {sampler : Sampler Exact} {limit : Exact} {m : Model Exact}
    (h : Model.create samples sampler limit = .ok m) (operations : List (Operation Exact))
    {v : List Exact} (hv : v ∈ m.start.accepted operations) (hne : v ≠ []) :
    let s := m.start.through operations
    let vectors := m.start.accepted operations
    let k := m.start.limitInForce limit operations
    s.model.count = vectors.length ∧ (∀ u ∈ vectors, u.length = v.length) ∧
    ∃ (mean : Vec Exact v.length) (C B : Mat Exact v.length v.length) (inverted : Bool),
      ModelM.derived.answer s = .ok ⟨⟨v.length, mean, C⟩, ⟨B, inverted⟩⟩ ∧
      Question.mean.run.answer s = .ok (.numbers mean.toList) ∧
      Question.covariance.run.answer s = .ok (.matrix C.toLists) ∧
      Question.inverseCovariance.run.answer s = .ok (.matrix B.toLists) ∧
      (∀ profile, profile.length = v.length →
        ∃ x, (Question.score profile).run.answer s = .ok (.number x)) ∧
      (inverted = false → B = Mat.identity v.length) ∧
      (inverted = true → 2 ≤ s.model.count ∧ C.isFinite = true ∧
        LinearAlgebra.condition C ≤ k ∧
        ∃ R S, C = Mat.ofReal R ∧ B = Mat.ofReal S ∧ R * S = 1 ∧ S * R = 1) ∧
      (inverted = true → ∀ (others : ℤ) (another : Sampler Exact) (other : Exact)
        (n : Model Exact) (history : List (Operation Exact)),
        Model.create others another other = .ok n →
        n.start.accepted history = vectors →
        k ≤ n.start.limitInForce other history →
        ModelM.derived.answer (n.start.through history) = ModelM.derived.answer s) := by
  intro s vectors k
  have hstatistics := (Session.learned_of_create h operations).statistics
  obtain ⟨hlengths, moments, hmoments, hcount⟩ := Statistics.exists_moments hstatistics hv
  have hlength : v.length ≠ 0 := fun hzero => hne (List.length_eq_zero_iff.mp hzero)
  have hanswer (t : Session Exact) : ModelM.derived.answer t = t.model.derivation :=
    (ModelM.yields_derived t).answer_eq
  obtain ⟨⟨B, inverted⟩, hinvert⟩ :=
    moments.covariance.exists_invert (Nat.pos_of_ne_zero hlength) k
  have hderive := Statistics.derive_of_invert hinvert
  have hderivation : s.model.derivation = _ := (Session.derivesAt_of_create h operations).trans
    ((congrArg (Statistics.derive · k) hmoments).trans hderive)
  obtain ⟨hmean, hcovariance, hinverse, hscore⟩ := Session.answer_of_derivation hderivation
  refine ⟨Statistics.count_ofVectors hstatistics, hlengths, moments.mean, moments.covariance, B,
    inverted, (hanswer s).trans hderivation, hmean, hcovariance, hinverse, hscore, ?_, ?_, ?_⟩
  · rintro rfl
    exact Mat.of_invert_eq_fallback hinvert
  · rintro rfl
    obtain ⟨-, hfinite, hcondition, -⟩ := Mat.of_invert_eq_inverse hinvert
    have hone := Moments.count_ne_one hlength hfinite
    have hpos : 0 < vectors.length := List.length_pos_of_mem hv
    have hmodel : s.model.count = moments.count := congrArg Statistics.count hmoments
    have hall : moments.count = vectors.length := hcount
    exact ⟨by omega, hfinite, hcondition, Mat.exists_mul_eq_one hinvert⟩
  · rintro rfl others another other n history hn haccepted hle
    have hsame : (n.start.through history).model.statistics = s.model.statistics := by
      have hlearned := (Session.learned_of_create hn history).statistics
      rw [haccepted, hstatistics] at hlearned
      exact (Except.ok.inj hlearned).symm
    have hhigher := Statistics.derive_of_invert (Mat.invert_of_le hinvert hle)
    rw [hanswer, hanswer, hderivation, Session.derivesAt_of_create hn history, hsame, hmoments]
    exact hhigher

theorem Mat.invert_condition {n : ℕ} {A : Matrix (Fin n) (Fin n) ℝ} (hn : n ≠ 0) (h : A.det ≠ 0) :
    (ofReal A).invert (LinearAlgebra.condition (ofReal A)) = .ok ⟨ofReal A⁻¹, true⟩ := by
  refine invert_eq_inverse hn (isFinite_ofReal A) ?_ (by simp [LinearAlgebra.inverse?, h])
  simp only [LinearAlgebra.condition, toReal_ofReal, if_neg h]
  exact Exact.coe_le_coe.mpr le_rfl

/-- The inverse that two numbers two apart leave behind. -/
theorem Moments.invert_of_two :
    (ofSample ([![0], ![2]] : List (Fin 1 → ℝ))).covariance.invert
        (LinearAlgebra.condition (Mat.ofReal !![2])) = .ok ⟨Mat.ofReal !![2]⁻¹, true⟩ ∧
      LinearAlgebra.condition (Mat.ofReal !![2]) ≤ (Scalar.inf : Exact) := by
  have hinvert := Mat.invert_condition one_ne_zero (show (!![2] : Matrix _ _ ℝ).det ≠ 0 by simp)
  obtain ⟨-, -, hle, -⟩ := Mat.of_invert_eq_inverse hinvert
  refine ⟨?_, Exact.le_inf hle⟩
  rw [covariance_ofSample (by decide)]
  refine Eq.trans (congrArg (Mat.invert · _) (Mat.ofReal_inj.mpr ?_)) hinvert
  ext i j
  fin_cases i; fin_cases j
  norm_num [Sample.covariance, Sample.comoment, Sample.mean, Matrix.vecMulVec_apply]

/-- Infinite and undefined numbers at an undefined limit, and an inverse that just passes its limit
and is used by a model without a limit, too. -/
theorem answers_of_accepted_of_two :
    let update (v : List Exact) : Operation Exact := .request (.updateVector v)
    let strange := [update [Scalar.inf], update [Scalar.nan]]
    let plain := [update (Exact.ofReals ![0]), update (Exact.ofReals ![2])]
    let tight : Exact := LinearAlgebra.condition (Mat.ofReal !![2])
    ∃ l m n : Model Exact, Model.create 1 .nearest Scalar.nan = .ok l ∧
      Model.create 1 .nearest tight = .ok m ∧ Model.create 1 .nearest Scalar.inf = .ok n ∧
      Question.inverseCovariance.run.answer (l.start.through strange) = .ok (.matrix [[1]]) ∧
      (∃ x, (Question.score [Scalar.inf]).run.answer (l.start.through strange) =
        .ok (.number x)) ∧
      (∃ d, ModelM.derived.answer (m.start.through plain) = .ok d ∧
        d.inversion.inverted = true) ∧
      ModelM.derived.answer (n.start.through plain) =
        ModelM.derived.answer (m.start.through plain) := by
  intro update strange plain tight
  obtain ⟨l, hl⟩ : ∃ l : Model Exact, Model.create 1 .nearest Scalar.nan = .ok l := ⟨_, rfl⟩
  obtain ⟨m, hm⟩ : ∃ m : Model Exact, Model.create 1 .nearest tight = .ok m := ⟨_, rfl⟩
  obtain ⟨n, hn⟩ : ∃ n : Model Exact, Model.create 1 .nearest Scalar.inf = .ok n := ⟨_, rfl⟩
  have hstrange : [Scalar.inf] ∈ l.start.accepted strange := by
    cases hl
    exact List.mem_cons_self
  obtain ⟨-, -, mean, C, B, inverted, -, -, -, hinverse, hscore, hidentity, hpassed, -⟩ :=
    answers_of_accepted hl strange hstrange (List.cons_ne_nil _ _)
  have hfallback : inverted = false := by
    refine Bool.eq_false_iff.mpr fun hinverted => ?_
    obtain ⟨-, -, hle, -⟩ := hpassed hinverted
    cases hl
    exact Exact.not_le_nan _ hle
  have hplain : m.start.accepted plain = [Exact.ofReals ![0], Exact.ofReals ![2]] := by
    cases hm
    rfl
  obtain ⟨-, -, mean', C', B', inverted', hderived, -, -, -, -, -, -, hhigher⟩ :=
    answers_of_accepted hm plain (hplain ▸ List.mem_cons_self) (List.cons_ne_nil _ _)
  -- What the second model derives is worked out from the two vectors.
  obtain ⟨hinvert, hinf⟩ := Moments.invert_of_two
  have hlearned := Session.learned_of_create hm plain
  rw [hplain] at hlearned
  have htaught : (m.start.through plain).model.Learned (List.map Exact.ofReals [![0], ![2]]) :=
    hlearned
  have hinForce : m.start.limitInForce tight plain = tight := by
    cases hm
    rfl
  have hderivation := Session.derivesAt_of_create hm plain
  rw [Model.DerivesAt, hinForce, htaught.statistics_eq (List.cons_ne_nil _ _),
    Statistics.derive_of_invert hinvert] at hderivation
  have hanswer := (ModelM.yields_derived (m.start.through plain)).answer_eq.trans hderivation
  have hinverted : inverted' = true := by
    cases hderived.symm.trans hanswer
    rfl
  refine ⟨l, m, n, hl, hm, hn, ?_, hscore _ rfl, ⟨_, hanswer, rfl⟩, ?_⟩
  · rw [hinverse, hidentity hfallback]
    rfl
  · refine hhigher hinverted 1 .nearest Scalar.inf n plain hn ?_ ?_
    · cases hn
      exact hplain.symm
    · rw [hinForce]
      cases hn
      exact hinf

end Transect
