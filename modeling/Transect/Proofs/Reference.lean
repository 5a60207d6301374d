import Transect.Proofs.ExactLinear
import Transect.Proofs.Queries

/-!
# The model without a cache

A model works its derived values out once and keeps them. The reference keeps the accepted vectors
instead and works everything out anew for each question; of the past it remembers only which limit
was in force when the derived values were first worked out. Both give the same answers in every run.
-/
namespace Transect

variable {α : Type} [Scalar α] [LinearAlgebra α]

/-- What can be asked of a model. The cost of an image is its score. -/
inductive Question (α : Type) where
  | mean
  | covariance
  | inverseCovariance
  | score (profile : List α)
  | scoreImage (image : Raster α) (line : Line α)
  | scoreWindow (array : Raster α)
  | scoreWindowImage (image : Raster α) (line : Line α) (count : Int)
  | bestPosition (image : Raster α) (line : Line α) (count : Int)

inductive Request (α : Type) where
  | update (image : Raster α) (line : Line α)
  | updateVector (profile : List α)
  | setLimit (limit : α)
  | ask (question : Question α)

inductive Answer (α : Type) where
  | done
  | number (x : α)
  | numbers (xs : List α)
  | matrix (rows : List (List α))
  | point (p : Point α)

namespace Question

def run : Question α → ModelM α (Answer α)
  | mean => return .numbers (← ModelM.derived).mean.toList
  | covariance => return .matrix (← ModelM.derived).covariance.toLists
  | inverseCovariance => return .matrix (← ModelM.derived).inversion.matrix.toLists
  | score profile => return .number (← ModelM.score profile)
  | scoreImage image line => return .number (← ModelM.scoreImage image line)
  | scoreWindow array => do
    let w ← ModelM.lift (Window.ofRaster array)
    return .numbers (← ModelM.scoreWindow w)
  | scoreWindowImage image line count =>
    return .numbers (← ModelM.scoreWindowImage image line count)
  | bestPosition image line count => return .point (← ModelM.bestPosition image line count)

omit [LinearAlgebra α] in
def answer (k : Scorer α) : Question α → Except (Failure α) (Answer α)
  | mean => return .numbers (← k.derived).mean.toList
  | covariance => return .matrix (← k.derived).covariance.toLists
  | inverseCovariance => return .matrix (← k.derived).inversion.matrix.toLists
  | score profile => return .number (← k.score profile)
  | scoreImage image line => return .number (← k.scoreImage image line)
  | scoreWindow array => do
    let w ← Window.ofRaster array
    return .numbers (← k.scoreWindow w)
  | scoreWindowImage image line count => return .numbers (← k.scoreWindowImage image line count)
  | bestPosition image line count => return .point (← k.bestPosition image line count)

omit [LinearAlgebra α] in
/-- Whether the derived values are needed to answer. -/
def asks (k : Scorer α) : Question α → Bool
  | mean | covariance | inverseCovariance | score _ => true
  | scoreImage image line => k.asksImage image line
  | scoreWindow array => Scorer.asksAfter (Window.ofRaster array) k.asksWindow
  | scoreWindowImage image line count | bestPosition image line count =>
    k.asksWindowImage image line count

end Question

def Request.run : Request α → ModelM α (Answer α)
  | update image line => do
    ModelM.learnImage image line
    return .done
  | updateVector profile => do
    ModelM.learn profile
    return .done
  | setLimit limit => do
    ModelM.setConditionLimit limit
    return .done
  | ask question => question.run

/-- All answers of a run; a failed request is answered by its failure, and the run goes on. -/
def Session.answers : Session α → List (Request α) → List (Except (Failure α) (Answer α))
  | _, [] => []
  | s, r :: rest =>
    match r.run.run s with
    | .ok a t => .ok a :: t.answers rest
    | .error e t => .error e :: t.answers rest

structure Reference (α : Type) where
  footprint : Nat
  sampler : Sampler α
  accepted : List (List α)
  limit : α
  /-- The limit at the first question since the last accepted vector that worked the derived values
  out, once there is one. -/
  settled? : Option α

namespace Reference

def limitInForce (r : Reference α) : α := r.settled?.getD r.limit

def derive (r : Reference α) : Except (Failure α) (Derived α) := do
  let statistics ← Statistics.ofVectors r.accepted
  let estimate ← statistics.estimate
  let inversion ← estimate.covariance.invert r.limitInForce
  return { estimate with inversion }

def scorer (r : Reference α) : Scorer α := ⟨r.footprint, r.sampler, r.derive⟩

def learn (r : Reference α) (profile : List α) : Except (Failure α) (Reference α) :=
  let learned := { r with accepted := r.accepted ++ [profile], settled? := none }
  match r.accepted with
  | [] => .ok learned
  | first :: _ =>
    if profile.length = first.length then .ok learned
    else .error (.dimensionMismatch first.length profile.length)

def settle (r : Reference α) (asked : Bool) : Reference α :=
  if asked && r.derive.isOk then { r with settled? := some r.limitInForce } else r

def served (r : Reference α) (learned : Except (Failure α) (Reference α)) :
    Except (Failure α) (Answer α) × Reference α :=
  match learned with
  | .ok next => (.ok .done, next)
  | .error e => (.error e, r)

/-- The answer to a request, and what is remembered after it. -/
def serve (r : Reference α) : Request α → Except (Failure α) (Answer α) × Reference α
  | .update image line => r.served (r.sampler.profile image line r.footprint >>= r.learn)
  | .updateVector profile => r.served (r.learn profile)
  | .setLimit limit => (.ok .done, { r with limit })
  | .ask question => (question.answer r.scorer, r.settle (question.asks r.scorer))

def answers : Reference α → List (Request α) → List (Except (Failure α) (Answer α))
  | _, [] => []
  | r, request :: rest => (r.serve request).1 :: (r.serve request).2.answers rest

end Reference

theorem Question.yields (q : Question α) (s : Session α) :
    q.run.Yields s (q.answer s.model.scorer) (q.asks s.model.scorer) := by
  cases q with
  | mean => exact (ModelM.yields_derived s).map _
  | covariance => exact (ModelM.yields_derived s).map _
  | inverseCovariance => exact (ModelM.yields_derived s).map _
  | score profile => exact (ModelM.yields_score profile s).map _
  | scoreImage image line => exact (ModelM.yields_scoreImage image line s).map _
  | scoreWindow array =>
    exact ModelM.Yields.lift_bind fun w => (ModelM.yields_scoreWindow w s).map _
  | scoreWindowImage image line count =>
    exact (ModelM.yields_scoreWindowImage image line count s).map _
  | bestPosition image line count => exact (ModelM.yields_bestPosition image line count s).map _

/-! What the statistics of a list know of it is enough to tell which vectors can be added to it. -/

namespace Statistics

omit [LinearAlgebra α]

theorem ofVectors_append (xs : List (List α)) (x : List α) :
    ofVectors (xs ++ [x]) = ofVectors xs >>= (add · x) := by
  simp [ofVectors, List.foldlM_append]

/-- The first vector of a list settles the length for all of it. -/
theorem ofVectors_cases {xs : List (List α)} {s : Statistics α} (h : ofVectors xs = .ok s) :
    xs = [] ∧ s = empty ∨
      ∃ first rest moments, xs = first :: rest ∧ s = ofLength first.length moments := by
  have hrest : ∀ (n : Nat) (ys : List (List α)) (moments : Moments α n),
      ys.foldlM add (ofLength n moments) = .ok s → ∃ later, s = ofLength n later := by
    intro n ys
    induction ys with
    | nil =>
      intro moments hs
      exact ⟨moments, (Except.ok.inj hs).symm⟩
    | cons y ys ih =>
      intro moments hs
      by_cases hy : y.length = n
      · rw [List.foldlM_cons, add, dif_pos hy] at hs
        exact ih _ hs
      · rw [List.foldlM_cons, add, dif_neg hy] at hs
        cases hs
  cases xs with
  | nil => exact Or.inl ⟨rfl, (Except.ok.inj h).symm⟩
  | cons first rest =>
    obtain ⟨moments, hs⟩ := hrest first.length rest _ h
    exact Or.inr ⟨first, rest, moments, rfl, hs⟩

end Statistics

/-- A model with its cache and the reference agree on what is to be derived. What the model has kept
was derived at the limit that the reference remembers. -/
structure Simulates (r : Reference α) (m : Model α) : Prop where
  footprint : m.footprint = r.footprint
  sampler : m.sampler = r.sampler
  limit : m.conditionLimit = r.limit
  statistics : Statistics.ofVectors r.accepted = .ok m.statistics
  derived : m.derived? = none ∧ r.settled? = none ∨
    ∃ d limit, m.derived? = some d ∧ r.settled? = some limit ∧ r.derive = .ok d

namespace Simulates

variable {r : Reference α} {m : Model α}

theorem derivation (h : Simulates r m) : m.derivation = r.derive := by
  rcases h.derived with ⟨hkept, hsettled⟩ | ⟨d, limit, hkept, -, hderive⟩
  · simp [Model.derivation, hkept, Model.derive, Reference.derive, h.statistics,
      Reference.limitInForce, hsettled, h.limit]
  · simp [Model.derivation, hkept, hderive]

theorem scorer (h : Simulates r m) : m.scorer = r.scorer := by
  simp [Model.scorer, Reference.scorer, h.footprint, h.sampler, h.derivation]

/-- Working the derived values out settles the limit, and failing to do so settles nothing. -/
theorem settle (h : Simulates r m) (asked : Bool) : Simulates (r.settle asked) (m.kept asked) := by
  cases asked with
  | false => exact h
  | true =>
    cases hderive : r.derive with
    | error e =>
      rw [Model.kept_of_error (h.derivation.trans hderive)]
      simpa [Reference.settle, hderive, Except.isOk, Except.toBool] using h
    | ok d =>
      have hsettle : r.settle true = { r with settled? := some r.limitInForce } := by
        simp [Reference.settle, hderive, Except.isOk, Except.toBool]
      rw [hsettle]
      refine ⟨?_, ?_, ?_, ?_, Or.inr ⟨d, r.limitInForce, ?_, rfl, hderive⟩⟩
      · exact (m.footprint_kept true).trans h.footprint
      · exact (m.sampler_kept true).trans h.sampler
      · exact (m.conditionLimit_kept true).trans h.limit
      · exact h.statistics.trans (congrArg Except.ok (m.statistics_kept true).symm)
      · simp [Model.kept, h.derivation, hderive, Except.toOption]

theorem learn_error (h : Simulates r m) {profile : List α} {e : Failure α}
    (hlearn : r.learn profile = .error e) : m.statistics.add profile = .error e := by
  rcases Statistics.ofVectors_cases h.statistics with
    ⟨haccepted, -⟩ | ⟨first, rest, moments, haccepted, hs⟩
  · simp [Reference.learn, haccepted] at hlearn
  · by_cases hlength : profile.length = first.length
    · simp [Reference.learn, haccepted, hlength] at hlearn
    · simpa [Reference.learn, haccepted, hs, Statistics.add, hlength] using hlearn

theorem learn_ok (h : Simulates r m) {profile : List α} {learned : Reference α}
    (hlearn : r.learn profile = .ok learned) :
    ∃ statistics, m.statistics.add profile = .ok statistics ∧
      Simulates learned { m with statistics, derived? := none } := by
  have hnext : ∃ statistics, m.statistics.add profile = .ok statistics ∧
      learned = { r with accepted := r.accepted ++ [profile], settled? := none } := by
    rcases Statistics.ofVectors_cases h.statistics with
      ⟨haccepted, hs⟩ | ⟨first, rest, moments, haccepted, hs⟩
    · simp only [Reference.learn, haccepted] at hlearn
      rw [hs, haccepted]
      exact ⟨_, rfl, (Except.ok.inj hlearn).symm⟩
    · by_cases hlength : profile.length = first.length
      · simp only [Reference.learn, haccepted, hlength, if_true] at hlearn
        rw [hs, haccepted, Statistics.add, dif_pos hlength]
        exact ⟨_, rfl, (Except.ok.inj hlearn).symm⟩
      · simp [Reference.learn, haccepted, hlength] at hlearn
  obtain ⟨statistics, hadd, rfl⟩ := hnext
  refine ⟨statistics, hadd, h.footprint, h.sampler, h.limit, ?_, Or.inl ⟨rfl, rfl⟩⟩
  rw [Statistics.ofVectors_append, h.statistics]
  exact hadd

end Simulates

section Run

variable {r : Reference α} {s : Session α}

/-- What a request to the model does, told by the answer and the next state of the reference. -/
def Serves (x : ModelM α (Answer α)) (s : Session α)
    (served : Except (Failure α) (Answer α) × Reference α) : Prop :=
  ∃ t : Session α, Simulates served.2 t.model ∧ x.run s = ModelM.ending served.1 t

namespace Simulates

theorem serves_learn (h : Simulates r s.model) (profile : List α) :
    Serves (do ModelM.learn profile; return .done) s (r.served (r.learn profile)) := by
  cases hlearn : r.learn profile with
  | error e =>
    refine ⟨s, h, ?_⟩
    simp [Reference.served, ModelM.ending, ModelM.learn, h.learn_error hlearn]
  | ok learned =>
    obtain ⟨statistics, hadd, hnext⟩ := h.learn_ok hlearn
    refine ⟨⟨_, s.journal.push (.modelUpdated statistics.count)⟩, hnext, ?_⟩
    simp [Reference.served, ModelM.ending, ModelM.learn, hadd]

theorem serves_update (h : Simulates r s.model) (image : Raster α) (line : Line α) :
    Serves (do ModelM.learnImage image line; return .done) s
      (r.served (r.sampler.profile image line r.footprint >>= r.learn)) := by
  have hprofile : s.model.sampler.profile image line s.model.footprint =
      r.sampler.profile image line r.footprint := by rw [h.sampler, h.footprint]
  cases hp : r.sampler.profile image line r.footprint with
  | error e =>
    refine ⟨s, h, ?_⟩
    simp [Reference.served, ModelM.ending, ModelM.learnImage, hprofile, hp]
  | ok profile =>
    obtain ⟨t, hnext, hrun⟩ := h.serves_learn profile
    refine ⟨t, hnext, ?_⟩
    rw [ok_bind, ← hrun]
    simp [ModelM.learnImage, hprofile, hp]

/-- A new limit counts for what is derived from now on, and not for what has been kept. -/
theorem setLimit (h : Simulates r s.model) (limit : α) :
    Simulates { r with limit } { s.model with conditionLimit := limit } := by
  refine ⟨h.footprint, h.sampler, rfl, h.statistics, ?_⟩
  rcases h.derived with hnone | ⟨d, k, hkept, hsettled, hderive⟩
  · exact Or.inl hnone
  · refine Or.inr ⟨d, k, hkept, hsettled, ?_⟩
    rw [← hderive]
    simp [Reference.derive, Reference.limitInForce, hsettled]

theorem serves (h : Simulates r s.model) (request : Request α) :
    Serves request.run s (r.serve request) := by
  cases request with
  | update image line => exact h.serves_update image line
  | updateVector profile => exact h.serves_learn profile
  | setLimit limit => exact ⟨⟨_, s.journal⟩, h.setLimit limit, rfl⟩
  | ask question =>
    obtain ⟨journal, hrun⟩ := question.yields s
    rw [h.scorer] at hrun
    exact ⟨⟨_, journal⟩, h.settle (question.asks r.scorer), hrun⟩

theorem answers_eq (h : Simulates r s.model) (requests : List (Request α)) :
    s.answers requests = r.answers requests := by
  -- On the requests, with the model and the reference that the first one leaves.
  induction requests generalizing r s with
  | nil => rfl
  | cons request rest ih =>
    obtain ⟨t, hnext, hrun⟩ := h.serves request
    cases hanswer : (r.serve request).1 with
    | ok a =>
      rw [hanswer] at hrun
      simp only [Session.answers, Reference.answers, hrun, hanswer, ModelM.ending, ih hnext]
    | error e =>
      rw [hanswer] at hrun
      simp only [Session.answers, Reference.answers, hrun, hanswer, ModelM.ending, ih hnext]

end Simulates

def Reference.start (footprint : Nat) (sampler : Sampler α) (limit : α) : Reference α :=
  ⟨footprint, sampler, [], limit, none⟩

theorem simulates_start {samples : Int} {sampler : Sampler α} {limit : α} {m : Model α}
    (h : Model.create samples sampler limit = .ok m) :
    Simulates (Reference.start samples.toNat sampler limit) m := by
  unfold Model.create at h
  split at h
  · cases h
  · cases h
    exact ⟨rfl, rfl, rfl, rfl, Or.inl ⟨rfl, rfl⟩⟩

/-- In every run a model answers as the reference does, which keeps no derived values. -/
theorem answers_eq_reference {samples : Int} {sampler : Sampler α} {limit : α} {m : Model α}
    (h : Model.create samples sampler limit = .ok m) (requests : List (Request α)) :
    m.start.answers requests =
      (Reference.start samples.toNat sampler limit).answers requests :=
  (simulates_start h).answers_eq requests

/-- The limit is changed between two questions about the inverse, with only a vector of the wrong
length in between, and then a third vector is accepted. -/
theorem answers_eq_reference_of_changed_limit :
    let requests : List (Request Exact) :=
      [.ask .mean, .updateVector (Exact.ofReals ![1, 3]), .updateVector (Exact.ofReals ![2, 0]),
        .ask .inverseCovariance, .setLimit 1, .updateVector [1], .ask .inverseCovariance,
        .updateVector (Exact.ofReals ![4, 4]), .ask (.score (Exact.ofReals ![1, 1]))]
    ∃ m : Model Exact, Model.create 2 .nearest 0 = .ok m ∧
      m.start.answers requests = (Reference.start 2 .nearest 0).answers requests := by
  intro requests
  obtain ⟨m, h⟩ : ∃ m : Model Exact, Model.create 2 .nearest 0 = .ok m := ⟨_, rfl⟩
  exact ⟨m, h, answers_eq_reference h requests⟩

end Run

end Transect
