import Transect.Proofs.Trained

/-!
# The life of a model

A model begins without any statistics and gets them from the profiles that it accepts, one at a
time. The first profile settles how long all others have to be. Whatever is refused leaves the
statistics as they were, and a profile that is refused leaves everything as it was.
-/
namespace Transect

variable {α : Type}

namespace Statistics

variable [Scalar α] {s : Statistics α} {x : List α}

theorem exists_add (h : ∀ n, s.dimension? = some n → x.length = n) : ∃ t, s.add x = .ok t := by
  cases s with
  | empty => exact ⟨_, rfl⟩
  | ofLength n moments => exact ⟨_, dif_pos (h n rfl)⟩

theorem add_eq_error {n : Nat} (hs : s.dimension? = some n) (hx : x.length ≠ n) :
    s.add x = .error (.dimensionMismatch n x.length) := by
  cases s with
  | empty => cases hs
  | ofLength m moments =>
    cases hs
    exact dif_neg hx

theorem length_of_add {t : Statistics α} (h : s.add x = .ok t) {n : Nat}
    (hs : s.dimension? = some n) : x.length = n := by
  by_contra hx
  rw [add_eq_error hs hx] at h
  cases h

theorem dimension?_of_mem {xs : List (List α)} (h : ofVectors xs = .ok s) :
    ∀ x ∈ xs, s.dimension? = some x.length := by
  -- On the vectors in their order: the last one is as long as the statistics before it say.
  induction xs using List.reverseRecOn generalizing s with
  | nil => exact List.forall_mem_nil _
  | append_singleton xs last ih =>
    rw [ofVectors_append] at h
    obtain ⟨t, ht, hadd⟩ := bind_eq_ok.mp h
    have hlast := (of_add hadd).2
    refine List.forall_mem_append.mpr ⟨fun x hx => ?_, List.forall_mem_singleton.mpr hlast⟩
    rw [hlast, length_of_add hadd (ih ht x hx)]

end Statistics

section

variable [Scalar α] [LinearAlgebra α]

namespace Reference

omit [Scalar α] [LinearAlgebra α] in
theorem of_learn_eq_ok {r next : Reference α} {v : List α} (h : r.learn v = .ok next) :
    next.footprint = r.footprint ∧ next.sampler = r.sampler ∧
      next.accepted = r.accepted ++ [v] := by
  unfold learn at h
  split at h
  · cases h
    exact ⟨rfl, rfl, rfl⟩
  · split at h <;> cases h
    exact ⟨rfl, rfl, rfl⟩

/-- All that a request can change besides limits: one more vector is accepted, be it the profile
along a line or given as such. -/
theorem serve_cases (r : Reference α) (request : Request α) :
    (r.serve request).2.footprint = r.footprint ∧ (r.serve request).2.sampler = r.sampler ∧
      ((r.serve request).2.accepted = r.accepted ∨
        ∃ v, (r.serve request).2.accepted = r.accepted ++ [v] ∧
          (request = .updateVector v ∨ ∃ image line, request = .update image line ∧
            r.sampler.profile image line r.footprint = .ok v)) := by
  cases request with
  | update image line =>
    cases hprofile : r.sampler.profile image line r.footprint with
    | error e => simp [serve, hprofile, served]
    | ok v =>
      simp only [serve, hprofile, ok_bind]
      cases hlearn : r.learn v with
      | error e => exact ⟨rfl, rfl, Or.inl rfl⟩
      | ok next =>
        obtain ⟨hfootprint, hsampler, haccepted⟩ := of_learn_eq_ok hlearn
        exact ⟨hfootprint, hsampler, Or.inr ⟨v, haccepted, Or.inr ⟨image, line, rfl, hprofile⟩⟩⟩
  | updateVector v =>
    simp only [serve]
    cases hlearn : r.learn v with
    | error e => exact ⟨rfl, rfl, Or.inl rfl⟩
    | ok next =>
      obtain ⟨hfootprint, hsampler, haccepted⟩ := of_learn_eq_ok hlearn
      exact ⟨hfootprint, hsampler, Or.inr ⟨v, haccepted, Or.inl rfl⟩⟩
  | setLimit limit => exact ⟨rfl, rfl, Or.inl rfl⟩
  | ask question =>
    simp only [serve, settle]
    split
    · exact ⟨rfl, rfl, Or.inl rfl⟩
    · exact ⟨rfl, rfl, Or.inl rfl⟩

theorem fixed_after (r : Reference α) (requests : List (Request α)) :
    (r.after requests).footprint = r.footprint ∧ (r.after requests).sampler = r.sampler := by
  induction requests generalizing r with
  | nil => exact ⟨rfl, rfl⟩
  | cons request rest ih =>
    obtain ⟨hfootprint, hsampler, -⟩ := r.serve_cases request
    obtain ⟨hfootprint', hsampler'⟩ := ih (r.serve request).2
    exact ⟨hfootprint'.trans hfootprint, hsampler'.trans hsampler⟩

/-- What holds of every vector that a request of a run may bring holds of all accepted ones. -/
theorem forall_accepted_after {P : List α → Prop} {r : Reference α} {requests : List (Request α)}
    (h : ∀ request ∈ requests, ∀ v, request = .updateVector v ∨ (∃ image line,
      request = .update image line ∧ r.sampler.profile image line r.footprint = .ok v) → P v)
    (hr : ∀ v ∈ r.accepted, P v) : ∀ v ∈ (r.after requests).accepted, P v := by
  induction requests generalizing r with
  | nil => exact hr
  | cons request rest ih =>
    obtain ⟨hrequest, hrest⟩ := List.forall_mem_cons.mp h
    obtain ⟨hfootprint, hsampler, haccepted⟩ := r.serve_cases request
    have hnext : ∀ v ∈ (r.serve request).2.accepted, P v := by
      rcases haccepted with hsame | ⟨u, hmore, hlesson⟩
      · rw [hsame]
        exact hr
      · rw [hmore]
        exact List.forall_mem_append.mpr ⟨hr, List.forall_mem_singleton.mpr (hrequest u hlesson)⟩
    rw [← hfootprint, ← hsampler] at hrest
    exact ih hrest hnext

end Reference

theorem Session.fixed_after {samples : Int} {sampler : Sampler α} {limit : α} {m : Model α}
    (h : Model.create samples sampler limit = .ok m) (requests : List (Request α)) :
    (m.start.after requests).model.footprint = samples.toNat ∧
      (m.start.after requests).model.sampler = sampler := by
  have hsimulates := Simulates.after (s := m.start) (simulates_start h) requests
  rw [hsimulates.footprint, hsimulates.sampler]
  exact Reference.fixed_after _ requests

end

namespace Request

variable [Scalar α]

/-- The profile that a request asks a model to learn, or the reason why there is none. -/
def lesson? (m : Model α) : Request α → Option (Except (Failure α) (List α))
  | update image line => some (m.sampler.profile image line m.footprint)
  | updateVector profile => some (.ok profile)
  | setLimit _ | ask _ => none

omit [Scalar α] in
def teaches : Request α → Bool
  | update .. | updateVector _ => true
  | setLimit _ | ask _ => false

theorem isSome_lesson? (r : Request α) (m : Model α) : (r.lesson? m).isSome = r.teaches := by
  cases r <;> rfl

variable [LinearAlgebra α] {r : Request α} {s : Session α}

theorem run_of_no_profile {e : Failure α} (h : r.lesson? s.model = some (.error e)) :
    r.run.run s = .error e s := by
  cases r with
  | update image line =>
    have hprofile : s.model.sampler.profile image line s.model.footprint = .error e :=
      Option.some.inj h
    simp [run, ModelM.learnImage, hprofile]
  | updateVector profile => cases h
  | setLimit limit => cases h
  | ask question => cases h

theorem run_of_profile {profile : List α} (h : r.lesson? s.model = some (.ok profile)) :
    r.run.run s = (do ModelM.learn profile; return .done : ModelM α (Answer α)).run s := by
  cases r with
  | update image line =>
    have hprofile : s.model.sampler.profile image line s.model.footprint = .ok profile :=
      Option.some.inj h
    simp [run, ModelM.learnImage, hprofile]
  | updateVector other =>
    cases h
    rfl
  | setLimit limit => cases h
  | ask question => cases h

theorem run_of_added {profile : List α} (h : r.lesson? s.model = some (.ok profile))
    {statistics : Statistics α} (hadd : s.model.statistics.add profile = .ok statistics) :
    r.run.run s = .ok .done ⟨{ s.model with statistics, derived? := none },
      s.journal.push (.modelUpdated statistics.count)⟩ := by
  rw [run_of_profile h]
  simp [ModelM.learn, hadd]

theorem run_of_not_added {profile : List α} (h : r.lesson? s.model = some (.ok profile))
    {e : Failure α} (hadd : s.model.statistics.add profile = .error e) :
    r.run.run s = .error e s := by
  rw [run_of_profile h]
  simp [ModelM.learn, hadd]

/-- All that a request can do to the statistics: nothing if it is no lesson, nothing at all if it is
one that is refused, and otherwise one more profile is added. -/
theorem run_cases (r : Request α) (s : Session α) :
    (r.teaches = false ∧
      ∃ answer t, r.run.run s = ModelM.ending answer t ∧
        t.model.statistics = s.model.statistics) ∨
    (r.teaches = true ∧ ∃ e, r.run.run s = .error e s) ∨
    (r.teaches = true ∧ ∃ profile t, s.model.statistics.add profile = .ok t.model.statistics ∧
      r.run.run s = .ok .done t) := by
  rw [← r.isSome_lesson? s.model]
  cases h : r.lesson? s.model with
  | none =>
    refine Or.inl ⟨rfl, ?_⟩
    cases r with
    | update image line => cases h
    | updateVector profile => cases h
    | setLimit limit => exact ⟨.ok .done, _, rfl, rfl⟩
    | ask question =>
      obtain ⟨journal, hrun⟩ := question.yields s
      exact ⟨_, _, hrun, by simp⟩
  | some lesson =>
    cases lesson with
    | error e => exact Or.inr (Or.inl ⟨rfl, e, run_of_no_profile h⟩)
    | ok profile =>
      cases hadd : s.model.statistics.add profile with
      | error e => exact Or.inr (Or.inl ⟨rfl, e, run_of_not_added h hadd⟩)
      | ok statistics => exact Or.inr (Or.inr ⟨rfl, profile, _, hadd, run_of_added h hadd⟩)

/-- A request that fails leaves the statistics as they were, and leaves everything as it was if it
was one to learn something. -/
theorem run_error {e : Failure α} {t : Session α} (h : r.run.run s = .error e t) :
    t.model.statistics = s.model.statistics ∧ (r.teaches = true → t = s) := by
  rcases r.run_cases s with ⟨hno, answer, u, hrun, hsame⟩ | ⟨-, e', hrun⟩ | ⟨-, -, u, -, hrun⟩
  · rw [hrun] at h
    have htu : t = u := by cases answer <;> cases h; rfl
    exact ⟨htu ▸ hsame, fun hyes => absurd hyes (by simp [hno])⟩
  · rw [hrun] at h
    cases h
    exact ⟨rfl, fun _ => rfl⟩
  · rw [hrun] at h
    cases h

end Request

/-- How many profiles a run of requests has taught, told by the answers. -/
def taughtIn (requests : List (Request α)) (answers : List (Except (Failure α) (Answer α))) : Nat :=
  (requests.zip answers).countP fun (request, answer) => request.teaches && answer.isOk

namespace Session

variable [Scalar α] [LinearAlgebra α]

theorem count_after (s : Session α) (requests : List (Request α)) :
    (s.after requests).model.count = s.model.count + taughtIn requests (s.answers requests) := by
  induction requests generalizing s with
  | nil => rfl
  | cons request rest ih =>
    rcases request.run_cases s with
      ⟨hno, answer, t, hrun, hsame⟩ | ⟨hyes, e, hrun⟩ | ⟨hyes, profile, t, hadd, hrun⟩
    · have hcount : t.model.count = s.model.count := congrArg Statistics.count hsame
      cases answer <;>
        simp [after, answers, hrun, ModelM.ending, ih, taughtIn, hno, hcount]
    · simp [after, answers, hrun, ih, taughtIn, Except.isOk, Except.toBool]
    · have hcount : t.model.count = s.model.count + 1 := (Statistics.of_add hadd).1
      simp [after, answers, hrun, ih, taughtIn, hyes, hcount, Except.isOk, Except.toBool]
      omega

theorem dimension?_after {s : Session α} {n : Nat} (h : s.model.statistics.dimension? = some n)
    (requests : List (Request α)) : (s.after requests).model.statistics.dimension? = some n := by
  induction requests generalizing s with
  | nil => exact h
  | cons request rest ih =>
    rcases request.run_cases s with ⟨-, answer, t, hrun, hsame⟩ | ⟨-, e, hrun⟩ |
      ⟨-, profile, t, hadd, hrun⟩
    · cases answer <;> simpa [after, hrun, ModelM.ending] using ih (hsame ▸ h)
    · simpa [after, hrun] using ih h
    · have hlength : profile.length = n := Statistics.length_of_add hadd h
      have hnext := (Statistics.of_add hadd).2
      rw [hlength] at hnext
      simpa [after, hrun] using ih hnext

theorem dimension?_after_cons {s : Session α} {r : Request α} {profile : List α}
    (h : r.lesson? s.model = some (.ok profile)) {statistics : Statistics α}
    (hadd : s.model.statistics.add profile = .ok statistics) (rest : List (Request α)) :
    (s.after (r :: rest)).model.statistics.dimension? = some profile.length := by
  simp only [after, Request.run_of_added h hadd]
  exact dimension?_after (Statistics.of_add hadd).2 rest

/-- A model is trained as soon as it knows how long profiles have to be. -/
theorem isSome_dimension?_after {s : Session α}
    (h : s.model.statistics.dimension?.isSome = s.model.isTrained) (requests : List (Request α)) :
    (s.after requests).model.statistics.dimension?.isSome =
      (s.after requests).model.isTrained := by
  -- On the requests: only one that teaches touches the statistics, and it settles both sides.
  induction requests generalizing s with
  | nil => exact h
  | cons request rest ih =>
    rcases request.run_cases s with ⟨-, answer, t, hrun, hsame⟩ | ⟨-, e, hrun⟩ |
      ⟨-, profile, t, hadd, hrun⟩
    · have hnext : t.model.statistics.dimension?.isSome = t.model.isTrained := by
        rw [Model.isTrained, Model.count, hsame]
        exact h
      cases answer <;> simpa [after, hrun, ModelM.ending] using ih hnext
    · simpa [after, hrun] using ih h
    · obtain ⟨hcount, hlength⟩ := Statistics.of_add hadd
      have hnext : t.model.statistics.dimension?.isSome = t.model.isTrained := by
        simp [Model.isTrained, Model.count, hcount, hlength]
      simpa [after, hrun] using ih hnext

end Session

theorem Model.statistics_of_create {samples : Int} {sampler : Sampler α} {limit : α} {m : Model α}
    (h : create samples sampler limit = .ok m) : m.statistics = .empty := by
  unfold create at h
  split at h <;> cases h
  rfl

section

variable [Scalar α] [LinearAlgebra α]

theorem Session.settled_after {samples : Int} {sampler : Sampler α} {limit : α} {m : Model α}
    (h : Model.create samples sampler limit = .ok m) (requests : List (Request α)) :
    (m.start.after requests).model.statistics.dimension?.isSome =
      (m.start.after requests).model.isTrained := by
  apply isSome_dimension?_after
  rw [Model.isTrained, Model.count, Model.start, Model.statistics_of_create h]
  rfl

/-- What a model has learned after any run, and what the next request can change about it. What
fails changes nothing of the statistics. Profiles are counted as they are accepted, and the first of
them settles which others are. -/
theorem lifecycle_after {samples : Int} {sampler : Sampler α} {limit : α} {m : Model α}
    (h : Model.create samples sampler limit = .ok m) (requests : List (Request α)) :
    let s := m.start.after requests
    (∀ (request : Request α) (e : Failure α) (t : Session α), request.run.run s = .error e t →
      t.model.statistics = s.model.statistics ∧ (request.teaches = true → t = s)) ∧
    s.model.count = taughtIn requests (m.start.answers requests) ∧
    (s.model.isTrained = true ↔ 0 < taughtIn requests (m.start.answers requests)) ∧
    (s.model.isTrained = true ↔ ∃ n, s.model.statistics.dimension? = some n) ∧
    (∀ later, s.model.count ≤ (s.after later).model.count ∧
      ∀ n, s.model.statistics.dimension? = some n →
        (s.after later).model.statistics.dimension? = some n) ∧
    (∀ (request : Request α) (e : Failure α), request.lesson? s.model = some (.error e) →
      request.run.run s = .error e s) ∧
    ∀ (request : Request α) (profile : List α), request.lesson? s.model = some (.ok profile) →
      ((∀ n, s.model.statistics.dimension? = some n → profile.length = n) →
        ∃ t, request.run.run s = .ok .done t ∧ t.model.count = s.model.count + 1 ∧
          t.model.statistics.dimension? = some profile.length) ∧
      ∀ n, s.model.statistics.dimension? = some n → profile.length ≠ n →
        request.run.run s = .error (.dimensionMismatch n profile.length) s := by
  intro s
  have hstart : m.start.model.count = 0 := congrArg Statistics.count (Model.statistics_of_create h)
  have hcount : s.model.count = taughtIn requests (m.start.answers requests) := by
    rw [m.start.count_after requests, hstart, Nat.zero_add]
  have htrained : s.model.isTrained = true ↔ 0 < s.model.count := by simp [Model.isTrained]
  have hsettled := Session.settled_after h requests
  refine ⟨fun request e t => Request.run_error, hcount, ?_, ?_, ?_, ?_, ?_⟩
  · rw [htrained, hcount]
  · rw [← hsettled, Option.isSome_iff_exists]
  · intro later
    refine ⟨?_, fun n hn => Session.dimension?_after hn later⟩
    rw [s.count_after later]
    exact Nat.le_add_right _ _
  · intro request e he
    exact Request.run_of_no_profile he
  · intro request profile hprofile
    constructor
    · intro hlength
      obtain ⟨statistics, hadd⟩ := Statistics.exists_add hlength
      obtain ⟨hnext, hdimension⟩ := Statistics.of_add hadd
      exact ⟨_, Request.run_of_added hprofile hadd, hnext, hdimension⟩
    · intro n hn hlength
      exact Request.run_of_not_added hprofile (Statistics.add_eq_error hn hlength)

end

/-- A vector of another length than the first one is refused among others that are accepted, and is
refused again after them. -/
theorem lifecycle_after_three :
    let requests : List (Request Exact) :=
      [.updateVector (Exact.ofReals ![1, 3]), .updateVector [1], .setLimit 0,
        .updateVector (Exact.ofReals ![2, 0])]
    ∃ m : Model Exact, Model.create 2 .nearest 1 = .ok m ∧
      (m.start.after requests).model.count = 2 ∧
      (Request.updateVector [1]).run.run (m.start.after requests) =
        .error (.dimensionMismatch 2 1) (m.start.after requests) := by
  intro requests
  obtain ⟨m, h⟩ : ∃ m : Model Exact, Model.create 2 .nearest 1 = .ok m := ⟨_, rfl⟩
  obtain ⟨-, hcount, -, -, -, -, hlesson⟩ := lifecycle_after h requests
  cases h
  exact ⟨_, rfl, hcount, (hlesson (.updateVector [1]) [1] rfl).2 2 rfl (by decide)⟩

end Transect
