import Transect.Proofs.Operations
import Transect.Proofs.UnusableModels

/-!
# Asking without being noticed

A model that has been asked more keeps derived values that another one has yet to work out. This
shows in no answer until the limit is changed: what has been kept stays as it was derived, and what
has not will be derived at the new limit. A vector that is accepted makes both models equal again.
-/
namespace Transect

variable {α : Type} [Scalar α] [LinearAlgebra α]

theorem Operation.next_kept (o : Operation α) (m : Model α) (asked : Bool)
    (h : o.assigns = false) : ∃ again, o.next (m.kept asked) = (o.next m).kept again := by
  rcases o.changes m h with ⟨-, later, hnext⟩ | ⟨profile, statistics, -, -, hnext⟩
  · have hasked : o.next (m.kept asked) = (m.kept asked).kept later := hnext asked
    have hm : o.next m = m.kept later := hnext false
    refine ⟨asked, ?_⟩
    rw [hasked, hm, Model.kept_kept, Model.kept_kept, Bool.or_comm]
  · exact ⟨false, (hnext asked).trans (hnext false).symm⟩

/-- In a run without a new limit a model that had been asked more gives the same replies, and at
most it has been asked more in the end, too. -/
theorem Model.run_kept {m : Model α} {asked : Bool} {operations : List (Operation α)}
    (hno : ∀ o ∈ operations, o.assigns = false) :
    (m.kept asked).replies operations = m.replies operations ∧
      ∃ again, (m.kept asked).through operations = (m.through operations).kept again := by
  induction operations generalizing m asked with
  | nil => exact ⟨rfl, asked, rfl⟩
  | cons o rest ih =>
    obtain ⟨ho, hrest⟩ := List.forall_mem_cons.mp hno
    obtain ⟨middle, hnext⟩ := o.next_kept m asked ho
    obtain ⟨hreplies, again, hthrough⟩ := ih (m := o.next m) hrest
    refine ⟨?_, again, ?_⟩
    · rw [replies, replies, o.reply_kept, hnext, hreplies]
    · simpa [through, hnext] using hthrough

namespace Model

def forgotten (m : Model α) : Model α := { m with derived? := none }

@[simp] theorem forgotten_kept (m : Model α) (asked : Bool) :
    (m.kept asked).forgotten = m.forgotten := by
  cases asked <;> rfl

omit [Scalar α] [LinearAlgebra α] in
theorem forgotten_eq_self {m : Model α} (h : m.derived? = none) : m.forgotten = m := by
  cases m
  cases h
  rfl

end Model

namespace Operation

variable (o : Operation α) (m : Model α)

omit [LinearAlgebra α] in
theorem accepted_forgotten : o.accepted m.forgotten = o.accepted m := by
  cases o with
  | request r => cases r <;> rfl
  | refine config image line => rfl

theorem next_forgotten : (o.next m.forgotten).forgotten = (o.next m).forgotten := by
  have hlesson (lesson : Except (Failure α) (List α)) :
      ((m.taught lesson).toOption.getD m.forgotten).forgotten =
        ((m.taught lesson).toOption.getD m).forgotten := by
    cases m.taught lesson <;> rfl
  cases o with
  | request r =>
    cases r with
    | update image line => exact hlesson _
    | updateVector profile => exact hlesson _
    | setLimit limit => rfl
    | ask question =>
      rw [next, next, Model.forgotten_kept, Model.forgotten_kept]
      rfl
  | refine config image line =>
    rw [next, next, Model.forgotten_kept, Model.forgotten_kept]
    rfl

variable {o m}

theorem derived?_next (h : o.accepted m ≠ []) : (o.next m).derived? = none := by
  rcases o.next_cases m with ⟨hnone, -⟩ | ⟨hnone, -⟩ | ⟨profile, statistics, -, -, hnext⟩
  · exact absurd hnone h
  · exact absurd hnone h
  · exact congrArg Model.derived? hnext

end Operation

namespace Model

variable {m n : Model α} {operations : List (Operation α)}

theorem forgotten_next (h : m.forgotten = n.forgotten) (o : Operation α) :
    (o.next m).forgotten = (o.next n).forgotten := by
  rw [← o.next_forgotten m, h, o.next_forgotten n]

omit [LinearAlgebra α] in
theorem accepted_eq (h : m.forgotten = n.forgotten) (o : Operation α) :
    o.accepted m = o.accepted n := by
  rw [← o.accepted_forgotten m, h, o.accepted_forgotten n]

theorem forgotten_through (h : m.forgotten = n.forgotten) :
    (m.through operations).forgotten = (n.through operations).forgotten := by
  induction operations generalizing m n with
  | nil => exact h
  | cons o rest ih => exact ih (forgotten_next h o)

/-- After a vector has been accepted it makes no difference what had been kept before. -/
theorem through_eq_of_accepted (h : m.forgotten = n.forgotten) (hne : m.accepted operations ≠ []) :
    m.through operations = n.through operations := by
  induction operations generalizing m n with
  | nil => exact absurd rfl hne
  | cons o rest ih =>
    have hnext := forgotten_next h o
    rw [accepted] at hne
    by_cases hm : o.accepted m = []
    · rw [hm, List.nil_append] at hne
      exact ih hnext hne
    · have hn : o.accepted n ≠ [] := accepted_eq h o ▸ hm
      rw [forgotten_eq_self (Operation.derived?_next hm),
        forgotten_eq_self (Operation.derived?_next hn)] at hnext
      exact congrArg (·.through rest) hnext

end Model

theorem Model.learned_of_create {samples : Int} {sampler : Sampler α} {limit : α} {m : Model α}
    (h : Model.create samples sampler limit = .ok m) : m.Learned [] := by
  obtain ⟨-, -, -, hstatistics, hderived⟩ := of_create h
  refine ⟨congrArg Except.ok hstatistics.symm, fun d hd => ?_⟩
  rw [hderived] at hd
  cases hd

/-- Mean and covariance do not depend on the limit, and neither does the reason why there are
none. -/
theorem Statistics.derive_bind_estimate {β : Type} (statistics : Statistics α) (limit other : α)
    (f : Estimate α → Except (Failure α) β) :
    (statistics.derive limit >>= fun d => f d.toEstimate) =
      statistics.derive other >>= fun d => f d.toEstimate := by
  cases statistics with
  | empty => rfl
  | ofLength n moments =>
    simp only [derive, estimate, ok_bind]
    rcases Nat.eq_zero_or_pos n with rfl | hn
    · rw [Mat.invert_empty, Mat.invert_empty]
    · obtain ⟨inversion, hinversion⟩ := moments.covariance.exists_invert hn limit
      obtain ⟨another, hanother⟩ := moments.covariance.exists_invert hn other
      rw [hinversion, hanother]
      rfl

namespace Model

variable {m n : Model α} {vectors : List (List α)} {limit : α}

namespace Learned

theorem after_question (h : m.Learned vectors) (asked : Bool) : (m.kept asked).Learned vectors := by
  refine ⟨h.statistics.trans (congrArg Except.ok (m.statistics_kept asked).symm), ?_⟩
  intro d hd
  cases asked with
  | false => exact h.kept d hd
  | true =>
    obtain ⟨limit, hlimit⟩ := h.derivation_eq
    have hkept : m.derivation.toOption = some d := hd
    refine ⟨limit, ?_⟩
    rw [statistics_kept, ← hlimit]
    cases hderivation : m.derivation with
    | error e =>
      rw [hderivation] at hkept
      cases hkept
    | ok other =>
      rw [hderivation] at hkept
      exact congrArg Except.ok (Option.some.inj hkept)

theorem next (h : m.Learned vectors) (o : Operation α) :
    (o.next m).Learned (vectors ++ o.accepted m) := by
  rcases o.next_cases m with ⟨hnone, again, hnext⟩ | ⟨hnone, limit, hnext⟩ |
    ⟨profile, statistics, haccepted, hadd, hnext⟩
  · rw [hnone, List.append_nil, hnext]
    exact h.after_question again
  · rw [hnone, List.append_nil, hnext]
    exact ⟨h.statistics, h.kept⟩
  · rw [haccepted, hnext]
    refine ⟨?_, fun d hd => by cases hd⟩
    rw [Statistics.ofVectors_append, h.statistics]
    exact hadd

theorem through (h : m.Learned vectors) (operations : List (Operation α)) :
    (m.through operations).Learned (vectors ++ m.accepted operations) := by
  induction operations generalizing m vectors with
  | nil => exact (List.append_nil vectors).symm ▸ h
  | cons o rest ih =>
    rw [accepted, ← List.append_assoc]
    exact ih (h.next o)

end Learned

/-- What a model answers with was worked out at this limit, or is going to be. -/
def DerivesAt (m : Model α) (limit : α) : Prop := m.derivation = m.statistics.derive limit

theorem derivesAt_of_none (h : m.derived? = none) : m.DerivesAt m.conditionLimit := by
  rw [DerivesAt, derivation, h]
  rfl

end Model

/-- What has been kept stays as it was derived. Anything else will be derived at the limit that a
model then has. -/
theorem Operation.derivesAt_next {o : Operation α} {m : Model α} {limit : α}
    (h : m.DerivesAt limit) :
    (o.next m).DerivesAt (if m.derived?.isSome && (o.next m).derived?.isSome then limit
      else (o.next m).conditionLimit) := by
  cases hsome : (o.next m).derived? with
  | none => simpa using Model.derivesAt_of_none hsome
  | some d =>
    rcases o.next_cases m with
      ⟨-, again, hnext⟩ | ⟨-, limit', hnext⟩ | ⟨profile, statistics, -, -, hnext⟩
    · rw [hnext, Model.DerivesAt, Model.derivation_kept, Model.statistics_kept,
        Model.conditionLimit_kept]
      cases hkept : m.derived? with
      | none => exact Model.derivesAt_of_none hkept
      | some e => exact h
    · rw [hnext] at hsome ⊢
      have hkept : m.derived? = some d := hsome
      simpa [Model.DerivesAt, Model.derivation, hkept] using h
    · rw [hnext] at hsome
      cases hsome

/-- The limit at which the derived values are worked out, or have been if they are kept: during a
run it changes to the present limit whenever there are values to be worked out anew. -/
def Session.limitInForce : Session α → α → List (Operation α) → α
  | _, limit, [] => limit
  | s, limit, o :: rest =>
    match o.run.run s with
    | .ok _ t | .error _ t =>
      t.limitInForce
        (if s.model.derived?.isSome && t.model.derived?.isSome then limit
          else t.model.conditionLimit) rest

theorem Session.derivesAt_through {s : Session α} {limit : α} (h : s.model.DerivesAt limit)
    (operations : List (Operation α)) :
    (s.through operations).model.DerivesAt (s.limitInForce limit operations) := by
  -- On the operations, each of which may bring another limit into force.
  induction operations generalizing s limit with
  | nil => exact h
  | cons o rest ih =>
    obtain ⟨journal, hrun⟩ := o.exists_run s
    have hnext := ih (s := ⟨o.next s.model, journal⟩) (Operation.derivesAt_next h)
    cases hreply : o.reply s.model <;>
      simpa only [through, limitInForce, hrun, hreply, ModelM.ending] using hnext

/-- Whether the reply to an operation has nothing to do with the inverse of the covariance. -/
def Operation.sparesInverse : Operation α → Bool
  | request (.ask .mean) | request (.ask .covariance) => true
  | request (.ask _) | refine .. => false
  | request _ => true

namespace Model

variable {m n : Model α} {vectors others : List (List α)}

theorem reply_eq_of_sparesInverse (h : m.forgotten = n.forgotten) (hm : m.Learned vectors)
    (hn : n.Learned others) {o : Operation α} (ho : o.sparesInverse = true) :
    o.reply m = o.reply n := by
  -- What is taught or assigned does not look at what has been kept.
  have hforgotten (hsame : ∀ k : Model α, o.reply k = o.reply k.forgotten) :
      o.reply m = o.reply n := by
    rw [hsame m, h, ← hsame n]
  -- Questions are about the same estimate.
  have hestimate {β : Type} (f : Estimate α → Except (Failure α) β) :
      (m.derivation >>= fun d => f d.toEstimate) = n.derivation >>= fun d => f d.toEstimate := by
    obtain ⟨limit, hlimit⟩ := hm.derivation_eq
    obtain ⟨other, hother⟩ := hn.derivation_eq
    have hstatistics : m.forgotten.statistics = n.forgotten.statistics := congrArg _ h
    rw [hlimit, hother, show m.statistics = n.statistics from hstatistics]
    exact n.statistics.derive_bind_estimate limit other f
  have hanswer {x y : Except (Failure α) (Answer α)} (hxy : x = y) :
      (x >>= fun a => pure (Reply.answer a)) = y >>= fun a => pure (Reply.answer a) := by
    rw [hxy]
  cases o with
  | request r =>
    cases r with
    | update image line => exact hforgotten fun _ => rfl
    | updateVector profile => exact hforgotten fun _ => rfl
    | setLimit limit => exact hforgotten fun _ => rfl
    | ask question =>
      cases question with
      | mean => exact hanswer (hestimate fun e => .ok (Answer.numbers e.mean.toList))
      | covariance => exact hanswer (hestimate fun e => .ok (Answer.matrix e.covariance.toLists))
      | inverseCovariance => cases ho
      | score profile => cases ho
      | scoreImage image line => cases ho
      | scoreWindow array => cases ho
      | scoreWindowImage image line count => cases ho
      | bestPosition image line count => cases ho
  | refine config image line => cases ho

/-- Two models that derive the same keep the same as soon as they are both asked. -/
theorem kept_eq (h : m.forgotten = n.forgotten) (hderivation : m.derivation = n.derivation) :
    m.kept true = n.kept true := by
  have hm : m.kept true = { m.forgotten with derived? := m.derivation.toOption } := rfl
  rw [hm, h, hderivation]
  rfl

theorem replies_eq_of_derivation (h : m.forgotten = n.forgotten)
    (hderivation : m.derivation = n.derivation) {operations : List (Operation α)}
    (hno : ∀ o ∈ operations, o.assigns = false) : m.replies operations = n.replies operations := by
  have hm : (m.kept true).replies operations = m.replies operations := (run_kept hno).1
  rw [← hm, kept_eq h hderivation, (run_kept hno).1]

theorem exists_kept_of_isQuery {q : Operation α} (hq : q.isQuery = true) (m : Model α) :
    ∃ asked, q.next m = m.kept asked := by
  cases q with
  | request r =>
    cases r with
    | ask question => exact ⟨_, rfl⟩
    | update image line => cases hq
    | updateVector profile => cases hq
    | setLimit limit => cases hq
  | refine config image line => exact ⟨_, rfl⟩

end Model

namespace Model

variable {m n : Model α} {asked : Bool} {operations : List (Operation α)}

/-- Having been asked more is made up for by an accepted vector. So it is by a question that works
the derived values out while the limit is still the same. -/
theorem through_kept (h : m.accepted operations ≠ [] ∨
      (∀ o ∈ operations, o.assigns = false) ∧ (m.through operations).derived?.isSome = true) :
    (m.kept asked).through operations = m.through operations := by
  rcases h with haccepted | ⟨hno, hkept⟩
  · exact (through_eq_of_accepted (m.forgotten_kept asked).symm haccepted).symm
  · obtain ⟨again, hthrough⟩ := (run_kept hno).2
    obtain ⟨d, hd⟩ := Option.isSome_iff_exists.mp hkept
    rw [hthrough, kept_of_some hd]

theorem kept_eq_self (h : (m.kept asked).derived?.isSome = true → m.derived?.isSome = true) :
    m.kept asked = m := by
  cases hd : m.derived? with
  | some d => exact kept_of_some hd asked
  | none =>
    rw [hd] at h
    have hnone : (m.kept asked).derived? = none := by simpa using h
    rw [← forgotten_eq_self hnone, forgotten_kept, forgotten_eq_self hd]

/-- Two models that have been created alike and have accepted the same vectors differ in their
limits and in what has been kept only. -/
theorem forgotten_eq_of_accepted {samples : Int} {sampler : Sampler α} {limit other : α}
    (hm : Model.create samples sampler limit = .ok m)
    (hn : Model.create samples sampler other = .ok n) {history : List (Operation α)}
    (haccepted : n.accepted history = m.accepted operations)
    (hlimit : (n.through history).conditionLimit = (m.through operations).conditionLimit) :
    (n.through history).forgotten = (m.through operations).forgotten := by
  obtain ⟨hmfootprint, hmsampler, -⟩ := of_create hm
  obtain ⟨hnfootprint, hnsampler, -⟩ := of_create hn
  obtain ⟨hmfootprint', hmsampler'⟩ := m.fixed_through operations
  obtain ⟨hnfootprint', hnsampler'⟩ := n.fixed_through history
  have hstatistics : (n.through history).statistics = (m.through operations).statistics := by
    have hmlearned := ((learned_of_create hm).through operations).statistics
    have hnlearned := ((learned_of_create hn).through history).statistics
    rw [haccepted, hmlearned] at hnlearned
    exact (Except.ok.inj hnlearned).symm
  simp [forgotten, hmfootprint, hmsampler, hnfootprint, hnsampler, hmfootprint', hmsampler',
    hnfootprint', hnsampler', hstatistics, hlimit]

end Model

/-- In any state that a model can get into, a question is hardly noticed. Until the limit is changed
all replies are those of a model that has not been asked. So they are afterwards if this model has
worked its derived values out in the meantime, if a vector is accepted, or if the question had
nothing worked out; and so are all those that do not depend on the inverse of the covariance. In
general, two models that have accepted the same vectors reply the same if their limits are the same,
the present ones and those in force. -/
theorem queries_transparent {samples : Int} {sampler : Sampler α} {limit : α} {m : Model α}
    (h : Model.create samples sampler limit = .ok m) (before : List (Operation α))
    {q : Operation α} (hq : q.isQuery = true) :
    let s := m.start.through before
    let t := m.start.through (before ++ [q])
    (∀ later, (∀ o ∈ later, o.assigns = false) → t.replies later = s.replies later) ∧
    (∀ first rest, s.accepted first ≠ [] ∨
        (∀ o ∈ first, o.assigns = false) ∧ (s.through first).model.derived?.isSome = true →
      (t.through first).replies rest = (s.through first).replies rest) ∧
    ((t.model.derived?.isSome = true → s.model.derived?.isSome = true) →
      ∀ later, t.replies later = s.replies later) ∧
    (∀ (later : List (Operation α)) (i : Nat) (o : Operation α), later[i]? = some o →
      o.sparesInverse = true → (t.replies later)[i]? = (s.replies later)[i]?) ∧
    ∀ (other : α) (n : Model α) (history : List (Operation α)),
      Model.create samples sampler other = .ok n →
      let u := n.start.through history
      n.start.accepted history = m.start.accepted before →
      u.model.conditionLimit = s.model.conditionLimit →
      n.start.limitInForce other history = m.start.limitInForce limit before →
      ∀ later, (∀ o ∈ later, o.assigns = false) → u.replies later = s.replies later := by
  intro s t
  have hs : s.model = m.through before := m.start.model_through before
  obtain ⟨asked, ht⟩ : ∃ asked, t.model = s.model.kept asked := by
    obtain ⟨asked, hasked⟩ := Model.exists_kept_of_isQuery hq (m.through before)
    refine ⟨asked, ?_⟩
    rw [hs, ← hasked]
    exact (m.start.model_through _).trans (m.through_append before [q])
  have hlearned : s.model.Learned (m.accepted before) := by
    rw [hs]
    exact (Model.learned_of_create h).through before
  simp only [Session.replies_eq, Session.accepted_eq, Session.model_through, ht]
  refine ⟨fun later hno => (Model.run_kept hno).1, fun first rest hfirst => ?_,
    fun hsome later => ?_, fun later i o ho hspares => ?_, ?_⟩
  · rw [Model.through_kept hfirst]
  · rw [Model.kept_eq_self hsome]
  · have hforgotten : ((s.model.kept asked).through (later.take i)).forgotten =
        (s.model.through (later.take i)).forgotten :=
      Model.forgotten_through (s.model.forgotten_kept asked)
    rw [Model.getElem?_replies, Model.getElem?_replies, ho, Option.map_some, Option.map_some,
      Model.reply_eq_of_sparesInverse hforgotten ((hlearned.after_question asked).through _)
        (hlearned.through _) hspares]
  · intro other n history hn haccepted hlimit hinForce later hno
    have hforgotten : (n.through history).forgotten = s.model.forgotten := by
      rw [hs]
      rw [hs] at hlimit
      exact Model.forgotten_eq_of_accepted h hn haccepted hlimit
    apply Model.replies_eq_of_derivation hforgotten _ hno
    have hfirst {k : α} {l : Model α} (hl : Model.create samples sampler k = .ok l) :
        l.start.model.DerivesAt k := by
      obtain ⟨-, -, hlimit, -, hnone⟩ := Model.of_create hl
      exact hlimit ▸ Model.derivesAt_of_none hnone
    have hm := Session.derivesAt_through (hfirst h) before
    have hu := Session.derivesAt_through (hfirst hn) history
    have hstatistics : (n.through history).forgotten.statistics = s.model.forgotten.statistics :=
      congrArg _ hforgotten
    rw [Session.model_through, hinForce] at hu
    exact (hu.trans (congrArg (Statistics.derive · _) hstatistics)).trans hm.symm

/-- Two vectors are learned and the inverse is asked for. A model that was created at another limit
has accepted the same vectors, although it was asked too early and given one of a wrong length. -/
theorem queries_transparent_of_two :
    let update (v : List Exact) : Operation Exact := .request (.updateVector v)
    let ask (q : Question Exact) : Operation Exact := .request (.ask q)
    let before := [update (Exact.ofReals ![0]), update (Exact.ofReals ![2])]
    let history := ask .mean :: before ++ [update [], .request (.setLimit 0)]
    let later := [.request (.setLimit 1), ask .inverseCovariance]
    ∃ m n : Model Exact, Model.create 1 .nearest 0 = .ok m ∧ Model.create 1 .nearest 1 = .ok n ∧
      let s := m.start.through before
      let t := m.start.through (before ++ [ask .inverseCovariance])
      t.replies [ask (.score (Exact.ofReals ![3]))] =
        s.replies [ask (.score (Exact.ofReals ![3]))] ∧
      (t.through [update (Exact.ofReals ![5])]).replies later =
        (s.through [update (Exact.ofReals ![5])]).replies later ∧
      (t.replies [.request (.setLimit 1), ask .mean])[1]? =
        (s.replies [.request (.setLimit 1), ask .mean])[1]? ∧
      (n.start.through history).replies [ask .inverseCovariance] =
        s.replies [ask .inverseCovariance] ∧
      (m.start.through [ask .mean]).replies (before ++ later) =
        m.start.replies (before ++ later) := by
  intro update ask before history later
  obtain ⟨m, hm⟩ : ∃ m : Model Exact, Model.create 1 .nearest 0 = .ok m := ⟨_, rfl⟩
  obtain ⟨n, hn⟩ : ∃ n : Model Exact, Model.create 1 .nearest 1 = .ok n := ⟨_, rfl⟩
  obtain ⟨hsame, hlearned, -, hspared, htwo⟩ :=
    queries_transparent hm before (q := ask .inverseCovariance) rfl
  obtain ⟨-, -, hearly, -, -⟩ := queries_transparent hm [] (q := ask .mean) rfl
  have hno (q : Question Exact) : ∀ o ∈ [ask q], o.assigns = false :=
    List.forall_mem_singleton.mpr rfl
  refine ⟨m, n, hm, hn, hsame _ (hno _), hlearned _ later (Or.inl ?_),
    hspared _ 1 (ask .mean) rfl rfl, htwo 1 n history hn ?_ ?_ ?_ _ (hno _), hearly ?_ _⟩
  all_goals
    cases hm
    cases hn
  · exact List.cons_ne_nil (Exact.ofReals ![5]) []
  · rfl
  · rfl
  · rfl
  · rintro ⟨⟩

/-! The limit of a question that comes too early stays in force. -/

theorem Statistics.derive_of_invert {n : Nat} {moments : Moments α n} {limit : α}
    {inversion : Inversion α n} (h : moments.covariance.invert limit = .ok inversion) :
    (ofLength n moments).derive limit =
      .ok ⟨⟨n, moments.mean, moments.covariance⟩, inversion⟩ := by
  simp only [derive, estimate, ok_bind, h]
  rfl

/-- A model that is asked before the limit is changed and once more afterwards gives its old answer
again, which a model that was not asked before does not give. -/
theorem Model.replies_inverse {m : Model α} {early late : Derived α} {limit : α}
    (hnone : m.derived? = none) (hearly : m.statistics.derive m.conditionLimit = .ok early)
    (hlate : m.statistics.derive limit = .ok late) :
    let operations : List (Operation α) :=
      [.request (.setLimit limit), .request (.ask .inverseCovariance)]
    let found (d : Derived α) : List (Except (Failure α) (Reply α)) :=
      [.ok (.answer .done), .ok (.answer (.matrix d.inversion.matrix.toLists))]
    (m.kept true).replies operations = found early ∧ m.replies operations = found late := by
  intro operations found
  have hreplies {k : Model α} {d : Derived α}
      (h : Model.derivation { k with conditionLimit := limit } = .ok d) :
      k.replies operations = found d := by
    simp only [operations, found, replies, Operation.reply, Operation.next, Question.answer,
      scorer, h]
    rfl
  have hderivation : m.derivation = .ok early := (derivesAt_of_none hnone).trans hearly
  have hkept : (m.kept true).derived? = some early := by
    simp only [kept, if_true, hderivation, Except.toOption]
  refine ⟨hreplies ?_, hreplies ?_⟩
  · simp only [derivation, hkept]
  · simp only [derivation, hnone]
    exact hlate

namespace Mat

variable {n : ℕ} {A : Matrix (Fin n) (Fin n) ℝ}

theorem invert_inf (hn : 0 < n) (h : A.det ≠ 0) :
    (ofReal A).invert Scalar.inf = .ok ⟨ofReal A⁻¹, true⟩ := by
  have hle : LinearAlgebra.condition (ofReal A) ≤ (Scalar.inf : Exact) := by
    simp only [LinearAlgebra.condition, toReal_ofReal, if_neg h]
    exact ⟨_, rfl, ⊤, rfl, le_top⟩
  simp [invert, hn.ne', hle, LinearAlgebra.inverse?, h]

open scoped Matrix.Norms.L2Operator in
theorem invert_zero (hn : 0 < n) (h : A.det ≠ 0) :
    (ofReal A).invert 0 = .ok (.fallback n) := by
  have : Nonempty (Fin n) := ⟨⟨0, hn⟩⟩
  have hunit : IsUnit A := (Matrix.isUnit_iff_isUnit_det A).mpr (Ne.isUnit h)
  have hpos : 0 < ‖A‖ * ‖A⁻¹‖ := by
    have hinv : IsUnit A⁻¹ := Matrix.isUnit_nonsing_inv_iff.mpr hunit
    exact mul_pos (norm_pos_iff.mpr hunit.ne_zero) (norm_pos_iff.mpr hinv.ne_zero)
  have hle : ¬ LinearAlgebra.condition (ofReal A) ≤ (0 : Exact) := by
    simp only [LinearAlgebra.condition, toReal_ofReal, if_neg h, ← Exact.coe_zero,
      Exact.coe_le_coe]
    exact not_le.mpr hpos
  simp [invert, hn.ne', hle]

end Mat

/-- The inverse is asked for at a limit that lets nothing pass, and again at one that lets all pass.
The second answer is still the identity, whereas without the first question it is the inverse of the
covariance. -/
theorem queries_not_transparent_of_two :
    let before : List (Operation Exact) :=
      [.request (.updateVector (Exact.ofReals ![0])), .request (.updateVector (Exact.ofReals ![2]))]
    let q : Operation Exact := .request (.ask .inverseCovariance)
    let later : List (Operation Exact) := [.request (.setLimit Scalar.inf), q]
    ∃ m : Model Exact, Model.create 1 .nearest 0 = .ok m ∧
      let s := m.start.through before
      let t := m.start.through (before ++ [q])
      t.replies later = [.ok (.answer .done), .ok (.answer (.matrix [[1]]))] ∧
      s.replies later =
        [.ok (.answer .done), .ok (.answer (.matrix [[((1 / 2 : ℝ) : Exact)]]))] ∧
      t.replies later ≠ s.replies later := by
  intro before q later
  obtain ⟨m, hm⟩ : ∃ m : Model Exact, Model.create 1 .nearest 0 = .ok m := ⟨_, rfl⟩
  let xs : List (Fin 1 → ℝ) := [![0], ![2]]
  have hcovariance : (Moments.ofSample xs).covariance = Mat.ofReal !![2] := by
    rw [Moments.covariance_ofSample (by decide), Mat.ofReal_inj]
    ext i j
    fin_cases i; fin_cases j
    norm_num [xs, Sample.covariance, Sample.comoment, Sample.mean, Matrix.vecMulVec_apply]
  have hdet : (!![2] : Matrix (Fin 1) (Fin 1) ℝ).det ≠ 0 := by simp
  have hinv : (!![2] : Matrix (Fin 1) (Fin 1) ℝ)⁻¹ = !![1 / 2] := by
    apply Matrix.inv_eq_right_inv
    ext i j
    fin_cases i; fin_cases j
    simp
  have hearly := Statistics.derive_of_invert (hcovariance ▸ Mat.invert_zero Nat.one_pos hdet)
  have hlate := Statistics.derive_of_invert (hcovariance ▸ Mat.invert_inf Nat.one_pos hdet)
  have hlearned := (Model.learned_of_create hm).through before
  cases hm
  have htaught : Model.Learned _ (xs.map Exact.ofReals) := hlearned
  have hstatistics := htaught.statistics_eq (by simp [xs])
  rw [← hstatistics] at hearly hlate
  obtain ⟨hasked, hunasked⟩ := Model.replies_inverse rfl hearly hlate
  simp only [hinv] at hunasked
  refine ⟨_, rfl, ?_⟩
  simp only [Session.replies_eq, Session.model_through]
  refine ⟨hasked, hunasked, fun h => ?_⟩
  have hsame : ([[1]] : List (List Exact)) = [[((1 / 2 : ℝ) : Exact)]] := by
    have hlast := congrArg List.getLast? (hasked.symm.trans (h.trans hunasked))
    injection hlast with hlast
    injection hlast with hlast
    injection hlast with hlast
    injection hlast
  have hentry : ((1 : ℝ) : Exact) = ((1 / 2 : ℝ) : Exact) :=
    (List.cons.inj (List.cons.inj hsame).1).1
  exact absurd (Exact.coe_inj.mp hentry) (by norm_num)

end Transect
