import Transect.Proofs.Lifecycle

/-!
# Requests and searches as functions

Besides requests a model serves searches, which move a line through an image. What either of them
answers and what it leaves of the model are functions of the model alone, so that the same is true
of whole runs.
-/
namespace Transect

variable {α : Type}

/-- What can be done with a model. -/
inductive Operation (α : Type) where
  | request (r : Request α)
  | refine (config : SearchConfig α) (image : Raster α) (line : Line α)

inductive Reply (α : Type) where
  | answer (a : Answer α)
  | found (result : SearchResult α)

namespace Operation

def assigns : Operation α → Bool
  | request (.setLimit _) => true
  | _ => false

/-- Whether an operation asks something of the model and teaches it nothing. -/
def isQuery : Operation α → Bool
  | request (.ask _) | refine .. => true
  | _ => false

end Operation

variable [Scalar α]

/-- The model after a lesson, unless the lesson is refused. -/
def Model.taught (m : Model α) (lesson : Except (Failure α) (List α)) :
    Except (Failure α) (Model α) := do
  let statistics ← m.statistics.add (← lesson)
  return { m with statistics, derived? := none }

namespace Operation

/-- The profile that a model is asked to learn, or the reason why there is none. -/
def lesson? (m : Model α) : Operation α → Option (Except (Failure α) (List α))
  | request r => r.lesson? m
  | refine .. => none

def accepted (m : Model α) (o : Operation α) : List (List α) :=
  match o.lesson? m with
  | some (.ok profile) => if (m.statistics.add profile).isOk then [profile] else []
  | _ => []

variable [LinearAlgebra α]

def run : Operation α → ModelM α (Reply α)
  | request r => return .answer (← r.run)
  | refine config image line => return .found (← ModelM.refine config image line)

def reply (m : Model α) : Operation α → Except (Failure α) (Reply α)
  | request (.update image line) => do
    let _ ← m.taught (m.sampler.profile image line m.footprint)
    return .answer .done
  | request (.updateVector profile) => do
    let _ ← m.taught (.ok profile)
    return .answer .done
  | request (.setLimit _) => return .answer .done
  | request (.ask question) => return .answer (← question.answer m.scorer)
  | refine config image line => return .found (← m.scorer.refine config image line)

def next (m : Model α) : Operation α → Model α
  | request (.update image line) =>
    (m.taught (m.sampler.profile image line m.footprint)).toOption.getD m
  | request (.updateVector profile) => (m.taught (.ok profile)).toOption.getD m
  | request (.setLimit limit) => { m with conditionLimit := limit }
  | request (.ask question) => m.kept (question.asks m.scorer)
  | refine config image line => m.kept (m.scorer.asksRefine config image line)

end Operation

section

variable [LinearAlgebra α]

/-- All replies of a run; an operation that fails is replied to by its failure, and the run goes
on. -/
def Session.replies : Session α → List (Operation α) → List (Except (Failure α) (Reply α))
  | _, [] => []
  | s, o :: rest =>
    match o.run.run s with
    | .ok r t => .ok r :: t.replies rest
    | .error e t => .error e :: t.replies rest

def Session.through : Session α → List (Operation α) → Session α
  | s, [] => s
  | s, o :: rest =>
    match o.run.run s with
    | .ok _ t | .error _ t => t.through rest

def Session.accepted : Session α → List (Operation α) → List (List α)
  | _, [] => []
  | s, o :: rest =>
    o.accepted s.model ++ match o.run.run s with
      | .ok _ t | .error _ t => t.accepted rest

namespace Model

def replies : Model α → List (Operation α) → List (Except (Failure α) (Reply α))
  | _, [] => []
  | m, o :: rest => o.reply m :: (o.next m).replies rest

def through (m : Model α) (operations : List (Operation α)) : Model α :=
  operations.foldl (fun m o => o.next m) m

def accepted : Model α → List (Operation α) → List (List α)
  | _, [] => []
  | m, o :: rest => o.accepted m ++ (o.next m).accepted rest

variable (m : Model α)

theorem through_append (operations more : List (Operation α)) :
    m.through (operations ++ more) = (m.through operations).through more :=
  List.foldl_append

theorem getElem?_replies (operations : List (Operation α)) (i : Nat) :
    (m.replies operations)[i]? =
      operations[i]?.map fun o => o.reply (m.through (operations.take i)) := by
  induction operations generalizing m i with
  | nil => rfl
  | cons o rest ih =>
    cases i with
    | zero => rfl
    | succ i => exact ih (o.next m) i

end Model

omit [Scalar α] [LinearAlgebra α] in
theorem ModelM.ending_map {β γ : Type} {x : ModelM α β} {r : Except (Failure α) β}
    {s t : Session α} (h : x.run s = ending r t) (f : β → γ) :
    (do return f (← x) : ModelM α γ).run s = ending (r >>= fun b => pure (f b)) t := by
  rw [EStateM.run_bind, h]
  cases r <;> rfl

namespace Operation

theorem exists_run_lesson {r : Request α} {s : Session α}
    {lesson : Except (Failure α) (List α)} (h : r.lesson? s.model = some lesson) :
    ∃ journal, (request r).run.run s =
      ModelM.ending (s.model.taught lesson >>= fun _ => pure (.answer .done))
        ⟨(s.model.taught lesson).toOption.getD s.model, journal⟩ := by
  cases lesson with
  | error e =>
    exact ⟨s.journal, ModelM.ending_map (r := .error e) (Request.run_of_no_profile h) Reply.answer⟩
  | ok profile =>
    rw [Model.taught, ok_bind]
    cases hadd : s.model.statistics.add profile with
    | error e =>
      have hrun := Request.run_of_not_added h hadd
      exact ⟨s.journal, ModelM.ending_map (r := .error e) hrun Reply.answer⟩
    | ok statistics =>
      have hrun := Request.run_of_added h hadd
      exact ⟨_, ModelM.ending_map (r := .ok .done) hrun Reply.answer⟩

theorem exists_run (o : Operation α) (s : Session α) :
    ∃ journal, o.run.run s = ModelM.ending (o.reply s.model) ⟨o.next s.model, journal⟩ := by
  cases o with
  | request r =>
    cases r with
    | update image line => exact exists_run_lesson (r := .update image line) rfl
    | updateVector profile => exact exists_run_lesson (r := .updateVector profile) rfl
    | setLimit limit => exact ⟨s.journal, rfl⟩
    | ask question =>
      obtain ⟨journal, hrun⟩ := question.yields s
      exact ⟨journal, ModelM.ending_map hrun Reply.answer⟩
  | refine config image line =>
    obtain ⟨journal, hrun⟩ := ModelM.yields_refine_asks config image line s
    exact ⟨journal, ModelM.ending_map hrun Reply.found⟩

end Operation

namespace Session

variable (s : Session α) (operations : List (Operation α))

theorem model_through : (s.through operations).model = s.model.through operations := by
  induction operations generalizing s with
  | nil => rfl
  | cons o rest ih =>
    obtain ⟨journal, hrun⟩ := o.exists_run s
    have hnext := ih ⟨o.next s.model, journal⟩
    cases hreply : o.reply s.model <;>
      simpa [through, Model.through, hrun, hreply, ModelM.ending] using hnext

theorem replies_eq : s.replies operations = s.model.replies operations := by
  induction operations generalizing s with
  | nil => rfl
  | cons o rest ih =>
    obtain ⟨journal, hrun⟩ := o.exists_run s
    have hnext := ih ⟨o.next s.model, journal⟩
    cases hreply : o.reply s.model <;>
      simp [replies, Model.replies, hrun, hreply, ModelM.ending, hnext]

theorem accepted_eq : s.accepted operations = s.model.accepted operations := by
  induction operations generalizing s with
  | nil => rfl
  | cons o rest ih =>
    obtain ⟨journal, hrun⟩ := o.exists_run s
    have hnext := ih ⟨o.next s.model, journal⟩
    cases hreply : o.reply s.model <;>
      simp [accepted, Model.accepted, hrun, hreply, ModelM.ending, hnext]

end Session

@[simp] theorem Model.taught_kept (m : Model α) (asked : Bool)
    (lesson : Except (Failure α) (List α)) : (m.kept asked).taught lesson = m.taught lesson := by
  cases asked <;> rfl

namespace Operation

variable (o : Operation α) (m : Model α)

theorem reply_kept (asked : Bool) : o.reply (m.kept asked) = o.reply m := by
  cases o with
  | request r => cases r <;> simp [reply]
  | refine config image line => simp [reply]

/-- All that an operation can do to a model that may have been asked before: it teaches nothing and
asks, or not, or it teaches one more vector, after which what had been asked makes no difference. -/
def Changes (asked : Bool → Model α) (accepted : List (List α)) : Prop :=
  (accepted = [] ∧ ∃ again, ∀ before, asked before = (m.kept before).kept again) ∨
    ∃ profile statistics, accepted = [profile] ∧ m.statistics.add profile = .ok statistics ∧
      ∀ before, asked before = { m with statistics, derived? := none }

theorem changes_of_lesson {r : Request α} {lesson : Except (Failure α) (List α)}
    (h : r.lesson? m = some lesson) :
    Changes m (fun asked => (m.taught lesson).toOption.getD (m.kept asked))
      ((request r).accepted m) := by
  have hlesson : (request r).lesson? m = some lesson := h
  rw [accepted, hlesson]
  cases lesson with
  | error e => exact Or.inl ⟨rfl, false, fun asked => rfl⟩
  | ok profile =>
    simp only [Model.taught, ok_bind]
    cases hadd : m.statistics.add profile with
    | error e => exact Or.inl ⟨rfl, false, fun asked => rfl⟩
    | ok statistics => exact Or.inr ⟨profile, statistics, rfl, hadd, fun asked => rfl⟩

theorem changes (h : o.assigns = false) :
    Changes m (fun asked => o.next (m.kept asked)) (o.accepted m) := by
  cases o with
  | request r =>
    cases r with
    | update image line => simpa [next] using changes_of_lesson m (r := .update image line) rfl
    | updateVector profile =>
      simpa [next] using changes_of_lesson m (r := .updateVector profile) rfl
    | setLimit limit => cases h
    | ask question => exact Or.inl ⟨rfl, question.asks m.scorer, fun asked => by simp [next]⟩
  | refine config image line =>
    exact Or.inl ⟨rfl, m.scorer.asksRefine config image line, fun asked => by simp [next]⟩

omit [Scalar α] [LinearAlgebra α] in
theorem exists_setLimit {o : Operation α} (h : o.assigns = true) :
    ∃ limit, o = request (.setLimit limit) := by
  cases o with
  | request r =>
    cases r with
    | setLimit limit => exact ⟨limit, rfl⟩
    | update image line => cases h
    | updateVector profile => cases h
    | ask question => cases h
  | refine config image line => cases h

theorem next_cases (o : Operation α) (m : Model α) :
    (o.accepted m = [] ∧ ∃ again, o.next m = m.kept again) ∨
      (o.accepted m = [] ∧ ∃ limit, o.next m = { m with conditionLimit := limit }) ∨
      ∃ profile statistics, o.accepted m = [profile] ∧ m.statistics.add profile = .ok statistics ∧
        o.next m = { m with statistics, derived? := none } := by
  cases hassigns : o.assigns with
  | true =>
    obtain ⟨limit, rfl⟩ := exists_setLimit hassigns
    exact Or.inr (Or.inl ⟨rfl, limit, rfl⟩)
  | false =>
    rcases o.changes m hassigns with
      ⟨hnone, again, hnext⟩ | ⟨profile, statistics, haccepted, hadd, hnext⟩
    · exact Or.inl ⟨hnone, again, hnext false⟩
    · exact Or.inr (Or.inr ⟨profile, statistics, haccepted, hadd, hnext false⟩)

theorem fixed_next (o : Operation α) (m : Model α) :
    (o.next m).footprint = m.footprint ∧ (o.next m).sampler = m.sampler := by
  rcases o.next_cases m with
    ⟨-, again, hnext⟩ | ⟨-, limit, hnext⟩ | ⟨profile, statistics, -, -, hnext⟩
  · rw [hnext]
    exact ⟨m.footprint_kept again, m.sampler_kept again⟩
  · rw [hnext]
    exact ⟨rfl, rfl⟩
  · rw [hnext]
    exact ⟨rfl, rfl⟩

end Operation

theorem Model.fixed_through (m : Model α) (operations : List (Operation α)) :
    (m.through operations).footprint = m.footprint ∧
      (m.through operations).sampler = m.sampler := by
  induction operations generalizing m with
  | nil => exact ⟨rfl, rfl⟩
  | cons o rest ih =>
    obtain ⟨hfootprint, hsampler⟩ := o.fixed_next m
    obtain ⟨hfootprint', hsampler'⟩ := ih (o.next m)
    exact ⟨hfootprint'.trans hfootprint, hsampler'.trans hsampler⟩

/-- Two runs of which each operation keeps two models related and has related replies. -/
theorem Model.run_of_step {n : Nat} {s : Sampler α} {R : Model α → Model α → Prop}
    {P : Operation α → Prop} {f : Operation α → Operation α}
    {g : Operation α → Reply α → Reply α}
    (hstep : ∀ m m' o, m.footprint = n → m.sampler = s → R m m' → P o →
      (f o).reply m' = Except.map (g o) (o.reply m) ∧ R (o.next m) ((f o).next m'))
    {m m' : Model α} (hfootprint : m.footprint = n) (hsampler : m.sampler = s) (h : R m m')
    {operations : List (Operation α)} (hoperations : ∀ o ∈ operations, P o) :
    m'.replies (operations.map f) =
        List.zipWith (fun o => Except.map (g o)) operations (m.replies operations) ∧
      R (m.through operations) (m'.through (operations.map f)) := by
  -- On the operations. A step keeps the relation, and it keeps what the next step asks for.
  induction operations generalizing m m' with
  | nil => exact ⟨rfl, h⟩
  | cons o rest ih =>
    obtain ⟨ho, hrest⟩ := List.forall_mem_cons.mp hoperations
    obtain ⟨hreply, hnext⟩ := hstep m m' o hfootprint hsampler h ho
    obtain ⟨hfixed, hfixed'⟩ := o.fixed_next m
    obtain ⟨hreplies, hthrough⟩ :=
      ih (hfixed.trans hfootprint) (hfixed'.trans hsampler) hnext hrest
    refine ⟨?_, hthrough⟩
    rw [List.map_cons, replies, replies, List.zipWith_cons_cons, hreply, hreplies]

omit [Scalar α] [LinearAlgebra α] in
theorem Model.of_create {samples : Int} {sampler : Sampler α} {limit : α} {m : Model α}
    (h : Model.create samples sampler limit = .ok m) :
    m.footprint = samples.toNat ∧ m.sampler = sampler ∧ m.conditionLimit = limit ∧
      m.statistics = .empty ∧ m.derived? = none := by
  unfold create at h
  split at h <;> cases h
  exact ⟨rfl, rfl, rfl, rfl, rfl⟩

end

end Transect
