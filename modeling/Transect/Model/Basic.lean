import Transect.Journal
import Transect.Linear.Inversion
import Transect.Profile
import Transect.Statistics

/-!
# Profile models

A model learns the profiles along one line of many images as the mean and covariance of a normal
distribution. Its footprint is the number of samples that it takes of each band. Profiles are not
kept: only their statistics are, and what is derived from these is worked out on the first question
after a profile has been learned.

All operations on a model are `ModelM` actions. They change the model and write the journal; what an
action did before it fails stays done.
-/
namespace Transect

variable {α : Type}

/-- What a model works out from its statistics: mean, covariance, and what stands in for the inverse
of the covariance. -/
structure Derived (α : Type) extends Estimate α where
  inversion : Inversion α dimension

structure Model (α : Type) where
  footprint : Nat
  footprint_pos : 0 < footprint
  sampler : Sampler α
  /-- Covariances with a larger condition number count as singular. -/
  conditionLimit : α
  statistics : Statistics α
  /-- What has been derived from the statistics since they last changed. -/
  derived? : Option (Derived α)

structure Session (α : Type) where
  model : Model α
  journal : Array (Event α)

abbrev ModelM (α : Type) := EStateM (Failure α) (Session α)

namespace Model

def create (samples : Int) (sampler : Sampler α) (conditionLimit : α) :
    Except (Failure α) (Model α) :=
  if h : samples < 1 then .error (.footprintBelowOne samples)
  else .ok
    { footprint := samples.toNat
      footprint_pos := by omega
      sampler, conditionLimit
      statistics := .empty
      derived? := none }

def count (m : Model α) : Nat := m.statistics.count

def isTrained (m : Model α) : Bool := 0 < m.count

def derive [Scalar α] [LinearAlgebra α] (m : Model α) : Except (Failure α) (Derived α) := do
  let estimate ← m.statistics.estimate
  let inversion ← estimate.covariance.invert m.conditionLimit
  return { estimate with inversion }

def start (m : Model α) : Session α := ⟨m, #[.modelCreated m.footprint m.sampler.name]⟩

end Model

namespace ModelM

def lift {β : Type} : Except (Failure α) β → ModelM α β
  | .ok b => pure b
  | .error e => throw e

def model : ModelM α (Model α) := return (← get).model

def setModel (m : Model α) : ModelM α Unit := modify fun s => { s with model := m }

def report (e : Event α) : ModelM α Unit := modify fun s => { s with journal := s.journal.push e }

/-- Runs an action and goes on with its result, be it a failure. -/
def attempt {β : Type} (x : ModelM α β) : ModelM α (Except (Failure α) β) := fun s =>
  match x.run s with
  | .ok b t => .ok (.ok b) t
  | .error e t => .ok (.error e) t

/-- Changes the limit for all that is derived from now on. -/
def setConditionLimit (limit : α) : ModelM α Unit := do
  setModel { ← model with conditionLimit := limit }

section Run

variable {β γ : Type}

@[simp] theorem run_throw (e : Failure α) (s : Session α) :
    (throw e : ModelM α β).run s = .error e s := rfl

@[simp] theorem run_map (f : β → γ) (x : ModelM α β) (s : Session α) :
    (f <$> x).run s = match x.run s with
      | .ok b t => .ok (f b) t
      | .error e t => .error e t := by
  cases h : x.run s <;> simp_all [Functor.map, EStateM.map, EStateM.run]

@[simp] theorem run_lift_ok (b : β) (s : Session α) : (lift (.ok b)).run s = .ok b s := rfl

@[simp] theorem run_lift_error (e : Failure α) (s : Session α) :
    (lift (.error e) : ModelM α β).run s = .error e s := rfl

@[simp] theorem run_model (s : Session α) : model.run s = .ok s.model s := rfl

@[simp] theorem run_setModel (m : Model α) (s : Session α) :
    (setModel m).run s = .ok () { s with model := m } := rfl

@[simp] theorem run_report (e : Event α) (s : Session α) :
    (report e).run s = .ok () { s with journal := s.journal.push e } := rfl

theorem run_attempt (x : ModelM α β) (s : Session α) :
    (attempt x).run s = match x.run s with
      | .ok b t => .ok (.ok b) t
      | .error e t => .ok (.error e) t := rfl

end Run

variable [Scalar α]

/-- Learns a profile. What had been derived before is forgotten. -/
def learn (profile : List α) : ModelM α Unit := do
  let m ← model
  let statistics ← lift (m.statistics.add profile)
  setModel { m with statistics, derived? := none }
  report (.modelUpdated statistics.count)

def learnImage (image : Raster α) (line : Line α) : ModelM α Unit := do
  let m ← model
  learn (← lift (m.sampler.profile image line m.footprint))

variable [LinearAlgebra α]

/-- What the statistics of the model say, worked out once and kept until they change. -/
def derived : ModelM α (Derived α) := do
  let m ← model
  match m.derived? with
  | some d => return d
  | none =>
    let d ← lift m.derive
    if !d.inversion.inverted then report (.identityUsed m.count d.dimension)
    setModel { m with derived? := some d }
    return d

theorem run_derived_of_some {s : Session α} {d : Derived α} (h : s.model.derived? = some d) :
    derived.run s = .ok d s := by
  simp [derived, h]

theorem run_derived_of_error {s : Session α} {e : Failure α} (h : s.model.derived? = none)
    (hd : s.model.derive = .error e) : derived.run s = .error e s := by
  simp [derived, h, hd]

theorem run_derived_of_ok {s : Session α} {d : Derived α} (h : s.model.derived? = none)
    (hd : s.model.derive = .ok d) :
    ∃ journal, derived.run s = .ok d ⟨{ s.model with derived? := some d }, journal⟩ := by
  cases hi : d.inversion.inverted <;> simp [derived, h, hd, hi]

end ModelM

end Transect
