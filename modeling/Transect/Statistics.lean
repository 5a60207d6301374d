import Transect.Failure
import Transect.Linear.Basic

/-!
# Running mean and covariance

Vectors are observed one at a time and forgotten. What is kept is their number, their mean and their
co-moment, the sum of the products of deviations from the mean; the covariance is the co-moment
divided by one less than the number.
-/
namespace Transect

variable {α : Type}

/-- Number, mean and co-moment of the vectors of length `n` seen so far. -/
structure Moments (α : Type) (n : Nat) where
  count : Nat
  mean : Vec α n
  comoment : Mat α n n

namespace Moments

variable [Scalar α]

def zero (n : Nat) : Moments α n :=
  ⟨0, Vector.replicate n 0, Vector.replicate n (Vector.replicate n 0)⟩

/-- One more vector. The mean moves by its share of the deviation, and the product added to the
co-moment takes the deviation from the old mean on one side and from the new mean on the other. -/
def add {n : Nat} (m : Moments α n) (x : Vec α n) : Moments α n :=
  let count := m.count + 1
  let delta := Vec.sub x m.mean
  let mean : Vec α n := Vector.ofFn fun i => m.mean.get i + delta.get i / Scalar.ofNat count
  let rest := Vec.sub x mean
  { count, mean, comoment := Mat.ofFn fun i j => m.comoment.entry i j + delta.get i * rest.get j }

/-- The unbiased covariance. A single vector leaves every entry undefined. Rounding may make the two
halves differ, so each entry is averaged with the transposed one. -/
def covariance {n : Nat} (m : Moments α n) : Mat α n n :=
  if m.count = 1 then Mat.ofFn fun _ _ => Scalar.nan
  else
    let share (i j : Fin n) : α := m.comoment.entry i j / Scalar.ofNat (m.count - 1)
    Mat.ofFn fun i j => (share i j + share j i) / 2.0

end Moments

/-- The statistics of vectors whose length is settled by the first of them. -/
inductive Statistics (α : Type) where
  | empty
  | ofLength (n : Nat) (moments : Moments α n)

/-- What the vectors seen so far say about where they come from. -/
structure Estimate (α : Type) where
  dimension : Nat
  mean : Vec α dimension
  covariance : Mat α dimension dimension

namespace Statistics

def count : Statistics α → Nat
  | empty => 0
  | ofLength _ moments => moments.count

/-- The length of the vectors, once there is one. -/
def dimension? : Statistics α → Option Nat
  | empty => none
  | ofLength n _ => some n

/-- `MultivariateStatistics(count=2, dimension=3)`, and `None` for a dimension not yet settled. -/
def text (s : Statistics α) : String :=
  let dimension := match s.dimension? with
    | none => "None"
    | some n => toString n
  "MultivariateStatistics(count=" ++ toString s.count ++ ", dimension=" ++ dimension ++ ")"

variable [Scalar α]

/-- One more vector, which has to be as long as those before it. -/
def add (s : Statistics α) (x : List α) : Except (Failure α) (Statistics α) :=
  match s with
  | empty => .ok (ofLength x.length ((Moments.zero x.length).add (Vec.ofList x rfl)))
  | ofLength n moments =>
    if h : x.length = n then .ok (ofLength n (moments.add (Vec.ofList x h)))
    else .error (.dimensionMismatch n x.length)

def ofVectors (xs : List (List α)) : Except (Failure α) (Statistics α) := xs.foldlM add empty

theorem of_add {s t : Statistics α} {x : List α} (h : s.add x = .ok t) :
    t.count = s.count + 1 ∧ t.dimension? = some x.length := by
  cases s with
  | empty =>
    simp [add] at h
    simp [← h, count, dimension?, Moments.add, Moments.zero]
  | ofLength n moments =>
    by_cases hx : x.length = n
    · simp [add, hx] at h
      simp [← h, count, dimension?, Moments.add, hx]
    · simp [add, hx] at h

def estimate : Statistics α → Except (Failure α) (Estimate α)
  | empty => .error .notTrained
  | ofLength n moments => .ok ⟨n, moments.mean, moments.covariance⟩

end Statistics

end Transect
