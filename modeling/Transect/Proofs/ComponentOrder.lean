import Transect.Proofs.ConditionNumbers

/-!
# The order of components

No component of a vector is treated differently from the others. If all vectors that a model learns
have their components in another order, then so have the mean and both axes of the covariance and of
what stands in for its inverse, and vectors in that order are scored as before.
-/
namespace Transect
open Matrix

variable {α β γ : Type} {D : ℕ}

def Reordered (π : Equiv.Perm (Fin D)) (xs ys : List β) : Prop :=
  ∃ f : Fin D → β, xs = List.ofFn f ∧ ys = List.ofFn (f ∘ π)

namespace Reordered

variable {π : Equiv.Perm (Fin D)} {xs ys : List β}

theorem perm (h : Reordered π xs ys) : ys.Perm xs := by
  obtain ⟨f, rfl, rfl⟩ := h
  exact π.ofFn_comp_perm f

theorem length_eq (h : Reordered π xs ys) : xs.length = D ∧ ys.length = D := by
  obtain ⟨f, rfl, rfl⟩ := h
  exact ⟨List.length_ofFn, List.length_ofFn⟩

theorem map (h : Reordered π xs ys) (g : β → γ) : Reordered π (xs.map g) (ys.map g) := by
  obtain ⟨f, rfl, rfl⟩ := h
  exact ⟨g ∘ f, List.map_ofFn, List.map_ofFn⟩

end Reordered

namespace Vec

/-- The components of a vector in another order. -/
def rearranged (π : Equiv.Perm (Fin D)) (v : Vec α D) : Vec α D := Vector.ofFn fun i => v.get (π i)

variable {π : Equiv.Perm (Fin D)}

@[simp] theorem get_rearranged (v : Vec α D) (i : Fin D) : (rearranged π v).get i = v.get (π i) :=
  get_ofFn _ i

theorem toList_eq_ofFn (v : Vec α D) : v.toList = List.ofFn v.get := by
  apply List.ext_getElem
  · simp
  · intro i h₁ h₂
    simp [Vector.get]

theorem reordered_toList (v : Vec α D) : Reordered π v.toList (rearranged π v).toList := by
  refine ⟨v.get, v.toList_eq_ofFn, ?_⟩
  rw [toList_eq_ofFn]
  exact congrArg List.ofFn (funext (get_rearranged v))

theorem get_ofList {xs : List α} (h : xs.length = D) (i : Fin D) :
    (ofList xs h).get i = xs[i] := rfl

theorem ofList_of_reordered {xs ys : List α} (h : Reordered π xs ys) :
    ofList ys h.length_eq.2 = rearranged π (ofList xs h.length_eq.1) := by
  obtain ⟨f, rfl, rfl⟩ := h
  apply ext_get
  intro i
  simp [get_ofList]

variable [Scalar α]

@[simp] theorem sub_rearranged (u v : Vec α D) :
    sub (rearranged π u) (rearranged π v) = rearranged π (sub u v) := by
  apply ext_get
  intro i
  simp [sub]

end Vec

namespace Mat

/-- Rows and columns in another order. -/
def rearranged (π : Equiv.Perm (Fin D)) (A : Mat α D D) : Mat α D D :=
  ofFn fun i j => A.entry (π i) (π j)

variable {π : Equiv.Perm (Fin D)}

@[simp] theorem entry_rearranged (A : Mat α D D) (i j : Fin D) :
    (rearranged π A).entry i j = A.entry (π i) (π j) := entry_ofFn _ i j

theorem rearranged_ofReal (A : Matrix (Fin D) (Fin D) ℝ) :
    rearranged π (ofReal A) = ofReal (A.submatrix π π) := by
  apply ext_entry
  intro i j
  simp

theorem rearranged_identity [Scalar α] : rearranged π (identity D : Mat α D D) = identity D := by
  apply ext_entry
  intro i j
  simp [identity]

theorem isFinite_iff [Scalar α] {m n : ℕ} {A : Mat α m n} :
    A.isFinite = true ↔ ∀ i j, Scalar.isFinite (A.entry i j) = true := by
  simp only [isFinite, Vector.all_eq_true]
  exact ⟨fun h i j => h i i.isLt j j.isLt, fun h i hi j hj => h ⟨i, hi⟩ ⟨j, hj⟩⟩

theorem isFinite_rearranged [Scalar α] (A : Mat α D D) :
    (rearranged π A).isFinite = A.isFinite := by
  rw [Bool.eq_iff_iff, isFinite_iff, isFinite_iff]
  simp only [entry_rearranged]
  exact ⟨fun h i j => by simpa using h (π.symm i) (π.symm j), fun h i j => h (π i) (π j)⟩

theorem form_rearranged (A : Mat Exact D D) (v : Vec Exact D) :
    (rearranged π A).form (Vec.rearranged π v) = A.form v := by
  simp only [form, vecMul, Vec.dot, Vec.get_ofFn, Exact.sumOver_eq_sum, Vec.get_rearranged,
    entry_rearranged]
  rw [← Equiv.sum_comp π fun j => (∑ i, v.get i * A.entry i j) * v.get j]
  refine Finset.sum_congr rfl fun j _ => ?_
  rw [Equiv.sum_comp π fun i => v.get i * A.entry i (π j)]

end Mat

def Inversion.rearranged (π : Equiv.Perm (Fin D)) (inversion : Inversion α D) : Inversion α D :=
  ⟨Mat.rearranged π inversion.matrix, inversion.inverted⟩

section

variable [LinearAlgebra Exact] [LawfulLinearAlgebra] (π : Equiv.Perm (Fin D))

theorem Mat.inverse?_submatrix (A : Matrix (Fin D) (Fin D) ℝ) :
    LinearAlgebra.inverse? (ofReal (A.submatrix π π)) =
      (LinearAlgebra.inverse? (ofReal A)).map (rearranged π) := by
  by_cases hA : IsUnit A
  · have hsub : IsUnit (A.submatrix π π) := (isUnit_submatrix_equiv π π).mpr hA
    obtain ⟨B, hB⟩ := LawfulLinearAlgebra.exists_inverse hA
    obtain ⟨B', hB'⟩ := LawfulLinearAlgebra.exists_inverse hsub
    obtain ⟨R, rfl, hR⟩ := LawfulInverse.mul_eq_one hB
    obtain ⟨S, rfl, hS⟩ := LawfulInverse.mul_eq_one hB'
    have hsame : S = R.submatrix π π := by
      rw [← inv_eq_right_inv hS, ← inv_eq_right_inv hR, inv_submatrix_equiv]
    rw [hB, hB', hsame, Option.map_some, rearranged_ofReal]
  · have hnone {M : Matrix (Fin D) (Fin D) ℝ} (hM : ¬ IsUnit M) :
        LinearAlgebra.inverse? (ofReal M) = none := by
      refine Option.eq_none_iff_forall_ne_some.mpr fun B hB => hM ?_
      obtain ⟨R, -, hR⟩ := LawfulInverse.mul_eq_one hB
      exact IsUnit.of_mul_eq_one R hR
    have hsub : ¬ IsUnit (A.submatrix π π) := mt (isUnit_submatrix_equiv π π).mp hA
    rw [hnone hA, hnone hsub, Option.map_none]

theorem Mat.invert_rearranged (A : Mat Exact D D) (limit : Exact) :
    (rearranged π A).invert limit = Except.map (Inversion.rearranged π) (A.invert limit) := by
  have hfallback : (.fallback D : Inversion Exact D) = .rearranged π (.fallback D) := by
    simp only [Inversion.rearranged, Inversion.fallback, rearranged_identity]
  by_cases hfinite : A.isFinite = true
  · obtain ⟨M, rfl⟩ : ∃ M, A = ofReal M := ⟨_, (ofReal_toReal hfinite).symm⟩
    have hcondition := LawfulLinearAlgebra.condition_congr (singularValues_submatrix π M)
    have hinverse := inverse?_submatrix π M
    simp only [invert, rearranged_ofReal, isFinite_ofReal, hcondition, hinverse]
    split_ifs
    · exact congrArg _ hfallback
    · rfl
    · cases LinearAlgebra.inverse? (ofReal M) with
      | none => exact congrArg _ hfallback
      | some B => rfl
    · exact congrArg _ hfallback
  · simp only [invert, isFinite_rearranged, hfinite]
    exact congrArg _ hfallback

end

namespace Moments

def rearranged (π : Equiv.Perm (Fin D)) (m : Moments α D) : Moments α D :=
  ⟨m.count, Vec.rearranged π m.mean, Mat.rearranged π m.comoment⟩

variable [Scalar α] (π : Equiv.Perm (Fin D))

theorem rearranged_zero : (zero D : Moments α D).rearranged π = zero D := by
  have hmean : Vec.rearranged π (Vector.replicate D (0 : α)) = Vector.replicate D 0 := by
    apply Vec.ext_get
    intro i
    rw [Vec.get_rearranged, Vec.get_replicate, Vec.get_replicate]
  have hcomoment : Mat.rearranged π (Vector.replicate D (Vector.replicate D (0 : α))) =
      Vector.replicate D (Vector.replicate D 0) := by
    apply Mat.ext_entry
    intro i j
    rw [Mat.entry_rearranged]
    simp only [Mat.entry, Vec.get_replicate]
  rw [rearranged, zero, hmean, hcomoment]

theorem add_rearranged (m : Moments α D) (x : Vec α D) :
    (m.rearranged π).add (Vec.rearranged π x) = (m.add x).rearranged π := by
  have hmean : ((m.rearranged π).add (Vec.rearranged π x)).mean =
      Vec.rearranged π (m.add x).mean := by
    apply Vec.ext_get
    intro i
    simp [add, rearranged]
  have hcomoment : ((m.rearranged π).add (Vec.rearranged π x)).comoment =
      Mat.rearranged π (m.add x).comoment := by
    apply Mat.ext_entry
    intro i j
    simp [add, rearranged, Vec.sub]
  exact congrArg₂ (Moments.mk (m.count + 1)) hmean hcomoment

theorem covariance_rearranged (m : Moments α D) :
    (m.rearranged π).covariance = Mat.rearranged π m.covariance := by
  apply Mat.ext_entry
  intro i j
  have hcount : (m.rearranged π).count = m.count := rfl
  simp only [covariance, hcount]
  split_ifs <;> simp [rearranged]

end Moments

/-- Statistics of vectors and of the same vectors in another order. -/
inductive Statistics.Rearranged (π : Equiv.Perm (Fin D)) : Statistics α → Statistics α → Prop where
  | empty : Rearranged π .empty .empty
  | ofLength (m : Moments α D) : Rearranged π (.ofLength D m) (.ofLength D (m.rearranged π))

inductive Derived.Rearranged (π : Equiv.Perm (Fin D)) : Derived α → Derived α → Prop where
  | mk (mean : Vec α D) (covariance : Mat α D D) (inversion : Inversion α D) :
    Rearranged π ⟨⟨D, mean, covariance⟩, inversion⟩
      ⟨⟨D, Vec.rearranged π mean, Mat.rearranged π covariance⟩, inversion.rearranged π⟩

/-- Two outcomes that are the same failure, or two results that are related. -/
inductive Alike {ε : Type} (R : β → γ → Prop) : Except ε β → Except ε γ → Prop where
  | error (e : ε) : Alike R (.error e) (.error e)
  | ok {b : β} {c : γ} (h : R b c) : Alike R (.ok b) (.ok c)

theorem Alike.imp {ε : Type} {R S : β → γ → Prop} {x : Except ε β} {y : Except ε γ}
    (h : Alike R x y) (hRS : ∀ b c, R b c → S b c) : Alike S x y := by
  cases h with
  | error e => exact .error e
  | ok h => exact .ok (hRS _ _ h)

theorem Alike.getD {ε : Type} {R : β → γ → Prop} {x : Except ε β} {y : Except ε γ}
    (h : Alike R x y) {b : β} {c : γ} (hbc : R b c) :
    R (x.toOption.getD b) (y.toOption.getD c) := by
  cases h with
  | error e => exact hbc
  | ok h => exact h

theorem Alike.bind {β' γ' : Type} {R : β → γ → Prop} {S : β' → γ' → Prop}
    {x : Except (Failure α) β} {y : Except (Failure α) γ} {f : β → Except (Failure α) β'}
    {g : γ → Except (Failure α) γ'} (h : Alike R x y) (hfg : ∀ b c, R b c → Alike S (f b) (g c)) :
    Alike S (x >>= f) (y >>= g) := by
  cases h with
  | error e => exact .error e
  | ok h => exact hfg _ _ h

section

variable {δ : Type} {R : β → γ → Prop} {x : Except (Failure α) β} {y : Except (Failure α) γ}
  {f : β → Except (Failure α) δ} {g : γ → Except (Failure α) δ}

theorem Alike.bind_eq (h : Alike R x y) (hfg : ∀ b c, R b c → g c = f b) :
    (y >>= g) = (x >>= f) := by
  cases h with
  | error e => rfl
  | ok h => exact hfg _ _ h

theorem Alike.bind_eq_map (h : Alike R x y) {t : δ → δ}
    (hfg : ∀ b c, R b c → g c = Except.map t (f b)) : (y >>= g) = Except.map t (x >>= f) := by
  cases h with
  | error e => rfl
  | ok h => exact hfg _ _ h

end

section

variable {π : Equiv.Perm (Fin D)} {xs ys : List Exact}

theorem Statistics.Rearranged.add {s t : Statistics Exact} (h : Rearranged π s t)
    (hxs : Reordered π xs ys) : Alike (Rearranged π) (s.add xs) (t.add ys) := by
  obtain ⟨hx, hy⟩ := hxs.length_eq
  have hvector := Vec.ofList_of_reordered hxs
  cases h with
  | empty =>
    rw [add_empty hx, add_empty hy, hvector]
    have hfirst := Moments.add_rearranged π (.zero D) (Vec.ofList xs hx)
    rw [Moments.rearranged_zero] at hfirst
    rw [hfirst]
    exact .ok (.ofLength _)
  | ofLength m =>
    rw [Statistics.add, Statistics.add, dif_pos hx, dif_pos hy, hvector, Moments.add_rearranged]
    exact .ok (.ofLength _)

theorem Statistics.Rearranged.derive [LinearAlgebra Exact] [LawfulLinearAlgebra]
    {s t : Statistics Exact} (h : Rearranged π s t) (limit : Exact) :
    Alike (Derived.Rearranged π) (s.derive limit) (t.derive limit) := by
  cases h with
  | empty => exact .error _
  | ofLength m =>
    simp only [Statistics.derive, estimate, ok_bind, Moments.covariance_rearranged,
      Mat.invert_rearranged]
    cases m.covariance.invert limit with
    | error e => exact .error e
    | ok inversion => exact .ok (.mk m.mean m.covariance inversion)

/-- The same components are compared with each other. -/
theorem Derived.Rearranged.distance_eq {d e : Derived Exact} (h : Rearranged π d e)
    (hxs : Reordered π xs ys) : e.distance ys = d.distance xs := by
  obtain ⟨hx, hy⟩ := hxs.length_eq
  obtain ⟨mean, covariance, inversion⟩ := h
  rw [distance, distance, dif_pos hx, dif_pos hy, Vec.ofList_of_reordered hxs,
    Vec.sub_rearranged, Inversion.rearranged, Mat.form_rearranged]

end

end Transect
