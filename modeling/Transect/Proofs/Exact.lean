import Mathlib.Algebra.BigOperators.Fin
import Mathlib.Algebra.BigOperators.Group.List.Basic
import Mathlib.Algebra.Order.Round
import Mathlib.Analysis.Real.Sqrt
import Mathlib.Data.EReal.Basic
import Mathlib.Data.Sign.Basic
import Mathlib.Tactic.Linarith
import Mathlib.Tactic.NormNum
import Transect.Linear.Basic

/-!
# Exact numbers

The reals, two infinities and an undefined value, with the rules of floating point arithmetic but
without rounding. Read over them, the library is the textbook one. Zero has no sign here: what is
divided by zero is divided by a positive zero.
-/
namespace Transect

inductive Exact where
  | finite (x : ℝ)
  | posInf
  | negInf
  | undefined

namespace Exact

attribute [coe] finite

instance : Coe ℝ Exact := ⟨finite⟩

noncomputable section

/-- The place of a number on the extended line, unless it is undefined. -/
def place? : Exact → Option EReal
  | finite x => some x
  | posInf => some ⊤
  | negInf => some ⊥
  | undefined => none

def sign : Exact → SignType
  | finite x => SignType.sign x
  | posInf => 1
  | negInf => -1
  | undefined => 0

def infinity : SignType → Exact
  | .pos => posInf
  | .neg => negInf
  | .zero => undefined

instance : Zero Exact := ⟨finite 0⟩

instance : One Exact := ⟨finite 1⟩

instance : Neg Exact where
  neg
    | finite x => finite (-x)
    | posInf => negInf
    | negInf => posInf
    | undefined => undefined

instance : Add Exact where
  add
    | finite x, finite y => finite (x + y)
    | undefined, _ | _, undefined | posInf, negInf | negInf, posInf => undefined
    | posInf, _ | _, posInf => posInf
    | negInf, _ | _, negInf => negInf

instance : Sub Exact := ⟨fun x y => x + -y⟩

instance : Mul Exact where
  mul
    | finite x, finite y => finite (x * y)
    | x, y => infinity (x.sign * y.sign)

/-- Over an infinity everything finite vanishes. -/
instance : Div Exact where
  div
    | finite x, finite y => if y = 0 then infinity (SignType.sign x) else finite (x / y)
    | undefined, _ | _, undefined => undefined
    | finite _, _ => finite 0
    | x, finite y => infinity (x.sign * if y < 0 then -1 else 1)
    | _, _ => undefined

instance : BEq Exact where
  beq x y := match x.place?, y.place? with
    | some a, some b => decide (a = b)
    | _, _ => false

instance : LT Exact where
  lt x y := ∃ a ∈ x.place?, ∃ b ∈ y.place?, a < b

instance : LE Exact where
  le x y := ∃ a ∈ x.place?, ∃ b ∈ y.place?, a ≤ b

instance : OfScientific Exact := ⟨fun m s e => finite (OfScientific.ofScientific m s e)⟩

/-- The nearest integer, the even one of two that are equally near. -/
def nearestEven (x : ℝ) : ℤ :=
  if Int.fract x = 1 - Int.fract x ∧ Even ⌊x⌋ then ⌊x⌋ else round x

instance : Scalar Exact where
  decidableLT := Classical.decRel _
  decidableLE := Classical.decRel _
  ofInt n := finite n
  inf := posInf
  nan := undefined
  isFinite
    | finite _ => true
    | _ => false
  abs
    | finite x => finite |x|
    | undefined => undefined
    | _ => posInf
  sqrt
    | finite x => if x < 0 then undefined else finite √x
    | posInf => posInf
    | _ => undefined
  hypot
    | finite x, finite y => finite √(x * x + y * y)
    | posInf, _ | negInf, _ | _, posInf | _, negInf => posInf
    | undefined, _ | _, undefined => undefined
  single x := x
  roundEven?
    | finite x => some (nearestEven x)
    | _ => none

end

variable {x y z : Exact} {a b : ℝ}

@[simp, norm_cast] theorem coe_inj : (a : Exact) = b ↔ a = b := by
  constructor
  · intro h
    cases h
    rfl
  · rintro rfl
    rfl

@[simp, norm_cast] theorem coe_zero : ((0 : ℝ) : Exact) = 0 := rfl

@[simp, norm_cast] theorem coe_one : ((1 : ℝ) : Exact) = 1 := rfl

@[norm_cast] theorem coe_add (a b : ℝ) : ((a + b : ℝ) : Exact) = a + b := rfl

@[norm_cast] theorem coe_sub (a b : ℝ) : ((a - b : ℝ) : Exact) = a - b :=
  congrArg finite (sub_eq_add_neg a b)

@[norm_cast] theorem coe_mul (a b : ℝ) : ((a * b : ℝ) : Exact) = a * b := rfl

theorem coe_div (a : ℝ) (hb : b ≠ 0) : ((a / b : ℝ) : Exact) = a / b := by
  change _ = ite _ _ _
  rw [if_neg hb]

theorem ofScientific_eq_coe (m : ℕ) (s : Bool) (e : ℕ) :
    (OfScientific.ofScientific m s e : Exact) = ((OfScientific.ofScientific m s e : ℝ) : Exact) :=
  rfl

theorem coe_div_two (a : ℝ) : ((a / 2 : ℝ) : Exact) = a / 2.0 := by
  have htwo : (2.0 : ℝ) ≠ 0 := by norm_num
  have h := coe_div a htwo
  rw [← ofScientific_eq_coe] at h
  rw [← h]
  norm_num

theorem ofInt_eq_coe (k : ℤ) : (Scalar.ofInt k : Exact) = ((k : ℝ) : Exact) := rfl

theorem ofNat_eq_coe (n : ℕ) : (Scalar.ofNat n : Exact) = ((n : ℝ) : Exact) := by
  simp [Scalar.ofNat, ofInt_eq_coe]

theorem sqrt_coe (ha : 0 ≤ a) : Scalar.sqrt (a : Exact) = (√a : ℝ) := by
  change ite _ _ _ = _
  rw [if_neg (not_lt.mpr ha)]

theorem hypot_coe (a b : ℝ) : Scalar.hypot (a : Exact) b = (√(a * a + b * b) : ℝ) := rfl

theorem single_eq (x : Exact) : Scalar.single x = x := rfl

@[simp] theorem isFinite_coe (a : ℝ) : Scalar.isFinite (a : Exact) = true := rfl

theorem exists_coe_of_isFinite (h : Scalar.isFinite x = true) : ∃ a : ℝ, x = a := by
  cases x with
  | finite a => exact ⟨a, rfl⟩
  | posInf => cases h
  | negInf => cases h
  | undefined => cases h

@[simp, norm_cast] theorem coe_lt_coe : (a : Exact) < b ↔ a < b := by
  change (∃ u ∈ some (a : EReal), ∃ v ∈ some (b : EReal), u < v) ↔ _
  simp

@[simp, norm_cast] theorem coe_le_coe : (a : Exact) ≤ b ↔ a ≤ b := by
  change (∃ u ∈ some (a : EReal), ∃ v ∈ some (b : EReal), u ≤ v) ↔ _
  simp

@[simp] theorem coe_beq_coe : ((a : Exact) == b) = decide (a = b) := by
  change decide ((a : EReal) = b) = _
  simp

@[simp] theorem coe_lt_inf (a : ℝ) : (a : Exact) < Scalar.inf :=
  ⟨a, rfl, ⊤, rfl, EReal.coe_lt_top a⟩

@[simp] theorem not_inf_lt_coe (a : ℝ) : ¬ (Scalar.inf : Exact) < a := by
  rintro ⟨_, ⟨⟩, _, ⟨⟩, h⟩
  exact not_top_lt h

@[simp] theorem inf_beq_coe (a : ℝ) : ((Scalar.inf : Exact) == a) = false := by
  change decide ((⊤ : EReal) = a) = _
  simp

/-! Numbers that are defined are ordered as their places are. -/

theorem exists_place (h : (x == x) = true) : ∃ a, x.place? = some a := by
  cases x with
  | finite a => exact ⟨a, rfl⟩
  | posInf => exact ⟨⊤, rfl⟩
  | negInf => exact ⟨⊥, rfl⟩
  | undefined => cases h

theorem lt_iff_place {a b : EReal} (hx : x.place? = some a) (hy : y.place? = some b) :
    x < y ↔ a < b := by
  change (∃ u ∈ x.place?, ∃ v ∈ y.place?, u < v) ↔ _
  simp [hx, hy]

theorem le_iff_place {a b : EReal} (hx : x.place? = some a) (hy : y.place? = some b) :
    x ≤ y ↔ a ≤ b := by
  change (∃ u ∈ x.place?, ∃ v ∈ y.place?, u ≤ v) ↔ _
  simp [hx, hy]

theorem le_of_not_lt (hx : (x == x) = true) (hy : (y == y) = true) (h : ¬ y < x) : x ≤ y := by
  obtain ⟨a, ha⟩ := exists_place hx
  obtain ⟨b, hb⟩ := exists_place hy
  rw [lt_iff_place hb ha, not_lt] at h
  exact (le_iff_place ha hb).mpr h

theorem le_trans (hxy : x ≤ y) (hyz : y ≤ z) : x ≤ z := by
  obtain ⟨a, ha, b, hb, hab⟩ := hxy
  obtain ⟨b', hb', c, hc, hbc⟩ := hyz
  rw [Option.mem_unique hb' hb] at hbc
  exact ⟨a, ha, c, hc, hab.trans hbc⟩

theorem place?_inj : x.place? = y.place? ↔ x = y := by
  constructor
  · intro h
    cases x <;> cases y <;> simp_all [place?]
  · exact congrArg place?

theorem lt_of_le_of_ne (h : x ≤ y) (hne : x ≠ y) : x < y := by
  obtain ⟨a, ha, b, hb, hab⟩ := h
  refine ⟨a, ha, b, hb, hab.lt_of_ne ?_⟩
  rintro rfl
  exact hne (place?_inj.mp (ha.trans hb.symm))

theorem beq_iff_eq (hx : (x == x) = true) : (x == y) = true ↔ x = y := by
  constructor
  · intro h
    obtain ⟨a, ha⟩ := exists_place hx
    simp only [BEq.beq, ha] at h
    cases hy : y.place? with
    | none =>
      rw [hy] at h
      cases h
    | some b =>
      rw [hy] at h
      rw [← place?_inj, ha, hy, of_decide_eq_true h]
  · rintro rfl
    exact hx

theorem le_of_lt (h : x < y) : x ≤ y := by
  obtain ⟨a, ha, b, hb, hlt⟩ := h
  exact ⟨a, ha, b, hb, hlt.le⟩

theorem not_lt_of_le (h : x ≤ y) : ¬ y < x := by
  obtain ⟨a, ha, b, hb, hle⟩ := h
  rw [lt_iff_place hb ha]
  exact hle.not_gt

theorem beq_self_iff : (x == x) = true ↔ x ≠ Scalar.nan := by
  cases x with
  | finite a => exact ⟨fun _ => nofun, fun _ => by simp⟩
  | posInf => exact ⟨fun _ => nofun, fun _ => rfl⟩
  | negInf => exact ⟨fun _ => nofun, fun _ => rfl⟩
  | undefined => exact ⟨nofun, fun h => absurd rfl h⟩

theorem not_lt_of_lt (h : x < y) : ¬ y < x := by
  obtain ⟨a, ha, b, hb, hlt⟩ := h
  rw [lt_iff_place hb ha]
  exact hlt.not_gt

theorem lt_of_lt_of_le (hxy : x < y) (hyz : y ≤ z) : x < z := by
  obtain ⟨a, ha, b, hb, hab⟩ := hxy
  obtain ⟨b', hb', c, hc, hbc⟩ := hyz
  rw [Option.mem_unique hb' hb] at hbc
  exact ⟨a, ha, c, hc, hab.trans_le hbc⟩

theorem not_inf_lt (x : Exact) : ¬ (Scalar.inf : Exact) < x := by
  rintro ⟨_, ⟨⟩, _, _, h⟩
  exact not_top_lt h

theorem not_nan_lt (x : Exact) : ¬ (Scalar.nan : Exact) < x := by
  rintro ⟨_, ⟨⟩, _⟩

theorem not_lt_self (x : Exact) : ¬ x < x := fun h => not_lt_of_lt h h

/-- Numbers of which neither is less are equal, unless one is undefined. -/
theorem beq_of_not_lt (hx : (x == x) = true) (hy : (y == y) = true) (hxy : ¬ x < y)
    (hyx : ¬ y < x) : (x == y) = true := by
  obtain ⟨a, ha⟩ := exists_place hx
  obtain ⟨b, hb⟩ := exists_place hy
  rw [lt_iff_place ha hb, not_lt] at hxy
  rw [lt_iff_place hb ha, not_lt] at hyx
  simp only [BEq.beq, ha, hb]
  exact decide_eq_true (le_antisymm hyx hxy)

/-! A number is negative if its sign is. What is not negative may be undefined. -/

theorem neg_iff_sign : x < 0 ↔ x.sign = -1 := by
  cases x with
  | finite a => rw [← coe_zero, coe_lt_coe, sign, sign_eq_neg_one_iff]
  | posInf => exact ⟨fun h => absurd h (not_inf_lt 0), nofun⟩
  | negInf => exact ⟨fun _ => rfl, fun _ => ⟨⊥, rfl, ((0 : ℝ) : EReal), rfl, EReal.bot_lt_coe 0⟩⟩
  | undefined => exact ⟨fun h => absurd h (not_nan_lt 0), nofun⟩

theorem sign_infinity (s : SignType) : (infinity s).sign = s := by
  cases s <;> rfl

theorem sign_product (x y : Exact) : (x * y).sign = x.sign * y.sign := by
  cases x <;> cases y <;> first
    | exact sign_mul _ _
    | exact sign_infinity _

theorem not_mul_neg (hx : ¬ x < 0) (hy : ¬ y < 0) : ¬ x * y < 0 := by
  rw [neg_iff_sign] at hx hy ⊢
  rw [sign_product]
  generalize x.sign = s at *
  generalize y.sign = t at *
  revert s t
  decide

theorem mul_self_not_neg (x : Exact) : ¬ x * x < 0 := by
  rw [neg_iff_sign, sign_product]
  generalize x.sign = s
  revert s
  decide

theorem undefined_mul_not_neg (x : Exact) : ¬ undefined * x < 0 := by
  rw [neg_iff_sign, sign_product]
  exact nofun

theorem not_div_neg (hx : ¬ x < 0) (hy : ¬ y < 0) : ¬ x / y < 0 := by
  cases x with
  | finite a =>
    cases y with
    | finite b =>
      change ¬ ite _ _ _ < 0
      split_ifs
      · rwa [neg_iff_sign, sign_infinity, ← sign, ← neg_iff_sign]
      · rw [← coe_zero, coe_lt_coe, not_lt] at hx hy ⊢
        exact div_nonneg hx hy
    | posInf => exact not_lt_self 0
    | negInf => exact not_lt_self 0
    | undefined => exact not_nan_lt 0
  | posInf =>
    cases y with
    | finite b =>
      rw [← coe_zero, coe_lt_coe] at hy
      change ¬ infinity (1 * ite _ _ _) < 0
      rw [if_neg hy]
      exact not_inf_lt 0
    | posInf => exact not_nan_lt 0
    | negInf => exact not_nan_lt 0
    | undefined => exact not_nan_lt 0
  | negInf => exact absurd (neg_iff_sign.mpr rfl) hx
  | undefined =>
    cases y <;> exact not_nan_lt 0

theorem not_hypot_neg (x y : Exact) : ¬ Scalar.hypot x y < 0 := by
  rw [neg_iff_sign]
  cases x <;> cases y <;> first
    | exact mt sign_eq_neg_one_iff.mp (not_lt.mpr (Real.sqrt_nonneg _))
    | exact nofun

instance : AddCommMonoid Exact where
  add_assoc x y z := by
    cases x <;> cases y <;> cases z <;> first | rfl | exact congrArg finite (add_assoc _ _ _)
  zero_add x := by
    cases x <;> first | rfl | exact congrArg finite (zero_add _)
  add_zero x := by
    cases x <;> first | rfl | exact congrArg finite (add_zero _)
  add_comm x y := by
    cases x <;> cases y <;> first | rfl | exact congrArg finite (add_comm _ _)
  nsmul := nsmulRec

def coeHom : ℝ →+ Exact := ⟨⟨finite, coe_zero⟩, coe_add⟩

@[norm_cast] theorem coe_list_sum (xs : List ℝ) :
    ((xs.sum : ℝ) : Exact) = (xs.map finite).sum := map_list_sum coeHom xs

@[norm_cast] theorem coe_sum {n : ℕ} (f : Fin n → ℝ) :
    ((∑ i, f i : ℝ) : Exact) = ∑ i, (f i : Exact) := map_sum coeHom f Finset.univ

theorem add_eq_coe (h : x + y = a) : ∃ b c : ℝ, x = b ∧ y = c := by
  cases x <;> cases y <;> first | cases h; done | exact ⟨_, _, rfl, rfl⟩

theorem sub_eq_coe (h : x - y = a) : ∃ b c : ℝ, x = b ∧ y = c := by
  cases x <;> cases y <;> first | cases h; done | exact ⟨_, _, rfl, rfl⟩

theorem exists_coe_of_sum_eq_coe {xs : List Exact} (h : xs.sum = a) :
    ∃ ys : List ℝ, xs = ys.map finite := by
  induction xs generalizing a with
  | nil => exact ⟨[], rfl⟩
  | cons x xs ih =>
    obtain ⟨b, c, rfl, hc⟩ := add_eq_coe (by simpa using h)
    obtain ⟨ys, rfl⟩ := ih hc
    exact ⟨b :: ys, rfl⟩

theorem isFinite_of_add (h : Scalar.isFinite (x + y) = true) :
    Scalar.isFinite x = true ∧ Scalar.isFinite y = true := by
  obtain ⟨a, ha⟩ := exists_coe_of_isFinite h
  obtain ⟨b, c, rfl, rfl⟩ := add_eq_coe ha
  exact ⟨rfl, rfl⟩

theorem isFinite_of_sub (h : Scalar.isFinite (x - y) = true) : Scalar.isFinite x = true :=
  (isFinite_of_add h).1

theorem isFinite_of_abs (h : Scalar.isFinite (Scalar.abs x) = true) : Scalar.isFinite x = true := by
  cases x <;> first | rfl | cases h

theorem isFinite_infinity (s : SignType) : Scalar.isFinite (infinity s) = false := by
  cases s <;> rfl

theorem isFinite_of_mul (h : Scalar.isFinite (x * y) = true) : Scalar.isFinite x = true := by
  cases x with
  | finite a => rfl
  | posInf => exact absurd h (by simp [HMul.hMul, Mul.mul, isFinite_infinity])
  | negInf => exact absurd h (by simp [HMul.hMul, Mul.mul, isFinite_infinity])
  | undefined => exact absurd h (by simp [HMul.hMul, Mul.mul, isFinite_infinity])

theorem isFinite_of_div (h : Scalar.isFinite (x / (a : Exact)) = true) :
    Scalar.isFinite x = true := by
  cases x with
  | finite b => rfl
  | posInf => exact absurd h (by simp [HDiv.hDiv, Div.div, isFinite_infinity])
  | negInf => exact absurd h (by simp [HDiv.hDiv, Div.div, isFinite_infinity])
  | undefined => cases h

/-! Every number is finite or the infinity of a sign, and what is not finite depends on signs
only. -/

theorem finite_or_infinity (x : Exact) : (∃ a : ℝ, x = a) ∨ ∃ s, x = infinity s := by
  cases x with
  | finite a => exact Or.inl ⟨a, rfl⟩
  | posInf => exact Or.inr ⟨.pos, rfl⟩
  | negInf => exact Or.inr ⟨.neg, rfl⟩
  | undefined => exact Or.inr ⟨.zero, rfl⟩

theorem infinity_add_coe (s : SignType) (a : ℝ) : infinity s + (a : Exact) = infinity s := by
  cases s <;> rfl

theorem coe_add_infinity (a : ℝ) (s : SignType) : (a : Exact) + infinity s = infinity s := by
  rw [add_comm, infinity_add_coe]

theorem coe_mul_infinity (a : ℝ) (s : SignType) :
    (a : Exact) * infinity s = infinity (SignType.sign a * s) := by
  cases s <;> rfl

theorem infinity_mul_coe (s : SignType) (a : ℝ) :
    infinity s * (a : Exact) = infinity (s * SignType.sign a) := by
  cases s <;> rfl

theorem infinity_add_infinity (s t : SignType) :
    infinity s + infinity t = infinity (if s = t then s else 0) := by
  cases s <;> cases t <;> rfl

theorem not_add_neg (hx : ¬ x < 0) (hy : ¬ y < 0) : ¬ x + y < 0 := by
  obtain ⟨b, rfl⟩ | ⟨s, rfl⟩ := finite_or_infinity x <;>
    obtain ⟨c, rfl⟩ | ⟨t, rfl⟩ := finite_or_infinity y
  · rw [← coe_zero, coe_lt_coe, not_lt] at hx hy
    rw [← coe_add, ← coe_zero, coe_lt_coe, not_lt]
    exact add_nonneg hx hy
  · rwa [coe_add_infinity]
  · rwa [infinity_add_coe]
  · rw [infinity_add_infinity]
    split_ifs
    · exact hx
    · exact not_nan_lt 0

theorem sum_not_neg {n : ℕ} {f : Fin n → Exact} (h : ∀ i, ¬ f i < 0) : ¬ ∑ i, f i < 0 :=
  Finset.sum_induction f (fun x => ¬ x < 0) (fun _ _ => not_add_neg) (not_lt_self 0)
    fun i _ => h i

theorem mul_one_eq (x : Exact) : x * 1 = x := by
  obtain ⟨a, rfl⟩ | ⟨s, rfl⟩ := finite_or_infinity x
  · rw [← coe_one, ← coe_mul, mul_one]
  · rw [← coe_one, infinity_mul_coe, sign_one, mul_one]

theorem mul_zero_cases (x : Exact) : x * 0 = 0 ∨ x * 0 = Scalar.nan := by
  obtain ⟨a, rfl⟩ | ⟨s, rfl⟩ := finite_or_infinity x
  · exact Or.inl (by rw [← coe_zero, ← coe_mul, mul_zero])
  · exact Or.inr (by rw [← coe_zero, infinity_mul_coe, sign_zero, mul_zero]; rfl)

theorem add_nan (x : Exact) : x + Scalar.nan = Scalar.nan := by
  cases x <;> rfl

theorem nan_sub (x : Exact) : Scalar.nan - x = Scalar.nan := by
  cases x <;> rfl

theorem sub_nan (x : Exact) : x - Scalar.nan = Scalar.nan := add_nan x

theorem nan_div (x : Exact) : Scalar.nan / x = Scalar.nan := by
  cases x <;> rfl

theorem sum_of_nan {n : ℕ} {f : Fin n → Exact} {i : Fin n} (h : f i = Scalar.nan) :
    ∑ j, f j = Scalar.nan := by
  rw [← Finset.sum_erase_add _ _ (Finset.mem_univ i), h, add_nan]

theorem coe_mul_add (ha : a ≠ 0) (x y : Exact) : (a : Exact) * (x + y) = a * x + a * y := by
  obtain ⟨b, rfl⟩ | ⟨s, rfl⟩ := finite_or_infinity x <;>
    obtain ⟨c, rfl⟩ | ⟨t, rfl⟩ := finite_or_infinity y
  · exact congrArg finite (mul_add a b c)
  · rw [coe_add_infinity, coe_mul_infinity, ← coe_mul, coe_add_infinity]
  · rw [infinity_add_coe, coe_mul_infinity, ← coe_mul, infinity_add_coe]
  · rw [infinity_add_infinity, coe_mul_infinity, coe_mul_infinity, coe_mul_infinity,
      infinity_add_infinity]
    rcases ha.lt_or_gt with hneg | hpos
    · rw [sign_neg hneg]
      cases s <;> cases t <;> rfl
    · rw [sign_pos hpos]
      cases s <;> cases t <;> rfl

theorem coe_mul_neg (a : ℝ) (x : Exact) : (a : Exact) * -x = -(a * x) := by
  obtain ⟨b, rfl⟩ | ⟨s, rfl⟩ := finite_or_infinity x
  · exact congrArg finite (mul_neg a b)
  · have hneg (t : SignType) : -infinity t = infinity (-t) := by cases t <;> rfl
    rw [hneg, coe_mul_infinity, coe_mul_infinity, hneg, mul_neg]

theorem coe_mul_sub (ha : a ≠ 0) (x y : Exact) : (a : Exact) * (x - y) = a * x - a * y := by
  change a * (x + -y) = a * x + -(a * y)
  rw [coe_mul_add ha, coe_mul_neg]

theorem coe_mul_mul_coe (a : ℝ) (x : Exact) (b : ℝ) : (a : Exact) * x * b = a * (x * b) := by
  obtain ⟨c, rfl⟩ | ⟨s, rfl⟩ := finite_or_infinity x
  · exact congrArg finite (mul_assoc a c b)
  · rw [coe_mul_infinity, infinity_mul_coe, infinity_mul_coe, coe_mul_infinity, mul_assoc]

theorem add_coe_mul (x : Exact) (a b : ℝ) :
    (x + a) * (b : Exact) = x * b + ((a * b : ℝ) : Exact) := by
  obtain ⟨c, rfl⟩ | ⟨s, rfl⟩ := finite_or_infinity x
  · exact congrArg finite (add_mul c a b)
  · rw [infinity_add_coe, infinity_mul_coe, infinity_add_coe]

theorem add_coe_sub_add_coe (x y : Exact) (a : ℝ) : x + a - (y + a) = x - y := by
  obtain ⟨b, rfl⟩ | ⟨s, rfl⟩ := finite_or_infinity x <;>
    obtain ⟨c, rfl⟩ | ⟨t, rfl⟩ := finite_or_infinity y
  · exact congrArg finite (by ring)
  · rw [infinity_add_coe]
    cases t <;> rfl
  · rw [infinity_add_coe]
    cases s <;> rfl
  · rw [infinity_add_coe, infinity_add_coe]

theorem abs_sub_swap (x y : Exact) : Scalar.abs (x - y) = Scalar.abs (y - x) := by
  cases x with
  | finite a =>
    cases y with
    | finite b => exact congrArg finite (abs_sub_comm a b)
    | _ => rfl
  | _ => cases y <;> rfl

theorem abs_coe_mul (ha : a ≠ 0) (x : Exact) :
    Scalar.abs ((a : Exact) * x) = ((|a| : ℝ) : Exact) * Scalar.abs x := by
  obtain ⟨b, rfl⟩ | ⟨s, rfl⟩ := finite_or_infinity x
  · exact congrArg finite (abs_mul a b)
  · have habs (t : SignType) : Scalar.abs (infinity t) = infinity (t * t) := by cases t <;> rfl
    rw [coe_mul_infinity, habs, habs, coe_mul_infinity, sign_pos (abs_pos.mpr ha)]
    rcases ha.lt_or_gt with hneg | hpos
    · rw [sign_neg hneg]
      cases s <;> rfl
    · rw [sign_pos hpos]
      cases s <;> rfl

private theorem sum_addPairs (xs : List Exact) : (Scalar.addPairs xs).sum = xs.sum := by
  fun_induction Scalar.addPairs xs with
  | case1 x y rest ih => simp [ih, add_assoc]
  | case2 xs => rfl

private theorem length_addPairs (xs : List Exact) :
    (Scalar.addPairs xs).length = (xs.length + 1) / 2 := by
  fun_induction Scalar.addPairs xs with
  | case1 x y rest ih =>
    simp only [List.length_cons, ih]
    omega
  | case2 xs h =>
    match xs with
    | [] => rfl
    | [x] => simp
    | x :: y :: rest => exact absurd rfl (h x y rest)

private theorem headD_addPairs {sums : List Exact} (h : sums.length = 8) :
    (Scalar.addPairs (Scalar.addPairs (Scalar.addPairs sums))).headD 0 = sums.sum := by
  have hlength : (Scalar.addPairs (Scalar.addPairs (Scalar.addPairs sums))).length = 1 := by
    simp [length_addPairs, h]
  obtain ⟨x, hx⟩ := List.length_eq_one_iff.mp hlength
  calc (Scalar.addPairs (Scalar.addPairs (Scalar.addPairs sums))).headD 0
      = (Scalar.addPairs (Scalar.addPairs (Scalar.addPairs sums))).sum := by simp [hx]
    _ = sums.sum := by simp only [sum_addPairs]

private theorem addByTurns_eq_sum {sums : List Exact} (h : sums.length = 8) (xs : List Exact) :
    Scalar.addByTurns sums xs = sums.sum + xs.sum := by
  fun_induction Scalar.addByTurns sums xs with
  | case1 sums xs hxs ih =>
    have htake : (xs.take 8).length = 8 := by simp [hxs]
    rw [ih (by simp [h, hxs]),
      ← List.sum_add_sum_eq_sum_zipWith_of_length_eq _ _ (h.trans htake.symm), add_assoc,
      List.sum_take_add_sum_drop]
  | case2 sums xs hxs =>
    have hfold : ∀ (y : Exact) (ys : List Exact), ys.foldl (· + ·) y = y + ys.sum := by
      intro y ys
      induction ys generalizing y with
      | nil => simp
      | cons z ys ih => simp [ih, add_assoc]
    rw [hfold, headD_addPairs h]

private theorem addHalves_eq_sum (xs : List Exact) (h : 8 ≤ xs.length) :
    Scalar.addHalves xs = xs.sum := by
  fun_induction Scalar.addHalves xs with
  | case1 xs hxs =>
    rw [addByTurns_eq_sum (by simp [h]), List.sum_take_add_sum_drop]
  | case2 xs hxs half ih₁ ih₂ =>
    rw [ih₁ (by simp [half]; omega), ih₂ (by simp [half]; omega), List.sum_take_add_sum_drop]

theorem sum_eq_list_sum (xs : List Exact) : Scalar.sum xs = xs.sum := by
  unfold Scalar.sum
  split_ifs with h
  · exact (List.sum_eq_foldl).symm
  · rw [addHalves_eq_sum xs (by omega), zero_add]

theorem sumOver_eq_sum {n : ℕ} (f : Fin n → Exact) : sumOver n f = ∑ i, f i := by
  unfold sumOver
  induction n with
  | zero => rfl
  | succ n ih => rw [Fin.foldl_succ_last, ih, Fin.sum_univ_castSucc]

end Exact
end Transect
