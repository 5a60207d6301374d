import Transect.Proofs.UnitSteps

/-!
# Looking up real positions

At a real position that is not too far away, the nearest pixel is that of the rounded coordinates,
and the value between pixels is the bilinear interpolation of the plane in the nearest point of a
grid of thirty-seconds of a pixel. In both cases the border of the plane goes on beyond it.
-/
namespace Transect

/-- Whether the nearest integer of a number fits into a signed word. -/
def FitsWord (bits : ℕ) (x : ℝ) : Prop :=
  -(2 : ℤ) ^ (bits - 1) ≤ Exact.nearestEven x ∧ Exact.nearestEven x < (2 : ℤ) ^ (bits - 1)

theorem Exact.nearestEven_intCast (k : ℤ) : Exact.nearestEven (k : ℝ) = k := by
  have hhalf : ¬ (Int.fract (k : ℝ) = 1 - Int.fract (k : ℝ) ∧ Even ⌊(k : ℝ)⌋) := by
    rintro ⟨h, -⟩
    rw [Int.fract_intCast] at h
    norm_num at h
  rw [Exact.nearestEven, if_neg hhalf, round_intCast]

theorem Exact.nearestEven_natCast (k : ℕ) : Exact.nearestEven (k : ℝ) = k :=
  Exact.nearestEven_intCast k

theorem FitsWord.natCast {k : ℕ} (h : k < 2 ^ 63) : FitsWord 64 k := by
  rw [FitsWord, Exact.nearestEven_natCast]
  constructor <;> omega

section

variable {bits : ℕ} {x : ℝ}

theorem wordNearest_eq_ite : wordNearest bits (x : Exact) =
    if -(2 : ℤ) ^ (bits - 1) ≤ Exact.nearestEven x ∧ Exact.nearestEven x < (2 : ℤ) ^ (bits - 1)
    then Exact.nearestEven x else -(2 : ℤ) ^ (bits - 1) := by
  have hlimit : ((pow2 (bits - 1) : ℕ) : ℤ) = 2 ^ (bits - 1) := by
    rw [pow2, Nat.pow_eq, Nat.cast_pow, Nat.cast_ofNat]
  have hround : Scalar.roundEven? (x : Exact) = some (Exact.nearestEven x) := rfl
  simp only [wordNearest, hround, hlimit]

theorem wordNearest_coe (h : FitsWord bits x) :
    wordNearest bits (x : Exact) = Exact.nearestEven x :=
  wordNearest_eq_ite.trans (if_pos h)

theorem wordNearest_of_not_fitsWord (h : ¬ FitsWord bits x) :
    wordNearest bits (x : Exact) = -2 ^ (bits - 1) :=
  wordNearest_eq_ite.trans (if_neg h)

end

theorem subpixel_coe {x : ℝ} (h : FitsWord 32 (x * 32)) :
    subpixel (x : Exact) = Exact.nearestEven (x * 32) := by
  have hparts : (32.0 : Exact) = ((32 : ℝ) : Exact) := by
    rw [Exact.ofScientific_eq_coe]
    norm_num
  rw [subpixel, Exact.single_eq, Exact.single_eq, hparts, ← Exact.coe_mul, wordNearest_coe h]

/-- The coordinates of a pixel may be cut off at sixteen bits before they are clamped. -/
theorem clampIndex_pixelOf_add {n : ℕ} (hn : n < lookupLimit) (s : ℤ) {d : ℤ} (hd : 0 ≤ d ∧ d ≤ 1) :
    clampIndex n (pixelOf s + d) = clampIndex n (s / 32 + d) := by
  simp only [lookupLimit] at hn
  simp only [clampIndex, pixelOf, saturate]
  omega

namespace Plane

theorem nearest_ofReal (p : Plane Exact) {q : Point ℝ} (hx : FitsWord 64 q.x)
    (hy : FitsWord 64 q.y) :
    p.nearest (.ofReal q) =
      p.cell (clampIndex p.height (Exact.nearestEven q.y))
        (clampIndex p.width (Exact.nearestEven q.x)) := by
  rw [nearest, Point.ofReal, wordNearest_coe hx, wordNearest_coe hy]

theorem nearest_natCast {p : Plane Exact} {row column : ℕ} (hrow : row < p.height)
    (hcolumn : column < p.width) (hheight : p.height < 2 ^ 63) (hwidth : p.width < 2 ^ 63) :
    p.nearest (.ofReal ⟨column, row⟩) = p.cell row column := by
  have hclamp : ∀ {n k : ℕ}, k < n → clampIndex n (k : ℤ) = k := by
    intro n k hk
    simp only [clampIndex]
    omega
  rw [nearest_ofReal p (.natCast (by omega)) (.natCast (by omega)), Exact.nearestEven_natCast,
    Exact.nearestEven_natCast, hclamp hrow, hclamp hcolumn]

noncomputable section

def ofReal (p : Plane ℝ) : Plane Exact := ⟨p.height, p.width, fun row column => p.cell row column⟩

def closest (p : Plane ℝ) (row column : ℤ) : ℝ :=
  p.cell (clampIndex p.height row) (clampIndex p.width column)

/-- The bilinear interpolation of the four pixels around a position. -/
def between (p : Plane ℝ) (q : Point ℝ) : ℝ :=
  let row := ⌊q.y⌋
  let column := ⌊q.x⌋
  let down := Int.fract q.y
  let right := Int.fract q.x
  (1 - down) * ((1 - right) * p.closest row column + right * p.closest row (column + 1)) +
    down * ((1 - right) * p.closest (row + 1) column + right * p.closest (row + 1) (column + 1))

end

end Plane

noncomputable def Point.onGrid (q : Point ℝ) : Point ℝ :=
  ⟨Exact.nearestEven (q.x * 32) / 32, Exact.nearestEven (q.y * 32) / 32⟩

theorem floor_thirtySeconds (s : ℤ) : ⌊(s : ℝ) / 32⌋ = s / 32 := by
  have h := Int.floor_div_natCast (s : ℝ) 32
  simpa using h

theorem fractionOf_eq_coe (s : ℤ) : (fractionOf s : Exact) = (Int.fract ((s : ℝ) / 32) : ℝ) := by
  have hparts : (32.0 : ℝ) ≠ 0 := by norm_num
  have hthirtyTwo : (32.0 : ℝ) = 32 := by norm_num
  have hfract := Int.fract_div_intCast_eq_div_intCast_mod (k := ℝ) (m := s) (n := 32)
  rw [Nat.cast_ofNat] at hfract
  rw [fractionOf, Exact.ofInt_eq_coe, Exact.ofScientific_eq_coe, ← Exact.coe_div _ hparts,
    hthirtyTwo, hfract]
  rfl

namespace Plane

theorem corner_ofReal (p : Plane ℝ) (row column : ℤ) :
    p.ofReal.corner row column = (p.closest row column : Exact) := rfl

theorem bilinear_ofReal (p : Plane ℝ) (hsize : max p.height p.width < lookupLimit) {q : Point ℝ}
    (hx : FitsWord 32 (q.x * 32)) (hy : FitsWord 32 (q.y * 32)) :
    p.ofReal.bilinear (.ofReal q) = (p.between q.onGrid : Exact) := by
  obtain ⟨hheight, hwidth⟩ := max_lt_iff.mp hsize
  have hclosest : ∀ (s t d e : ℤ), 0 ≤ d ∧ d ≤ 1 → 0 ≤ e ∧ e ≤ 1 →
      p.closest (pixelOf s + d) (pixelOf t + e) = p.closest (s / 32 + d) (t / 32 + e) := by
    intro s t d e hd he
    rw [closest, closest, clampIndex_pixelOf_add hheight s hd, clampIndex_pixelOf_add hwidth t he]
  simp only [bilinear, Point.ofReal, subpixel_coe hx, subpixel_coe hy, Exact.single_eq,
    corner_ofReal, fractionOf_eq_coe, ← Exact.coe_one, ← Exact.coe_sub, ← Exact.coe_mul,
    ← Exact.coe_add, Exact.coe_inj, between, Point.onGrid, floor_thirtySeconds]
  rw [hclosest, hclosest, hclosest, hclosest]
  · simp only [add_zero]
    ring
  all_goals decide

end Plane

end Transect
