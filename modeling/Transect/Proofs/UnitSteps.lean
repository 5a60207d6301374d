import Mathlib.Algebra.BigOperators.Intervals
import Mathlib.Tactic.FieldSimp
import Transect.Model.Score
import Transect.Proofs.Exact
import Transect.Proofs.Queries

/-!
# Steps of one pixel

A line stretched to unit steps has its positions at whole or half numbers of steps from its middle,
and where those are depends on the middle and the direction of the line only. A longer line through
the same middle therefore passes through the positions of a shorter one, and a line moved along
itself by whole steps passes through positions that it had before.
-/
namespace Transect

noncomputable section

def Point.ofReal (p : Point ℝ) : Point Exact := ⟨p.x, p.y⟩

def Line.ofReal (l : Line ℝ) : Line Exact := ⟨.ofReal l.start, .ofReal l.finish⟩

/-- The point at `t` times a step from another one. -/
def Point.stepped (p : Point ℝ) (u : ℝ × ℝ) (t : ℝ) : Point ℝ := ⟨p.x + t * u.1, p.y + t * u.2⟩

def Line.middle (l : Line ℝ) : Point ℝ :=
  ⟨(l.start.x + l.finish.x) / 2, (l.start.y + l.finish.y) / 2⟩

def Line.vector (l : Line ℝ) : ℝ × ℝ := (l.finish.x - l.start.x, l.finish.y - l.start.y)

def Line.movedTo (l : Line ℝ) (p : Point ℝ) : Line ℝ :=
  let dx := p.x - l.middle.x
  let dy := p.y - l.middle.y
  ⟨⟨l.start.x + dx, l.start.y + dy⟩, ⟨l.finish.x + dx, l.finish.y + dy⟩⟩

/-- The line that reaches `t` steps from a point to both sides. -/
def Point.span (p : Point ℝ) (u : ℝ × ℝ) (t : ℝ) : Line ℝ := ⟨p.stepped u (-t), p.stepped u t⟩

/-- `n` points one step apart, the first of them at `t` steps from a point. -/
def Point.steps (p : Point ℝ) (u : ℝ × ℝ) (t : ℝ) (n : ℕ) : List (Point Exact) :=
  (List.range n).map fun i : ℕ => .ofReal (p.stepped u (t + i))

def Point.centroid (ps : List (Point Exact)) : Point Exact :=
  ⟨(ps.map Point.x).sum / Scalar.ofNat ps.length, (ps.map Point.y).sum / Scalar.ofNat ps.length⟩

end

namespace Point

variable (p : Point ℝ) (u : ℝ × ℝ) (s t : ℝ)

theorem stepped_stepped : (p.stepped u s).stepped u t = p.stepped u (s + t) := by
  simp only [stepped, Point.mk.injEq]
  constructor <;> ring

theorem stepped_smul (c : ℝ) : p.stepped (c • u) t = p.stepped u (t * c) := by
  simp only [stepped, Prod.smul_fst, Prod.smul_snd, smul_eq_mul, mul_assoc]

@[simp] theorem stepped_zero : p.stepped u 0 = p := by simp [stepped]

@[simp] theorem middle_span : (p.span u t).middle = p := by
  cases p
  simp only [Line.middle, span, stepped, Point.mk.injEq]
  constructor <;> ring

theorem steps_stepped (n : ℕ) : (p.stepped u s).steps u t n = p.steps u (s + t) n := by
  simp only [steps, stepped_stepped, add_assoc]

theorem take_drop_steps {n m i : ℕ} (h : i + n ≤ m) :
    ((p.steps u t m).drop i).take n = p.steps u (t + i) n := by
  apply List.ext_getElem
  · simp only [steps, List.length_take, List.length_drop, List.length_map, List.length_range]
    omega
  · intro j _ _
    simp [steps, add_assoc]

private theorem sum_range_steps (a b : ℝ) {n : ℕ} (hn : 0 < n) :
    ((List.range n).map fun i : ℕ => a + (t + i) * b).sum / n =
      a + (t + ((n : ℝ) - 1) / 2) * b := by
  have hsum : ∀ m : ℕ, ((List.range m).map fun i : ℕ => a + (t + i) * b).sum =
      m * (a + (t + ((m : ℝ) - 1) / 2) * b) := by
    intro m
    induction m with
    | zero => simp
    | succ m ih =>
      rw [List.range_succ, List.map_append, List.sum_append, ih, List.map_singleton,
        List.sum_singleton]
      push_cast
      ring
  have hne : (n : ℝ) ≠ 0 := Nat.cast_ne_zero.mpr hn.ne'
  rw [hsum, mul_div_cancel_left₀ _ hne]

theorem centroid_steps {n : ℕ} (hn : 0 < n) :
    centroid (p.steps u t n) = ofReal (p.stepped u (t + ((n : ℝ) - 1) / 2)) := by
  have hne : (n : ℝ) ≠ 0 := Nat.cast_ne_zero.mpr hn.ne'
  have hsum : ∀ f : ℕ → ℝ, ((List.range n).map fun i => (f i : Exact)).sum / (n : ℝ) =
      ((((List.range n).map f).sum / n : ℝ) : Exact) := by
    intro f
    rw [Exact.coe_div _ hne, Exact.coe_list_sum, List.map_map]
    rfl
  simp only [centroid, steps, List.length_map, List.length_range, List.map_map, Function.comp_def,
    ofReal, stepped, Exact.ofNat_eq_coe, hsum, sum_range_steps _ _ _ hn]

end Point

namespace Line

variable (l : Line ℝ)

@[simp] theorem centre_ofReal : (ofReal l).centre = Point.ofReal l.middle := by
  simp only [centre, ofReal, Point.ofReal, middle, Exact.coe_div_two, Exact.coe_add]

@[simp] theorem middle_movedTo (p : Point ℝ) : (l.movedTo p).middle = p := by
  cases p
  simp only [middle, movedTo, Point.mk.injEq]
  constructor <;> ring

@[simp] theorem movedTo_middle : l.movedTo l.middle = l := by
  simp [movedTo]

theorem centredAt_ofReal (p : Point ℝ) :
    (ofReal l).centredAt (Point.ofReal p) = ofReal (l.movedTo p) := by
  rw [centredAt, centre_ofReal]
  simp only [translated, Point.translated, ofReal, movedTo, Point.ofReal, ← Exact.coe_sub,
    ← Exact.coe_add]

theorem direction_movedTo (p : Point ℝ) :
    (ofReal (l.movedTo p)).direction = (ofReal l).direction := by
  simp only [direction, ofReal, movedTo, Point.ofReal, ← Exact.coe_sub, add_sub_add_right_eq_sub]

theorem direction_ofReal {r : ℝ} (hr : 0 ≤ r)
    (hsquare : r * r = (l.finish.x - l.start.x) * (l.finish.x - l.start.x) +
      (l.finish.y - l.start.y) * (l.finish.y - l.start.y)) :
    (ofReal l).direction = if r < 1e-12 then (0, 0)
      else ((((l.finish.x - l.start.x) / r : ℝ) : Exact),
        (((l.finish.y - l.start.y) / r : ℝ) : Exact)) := by
  simp only [direction, ofReal, Point.ofReal, ← Exact.coe_sub, ← Exact.coe_mul, ← Exact.coe_add,
    ← hsquare, Exact.sqrt_coe (mul_self_nonneg r), Real.sqrt_mul_self hr,
    Exact.ofScientific_eq_coe, Exact.coe_lt_coe]
  by_cases h : r < 1e-12
  · rw [if_pos h, if_pos h]
  · have hne : r ≠ 0 := by
      rintro rfl
      norm_num at h
    rw [if_neg h, if_neg h, Exact.coe_div _ hne, Exact.coe_div _ hne]

/-- The direction of a line is a share of its vector, none at all if the line is too short. -/
theorem exists_direction_smul : ∃ c : ℝ, 0 ≤ c ∧
    (ofReal l).direction = (((c • l.vector).1 : Exact), ((c • l.vector).2 : Exact)) := by
  obtain ⟨r, hr, hsquare⟩ : ∃ r : ℝ, 0 ≤ r ∧ r * r =
      (l.finish.x - l.start.x) * (l.finish.x - l.start.x) +
        (l.finish.y - l.start.y) * (l.finish.y - l.start.y) :=
    ⟨_, Real.sqrt_nonneg _,
      Real.mul_self_sqrt (add_nonneg (mul_self_nonneg _) (mul_self_nonneg _))⟩
  rw [l.direction_ofReal hr hsquare]
  split_ifs
  · exact ⟨0, le_rfl, by simp⟩
  · refine ⟨r⁻¹, inv_nonneg.mpr hr, ?_⟩
    simp only [vector, Prod.smul_fst, Prod.smul_snd, smul_eq_mul, div_eq_inv_mul]

theorem exists_direction : ∃ u : ℝ × ℝ, (ofReal l).direction = ((u.1 : Exact), (u.2 : Exact)) := by
  obtain ⟨c, -, hc⟩ := l.exists_direction_smul
  exact ⟨c • l.vector, hc⟩

theorem fraction_eq_coe {n i : ℕ} (hn : n ≠ 1) (hi : i < n) :
    (fraction n i : Exact) = ((i / ((n : ℝ) - 1) : ℝ) : Exact) := by
  have hcast : ((n - 1 : ℕ) : ℝ) = n - 1 := by
    rw [Nat.cast_sub (by omega), Nat.cast_one]
  have hparts : ((n - 1 : ℕ) : ℝ) ≠ 0 := by
    rw [Nat.cast_ne_zero]
    omega
  by_cases hlast : i + 1 = n
  · have hi : i = n - 1 := by omega
    rw [fraction, if_pos hlast, hi, ← hcast, div_self hparts, Exact.coe_one]
  · have hone : (1.0 : Exact) = ((1 : ℝ) : Exact) := by
      rw [Exact.ofScientific_eq_coe]
      norm_num
    rw [fraction, if_neg hlast, Exact.ofNat_eq_coe, Exact.ofNat_eq_coe, hone,
      ← Exact.coe_div _ hparts, ← Exact.coe_mul, mul_one_div, hcast]

/-- The positions of a line that reaches `t` steps to both sides of a point, told from that point.
A single position is the point itself, however long the steps are said to be. -/
theorem positions_span (p : Point ℝ) (u : ℝ × ℝ) (t : ℝ) (n : ℕ) :
    (ofReal (p.span u t)).positions n =
      p.steps ((2 * t / ((n : ℝ) - 1)) • u) (-(((n : ℝ) - 1) / 2)) n := by
  by_cases hn : n = 1
  · subst hn
    simp [positions, Point.steps]
  · rw [positions, if_neg hn]
    apply List.map_congr_left
    intro i hi
    have hparts : (n : ℝ) - 1 ≠ 0 := sub_ne_zero.mpr (Nat.cast_ne_one.mpr hn)
    have hwalk : ∀ a v : ℝ, a + -t * v + (i : ℝ) / ((n : ℝ) - 1) * (a + t * v - (a + -t * v)) =
        a + (-(((n : ℝ) - 1) / 2) + (i : ℝ)) * (2 * t / ((n : ℝ) - 1) * v) := by
      intro a v
      field_simp
      ring
    simp only [pointAt, fraction_eq_coe hn (List.mem_range.mp hi), ofReal, Point.ofReal, Point.span,
      Point.stepped, ← Exact.coe_sub, ← Exact.coe_mul, ← Exact.coe_add, Prod.smul_fst,
      Prod.smul_snd, smul_eq_mul, hwalk]

variable {l} {u : ℝ × ℝ} (hu : (ofReal l).direction = ((u.1 : Exact), (u.2 : Exact)))
include hu

theorem unitSteps_ofReal (n : ℤ) :
    (ofReal l).unitSteps n = ofReal (l.middle.span u (((n : ℝ) - 1) / 2)) := by
  simp only [unitSteps, hu, centre_ofReal, Exact.ofInt_eq_coe, ← Exact.coe_mul,
    ← Exact.coe_div_two]
  simp only [Point.ofReal, ← Exact.coe_sub, ← Exact.coe_add, ofReal, Point.span, Point.stepped,
    Line.mk.injEq, Point.mk.injEq, Exact.coe_inj, Int.cast_sub, Int.cast_one]
  refine ⟨⟨?_, ?_⟩, ?_, ?_⟩ <;> ring

theorem positions_unitSteps (n : ℕ) :
    ((ofReal l).unitSteps n).positions n = l.middle.steps u (-(((n : ℝ) - 1) / 2)) n := by
  rw [unitSteps_ofReal hu, Int.cast_natCast, positions_span, mul_div_cancel₀ _ two_ne_zero]
  by_cases hn : n = 1
  · subst hn
    simp [Point.steps]
  · have hparts : (n : ℝ) - 1 ≠ 0 := sub_ne_zero.mpr (Nat.cast_ne_one.mpr hn)
    rw [div_self hparts, one_smul]

end Line

namespace Point

theorem distance_ofReal (p q : Point ℝ) : ∃ r : ℝ, (ofReal p).distance (ofReal q) = r := by
  simp only [distance, ofReal, ← Exact.coe_sub, Exact.hypot_coe]
  exact ⟨_, rfl⟩

@[simp] theorem distance_self (p : Point ℝ) : (ofReal p).distance (ofReal p) = 0 := by
  have h := Exact.hypot_coe 0 0
  simpa [distance, ofReal, ← Exact.coe_sub] using h

end Point

/-- The middle of a line does not lie away from its centre, be the line a point or not. -/
theorem Line.movement_middle (l : Line ℝ) :
    (ofReal l).movement (Point.ofReal l.middle) = 0 := by
  obtain ⟨r, hr⟩ := Point.distance_ofReal l.start l.finish
  have hlength : (ofReal l).length = r := hr
  rw [movement, centre_ofReal, Point.distance_self, hlength, ← Exact.coe_zero, Exact.coe_beq_coe,
    Exact.coe_beq_coe]
  by_cases h : r = 0
  · simp [h]
  · simp only [h, decide_false, Bool.false_eq_true, if_false, Exact.ofScientific_eq_coe,
      ← Exact.coe_mul, ← Exact.coe_div _ h, mul_zero, zero_div]

namespace Sampler

variable {s : Sampler Exact} {image band : Raster Exact} {l : Line ℝ} {u : ℝ × ℝ} {count : ℤ}
  {t : ℝ} (hband : image.band 0 = .ok band)
  (hline : s.sampleLine (Line.ofReal l) band count = Line.ofReal (l.middle.span u t))
include hband hline

theorem movement_span :
    s.movement image (Line.ofReal l) count (Point.ofReal l.middle) = .ok 0 := by
  have hmove := Line.movement_middle (l.middle.span u t)
  rw [Point.middle_span] at hmove
  rw [movement, hband, ok_bind, hline, hmove]
  rfl

theorem stepPosition_span (hcount : count ≠ 1) (k : ℤ) :
    s.stepPosition image (Line.ofReal l) count k =
      .ok (.ofReal (l.middle.stepped u (k * (2 * t / ((count : ℝ) - 1)) - t))) := by
  have hparts : (count : ℝ) - 1 ≠ 0 := sub_ne_zero.mpr (Int.cast_ne_one.mpr hcount)
  have hcast : ((count - 1 : ℤ) : ℝ) = count - 1 := by push_cast; rfl
  have hwalk : ∀ a v : ℝ, a + -t * v + (k : ℝ) * ((a + t * v - (a + -t * v)) / ((count : ℝ) - 1)) =
      a + (k * (2 * t / ((count : ℝ) - 1)) - t) * v := by
    intro a v
    ring
  rw [stepPosition, hband, ok_bind, hline, if_neg hcount]
  simp only [Line.ofReal, Point.ofReal, Point.span, Point.stepped, Exact.ofInt_eq_coe, hcast,
    ← Exact.coe_sub, ← Exact.coe_div _ hparts, ← Exact.coe_mul, ← Exact.coe_add, hwalk]
  rfl

omit hline in
theorem stepPosition_unitSteps
    (hline : s.sampleLine (Line.ofReal l) band count = (Line.ofReal l).unitSteps count)
    (hu : (Line.ofReal l).direction = ((u.1 : Exact), (u.2 : Exact))) (hcount : count ≠ 1) (k : ℤ) :
    s.stepPosition image (Line.ofReal l) count k =
      .ok (.ofReal (l.middle.stepped u ((k : ℝ) - ((count : ℝ) - 1) / 2))) := by
  have hparts : (count : ℝ) - 1 ≠ 0 := sub_ne_zero.mpr (Int.cast_ne_one.mpr hcount)
  rw [stepPosition_span hband (hline.trans (Line.unitSteps_ofReal hu count)) hcount,
    mul_div_cancel₀ _ two_ne_zero, div_self hparts, mul_one]

end Sampler

end Transect
