import Transect.Proofs.Movements

/-!
# How far apart unit steps are

A sampler that is used with steps of one pixel takes its samples along a line of unit steps. Those
that sample at the positions of the line have them one pixel apart. A difference belongs between two
positions, of which there is one more than differences, so that the steepness is sampled a little
more closely, and the more so the fewer samples there are. A line of unit steps is not stretched any
further, so that wrapping a sampler again does not change what it samples.
-/
namespace Transect

/-- How far apart the samples of a strategy are along a line of `n` unit steps. -/
noncomputable def Strategy.pace (strategy : Strategy) (n : ℕ) : ℝ :=
  match strategy with
  | nearest => 1
  | interpolated => 1
  | derivative => 1 - 1 / n

namespace Strategy

variable {strategy : Strategy} {n : ℕ}

theorem pace_eq_one_iff (hn : 0 < n) : strategy.pace n = 1 ↔ strategy ≠ .derivative := by
  have hne : (n : ℝ) ≠ 0 := Nat.cast_ne_zero.mpr hn.ne'
  cases strategy <;> simp [pace, hne]

theorem pace_eq_pace_iff {m : ℕ} (hn : 0 < n) (hm : 0 < m) :
    strategy.pace m = strategy.pace n ↔ strategy ≠ .derivative ∨ m = n := by
  have hne : (n : ℝ) ≠ 0 := Nat.cast_ne_zero.mpr hn.ne'
  have hne' : (m : ℝ) ≠ 0 := Nat.cast_ne_zero.mpr hm.ne'
  cases strategy with
  | nearest => simp [pace]
  | interpolated => simp [pace]
  | derivative => simp [pace, sub_right_inj]

theorem half_le_pace (strategy : Strategy) (hn : 2 ≤ n) : 1 / 2 ≤ strategy.pace n := by
  have htwo : (2 : ℝ) ≤ n := Nat.ofNat_le_cast.mpr hn
  have hshare : 1 / (n : ℝ) ≤ 1 / 2 := one_div_le_one_div_of_le two_pos htwo
  cases strategy with
  | nearest => norm_num [pace]
  | interpolated => norm_num [pace]
  | derivative =>
    rw [pace]
    linarith

/-- What a strategy samples of a line of unit steps, which the steps of the line are told by. -/
theorem sampleLine_span (strategy : Strategy) (band : Raster Exact) (hn : 0 < n) (p : Point ℝ)
    (u : ℝ × ℝ) :
    strategy.sampler.sampleLine (.ofReal (p.span u (((n : ℝ) - 1) / 2))) band n =
      Line.ofReal (p.span u (strategy.pace n * (((n : ℝ) - 1) / 2))) := by
  cases strategy with
  | nearest => rw [pace, one_mul]; rfl
  | interpolated => rw [pace, one_mul]; rfl
  | derivative =>
    have hcount : (1 : ℤ) ≤ n := by omega
    rw [sampler, Sampler.sampleLine_derivative hcount, Point.middle_span, Line.vector_span,
      Line.span_smul, pace, Int.cast_natCast]
    congr 2
    have hne : (n : ℝ) ≠ 0 := Nat.cast_ne_zero.mpr hn.ne'
    field_simp

end Strategy

namespace Point

variable (p : Point ℝ) {u : ℝ × ℝ} (hu : u.1 * u.1 + u.2 * u.2 = 1) {t : ℝ}
include hu

theorem extent_span (ht : 0 ≤ t) : (p.span u t).extent = 2 * t := by
  have hsquares : 2 * t * u.1 * (2 * t * u.1) + 2 * t * u.2 * (2 * t * u.2) =
      (2 * t) ^ 2 * (u.1 * u.1 + u.2 * u.2) := by ring
  rw [Line.extent, Line.vector_span, Prod.smul_fst, Prod.smul_snd, smul_eq_mul, smul_eq_mul,
    hsquares, hu, mul_one, Real.sqrt_sq (by positivity)]

theorem direction_span (hlong : 1e-12 ≤ 2 * t) :
    (Line.ofReal (p.span u t)).direction = ((u.1 : Exact), (u.2 : Exact)) := by
  have hpos : 0 < 2 * t := lt_of_lt_of_le (by norm_num) hlong
  have ht : 0 ≤ t := by linarith
  rw [Line.direction_eq_ite, p.extent_span hu ht, if_neg (not_lt.mpr hlong), Line.vector_span,
    Prod.smul_fst, Prod.smul_snd, smul_eq_mul, smul_eq_mul, mul_div_cancel_left₀ _ hpos.ne',
    mul_div_cancel_left₀ _ hpos.ne']

theorem distance_steps {n i : ℕ} {c s : ℝ} (hc : 0 ≤ c) {a b : Point Exact}
    (ha : (p.steps (c • u) s n)[i]? = some a) (hb : (p.steps (c • u) s n)[i + 1]? = some b) :
    a.distance b = (c : Exact) := by
  have hplace : ∀ {j : ℕ} {q : Point Exact}, (p.steps (c • u) s n)[j]? = some q →
      q = ofReal (p.stepped (c • u) (s + j)) := by
    intro j q hq
    rw [steps, List.getElem?_map] at hq
    obtain ⟨k, hk, rfl⟩ := Option.map_eq_some_iff.mp hq
    rw [List.getElem?_eq_some_iff] at hk
    obtain ⟨hlt, hk⟩ := hk
    rw [← hk, List.getElem_range]
  have hsquares : c * u.1 * (c * u.1) + c * u.2 * (c * u.2) =
      c ^ 2 * (u.1 * u.1 + u.2 * u.2) := by ring
  rw [hplace ha, hplace hb, distance_stepped, Prod.smul_fst, Prod.smul_snd, smul_eq_mul,
    smul_eq_mul, hsquares, hu, mul_one, Real.sqrt_sq hc, Nat.cast_add_one, ← add_assoc,
    add_sub_cancel_left, abs_one, one_mul]

end Point

theorem Line.exists_unit_direction {l : Line ℝ} (h : (1e-12 : Exact) ≤ (ofReal l).length) :
    ∃ u : ℝ × ℝ, u.1 * u.1 + u.2 * u.2 = 1 ∧
      (ofReal l).direction = ((u.1 : Exact), (u.2 : Exact)) := by
  rw [length_ofReal, Exact.ofScientific_eq_coe, Exact.coe_le_coe] at h
  have hpos : 0 < l.extent := lt_of_lt_of_le (by norm_num) h
  refine ⟨(l.vector.1 / l.extent, l.vector.2 / l.extent), ?_, ?_⟩
  · field_simp
    rw [sq, sq, sq, l.extent_mul_self]
  · rw [l.direction_eq_ite, if_neg (not_lt.mpr h)]

/-- Along which line a sampler with steps of one pixel samples. It has the middle and the direction
of the given line, and its samples are as far apart as the strategy sets its pace. Only differences
are not one pixel apart, and not equally far apart for any two numbers of them. -/
theorem spacing_of_unitStep {config : SamplingConfig} {strategy : Strategy}
    (hstrategy : Strategy.ofSetting? config.strategy = some strategy)
    (hunit : config.unitStep.isOn = true) {line : Line ℝ}
    (hline : (1e-12 : Exact) ≤ (Line.ofReal line).length) {n : ℕ} (hn : 2 ≤ n)
    (band : Raster Exact) :
    ∃ (sampler : Sampler Exact) (event : Event Exact) (reported : Line ℝ)
      (positions : List (Point Exact)),
      config.sampler = .ok (sampler, event) ∧
      sampler.sampleLine (.ofReal line) band n = .ofReal reported ∧
      (Line.ofReal reported).centre = (Line.ofReal line).centre ∧
      (Line.ofReal reported).direction = (Line.ofReal line).direction ∧
      (Line.ofReal reported).length = ((strategy.pace n * ((n : ℝ) - 1) : ℝ) : Exact) ∧
      (Line.ofReal reported).points n = .ok positions ∧ positions.length = n ∧
      (∀ i p q, positions[i]? = some p → positions[i + 1]? = some q →
        p.distance q = (strategy.pace n : Exact)) ∧
      ((Line.ofReal reported).length = (((n : ℝ) - 1 : ℝ) : Exact) ↔ strategy ≠ .derivative) ∧
      ∀ m, 2 ≤ m → (strategy.pace m = strategy.pace n ↔ strategy ≠ .derivative ∨ m = n) := by
  obtain ⟨u, hu, hdirection⟩ := Line.exists_unit_direction hline
  have hpos : 0 < n := by omega
  have hparts : 1 ≤ (n : ℝ) - 1 := by
    have htwo : (2 : ℝ) ≤ n := Nat.ofNat_le_cast.mpr hn
    linarith
  have hpace : 1 / 2 ≤ strategy.pace n := strategy.half_le_pace hn
  let half : ℝ := strategy.pace n * (((n : ℝ) - 1) / 2)
  have hhalf : 2 * half = strategy.pace n * ((n : ℝ) - 1) := by ring
  have hnonneg : 0 ≤ half := by positivity
  refine ⟨.shipped strategy 1, .samplerCreated strategy config.unitStep, line.middle.span u half,
    (Line.ofReal (line.middle.span u half)).positions n, ?_, ?_, ?_, ?_, ?_, ?_, ?_, ?_, ?_,
    fun m hm => strategy.pace_eq_pace_iff hpos (by omega)⟩
  · simp only [SamplingConfig.sampler, hstrategy, hunit, if_true]
  · rw [Sampler.sampleLine_shipped, Sampler.innerLine, Line.unitSteps_ofReal hdirection,
      Int.cast_natCast]
    exact strategy.sampleLine_span band hpos line.middle u
  · rw [Line.centre_ofReal, Line.centre_ofReal, Point.middle_span]
  · rw [hdirection]
    refine line.middle.direction_span hu ?_
    rw [hhalf]
    exact le_trans (by norm_num) (mul_le_mul hpace hparts zero_le_one (by positivity))
  · rw [Line.length_ofReal, line.middle.extent_span hu hnonneg, hhalf]
  · rw [Line.points, if_neg (by omega), Int.toNat_natCast]
  · exact Line.length_positions _ n
  · intro i p q hp hq
    have hstep : 2 * half / ((n : ℝ) - 1) = strategy.pace n := by
      rw [hhalf, mul_div_cancel_right₀]
      positivity
    rw [Line.positions_span, hstep] at hp hq
    exact line.middle.distance_steps hu (by positivity) hp hq
  · rw [Line.length_ofReal, line.middle.extent_span hu hnonneg, hhalf, Exact.coe_inj,
      mul_eq_right₀ (by positivity), strategy.pace_eq_one_iff hpos]

/-- Two differences along a line of four pixels are half a pixel apart. -/
theorem spacing_of_unitStep_of_two :
    let config : SamplingConfig := ⟨.text "interpolated_derivative", .flag true⟩
    let line : Line Exact := .ofReal ⟨⟨0, 0⟩, ⟨4, 0⟩⟩
    ∀ band : Raster Exact, ∃ (sampler : Sampler Exact) (event : Event Exact) (reported : Line ℝ)
      (positions : List (Point Exact)), config.sampler = .ok (sampler, event) ∧
      sampler.sampleLine line band 2 = .ofReal reported ∧
      (Line.ofReal reported).points 2 = .ok positions ∧ positions.length = 2 ∧
      ∀ p q, positions[0]? = some p → positions[1]? = some q →
        p.distance q = ((1 / 2 : ℝ) : Exact) := by
  intro config line band
  have hlong : (1e-12 : Exact) ≤ line.length := by
    rw [Line.length_ofReal, Line.extent_level, Exact.ofScientific_eq_coe, Exact.coe_le_coe]
    norm_num
  have hstrategy : Strategy.ofSetting? config.strategy = some .derivative :=
    Strategy.ofSetting?_name .derivative
  obtain ⟨sampler, event, reported, positions, hsampler, hreported, -, -, -, hpoints, hlength,
    hspacing, -⟩ := spacing_of_unitStep hstrategy rfl hlong le_rfl band
  have hhalf : Strategy.derivative.pace 2 = 1 / 2 := by norm_num [Strategy.pace]
  rw [hhalf] at hspacing
  exact ⟨sampler, event, reported, positions, hsampler, hreported, hpoints, hlength, hspacing 0⟩

/-- The line that these two differences are taken along is half as long as the step between them
should be. -/
theorem sampleLine_of_two_differences :
    let config : SamplingConfig := ⟨.text "interpolated_derivative", .flag true⟩
    let line : Line Exact := .ofReal ⟨⟨0, 0⟩, ⟨4, 0⟩⟩
    let band : Raster Exact := ⟨[1, 1], fun _ => 0⟩
    (1e-12 : Exact) ≤ line.length ∧
    ∃ (sampler : Sampler Exact) (event : Event Exact), config.sampler = .ok (sampler, event) ∧
      sampler.sampleLine line band 2 = .ofReal ⟨⟨7 / 4, 0⟩, ⟨9 / 4, 0⟩⟩ ∧
      (sampler.sampleLine line band 2).length ≠ (((2 : ℝ) - 1 : ℝ) : Exact) := by
  intro config line band
  have hline : (Sampler.shipped .derivative 1).sampleLine line band 2 =
      Line.ofReal ⟨⟨7 / 4, 0⟩, ⟨9 / 4, 0⟩⟩ := by
    have hspan := Strategy.derivative.sampleLine_span band two_pos ⟨2, 0⟩ (1, 0)
    have hmiddle : (⟨⟨0, 0⟩, ⟨4, 0⟩⟩ : Line ℝ).middle = ⟨2, 0⟩ := by norm_num [Line.middle]
    rw [Sampler.sampleLine_shipped, Sampler.innerLine,
      Line.unitSteps_ofReal (u := (1, 0)) direction_of_bar, hmiddle]
    refine Eq.trans hspan (Line.ofReal_inj.mpr ?_)
    norm_num [Strategy.pace, Point.span, Point.stepped]
  refine ⟨?_, _, _, rfl, hline, ?_⟩
  · rw [Line.length_ofReal, Line.extent_level, Exact.ofScientific_eq_coe, Exact.coe_le_coe]
    norm_num
  · change ((Sampler.shipped .derivative 1).sampleLine line band 2).length ≠ _
    rw [hline, Line.length_ofReal, Line.extent_level, Ne, Exact.coe_inj]
    norm_num

namespace Line

variable (l : Line ℝ)

theorem direction_of_point (p : Point ℝ) : (ofReal ⟨p, p⟩).direction = (0, 0) := by
  rw [direction_ofReal _ le_rfl (by simp), if_pos (by norm_num)]

theorem direction_cases : ∃ u : ℝ × ℝ, (ofReal l).direction = ((u.1 : Exact), (u.2 : Exact)) ∧
    (u = 0 ∨ u.1 * u.1 + u.2 * u.2 = 1) := by
  by_cases hlong : (1e-12 : Exact) ≤ (ofReal l).length
  · obtain ⟨u, hu, hdirection⟩ := exists_unit_direction hlong
    exact ⟨u, hdirection, Or.inr hu⟩
  · refine ⟨0, ?_, Or.inl rfl⟩
    rw [length_ofReal, Exact.ofScientific_eq_coe, Exact.coe_le_coe, not_le] at hlong
    rw [l.direction_eq_ite, if_pos hlong]
    rfl

/-- Stretching a line again leaves it as it is. A single step or a line without direction leaves
nothing but the middle, and all other lines are then long enough to keep their direction. -/
theorem unitSteps_unitSteps {n : ℤ} (hn : 1 ≤ n) :
    ((ofReal l).unitSteps n).unitSteps n = (ofReal l).unitSteps n := by
  obtain ⟨u, hu, hlength⟩ := l.direction_cases
  rw [unitSteps_ofReal hu]
  by_cases hpoint : u = 0 ∨ n = 1
  · have hspan : l.middle.span u (((n : ℝ) - 1) / 2) = ⟨l.middle, l.middle⟩ := by
      rcases hpoint with rfl | rfl <;> simp [Point.span, Point.stepped]
    have hnone : (ofReal ⟨l.middle, l.middle⟩).direction =
        (((0 : ℝ) : Exact), ((0 : ℝ) : Exact)) := direction_of_point l.middle
    rw [hspan, unitSteps_ofReal (u := (0, 0)) hnone]
    simp [Point.span, Point.stepped, middle]
  · obtain ⟨hne, hmany⟩ := not_or.mp hpoint
    have htwo : (2 : ℝ) ≤ n := by exact_mod_cast (show 2 ≤ n by omega)
    have hdirection := l.middle.direction_span (hlength.resolve_left hne)
      (t := ((n : ℝ) - 1) / 2) (by norm_num; linarith)
    rw [unitSteps_ofReal hdirection, Point.middle_span]

end Line

namespace Sampler

/-- A line that has steps of one pixel already is sampled as the sampler inside does it. -/
theorem wrapped_of_unitSteps_eq {α : Type} [Scalar α] (s : Sampler α) {line : Line α} {count : ℤ}
    (h : line.unitSteps count = line) (band : Raster α) (wraps : ℕ) :
    (s.wrapped wraps).samples line band count = s.samples line band count ∧
      (s.wrapped wraps).sampleLine line band count = s.sampleLine line band count := by
  induction wraps with
  | zero => exact ⟨rfl, rfl⟩
  | succ wraps ih =>
    simp only [wrapped, unitStep, h]
    exact ih

/-- Wrapping a sampler again changes neither its samples nor the line along which it takes them. -/
theorem wrapped_eq_unitStep (s : Sampler Exact) {wraps : ℕ} (hwraps : 1 ≤ wraps) (line : Line ℝ)
    (band : Raster Exact) {count : ℤ} (hcount : 1 ≤ count) :
    ((Line.ofReal line).unitSteps count).unitSteps count = (Line.ofReal line).unitSteps count ∧
      (s.wrapped wraps).samples (.ofReal line) band count =
        s.unitStep.samples (.ofReal line) band count ∧
      (s.wrapped wraps).sampleLine (.ofReal line) band count =
        s.unitStep.sampleLine (.ofReal line) band count := by
  obtain ⟨more, rfl⟩ := Nat.exists_eq_add_one.mpr hwraps
  have hfixed := line.unitSteps_unitSteps hcount
  obtain ⟨hsamples, hline⟩ := s.wrapped_of_unitSteps_eq hfixed band more
  exact ⟨hfixed, hsamples, hline⟩

/-- Two differences along a line that is too short to have a direction. -/
theorem wrapped_eq_unitStep_of_three :
    let sampler : Sampler Exact := .derivative
    let line : Line ℝ := ⟨⟨1, 1⟩, ⟨1 + 1e-13, 1⟩⟩
    let band : Raster Exact := ⟨[2, 3], fun index => Scalar.ofNat (index.getD 1 0)⟩
    1 ≤ 3 ∧ (1 : ℤ) ≤ 2 ∧
      (sampler.wrapped 3).samples (.ofReal line) band 2 =
        sampler.unitStep.samples (.ofReal line) band 2 ∧
      (sampler.wrapped 3).sampleLine (.ofReal line) band 2 =
        sampler.unitStep.sampleLine (.ofReal line) band 2 := by
  intro sampler line band
  have hwraps : 1 ≤ 3 := by omega
  have hcount : (1 : ℤ) ≤ 2 := by omega
  obtain ⟨-, hsamples, hline⟩ := sampler.wrapped_eq_unitStep hwraps line band hcount
  exact ⟨hwraps, hcount, hsamples, hline⟩

end Sampler

end Transect
