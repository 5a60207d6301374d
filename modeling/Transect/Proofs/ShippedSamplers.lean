import Transect.Proofs.Pointwise
import Transect.Proofs.UnitSteps
import Transect.Sampler.Choice

/-!
# What all shipped samplers have in common

A wrapped sampler takes the samples of the one inside, along another line. So all shipped samplers
take as many samples as they are asked for, and what cannot be sampled does not depend on the line.
-/
namespace Transect

/-- How many values between pixels a strategy looks up for a number of samples. -/
def Strategy.lookups : Strategy → Nat → Nat
  | nearest, _ => 0
  | interpolated, n => n
  | derivative, n => n + 1

/-- Whether a number of samples can be taken of a band of some extents: the nearest pixels always
can, and values between pixels as long as nothing is too large for looking them up. -/
def Strategy.Reaches (strategy : Strategy) (height width n : Nat) : Prop :=
  strategy = nearest ∨ max (strategy.lookups n) (max height width) < lookupLimit

variable {α : Type} [Scalar α]

/-- What a strategy reads from a plane along a line. -/
def Strategy.read (strategy : Strategy) (p : Plane α) (line : Line α) (n : Nat) : List α :=
  match strategy with
  | nearest => (line.positions n).map p.nearest
  | interpolated => (line.positions n).map p.bilinear
  | derivative => differences ((line.positions (n + 1)).map p.bilinear)

theorem Strategy.length_read (strategy : Strategy) (p : Plane α) (line : Line α) (n : Nat) :
    (strategy.read p line n).length = n := by
  cases strategy <;> simp [read, length_differences]

namespace Sampler

variable {strategy : Strategy} {line : Line α} {band : Raster α} {count : Int}

theorem samples_derivative {p : Plane α} (hband : band.planar = .ok p) (hcount : ¬ count < 1) :
    derivative.samples line band count =
      if p.isEmpty then .error .nothingToResample
      else if lookupLimit ≤ max (count + 1).toNat (max p.height p.width) then
        .error (.tooLargeToResample (max (count + 1).toNat (max p.height p.width)))
      else .ok (differences ((line.positions (count + 1).toNat).map p.bilinear)) := by
  have hpoints : ¬ count + 1 < 1 := by omega
  simp only [derivative, hband, ok_bind, if_neg hcount, Line.points, if_neg hpoints,
    Plane.interpolate, Line.length_positions]
  split_ifs <;> rfl

/-- Along which line a sampler samples after all its wrapping. -/
def innerLine (count : Int) : Nat → Line α → Line α
  | 0, line => line
  | wraps + 1, line => innerLine count wraps (line.unitSteps count)

theorem samples_shipped (strategy : Strategy) (wraps : Nat) (line : Line α) (band : Raster α)
    (count : Int) :
    (shipped strategy wraps).samples line band count =
      strategy.sampler.samples (innerLine count wraps line) band count := by
  induction wraps generalizing line with
  | zero => rfl
  | succ wraps ih => exact ih (line.unitSteps count)

theorem sampleLine_shipped (strategy : Strategy) (wraps : Nat) (line : Line α) (band : Raster α)
    (count : Int) :
    (shipped strategy wraps).sampleLine line band count =
      strategy.sampler.sampleLine (innerLine count wraps line) band count := by
  induction wraps generalizing line with
  | zero => rfl
  | succ wraps ih => exact ih (line.unitSteps count)

/-- Which line is sampled does not depend on the values of a band. -/
theorem sampleLine_congr (strategy : Strategy) (wraps : Nat) (line : Line α)
    (band band' : Raster α) (count : Int) :
    (shipped strategy wraps).sampleLine line band count =
      (shipped strategy wraps).sampleLine line band' count := by
  rw [sampleLine_shipped, sampleLine_shipped]
  cases strategy <;> rfl

section

variable {image image' : Raster α} (h : image'.extents = image.extents) (strategy : Strategy)
  (wraps : Nat) (line : Line α) (count : Int)
include h

theorem movement_congr (p : Point α) :
    (shipped strategy wraps).movement image' line count p =
      (shipped strategy wraps).movement image line count p := by
  rcases Raster.band_congr h 0 with ⟨e, he, he'⟩ | ⟨band, band', hband, hband'⟩
  · rw [movement, movement, he, he', error_bind]
  · rw [movement, movement, hband, hband', ok_bind, ok_bind,
      sampleLine_congr strategy wraps line band band']

theorem stepPosition_congr (steps : Int) :
    (shipped strategy wraps).stepPosition image' line count steps =
      (shipped strategy wraps).stepPosition image line count steps := by
  rcases Raster.band_congr h 0 with ⟨e, he, he'⟩ | ⟨band, band', hband, hband'⟩
  · rw [stepPosition, stepPosition, he, he', error_bind]
  · rw [stepPosition, stepPosition, hband, hband', ok_bind, ok_bind,
      sampleLine_congr strategy wraps line band band']

end

theorem samples_of_count_lt {p : Plane α} (hband : band.planar = .ok p) (hcount : count < 1) :
    strategy.sampler.samples line band count = .error (.countBelowOne count) := by
  cases strategy <;>
    simp [Strategy.sampler, nearest, interpolated, derivative, hband, Line.points, hcount]

/-- A strategy reads its samples from a plane that is not empty, or it fails, along all lines
alike. -/
theorem samples_eq_read (strategy : Strategy) (band : Raster α) (count : Int) :
    (∃ e, ∀ line, strategy.sampler.samples line band count = .error e) ∨
      ∃ p, band.planar = .ok p ∧ ¬ p.isEmpty = true ∧ 1 ≤ count ∧
        ∀ line, strategy.sampler.samples line band count =
          .ok (strategy.read p line count.toNat) := by
  cases hband : band.planar with
  | error e =>
    refine Or.inl ⟨e, fun line => ?_⟩
    cases strategy <;> simp [Strategy.sampler, nearest, interpolated, derivative, hband]
  | ok p =>
    by_cases hcount : count < 1
    · exact Or.inl ⟨_, fun line => samples_of_count_lt hband hcount⟩
    by_cases hempty : p.isEmpty = true
    · cases strategy with
      | nearest =>
        exact Or.inl ⟨_, fun line => (samples_nearest hband hcount).trans (if_pos hempty)⟩
      | interpolated =>
        exact Or.inl ⟨_, fun line => (samples_interpolated hband hcount).trans (if_pos hempty)⟩
      | derivative =>
        exact Or.inl ⟨_, fun line => (samples_derivative hband hcount).trans (if_pos hempty)⟩
    have hpositive : 1 ≤ count := not_lt.mp hcount
    cases strategy with
    | nearest =>
      refine Or.inr ⟨p, rfl, hempty, hpositive, fun line => ?_⟩
      rw [Strategy.sampler, samples_nearest hband hcount, if_neg hempty, look_of_planar hband]
      rfl
    | interpolated =>
      simp only [Strategy.sampler, samples_interpolated hband hcount, if_neg hempty,
        look_of_planar hband]
      split_ifs with hlarge
      · exact Or.inl ⟨_, fun line => rfl⟩
      · exact Or.inr ⟨p, rfl, hempty, hpositive, fun line => rfl⟩
    | derivative =>
      have hlookups : (count + 1).toNat = count.toNat + 1 := by omega
      simp only [Strategy.sampler, samples_derivative hband hcount, if_neg hempty, hlookups]
      split_ifs with hlarge
      · exact Or.inl ⟨_, fun line => rfl⟩
      · exact Or.inr ⟨p, rfl, hempty, hpositive, fun line => rfl⟩

theorem of_samples_eq_ok {xs : List α} (h : strategy.sampler.samples line band count = .ok xs) :
    ∃ p, band.planar = .ok p ∧ ¬ p.isEmpty = true ∧ 1 ≤ count ∧
      xs = strategy.read p line count.toNat := by
  rcases samples_eq_read strategy band count with ⟨e, he⟩ | ⟨p, hp, hempty, hcount, hread⟩
  · rw [he] at h
    cases h
  · rw [hread] at h
    exact ⟨p, hp, hempty, hcount, (Except.ok.inj h).symm⟩

theorem length_samples_strategy {xs : List α}
    (h : strategy.sampler.samples line band count = .ok xs) :
    1 ≤ count ∧ xs.length = count.toNat := by
  obtain ⟨p, -, -, hcount, rfl⟩ := of_samples_eq_ok h
  exact ⟨hcount, strategy.length_read p line count.toNat⟩

theorem exists_samples_strategy {height width n : Nat} (hband : band.extents = [height, width])
    (hheight : 0 < height) (hwidth : 0 < width) (hn : 0 < n)
    (hreach : strategy.Reaches height width n) (line : Line α) :
    ∃ xs, strategy.sampler.samples line band n = .ok xs := by
  have hplane := Raster.planar_of_extents hband
  have hcount : ¬ (n : Int) < 1 := by omega
  have hempty :
      ¬ (Plane.mk height width fun row column => band.cell [row, column]).isEmpty = true :=
    Plane.not_isEmpty hheight hwidth
  cases strategy with
  | nearest =>
    rw [Strategy.sampler, samples_nearest hplane hcount, if_neg hempty]
    exact ⟨_, rfl⟩
  | interpolated =>
    have hsmall : ¬ lookupLimit ≤ max (n : Int).toNat (max height width) :=
      not_le.mpr (hreach.resolve_left nofun)
    rw [Strategy.sampler, samples_interpolated hplane hcount, if_neg hempty, if_neg hsmall]
    exact ⟨_, rfl⟩
  | derivative =>
    have hsmall : ¬ lookupLimit ≤ max ((n : Int) + 1).toNat (max height width) :=
      not_le.mpr (hreach.resolve_left nofun)
    rw [Strategy.sampler, samples_derivative hplane hcount, if_neg hempty, if_neg hsmall]
    exact ⟨_, rfl⟩

theorem samples_of_reaches {height width n : Nat} (hband : band.extents = [height, width])
    (hheight : 0 < height) (hwidth : 0 < width) (hn : 0 < n)
    (hreach : strategy.Reaches height width n) (line : Line α) :
    strategy.sampler.samples line band n =
      .ok (strategy.read ⟨height, width, fun row column => band.cell [row, column]⟩ line n) := by
  obtain ⟨xs, hxs⟩ := exists_samples_strategy hband hheight hwidth hn hreach line
  obtain ⟨p, hp, -, -, rfl⟩ := of_samples_eq_ok hxs
  rw [Raster.planar_of_extents hband] at hp
  cases hp
  exact hxs

/-- What a strategy does not reach is too large for looking up values between pixels. -/
theorem samples_of_not_reaches {height width n : Nat} (hband : band.extents = [height, width])
    (hheight : 0 < height) (hwidth : 0 < width) (hn : 0 < n)
    (hreach : ¬ strategy.Reaches height width n) (line : Line α) :
    strategy.sampler.samples line band n =
      .error (.tooLargeToResample (max (strategy.lookups n) (max height width))) := by
  obtain ⟨hstrategy, hlarge⟩ := not_or.mp hreach
  rw [not_lt] at hlarge
  have hplane := Raster.planar_of_extents hband
  have hcount : ¬ (n : Int) < 1 := by omega
  have hempty :
      ¬ (Plane.mk height width fun row column => band.cell [row, column]).isEmpty = true :=
    Plane.not_isEmpty hheight hwidth
  cases strategy with
  | nearest => exact absurd rfl hstrategy
  | interpolated =>
    rw [Strategy.sampler, samples_interpolated hplane hcount, if_neg hempty, Int.toNat_natCast]
    exact if_pos hlarge
  | derivative =>
    have hlookups : ((n : Int) + 1).toNat = n + 1 := by omega
    rw [Strategy.sampler, samples_derivative hplane hcount, if_neg hempty, hlookups]
    exact if_pos hlarge

/-- What is not a plane of pixels cannot be sampled, whatever its values are. -/
theorem exists_error_of_no_pixels (strategy : Strategy) {extents : List Nat}
    (h : ∀ height width, extents = [height, width] → height = 0 ∨ width = 0) (line : Line α)
    (count : Int) :
    ∃ e, ∀ band : Raster α, band.extents = extents →
      strategy.sampler.samples line band count = .error e := by
  by_cases hplane : ∃ height width, extents = [height, width]
  · obtain ⟨height, width, rfl⟩ := hplane
    have hempty (cell : Nat → Nat → α) : (Plane.mk height width cell).isEmpty = true := by
      simpa [Plane.isEmpty] using h height width rfl
    by_cases hcount : count < 1
    · exact ⟨_, fun band hband => samples_of_count_lt (Raster.planar_of_extents hband) hcount⟩
    · cases strategy with
      | nearest =>
        refine ⟨.noPixels, fun band hband => ?_⟩
        rw [Strategy.sampler, samples_nearest (Raster.planar_of_extents hband) hcount,
          if_pos (hempty _)]
      | interpolated =>
        refine ⟨.nothingToResample, fun band hband => ?_⟩
        rw [Strategy.sampler, samples_interpolated (Raster.planar_of_extents hband) hcount,
          if_pos (hempty _)]
      | derivative =>
        refine ⟨.nothingToResample, fun band hband => ?_⟩
        rw [Strategy.sampler, samples_derivative (Raster.planar_of_extents hband) hcount,
          if_pos (hempty _)]
  · refine ⟨.bandNotPlanar extents, fun band hband => ?_⟩
    have hp : band.planar = .error (.bandNotPlanar extents) := by
      rcases extents with - | ⟨_, - | ⟨_, - | ⟨_, _⟩⟩⟩
      · simp [Raster.planar, Raster.plane?, hband]
      · simp [Raster.planar, Raster.plane?, hband]
      · exact absurd ⟨_, _, rfl⟩ hplane
      · simp [Raster.planar, Raster.plane?, hband]
    cases strategy <;> simp [Strategy.sampler, nearest, interpolated, derivative, hp]

/-- Bands that are equally large can all be sampled, or none of them can, for the same reason. -/
theorem samples_cases (strategy : Strategy) (extents : List Nat) (line : Line α) (count : Int) :
    (∃ e, ∀ band : Raster α, band.extents = extents →
      strategy.sampler.samples line band count = .error e) ∨
    ∀ band : Raster α, band.extents = extents →
      ∃ xs, strategy.sampler.samples line band count = .ok xs := by
  by_cases hpixels : ∀ height width, extents = [height, width] → height = 0 ∨ width = 0
  · exact Or.inl (exists_error_of_no_pixels strategy hpixels line count)
  · push Not at hpixels
    obtain ⟨height, width, rfl, hheight, hwidth⟩ := hpixels
    have hheight := Nat.pos_of_ne_zero hheight
    have hwidth := Nat.pos_of_ne_zero hwidth
    by_cases hcount : count < 1
    · exact Or.inl
        ⟨_, fun band hband => samples_of_count_lt (Raster.planar_of_extents hband) hcount⟩
    · obtain ⟨n, rfl⟩ := Int.eq_ofNat_of_zero_le (show 0 ≤ count by omega)
      have hn : 0 < n := by omega
      by_cases hreach : strategy.Reaches height width n
      · exact Or.inr fun band hband =>
          exists_samples_strategy hband hheight hwidth hn hreach line
      · exact Or.inl ⟨_, fun band hband =>
          samples_of_not_reaches hband hheight hwidth hn hreach line⟩

variable {image : Raster α} {wraps : Nat}

theorem length_window_shipped {w : Window α}
    (h : (shipped strategy wraps).window image line count = .ok w) :
    1 ≤ count ∧ w.length = count.toNat := by
  obtain ⟨bands, -, hne, hall⟩ := of_window_eq_ok h
  obtain ⟨band, rest, rfl⟩ := List.exists_cons_of_ne_nil hne
  obtain ⟨row, hrow, hsamples⟩ := exists_of_forall₂ hall band List.mem_cons_self
  rw [samples_shipped] at hsamples
  rw [← w.length_eq row hrow]
  exact length_samples_strategy hsamples

theorem exists_window_shipped {height width n bands : Nat}
    (himage : image.extents = [height, width] ∧ bands = 1 ∨ image.extents = [height, width, bands])
    (hheight : 0 < height) (hwidth : 0 < width) (hbands : 0 < bands) (hn : 0 < n)
    (hreach : strategy.Reaches height width n) (line : Line α) :
    ∃ w, (shipped strategy wraps).window image line n = .ok w ∧ w.length = n ∧
      w.bands.length = bands := by
  obtain ⟨parts, hparts, hlength, hextents⟩ := Raster.bands_of_extents himage
  have hne : parts ≠ [] := List.ne_nil_of_length_pos (by omega)
  have hsamples : ∀ band ∈ parts, ∃ xs, (shipped strategy wraps).samples line band n = .ok xs := by
    intro band hband
    rw [samples_shipped]
    exact exists_samples_strategy (hextents band hband) hheight hwidth hn hreach _
  choose! row hrow using hsamples
  obtain ⟨w, hw, hcount, hrows⟩ := window_eq_ok hparts hne hrow fun band hband => by
    have h := hrow band hband
    rw [samples_shipped] at h
    exact (length_samples_strategy h).2
  exact ⟨w, hw, hcount, by rw [hrows, List.length_map, hlength]⟩

end Sampler

namespace Scorer

theorem searchable {k : Scorer α} {strategy : Strategy} {wraps : Nat}
    (hsampler : k.sampler = .shipped strategy wraps) {image : Raster α} {line : Line α}
    {count : Int} {scores : List α}
    (hscores : k.scoreWindowImage image line count = .ok scores) :
    (∃ band, image.band 0 = .ok band) ∧ 1 ≤ count ∧ (k.footprint : Int) ≤ count ∧
      scores.length = count.toNat - k.footprint + 1 := by
  obtain ⟨w, hw, hscores⟩ := bind_eq_ok.mp hscores
  obtain ⟨hle, hlength⟩ := length_scores hscores
  obtain ⟨bands, hbands, hne, -⟩ := Sampler.of_window_eq_ok hw
  rw [hsampler] at hw
  obtain ⟨hcount, hwidth⟩ := Sampler.length_window_shipped hw
  exact ⟨Raster.exists_band_zero hbands hne, hcount, by omega, by omega⟩

end Scorer

namespace Line

variable (l : Line ℝ)

@[simp] theorem vector_span (p : Point ℝ) (u : ℝ × ℝ) (t : ℝ) :
    (p.span u t).vector = ((2 * t) • u) := by
  ext <;> simp only [vector, Point.span, Point.stepped, Prod.smul_fst, Prod.smul_snd, smul_eq_mul]
  all_goals ring

theorem span_smul (p : Point ℝ) (u : ℝ × ℝ) (c t : ℝ) : p.span (c • u) t = p.span u (t * c) := by
  simp only [Point.span, Point.stepped_smul, neg_mul]

theorem eq_span : l = l.middle.span l.vector (1 / 2) := by
  obtain ⟨⟨x₁, y₁⟩, ⟨x₂, y₂⟩⟩ := l
  simp only [Point.span, Point.stepped, middle, vector, Line.mk.injEq, Point.mk.injEq]
  refine ⟨⟨?_, ?_⟩, ?_, ?_⟩ <;> ring

theorem exists_unitSteps_eq {n : ℤ} (hn : 1 ≤ n) :
    ∃ t, 0 ≤ t ∧ (ofReal l).unitSteps n = ofReal (l.middle.span l.vector t) := by
  obtain ⟨c, hc, hdirection⟩ := l.exists_direction_smul
  refine ⟨((n : ℝ) - 1) / 2 * c, ?_, ?_⟩
  · have hcast : (1 : ℝ) ≤ n := by exact_mod_cast hn
    exact mul_nonneg (by linarith) hc
  · rw [unitSteps_ofReal hdirection, span_smul]

/-- Wrapping stretches or shortens a line along itself. -/
theorem exists_innerLine_eq {count : ℤ} (hcount : 1 ≤ count) (wraps : ℕ) :
    ∃ t, 0 ≤ t ∧
      Sampler.innerLine count wraps (ofReal l) = ofReal (l.middle.span l.vector t) := by
  induction wraps generalizing l with
  | zero => exact ⟨1 / 2, by norm_num, congrArg ofReal l.eq_span⟩
  | succ wraps ih =>
    obtain ⟨s, hs, hsteps⟩ := l.exists_unitSteps_eq hcount
    obtain ⟨t, ht, hinner⟩ := ih (l.middle.span l.vector s)
    rw [Point.middle_span, vector_span, span_smul] at hinner
    refine ⟨t * (2 * s), by positivity, ?_⟩
    rw [Sampler.innerLine, hsteps, hinner]

end Line

namespace Sampler

variable {strategy : Strategy} {wraps : ℕ} {band : Raster Exact} {count : ℤ}

theorem sampleLine_derivative (hcount : 1 ≤ count) (l : Line ℝ) :
    derivative.sampleLine (.ofReal l) band count =
      Line.ofReal (l.middle.span l.vector (1 / 2 - 1 / (2 * count))) := by
  have hparts : (2 : ℝ) * count ≠ 0 := by
    have hpos : (0 : ℝ) < count := by exact_mod_cast hcount
    positivity
  have htwo : (2.0 : Exact) = ((2 : ℝ) : Exact) := by
    rw [Exact.ofScientific_eq_coe]
    norm_num
  simp only [derivative, halfStep, htwo, Exact.ofInt_eq_coe, Line.ofReal, Point.ofReal,
    ← Exact.coe_sub, ← Exact.coe_mul, ← Exact.coe_div _ hparts, ← Exact.coe_add, Point.span,
    Point.stepped, Line.middle, Line.vector, Line.mk.injEq, Point.mk.injEq, Exact.coe_inj]
  refine ⟨⟨?_, ?_⟩, ?_, ?_⟩ <;> ring

theorem exists_sampleLine_strategy (strategy : Strategy) (band : Raster Exact) (hcount : 1 ≤ count)
    (l : Line ℝ) :
    ∃ t, 0 ≤ t ∧ strategy.sampler.sampleLine (.ofReal l) band count =
      Line.ofReal (l.middle.span l.vector t) := by
  cases strategy with
  | nearest => exact ⟨1 / 2, by norm_num, congrArg Line.ofReal l.eq_span⟩
  | interpolated => exact ⟨1 / 2, by norm_num, congrArg Line.ofReal l.eq_span⟩
  | derivative =>
    refine ⟨1 / 2 - 1 / (2 * count), ?_, sampleLine_derivative hcount l⟩
    have hcast : (1 : ℝ) ≤ count := by exact_mod_cast hcount
    rw [sub_nonneg]
    exact one_div_le_one_div_of_le two_pos (by linarith)

/-- However often it is wrapped, a sampler samples the given line or some part or stretch of it. -/
theorem exists_sampleLine_shipped {s : Sampler Exact} (hs : s = shipped strategy wraps)
    (band : Raster Exact) (hcount : 1 ≤ count) (l : Line ℝ) :
    ∃ t, 0 ≤ t ∧ s.sampleLine (.ofReal l) band count = Line.ofReal (l.middle.span l.vector t) := by
  obtain ⟨r, hr, hinner⟩ := l.exists_innerLine_eq hcount wraps
  obtain ⟨t, ht, hline⟩ :=
    exists_sampleLine_strategy strategy band hcount (l.middle.span l.vector r)
  rw [Point.middle_span, Line.vector_span, Line.span_smul] at hline
  refine ⟨t * (2 * r), by positivity, ?_⟩
  rw [hs, sampleLine_shipped, hinner, hline]

end Sampler
end Transect
