import Transect.Proofs.RealLookups
import Transect.Proofs.ShippedSamplers

/-!
# Where samples are taken

A sampler computes its samples in one place and reports the line of their positions in another. The
positions of the reported line are those of the samples: what is looked up in the band there, or to
both sides of there for a difference, are the samples, one after the other. The reported line has
the middle and the direction of the given one, however often the sampler is wrapped.
-/
namespace Transect

section

variable {α : Type} [Scalar α]

theorem differences_eq_zipWith (xs : List α) :
    differences xs = xs.zipWith (fun u v => Scalar.abs (v - u)) xs.tail := by
  induction xs with
  | nil => rfl
  | cons u xs ih =>
    cases xs with
    | nil => rfl
    | cons v rest => rw [differences, ih, List.tail_cons, List.tail_cons, List.zipWith_cons_cons]

theorem differences_map_range (f : ℕ → α) (n : ℕ) :
    differences ((List.range (n + 1)).map f) =
      (List.range n).map fun i => Scalar.abs (f (i + 1) - f i) := by
  rw [differences_eq_zipWith]
  apply List.ext_getElem
  · simp
  · intro i _ _
    simp

end

/-- What a strategy samples at a position: the value that is looked up there, or how far apart two
values are that are looked up to both sides of it. -/
noncomputable def Strategy.sampleAt (strategy : Strategy) (p : Plane Exact) (aside : ℝ × ℝ)
    (q : Point ℝ) : Exact :=
  match strategy with
  | nearest => p.nearest (.ofReal q)
  | interpolated => p.bilinear (.ofReal q)
  | derivative => Scalar.abs (p.bilinear (.ofReal (q.stepped aside 1)) -
      p.bilinear (.ofReal (q.stepped aside (-1))))

/-- Where `n` steps lie, the first of them at `t` steps from a point. -/
noncomputable def Point.places (p : Point ℝ) (u : ℝ × ℝ) (t : ℝ) (n : ℕ) : List (Point ℝ) :=
  (List.range n).map fun i : ℕ => p.stepped u (t + i)

theorem Point.map_places (p : Point ℝ) (u : ℝ × ℝ) (t : ℝ) (n : ℕ) :
    (p.places u t n).map ofReal = p.steps u t n := by
  rw [places, steps, List.map_map]
  rfl

namespace Line

variable (l : Line ℝ)

theorem positions_ofReal (n : ℕ) : (ofReal l).positions n =
    (l.middle.places ((1 / ((n : ℝ) - 1)) • l.vector) (-(((n : ℝ) - 1) / 2)) n).map .ofReal := by
  have h := positions_span l.middle l.vector (1 / 2) n
  rw [← l.eq_span, mul_one_div_cancel two_ne_zero] at h
  rw [h, Point.map_places]

theorem positions_sampleLine_derivative {n : ℕ} (hn : 0 < n) (band : Raster Exact) :
    (Sampler.derivative.sampleLine (ofReal l) band n).positions n =
      (l.middle.places ((1 / (n : ℝ)) • l.vector) (-(((n : ℝ) - 1) / 2)) n).map .ofReal := by
  have hcount : (1 : ℤ) ≤ n := by omega
  rw [Sampler.sampleLine_derivative hcount, positions_span, Point.map_places, Int.cast_natCast]
  by_cases hone : n = 1
  · subst hone
    simp [Point.steps]
  · have hparts : (n : ℝ) - 1 ≠ 0 := sub_ne_zero.mpr (Nat.cast_ne_one.mpr hone)
    have hpos : (n : ℝ) ≠ 0 := Nat.cast_ne_zero.mpr hn.ne'
    have hstep : 2 * (1 / 2 - 1 / (2 * (n : ℝ))) / ((n : ℝ) - 1) = 1 / n := by
      field_simp
    rw [hstep]

end Line

/-- A strategy reads what it samples at the positions of the line that it reports. -/
theorem Strategy.exists_positions (strategy : Strategy) (p : Plane Exact) (band : Raster Exact)
    (l : Line ℝ) {n : ℕ} (hn : 0 < n) : ∃ (positions : List (Point ℝ)) (c : ℝ), 0 ≤ c ∧
      (strategy.sampler.sampleLine (.ofReal l) band n).positions n = positions.map .ofReal ∧
      strategy.read p (.ofReal l) n = positions.map (strategy.sampleAt p (c • l.vector)) := by
  cases strategy with
  | nearest =>
    refine ⟨_, 0, le_rfl, l.positions_ofReal n, ?_⟩
    rw [read, l.positions_ofReal, List.map_map]
    rfl
  | interpolated =>
    refine ⟨_, 0, le_rfl, l.positions_ofReal n, ?_⟩
    rw [read, l.positions_ofReal, List.map_map]
    rfl
  | derivative =>
    have hcast : ((n + 1 : ℕ) : ℝ) - 1 = n := by
      rw [Nat.cast_add_one, add_sub_cancel_right]
    -- half a step aside of a position are the two that its difference is taken of
    have haside : ∀ t s : ℝ, (l.middle.stepped ((1 / (n : ℝ)) • l.vector) t).stepped
        ((1 / (2 * (n : ℝ))) • l.vector) s =
          l.middle.stepped ((1 / (n : ℝ)) • l.vector) (t + s / 2) := by
      intro t s
      simp only [Point.stepped_smul, Point.stepped_stepped]
      ring_nf
    refine ⟨_, 1 / (2 * n), by positivity, l.positions_sampleLine_derivative hn band, ?_⟩
    rw [read, l.positions_ofReal, List.map_map, Point.places, List.map_map, differences_map_range,
      Point.places, List.map_map]
    apply List.map_congr_left
    intro i _
    have hahead : -((n : ℝ) / 2) + ((i + 1 : ℕ) : ℝ) = -(((n : ℝ) - 1) / 2) + i + 1 / 2 := by
      push_cast
      ring
    have hbehind : -((n : ℝ) / 2) + (i : ℝ) = -(((n : ℝ) - 1) / 2) + i + -1 / 2 := by ring
    simp only [Function.comp_apply, sampleAt, haside, hcast, hahead, hbehind]

namespace Sampler

/-- The samples belong to the positions of the line that a sampler reports, which has the middle and
the direction of the given line. At a position the nearest pixel is looked up as long as the rounded
coordinates fit into a word, and the values around it are weighted as on a grid of thirty-seconds of
a pixel. -/
theorem samples_at_reported_positions (strategy : Strategy) (wraps : ℕ) {band : Raster Exact}
    {height width n : ℕ} (hband : band.extents = [height, width]) (hheight : 0 < height)
    (hwidth : 0 < width) (hn : 0 < n) (line : Line ℝ) :
    let sampler : Sampler Exact := shipped strategy wraps
    let plane : Plane Exact := ⟨height, width, fun row column => band.cell [row, column]⟩
    (∃ (reported : Line ℝ) (positions : List (Point ℝ)) (r c : ℝ), 0 ≤ r ∧ 0 ≤ c ∧
      sampler.sampleLine (.ofReal line) band n = .ofReal reported ∧
      (Line.ofReal reported).centre = (Line.ofReal line).centre ∧
      reported.vector = r • line.vector ∧
      (Line.ofReal reported).points n = .ok (positions.map .ofReal) ∧ positions.length = n ∧
      (strategy.Reaches height width n → sampler.samples (.ofReal line) band n =
        .ok (positions.map (strategy.sampleAt plane (c • line.vector)))) ∧
      (¬ strategy.Reaches height width n → sampler.samples (.ofReal line) band n =
        .error (.tooLargeToResample (max (strategy.lookups n) (max height width))))) ∧
    (∀ q : Point ℝ, FitsWord 64 q.x → FitsWord 64 q.y →
      plane.nearest (.ofReal q) = plane.cell (clampIndex height (Exact.nearestEven q.y))
        (clampIndex width (Exact.nearestEven q.x))) ∧
    ∀ pixels : Plane ℝ, plane = pixels.ofReal → max height width < lookupLimit →
      ∀ q : Point ℝ, FitsWord 32 (q.x * 32) → FitsWord 32 (q.y * 32) →
        plane.bilinear (.ofReal q) = (pixels.between q.onGrid : Exact) := by
  intro sampler plane
  have hcount : (1 : ℤ) ≤ n := by omega
  refine ⟨?_, fun q => plane.nearest_ofReal, ?_⟩
  · obtain ⟨t, ht, hinner⟩ := line.exists_innerLine_eq hcount wraps
    obtain ⟨s, hs, hreported⟩ := exists_sampleLine_shipped (s := sampler) rfl band hcount line
    obtain ⟨positions, c, hc, hpositions, hread⟩ :=
      strategy.exists_positions plane band (line.middle.span line.vector t) hn
    have hsamples : sampler.samples (.ofReal line) band n =
        strategy.sampler.samples (.ofReal (line.middle.span line.vector t)) band n := by
      rw [samples_shipped, hinner]
    have hline : (Line.ofReal (line.middle.span line.vector s)).positions n =
        positions.map .ofReal := by
      rw [← hpositions, ← hinner, ← sampleLine_shipped, ← hreported]
    refine ⟨_, positions, 2 * s, c * (2 * t), by positivity, by positivity, hreported, ?_,
      Line.vector_span _ _ _, ?_, ?_, ?_, ?_⟩
    · rw [Line.centre_ofReal, Line.centre_ofReal, Point.middle_span]
    · rw [Line.points, if_neg (by omega), Int.toNat_natCast, hline]
    · rw [← List.length_map, ← hline, Line.length_positions]
    · intro hreach
      rw [hsamples, samples_of_reaches hband hheight hwidth hn hreach, hread, Line.vector_span,
        smul_smul]
    · intro hreach
      rw [hsamples, samples_of_not_reaches hband hheight hwidth hn hreach]
  · intro pixels hpixels hsize q hx hy
    have hheights : height = pixels.height := congrArg Plane.height hpixels
    have hwidths : width = pixels.width := congrArg Plane.width hpixels
    rw [hheights, hwidths] at hsize
    rw [hpixels, pixels.bilinear_ofReal hsize hx hy]

/-- Differences in a band of two rows, along a line of three steps of one pixel. -/
theorem samples_at_reported_positions_of_three :
    let sampler : Sampler Exact := shipped .derivative 1
    let band : Raster Exact := ⟨[2, 5], fun index => Scalar.ofNat (index.getD 1 0)⟩
    let plane : Plane Exact := ⟨2, 5, fun row column => band.cell [row, column]⟩
    let line : Line ℝ := ⟨⟨1, 0⟩, ⟨3, 1⟩⟩
    band.extents = [2, 5] ∧ 0 < 2 ∧ 0 < 5 ∧ 0 < 3 ∧
      ∃ (reported : Line ℝ) (positions : List (Point ℝ)) (c : ℝ),
        sampler.sampleLine (.ofReal line) band 3 = .ofReal reported ∧
        (Line.ofReal reported).points 3 = .ok (positions.map .ofReal) ∧ positions.length = 3 ∧
        sampler.samples (.ofReal line) band 3 =
          .ok (positions.map (Strategy.derivative.sampleAt plane (c • line.vector))) := by
  intro sampler band plane line
  have hband : band.extents = [2, 5] := rfl
  have hwidth : 0 < 5 := by omega
  have hreach : Strategy.derivative.Reaches 2 5 3 := Or.inr (by decide)
  obtain ⟨⟨reported, positions, r, c, -, -, hreported, -, -, hpoints, hlength, hsamples, -⟩, -⟩ :=
    samples_at_reported_positions .derivative 1 hband two_pos hwidth three_pos line
  exact ⟨hband, two_pos, hwidth, three_pos, reported, positions, c, hreported, hpoints, hlength,
    hsamples hreach⟩

/-- A band can be too large for values between pixels, a position too far away for its nearest
pixel, and a fraction of a pixel too small to count. -/
theorem samples_beyond_reach :
    let only : Point ℝ → Line Exact := fun q => .ofReal ⟨q, q⟩
    let pair : Plane ℝ := ⟨1, 2, fun _ column => column⟩
    let band : Raster Exact := ⟨[1, 2], fun index => Scalar.ofNat (index.getD 1 0)⟩
    let nearest : Sampler Exact := shipped .nearest 0
    let interpolated : Sampler Exact := shipped .interpolated 0
    let far : Point ℝ := ⟨2 ^ 63, 0⟩
    let beside : Point ℝ := ⟨1 / 64, 0⟩
    interpolated.samples (only ⟨0, 0⟩) ⟨[1, 32767], fun _ => 1⟩ 1 =
        .error (.tooLargeToResample 32767) ∧
      ((nearest.sampleLine (only far) band 1).points 1 = .ok [.ofReal far] ∧
        nearest.samples (only far) band 1 = .ok [0] ∧
        pair.closest (Exact.nearestEven far.y) (Exact.nearestEven far.x) = 1) ∧
      (interpolated.sampleLine (only beside) band 1).points 1 = .ok [.ofReal beside] ∧
        interpolated.samples (only beside) band 1 = .ok [0] ∧ pair.between beside = 1 / 64 := by
  intro only pair band nearest interpolated far beside
  have hone : 0 < 1 := Nat.one_pos
  have hwide : 0 < 32767 := by norm_num
  have hzero : Exact.nearestEven 0 = 0 := by
    have h := Exact.nearestEven_intCast 0
    simpa using h
  have hsmall : ∀ x : ℝ, 0 ≤ x → x < 1 → ⌊x⌋ = 0 ∧ Int.fract x = x := fun x hx hlt =>
    ⟨Int.floor_eq_zero_iff.mpr ⟨hx, hlt⟩, Int.fract_eq_self.mpr ⟨hx, hlt⟩⟩
  have hpositions : ∀ q, (only q).positions 1 = [.ofReal q] := by
    intro q
    have hmiddle : (Line.mk q q).middle = q := by
      simp [Line.middle]
    rw [Line.positions, if_pos rfl, Line.centre_ofReal, hmiddle]
  have hpoints : ∀ q, (only q).points 1 = .ok [.ofReal q] := by
    intro q
    rw [← hpositions]
    rfl
  have hplane : Plane.mk 1 2 (fun row column => band.cell [row, column]) = pair.ofReal := by
    simp only [Plane.ofReal, band, pair, Plane.mk.injEq, true_and]
    funext row column
    exact Exact.ofNat_eq_coe column
  have hpair : ∀ {strategy : Strategy} {q : Point ℝ}, strategy.Reaches 1 2 1 →
      (shipped strategy 0).samples (only q) band 1 =
        .ok (strategy.read pair.ofReal (only q) 1) := by
    intro strategy q hreach
    rw [← hplane]
    exact samples_of_reaches rfl hone two_pos hone hreach _
  refine ⟨?_, ⟨hpoints far, ?_⟩, hpoints beside, ?_⟩
  · -- a band that is one pixel too wide
    have hreach : ¬ Strategy.interpolated.Reaches 1 32767 1 := by
      simp [Strategy.Reaches, Strategy.lookups, lookupLimit]
    exact samples_of_not_reaches rfl hone hwide hone hreach _
  · -- a place that fits no word, so that the first pixel is taken instead of the last
    have hround : Exact.nearestEven (2 ^ 63) = 2 ^ 63 := by
      have h := Exact.nearestEven_intCast (2 ^ 63)
      rwa [Int.cast_pow, Int.cast_ofNat] at h
    have hword : wordNearest 64 ((2 ^ 63 : ℝ) : Exact) = -2 ^ 63 := by
      apply wordNearest_of_not_fitsWord
      rw [FitsWord, hround]
      norm_num
    have hfirst : clampIndex 2 (-2 ^ 63) = 0 := by decide
    have hlast : clampIndex 2 (2 ^ 63) = 1 := by decide
    constructor
    · rw [hpair (.inl rfl), Strategy.read, hpositions, List.map_singleton, Plane.nearest]
      simp only [Point.ofReal, far, hword, Plane.ofReal, pair, hfirst, Nat.cast_zero,
        Exact.coe_zero]
    · simp only [Plane.closest, pair, far, hround, hlast, Nat.cast_one]
  · -- half a step of the grid, rounded to the even place
    have hround : Exact.nearestEven (1 / 64 * 32) = 0 := by
      obtain ⟨hfloor, hfract⟩ := hsmall (1 / 64 * 32) (by norm_num) (by norm_num)
      rw [Exact.nearestEven, hfract, hfloor, if_pos ⟨by norm_num, Even.zero⟩]
    have hfits : FitsWord 32 (beside.x * 32) ∧ FitsWord 32 (beside.y * 32) := by
      simp only [FitsWord, beside, hround, zero_mul, hzero]
      norm_num
    have hgrid : beside.onGrid = ⟨0, 0⟩ := by
      simp only [Point.onGrid, beside, hround, zero_mul, hzero, Int.cast_zero, zero_div]
    have hfirst : pair.between ⟨0, 0⟩ = 0 := by
      simp [Plane.between, Plane.closest, pair, clampIndex]
    constructor
    · rw [hpair (.inr (by decide)), Strategy.read, hpositions, List.map_singleton,
        Plane.bilinear_ofReal pair (by decide) hfits.1 hfits.2, hgrid, hfirst, Exact.coe_zero]
    · obtain ⟨hfloor, hfract⟩ := hsmall (1 / 64) (by norm_num) (by norm_num)
      simp only [Plane.between, beside, Plane.closest, pair, hfloor, hfract]
      simp [clampIndex]

end Sampler

end Transect
