import Transect.Proofs.Orbits

/-!
# Searches that cannot fail

A model that has learned finite profiles searches every image of the bands that these are of, as
long as its sampler reaches the bands: there is a score in the centre, a position is stepped to only
if there are two samples at least, and every step moves the line by a finite number of its halves.
An image that is too large for its sampler is refused as such, whatever is asked about it.
-/
namespace Transect

namespace Session

variable {α : Type} [Scalar α] [LinearAlgebra α] {s : Session α} {config : SearchConfig α}
  {image : Raster α} {line : Line α}

/-- If all steps can be taken then a search returns, with what holds of all movements. -/
theorem exists_refine_of_strides {P : α → Prop} (hlimit : 1 ≤ config.stepLimit)
    (h : ∀ k, ∃ t, s.strideAfter image config.window line k = .ok t ∧ P t.movement) :
    ∃ r, (ModelM.refine config image line).answer s = .ok r ∧ P r.movement := by
  have hcases : (∃ k t, k < config.stepLimit.toNat ∧
      s.strideAfter image config.window line k = .ok t ∧ _) ∨ _ := refine_cases hlimit
  rcases hcases with ⟨k, t, hk, ht, hhit, hmiss⟩ | ⟨k, e, -, he, -⟩ | ⟨t, ht, hmiss⟩
  · obtain ⟨u, hu, hP⟩ := h k
    cases hu.symm.trans ht
    exact ⟨_, answer_refine_of_hit hlimit hk ht hhit hmiss, hP⟩
  · obtain ⟨u, hu, -⟩ := h k
    cases hu.symm.trans he
  · obtain ⟨u, hu, hP⟩ := h (config.stepLimit.toNat - 1)
    cases hu.symm.trans ht
    exact ⟨_, answer_refine_of_miss hlimit ht hmiss, hP⟩

end Session

theorem Sampler.movement_of_share {sampler : Sampler Exact} {image band : Raster Exact}
    {given : Line Exact} {l : Line ℝ} {count : ℤ} (hband : image.band 0 = .ok band)
    (hline : sampler.sampleLine given band count = .ofReal l) (t : ℝ) :
    sampler.movement image given count (.ofReal (l.start.stepped l.vector t)) =
      .ok ((if l.extent = 0 then 0 else |2 * t - 1| : ℝ) : Exact) := by
  rw [movement, hband, ok_bind, hline, l.movement_start_stepped t]
  rfl

section

variable {α : Type} [Scalar α] {image : Raster α} {height width bands n : ℕ}
  (himage : image.extents = [height, width] ∧ bands = 1 ∨ image.extents = [height, width, bands])
  (hbands : 0 < bands)
include himage hbands

omit [Scalar α] in
theorem Raster.exists_first_band : ∃ band, image.band 0 = .ok band := by
  obtain ⟨parts, hparts, hlength, -⟩ := bands_of_extents himage
  exact exists_band_zero hparts (List.ne_nil_of_length_pos (by omega))

theorem Sampler.exists_movement (sampler : Sampler α) (line : Line α) (count : ℤ) (p : Point α) :
    ∃ x, sampler.movement image line count p = .ok x := by
  obtain ⟨band, hband⟩ := Raster.exists_first_band himage hbands
  rw [movement, hband]
  exact ⟨_, rfl⟩

theorem Sampler.window_of_not_reaches (hheight : 0 < height) (hwidth : 0 < width) (hn : 0 < n)
    {strategy : Strategy} (hreach : ¬ strategy.Reaches height width n) (wraps : ℕ) (line : Line α) :
    (shipped strategy wraps).window image line n =
      .error (.tooLargeToResample (max (strategy.lookups n) (max height width))) := by
  obtain ⟨parts, hparts, hlength, hextents⟩ := Raster.bands_of_extents himage
  have hrefused : ∀ band ∈ parts, (shipped strategy wraps).samples line band n =
      .error (.tooLargeToResample (max (strategy.lookups n) (max height width))) := by
    intro band hband
    rw [samples_shipped]
    exact samples_of_not_reaches (hextents band hband) hheight hwidth hn hreach _
  obtain ⟨band, hband⟩ := List.exists_mem_of_ne_nil parts (List.ne_nil_of_length_pos (by omega))
  have hnone := mapM_eq_error (fun band hband => Or.inl (hrefused band hband))
    ⟨band, hband, hrefused band hband⟩
  rw [window, hparts, ok_bind, hnone, error_bind]

end

namespace Session

variable [LinearAlgebra Exact] [LawfulInverse] {s : Session Exact} {strategy : Strategy}
  {wraps D height width bands count : ℕ} {xs : List (Fin D → ℝ)} {image : Raster Exact}
  (hsampler : s.model.sampler = .shipped strategy wraps)
  (hlearned : s.model.Learned (xs.map Exact.ofReals)) (hxs : xs ≠ [])
  (himage : image.extents = [height, width] ∧ bands = 1 ∨ image.extents = [height, width, bands])
  (hheight : 0 < height) (hwidth : 0 < width) (hbands : 0 < bands)
  (hD : bands * s.model.footprint = D) (hle : s.model.footprint ≤ count)
  (hreach : strategy.Reaches height width count)
include hsampler hlearned hxs himage hheight hwidth hbands hD hle hreach

theorem exists_scores (line : Line Exact) :
    ∃ scores, s.model.scorer.scoreWindowImage image line count = .ok scores ∧
      scores.length = count - s.model.footprint + 1 ∧
      ∀ x ∈ scores, x = Scalar.inf ∨ ∃ r : ℝ, x = r ∧ 0 ≤ r := by
  have hn : 0 < count := lt_of_lt_of_le s.model.footprint_pos hle
  obtain ⟨w, hw, hlength, hparts⟩ :
      ∃ w, (Sampler.shipped strategy wraps).window image line count = .ok w ∧ w.length = count ∧
        w.bands.length = bands :=
    Sampler.exists_window_shipped himage hheight hwidth hbands hn hreach line
  have hdimension : w.bands.length * s.model.footprint = D := by rw [hparts, hD]
  obtain ⟨scores, hscores, hcount, -⟩ :=
    hlearned.exists_scoreWindow hxs hdimension (hlength ▸ hle)
  rw [← hsampler] at hw
  refine ⟨scores, (Scorer.scoreWindowImage_of_window hw).trans hscores, hlength ▸ hcount, ?_⟩
  intro x hx
  obtain ⟨i, hi⟩ := List.mem_iff_getElem?.mp hx
  obtain ⟨-, hrates⟩ := hlearned.rates_of_scoreWindow hxs hdimension hscores hi
  unfold Model.Rates at hrates
  split at hrates
  · obtain ⟨-, r, hr, hnonneg, -⟩ := hrates
    exact Or.inr ⟨r, hr, hnonneg⟩
  · exact Or.inl hrates

/-- A step finds a position with finite coordinates, at a finite distance. Only if the centred score
is not the least one is it reached by steps, of which there are some then. -/
theorem exists_stride (line : Line ℝ) :
    ∃ (scores : List Exact) (i : ℕ) (x centred : Exact) (p : Point ℝ) (d : ℝ),
      s.model.scorer.scoreWindowImage image (.ofReal line) count = .ok scores ∧
      FirstLeast scores i x ∧ scores[(count - s.model.footprint) / 2]? = some centred ∧
      (centred ≠ x → 2 ≤ count) ∧
      (ModelM.bestPosition image (.ofReal line) count).answer s = .ok (.ofReal p) ∧
      s.model.movement image (.ofReal line) count (.ofReal p) = .ok (d : Exact) ∧ 0 ≤ d ∧
      s.stride image count (.ofReal line) = .ok ⟨.ofReal p, d, .ofReal (line.movedTo p)⟩ := by
  obtain ⟨scores, hscores, hlength, hdefined⟩ := exists_scores hsampler hlearned hxs himage hheight
    hwidth hbands hD hle hreach (.ofReal line)
  have hself : ∀ x ∈ scores, (x == x) = true := by
    intro x hx
    rcases hdefined x hx with rfl | ⟨r, rfl, -⟩
    · rfl
    · simp
  obtain ⟨i, x, hleast, hfirst⟩ :=
    exists_firstLeast (List.ne_nil_of_length_pos (by omega)) hself
  obtain ⟨centred, hcentred⟩ :
      ∃ centred, scores[(count - s.model.footprint) / 2]? = some centred :=
    ⟨_, List.getElem?_eq_getElem (by omega)⟩
  obtain ⟨band, l, t, hband, hline, hposition, -, haway⟩ := Scorer.exists_share hsampler
    s.model.footprint_pos hscores hself hleast hcentred
  have hanswer := (ModelM.yields_bestPosition image (.ofReal line) count s).answer_eq.trans
    hposition
  have hmovement : s.model.movement image (.ofReal line) count
      (.ofReal (l.start.stepped l.vector t)) = _ := Sampler.movement_of_share hband hline t
  refine ⟨scores, i, x, centred, _, _, hscores, hfirst, hcentred, fun hne => (haway hne).1, hanswer,
    hmovement, ite_nonneg le_rfl (abs_nonneg _), ?_⟩
  rw [stride, hanswer, ok_bind, hmovement, ok_bind, Line.centredAt_ofReal]
  rfl

/-- All lines of the orbit are finite, so that every step can be taken. -/
theorem exists_strideAfter (line : Line ℝ) (k : ℕ) :
    ∃ (p : Point ℝ) (d : ℝ) (l : Line ℝ), 0 ≤ d ∧
      s.strideAfter image count (.ofReal line) k = .ok ⟨.ofReal p, d, .ofReal l⟩ := by
  have hnext (l : Line ℝ) := exists_stride hsampler hlearned hxs himage hheight hwidth hbands hD
    hle hreach l
  -- On the step: the line that the one before found is finite, and any finite line will do.
  induction k with
  | zero =>
    obtain ⟨-, -, -, -, p, d, -, -, -, -, -, -, hd, hstride⟩ := hnext line
    exact ⟨p, d, _, hd, hstride⟩
  | succ k ih =>
    obtain ⟨_, _, l, -, hbefore⟩ := ih
    obtain ⟨-, -, -, -, p, d, -, -, -, -, -, -, hd, hstride⟩ := hnext l
    refine ⟨p, d, l.movedTo p, hd, ?_⟩
    rw [strideAfter, orbit_succ_of_stride hbefore, ok_bind, hstride]

end Session

/-- What a trained model answers about images of the bands that its profiles are of. Movements are
measured in every image. If the sampler reaches the bands then there are scores for every line, a
best position, and a finite movement that is not negative for every step of a search and at its end.
Otherwise all of them are refused for one reason. -/
theorem search_total [LinearAlgebra Exact] [LawfulInverse] {s : Session Exact} {strategy : Strategy}
    {wraps D height width bands : ℕ} {xs : List (Fin D → ℝ)} {image : Raster Exact}
    (hsampler : s.model.sampler = .shipped strategy wraps)
    (hlearned : s.model.Learned (xs.map Exact.ofReals)) (hxs : xs ≠ [])
    (himage : image.extents = [height, width] ∧ bands = 1 ∨ image.extents = [height, width, bands])
    (hheight : 0 < height) (hwidth : 0 < width) (hbands : 0 < bands)
    (hD : bands * s.model.footprint = D) (line : Line ℝ) {count : ℕ}
    (hle : s.model.footprint ≤ count) :
    let n := s.model.footprint
    let o := (count - n) / 2
    let given : Line Exact := .ofReal line
    let scored := (ModelM.scoreWindowImage image given count).answer s
    let found := (ModelM.bestPosition image given count).answer s
    let refined (config : SearchConfig Exact) := (ModelM.refine config image given).answer s
    (∀ l p, ∃ x, s.model.movement image l count p = .ok x) ∧
    (strategy.Reaches height width count →
      (∃ (scores : List Exact) (i : ℕ) (x centred : Exact) (p : Point ℝ) (d : ℝ),
        scored = .ok scores ∧ scores.length = count - n + 1 ∧ o < scores.length ∧
        (∀ x ∈ scores, x = Scalar.inf ∨ ∃ r : ℝ, x = r ∧ 0 ≤ r) ∧
        FirstLeast scores i x ∧ scores[o]? = some centred ∧ (centred ≠ x → 2 ≤ count) ∧
        found = .ok (.ofReal p) ∧
        s.model.movement image given count (.ofReal p) = .ok (d : Exact) ∧ 0 ≤ d) ∧
      (∀ k, ∃ (p : Point ℝ) (d : ℝ) (l : Line ℝ), 0 ≤ d ∧
        s.strideAfter image count given k = .ok ⟨.ofReal p, d, .ofReal l⟩) ∧
      ∀ config : SearchConfig Exact, config.window = count → 1 ≤ config.stepLimit →
        ∃ r, refined config = .ok r ∧ ∃ d : ℝ, r.movement = d ∧ 0 ≤ d) ∧
    (¬ strategy.Reaches height width count →
      let e := .tooLargeToResample (max (strategy.lookups count) (max height width))
      scored = .error e ∧ found = .error e ∧
      ∀ config : SearchConfig Exact, config.window = count → 1 ≤ config.stepLimit →
        refined config = .error e) := by
  intro n o given scored found refined
  have hn : 0 < count := lt_of_lt_of_le s.model.footprint_pos hle
  refine ⟨fun l p => Sampler.exists_movement himage hbands _ l count p, fun hreach => ?_,
    fun hreach => ?_⟩
  · have hstrides := Session.exists_strideAfter hsampler hlearned hxs himage hheight hwidth hbands
      hD hle hreach line
    obtain ⟨scores, hscores, hlength, hdefined⟩ := Session.exists_scores hsampler hlearned hxs
      himage hheight hwidth hbands hD hle hreach given
    obtain ⟨others, i, x, centred, p, d, hothers, hfirst, hcentred, haway, hfound, hmovement, hd,
      -⟩ := Session.exists_stride hsampler hlearned hxs himage hheight hwidth hbands hD hle hreach
        line
    obtain rfl : others = scores := Except.ok.inj (hothers.symm.trans hscores)
    refine ⟨⟨others, i, x, centred, p, d,
      (ModelM.yields_scoreWindowImage image given count s).answer_eq.trans hscores, hlength,
      by omega, hdefined, hfirst, hcentred, haway, hfound, hmovement, hd⟩, hstrides, ?_⟩
    intro config hwindow hlimit
    refine Session.exists_refine_of_strides (P := fun x : Exact => ∃ d : ℝ, x = d ∧ 0 ≤ d) hlimit
      fun k => ?_
    obtain ⟨p, d, l, hd, hstride⟩ := hstrides k
    rw [hwindow]
    exact ⟨_, hstride, d, rfl, hd⟩
  · intro e
    have hwindow : s.model.scorer.scoreWindowImage image given count = .error e := by
      have hrefused := Sampler.window_of_not_reaches himage hbands hheight hwidth hn hreach wraps
        given
      rw [← hsampler] at hrefused
      rw [Scorer.scoreWindowImage, show s.model.scorer.sampler = s.model.sampler from rfl, hrefused,
        error_bind]
    refine ⟨(ModelM.yields_scoreWindowImage image given count s).answer_eq.trans hwindow,
      (ModelM.yields_bestPosition image given count s).answer_eq.trans
        (Scorer.bestPosition_of_error hwindow), fun config hconfig hlimit => ?_⟩
    exact (ModelM.answer_refine config image given s).trans
      (Scorer.refine_of_error hconfig hlimit hwindow)

/-- One pixel of two bands, searched between pixels and with steps of one pixel. -/
theorem search_total_of_pixel :
    let image : Raster Exact := ⟨[1, 1, 2], fun index => Scalar.ofNat (index.getD 2 0 + 1)⟩
    let line : Line Exact := .ofReal ⟨⟨0, 0⟩, ⟨0, 0⟩⟩
    ∃ m : Model Exact, Model.create 1 (.shipped .interpolated 1) 1 = .ok m ∧
      let s := m.start.after [.updateVector (Exact.ofReals ![1 / 4, 3 / 4])]
      (∃ p : Point ℝ, (ModelM.bestPosition image line 2).answer s = .ok (.ofReal p)) ∧
      ∃ r, (ModelM.refine ⟨2, 0, 3⟩ image line).answer s = .ok r ∧
        ∃ d : ℝ, r.movement = d ∧ 0 ≤ d := by
  intro image line
  obtain ⟨m, hm⟩ : ∃ m : Model Exact, Model.create 1 (.shipped .interpolated 1) 1 = .ok m :=
    ⟨_, rfl⟩
  obtain ⟨hfootprint, hsampler⟩ :=
    Session.fixed_after hm [.updateVector (Exact.ofReals ![1 / 4, 3 / 4])]
  have hlearned : (m.start.after [.updateVector (Exact.ofReals ![1 / 4, 3 / 4])]).model.Learned
      ([![1 / 4, 3 / 4]].map Exact.ofReals) := learned_after hm _
  have himage : image.extents = [1, 1] ∧ 2 = 1 ∨ image.extents = [1, 1, 2] := Or.inr rfl
  obtain ⟨-, hreached, -⟩ := search_total hsampler hlearned (List.cons_ne_nil _ _) himage
    Nat.one_pos Nat.one_pos two_pos (by rw [hfootprint]; rfl) ⟨⟨0, 0⟩, ⟨0, 0⟩⟩
    (hfootprint.trans_le one_le_two)
  obtain ⟨⟨-, -, -, -, p, -, -, -, -, -, -, -, -, hfound, -⟩, -, hrefined⟩ :=
    hreached (Or.inr (by decide))
  exact ⟨m, hm, ⟨p, hfound⟩, hrefined ⟨2, 0, 3⟩ rfl (by decide)⟩

/-- A row that is too wide for values between pixels cannot be searched, although a finite profile
has been learned and movements are measured in it. -/
theorem search_not_total_of_wide :
    let image : Raster Exact := .filled 1 32767 1
    let line : Line Exact := .ofReal ⟨⟨0, 0⟩, ⟨0, 0⟩⟩
    ∃ m : Model Exact, Model.create 1 (.shipped .interpolated 0) 1 = .ok m ∧
      let s := m.start.after [.updateVector (Exact.ofReals ![1])]
      (ModelM.scoreWindowImage image line 1).answer s = .error (.tooLargeToResample 32767) ∧
      (ModelM.bestPosition image line 1).answer s = .error (.tooLargeToResample 32767) ∧
      (ModelM.refine ⟨1, 0, 1⟩ image line).answer s = .error (.tooLargeToResample 32767) := by
  intro image line
  obtain ⟨m, hm⟩ : ∃ m : Model Exact, Model.create 1 (.shipped .interpolated 0) 1 = .ok m :=
    ⟨_, rfl⟩
  refine ⟨m, hm, ?_⟩
  intro s
  have hsampler : s.model.scorer.sampler = .shipped .interpolated 0 :=
    (Session.fixed_after hm _).2
  have hreach : ¬ Strategy.interpolated.Reaches 1 32767 1 := by
    simp [Strategy.Reaches, Strategy.lookups, lookupLimit]
  have himage : image.extents = [1, 32767] ∧ 1 = 1 ∨ image.extents = [1, 32767, 1] :=
    Or.inl ⟨rfl, rfl⟩
  have hrefused := Sampler.window_of_not_reaches himage Nat.one_pos Nat.one_pos (by norm_num)
    Nat.one_pos hreach 0 line
  have hwindow : s.model.scorer.scoreWindowImage image line 1 =
      .error (.tooLargeToResample 32767) := by
    rw [Scorer.scoreWindowImage, hsampler]
    exact congrArg (· >>= s.model.scorer.scoreWindow) hrefused
  exact ⟨(ModelM.yields_scoreWindowImage image line 1 s).answer_eq.trans hwindow,
    (ModelM.yields_bestPosition image line 1 s).answer_eq.trans
      (Scorer.bestPosition_of_error hwindow),
    (ModelM.answer_refine _ image line s).trans (Scorer.refine_of_error rfl le_rfl hwindow)⟩

end Transect
