import Transect.Proofs.Trained
import Transect.Proofs.UnitSteps

/-!
# One rate for training and search

Samples that are a pixel apart lie in the same places whether few or many are taken, as long as the
numbers differ by an even one. What a model costs along a line is therefore one of the scores in any
wider window along that line, the one of the offset in the centre.
-/
namespace Transect

/-- At some offset of a window the score is a number, and the same as the cost, or else it is
infinite and the samples behind the cost cannot be normalized. -/
def Agrees (scores : Except (Failure Exact) (List Exact)) (offset : ℕ)
    (cost : Except (Failure Exact) Exact) : Prop :=
  ∃ xs x, scores = .ok xs ∧ xs[offset]? = some x ∧
    ((∃ r : ℝ, x = r ∧ cost = .ok x) ∨
      ∃ total length, x = Scalar.inf ∧ cost = .error (.degenerateProfile total length))

section

variable [LinearAlgebra Exact] [LawfulInverse] {D : ℕ} {xs : List (Fin D → ℝ)} {s : Session Exact}
  {image : Raster Exact} {line : Line Exact} {few many : Window Exact} {count : ℤ} {i : ℕ}

theorem Model.Learned.agrees (h : s.model.Learned (xs.map Exact.ofReals)) (hxs : xs ≠ [])
    (hfew : s.model.sampler.window image line s.model.footprint = .ok few)
    (hmany : s.model.sampler.window image line count = .ok many)
    (hD : many.bands.length * s.model.footprint = D) (hi : i + s.model.footprint ≤ many.length)
    (hpart : many.part s.model.footprint i = few.samples) :
    Agrees ((ModelM.scoreWindowImage image line count).answer s) i
      ((ModelM.scoreImage image line).answer s) := by
  rw [(ModelM.yields_scoreWindowImage image line count s).answer_eq,
    (ModelM.yields_scoreImage image line s).answer_eq]
  obtain ⟨scores, hscores, -, hall⟩ := h.exists_scoreWindow hxs hD (by omega)
  obtain ⟨x, hx, hrates⟩ := hall i hi
  refine ⟨scores, x, ?_, hx, ?_⟩
  · exact (Scorer.scoreWindowImage_of_window (k := s.model.scorer) hmany).trans hscores
  · simp only [Scorer.scoreImage, Model.scorer, Sampler.profile, hfew, ok_bind]
    rw [hpart] at hrates
    unfold Model.Rates at hrates
    cases hprofile : normalize few.samples with
    | error e =>
      rw [hprofile] at hrates
      obtain ⟨total, rfl⟩ := normalize_eq_error hprofile
      exact Or.inr ⟨total, _, hrates, rfl⟩
    | ok profile =>
      rw [hprofile] at hrates
      obtain ⟨hscore, r, hr, -⟩ := hrates
      exact Or.inl ⟨r, hr, hscore⟩

end

theorem Line.take_drop_unitSteps (line : Line ℝ) {n count : ℕ} (hcount : n ≤ count)
    (heven : Even (count - n)) :
    ((((ofReal line).unitSteps count).positions count).drop ((count - n) / 2)).take n =
      ((ofReal line).unitSteps n).positions n := by
  obtain ⟨u, hu⟩ := line.exists_direction
  obtain ⟨k, hk⟩ := heven
  have hoffset : (count - n) / 2 = k := by omega
  have hcast : (count : ℝ) = n + 2 * k := by
    have hsum : count = n + 2 * k := by omega
    exact_mod_cast hsum
  rw [positions_unitSteps hu, positions_unitSteps hu, hoffset,
    Point.take_drop_steps _ _ _ (by omega), hcast]
  congr 1
  ring

namespace Sampler

variable {inner : Sampler Exact} {height width count : ℕ}

/-- What is looked up along a line does not depend on how many positions there are. -/
theorem exists_samples (hinner : inner = nearest ∨ inner = interpolated) (hheight : 0 < height)
    (hwidth : 0 < width)
    (hsize : inner = interpolated → max count (max height width) < lookupLimit) :
    ∃ value : Raster Exact → Point Exact → Exact,
      ∀ band : Raster Exact, band.extents = [height, width] →
        ∀ n : ℕ, 0 < n → n ≤ count → ∀ line : Line Exact,
          inner.samples line band n = .ok ((line.positions n).map (value band)) := by
  rcases hinner with rfl | rfl
  · refine ⟨look Plane.nearest, fun band hband n hn _ line => ?_⟩
    rw [samples_nearest (Raster.planar_of_extents hband) (by omega),
      if_neg (Plane.not_isEmpty hheight hwidth), Int.toNat_natCast]
  · refine ⟨look Plane.bilinear, fun band hband n hn hle line => ?_⟩
    have hlarge : ¬ lookupLimit ≤ max n (max height width) := by
      have := hsize rfl
      omega
    rw [samples_interpolated (Raster.planar_of_extents hband) (by omega),
      if_neg (Plane.not_isEmpty hheight hwidth), Int.toNat_natCast, if_neg hlarge]

variable {n : ℕ} {line : Line ℝ}

theorem samples_unitStep_same_rate (hinner : inner = nearest ∨ inner = interpolated)
    (hheight : 0 < height) (hwidth : 0 < width) (hn : 0 < n) (hcount : n ≤ count)
    (heven : Even (count - n))
    (hsize : inner = interpolated → max count (max height width) < lookupLimit)
    {band : Raster Exact} (hband : band.extents = [height, width]) :
    ∃ few many, (unitStep inner).samples (.ofReal line) band n = .ok few ∧ few.length = n ∧
      (unitStep inner).samples (.ofReal line) band count = .ok many ∧ many.length = count ∧
      (many.drop ((count - n) / 2)).take n = few := by
  obtain ⟨value, hvalue⟩ := exists_samples hinner hheight hwidth hsize
  refine ⟨_, _, hvalue band hband n hn hcount _, by simp,
    hvalue band hband count (by omega) le_rfl _, by simp, ?_⟩
  rw [← List.map_drop, ← List.map_take, line.take_drop_unitSteps hcount heven]

theorem samples_unitStep_too_large {band : Raster Exact} (hband : band.extents = [height, width])
    (hheight : 0 < height) (hwidth : 0 < width) (hcount : 0 < count)
    (hlarge : lookupLimit ≤ max count (max height width)) (line : Line Exact) :
    (unitStep interpolated).samples line band count =
      .error (.tooLargeToResample (max count (max height width))) := by
  change interpolated.samples (line.unitSteps count) band count = _
  rw [samples_interpolated (Raster.planar_of_extents hband) (by omega),
    if_neg (Plane.not_isEmpty hheight hwidth), Int.toNat_natCast, if_pos hlarge]

end Sampler

section

variable [LinearAlgebra Exact] [LawfulInverse] {s : Session Exact} {image : Raster Exact} {n : ℕ}

theorem agrees_of_unitStep {inner : Sampler Exact} {line : Line ℝ} {height width count bands : ℕ}
    (hinner : inner = .nearest ∨ inner = .interpolated)
    (hheight : 0 < height) (hwidth : 0 < width) (hn : 0 < n) (hcount : n ≤ count)
    (heven : Even (count - n))
    (hsize : inner = .interpolated → max count (max height width) < lookupLimit)
    (hbands : 0 < bands)
    (himage : image.extents = [height, width] ∧ bands = 1 ∨ image.extents = [height, width, bands])
    {xs : List (Fin (n * bands) → ℝ)} (hxs : xs ≠ [])
    (hlearned : s.model.Learned (xs.map Exact.ofReals))
    (hsampler : s.model.sampler = .unitStep inner) (hfootprint : s.model.footprint = n) :
    Agrees ((ModelM.scoreWindowImage image (.ofReal line) count).answer s) ((count - n) / 2)
      ((ModelM.scoreImage image (.ofReal line)).answer s) := by
  obtain ⟨value, hvalue⟩ := Sampler.exists_samples hinner hheight hwidth hsize
  obtain ⟨parts, hparts, hlength, hextents⟩ := Raster.bands_of_extents himage
  have hne : parts ≠ [] := List.ne_nil_of_length_pos (by omega)
  have hwindow : ∀ m : ℕ, 0 < m → m ≤ count → ∃ w,
      s.model.sampler.window image (.ofReal line) m = .ok w ∧ w.length = m ∧
        w.Reads parts value (((Line.ofReal line).unitSteps m).positions m) := by
    intro m hm hle
    rw [hsampler]
    exact Sampler.window_eq_ok hparts hne
      (fun band hband => hvalue band (hextents band hband) m hm hle _) fun band _ => by simp
  obtain ⟨few, hfew, -, hfewReads⟩ := hwindow n hn hcount
  obtain ⟨many, hmany, hmanyLength, hmanyReads⟩ := hwindow count (by omega) le_rfl
  have hpart : many.part n ((count - n) / 2) = few.samples := by
    rw [hmanyReads.part, hfewReads.samples, line.take_drop_unitSteps hcount heven]
  subst hfootprint
  refine hlearned.agrees hxs hfew hmany ?_ ?_ hpart
  · rw [hmanyReads, List.length_map, hlength, Nat.mul_comm]
  · omega

/-- No window wider than the footprint is needed for the cost to be a score. -/
theorem agrees_of_counted {line : Line Exact} {bands : List (Raster Exact)}
    (hbands : image.bands = .ok bands) (hne : bands ≠ []) (hfootprint : s.model.footprint = n)
    (hsamples : ∀ band ∈ bands,
      ∃ ys, s.model.sampler.samples line band n = .ok ys ∧ ys.length = n)
    {xs : List (Fin (n * bands.length) → ℝ)} (hxs : xs ≠ [])
    (hlearned : s.model.Learned (xs.map Exact.ofReals)) :
    Agrees ((ModelM.scoreWindowImage image line n).answer s) 0
      ((ModelM.scoreImage image line).answer s) := by
  choose! f hf using hsamples
  obtain ⟨w, hw, hlength, hwbands⟩ := Sampler.window_eq_ok hbands hne
    (fun band hband => (hf band hband).1) fun band hband => (hf band hband).2
  subst hfootprint
  refine hlearned.agrees hxs hw hw ?_ ?_ ?_
  · rw [hwbands, List.length_map, Nat.mul_comm]
  · omega
  · rw [← hlength, w.part_zero]

/-- Training and search sample at the same rate and agree, as far as what is looked up between
pixels is not too large to be resampled. Without a wider window any sampler will do that takes as
many samples as it is asked for. -/
theorem unitStep_same_rate {inner : Sampler Exact}
    (hinner : inner = .nearest ∨ inner = .interpolated) (line : Line ℝ)
    {height width count : ℕ} (hheight : 0 < height) (hwidth : 0 < width) (hn : 0 < n)
    (hcount : n ≤ count) (heven : Even (count - n)) :
    ((inner = .interpolated → max count (max height width) < lookupLimit) →
      (∀ band : Raster Exact, band.extents = [height, width] →
        ∃ few many, (Sampler.unitStep inner).samples (.ofReal line) band n = .ok few ∧
          few.length = n ∧
          (Sampler.unitStep inner).samples (.ofReal line) band count = .ok many ∧
          many.length = count ∧ (many.drop ((count - n) / 2)).take n = few) ∧
      ∀ (s : Session Exact) (image : Raster Exact) (bands : ℕ) (xs : List (Fin (n * bands) → ℝ)),
        0 < bands →
        image.extents = [height, width] ∧ bands = 1 ∨ image.extents = [height, width, bands] →
        xs ≠ [] → s.model.Learned (xs.map Exact.ofReals) →
        s.model.sampler = .unitStep inner → s.model.footprint = n →
        Agrees ((ModelM.scoreWindowImage image (.ofReal line) count).answer s) ((count - n) / 2)
          ((ModelM.scoreImage image (.ofReal line)).answer s)) ∧
    (inner = .interpolated → lookupLimit ≤ max count (max height width) →
      ∀ band : Raster Exact, band.extents = [height, width] →
        (Sampler.unitStep inner).samples (.ofReal line) band count =
          .error (.tooLargeToResample (max count (max height width)))) ∧
    ∀ (s : Session Exact) (image : Raster Exact) (line : Line Exact) (bands : List (Raster Exact))
      (xs : List (Fin (n * bands.length) → ℝ)),
      image.bands = .ok bands → bands ≠ [] → s.model.footprint = n →
      (∀ band ∈ bands, ∃ ys, s.model.sampler.samples line band n = .ok ys ∧ ys.length = n) →
      xs ≠ [] → s.model.Learned (xs.map Exact.ofReals) →
      Agrees ((ModelM.scoreWindowImage image line n).answer s) 0
        ((ModelM.scoreImage image line).answer s) := by
  refine ⟨fun hsize => ⟨?_, ?_⟩, ?_, ?_⟩
  · intro band hband
    exact Sampler.samples_unitStep_same_rate hinner hheight hwidth hn hcount heven hsize hband
  · intro s image bands xs hbands himage hxs hlearned hsampler hfootprint
    exact agrees_of_unitStep hinner hheight hwidth hn hcount heven hsize hbands himage hxs hlearned
      hsampler hfootprint
  · rintro rfl hlarge band hband
    exact Sampler.samples_unitStep_too_large hband hheight hwidth (by omega) hlarge _
  · intro s image line bands xs hbands hne hfootprint hsamples hxs hlearned
    exact agrees_of_counted hbands hne hfootprint hsamples hxs hlearned

end

/-- Beyond the size that can be resampled there are samples for training and none for searching. -/
theorem unitStep_interpolated_of_too_many :
    let samples := (Sampler.unitStep Sampler.interpolated).samples
      (Line.ofReal ⟨⟨0, 0⟩, ⟨0, 0⟩⟩) ⟨[1, 1], fun _ => 1⟩
    (∃ few, samples 1 = .ok few) ∧ samples 32767 = .error (.tooLargeToResample 32767) ∧
      ¬ ∃ few many, samples 1 = .ok few ∧ samples 32767 = .ok many ∧
        (many.drop ((32767 - 1) / 2)).take 1 = few := by
  intro samples
  have hone : 0 < 1 := Nat.one_pos
  have hmany : samples 32767 = .error (.tooLargeToResample 32767) :=
    Sampler.samples_unitStep_too_large rfl hone hone (show 0 < 32767 by decide) (by decide) _
  have hfew : ∃ few, samples 1 = .ok few := by
    obtain ⟨value, hvalue⟩ := Sampler.exists_samples (Or.inr rfl) hone hone
      fun _ => (show max 1 (max 1 1) < lookupLimit by decide)
    exact ⟨_, hvalue _ rfl 1 hone le_rfl _⟩
  refine ⟨hfew, hmany, ?_⟩
  rintro ⟨few, many, -, hok, -⟩
  rw [hmany] at hok
  cases hok

/-- A single training vector, a window of five samples around the three of the footprint. -/
theorem unitStep_same_rate_of_five :
    let xs : List (Fin (3 * 1) → ℝ) := [![1 / 4, 1 / 2, 1 / 4]]
    let m : Model Exact :=
      ⟨3, by decide, .unitStep .interpolated, 1, .ofLength 3 (.ofSample xs), none⟩
    let image : Raster Exact := ⟨[1, 5], fun index => Scalar.ofNat (index.getD 1 0)⟩
    let line : Line Exact := .ofReal ⟨⟨1, 0⟩, ⟨3, 0⟩⟩
    let cost := (ModelM.scoreImage image line).answer m.start
    Agrees ((ModelM.scoreWindowImage image line 5).answer m.start) 1 cost ∧
      Agrees ((ModelM.scoreWindowImage image line 3).answer m.start) 0 cost := by
  intro xs m image line cost
  have hxs : xs ≠ [] := by simp [xs]
  have hlearned : m.Learned (xs.map Exact.ofReals) :=
    ⟨Statistics.ofVectors_ofReals hxs, fun d hd => by cases hd⟩
  obtain ⟨hfits, -, hcounted⟩ := unitStep_same_rate (Or.inr rfl) ⟨⟨1, 0⟩, ⟨3, 0⟩⟩
    (show 0 < 1 by decide) (show 0 < 5 by decide) (show 0 < 3 by decide) (show 3 ≤ 5 by decide)
    (by decide)
  obtain ⟨hsamples, hscores⟩ := hfits fun _ => by decide
  constructor
  · exact hscores m.start image 1 xs (by decide) (Or.inl ⟨rfl, rfl⟩) hxs hlearned rfl rfl
  · refine hcounted m.start image line [image] xs (Raster.bands_of_two rfl) (by simp) rfl
      (fun band hband => ?_) hxs hlearned
    obtain ⟨few, many, hfew, hlength, -⟩ := hsamples band (by rw [List.mem_singleton.mp hband])
    exact ⟨few, hfew, hlength⟩

end Transect
