import Transect.Proofs.WindowScores

/-!
# Which position is the best one

The best position in a window is told by the first of the least scores. It lies as many steps from
the start of the line that is sampled as its offset and the centred one make together, which is not
quite where the footprint at that offset has its centre: it is off by the same number of steps for
every offset, and by none if the window is one sample short of twice the footprint.
-/
namespace Transect

noncomputable section

/-- What leads from each of `count` positions of a line to the next one. -/
def Line.step (l : Line ℝ) (count : ℕ) : ℝ × ℝ := (1 / ((count : ℝ) - 1)) • l.vector

/-- The centre of `n` consecutive ones of the positions of a line. -/
def Line.footprintCentre (l : Line ℝ) (count n i : ℕ) : Point Exact :=
  Point.centroid ((((ofReal l).positions count).drop i).take n)

end

namespace Line

variable (l : Line ℝ) {count n i : ℕ}

theorem positions_eq_steps (count : ℕ) :
    (ofReal l).positions count =
      l.middle.steps (l.step count) (-(((count : ℝ) - 1) / 2)) count := by
  have h := positions_span l.middle l.vector (1 / 2) count
  rw [← l.eq_span] at h
  rw [h, step]
  norm_num

theorem footprintCentre_eq (hn : 0 < n) (h : i + n ≤ count) :
    l.footprintCentre count n i = .ofReal (l.middle.stepped (l.step count)
      (i + ((n : ℝ) - 1) / 2 - ((count : ℝ) - 1) / 2)) := by
  rw [footprintCentre, positions_eq_steps, Point.take_drop_steps _ _ _ h,
    Point.centroid_steps _ _ _ hn]
  congr 2
  ring

theorem start_stepped (h : count ≠ 1) (t : ℝ) :
    l.start.stepped (l.step count) t =
      l.middle.stepped (l.step count) (t - ((count : ℝ) - 1) / 2) := by
  have hparts : (count : ℝ) - 1 ≠ 0 := sub_ne_zero.mpr (Nat.cast_ne_one.mpr h)
  have hwalk : ∀ a b : ℝ, a + t * (1 / ((count : ℝ) - 1) * (b - a)) =
      (a + b) / 2 + (t - ((count : ℝ) - 1) / 2) * (1 / ((count : ℝ) - 1) * (b - a)) := by
    intro a b
    field_simp
    ring
  simp only [step, vector, Point.stepped, middle, Prod.smul_fst, Prod.smul_snd, smul_eq_mul, hwalk]

/-- The middle of a line lies at the centre of the centred footprint, or half a step beyond it. -/
theorem exists_footprintCentre_centred (hn : 0 < n) (hle : n ≤ count) :
    ∃ c : Point ℝ, l.footprintCentre count n ((count - n) / 2) = .ofReal c ∧
      l.middle = c.stepped (l.step count) (((count - n) % 2 : ℕ) / 2) := by
  refine ⟨_, l.footprintCentre_eq hn (by omega), ?_⟩
  have hparts : (n : ℝ) + 2 * ((count - n) / 2 : ℕ) + ((count - n) % 2 : ℕ) = count := by
    norm_cast
    omega
  rw [Point.stepped_stepped]
  convert (l.middle.stepped_zero (l.step count)).symm using 2
  linarith

/-- So many steps from the start of a line lead `o` steps beyond the first position of a footprint,
which is half a footprint away from its centre. -/
theorem exists_footprintCentre_moved (hn : 0 < n) (hi : i + n ≤ count) (hcount : count ≠ 1)
    (o : ℕ) :
    ∃ c : Point ℝ, l.footprintCentre count n i = .ofReal c ∧
      l.start.stepped (l.step count) (i + o) =
        c.stepped (l.step count) (o - ((n : ℝ) - 1) / 2) := by
  refine ⟨_, l.footprintCentre_eq hn hi, ?_⟩
  rw [l.start_stepped hcount, Point.stepped_stepped]
  congr 1
  ring

end Line

theorem Line.ofReal_inj {k l : Line ℝ} : ofReal k = ofReal l ↔ k = l := by
  obtain ⟨⟨a, b⟩, ⟨c, d⟩⟩ := k
  obtain ⟨⟨x, y⟩, ⟨z, w⟩⟩ := l
  simp [ofReal, Point.ofReal]

theorem Exact.exists_of_half_sum {x y : Exact} {m : ℝ} (h : (x + y) / 2.0 = m) :
    ∃ a b : ℝ, x = a ∧ y = b := by
  have hfinite : Scalar.isFinite ((x + y) / 2.0) = true := by
    rw [h]
    rfl
  rw [ofScientific_eq_coe] at hfinite
  obtain ⟨c, hc⟩ := exists_coe_of_isFinite (isFinite_of_div hfinite)
  exact add_eq_coe hc

/-- The line through a given middle that adds up to finite coordinates is finite. -/
theorem Line.exists_ofReal {l : Line Exact} {p : Point ℝ} (h : l.centre = .ofReal p) :
    ∃ k : Line ℝ, l = .ofReal k ∧ k.middle = p := by
  obtain ⟨⟨x₁, y₁⟩, ⟨x₂, y₂⟩⟩ := l
  simp only [centre, Point.ofReal, Point.mk.injEq] at h
  obtain ⟨⟨a, b, rfl, rfl⟩, ⟨c, d, rfl, rfl⟩⟩ :
      (∃ a b : ℝ, x₁ = a ∧ x₂ = b) ∧ ∃ c d : ℝ, y₁ = c ∧ y₂ = d :=
    ⟨Exact.exists_of_half_sum h.1, Exact.exists_of_half_sum h.2⟩
  refine ⟨⟨⟨a, c⟩, ⟨b, d⟩⟩, rfl, ?_⟩
  simp only [← Exact.coe_add, ← Exact.coe_div_two, Exact.coe_inj] at h
  cases p
  exact Point.mk.injEq .. ▸ h

namespace Sampler

theorem length_window_of_counted {α : Type} {s : Sampler α} {image : Raster α} {line : Line α}
    {count n : ℕ}
    (hcounted : ∀ band xs, s.samples line band count = .ok xs → xs.length = n)
    {w : Window α} (h : s.window image line count = .ok w) :
    w.length = n ∧ ∃ band, image.band 0 = .ok band := by
  obtain ⟨bands, hbands, hne, hall⟩ := of_window_eq_ok h
  obtain ⟨band, rest, rfl⟩ := List.exists_cons_of_ne_nil hne
  obtain ⟨row, hrow, hsamples⟩ := exists_of_forall₂ hall band List.mem_cons_self
  rw [← w.length_eq row hrow]
  exact ⟨hcounted band row hsamples, Raster.exists_band_zero hbands hne⟩

variable {s : Sampler Exact} {image band : Raster Exact} {given : Line Exact} {l : Line ℝ}
  {count : ℕ} (hband : image.band 0 = .ok band)
  (hline : s.sampleLine given band count = Line.ofReal l)
include hband hline

theorem stepPosition_eq (hcount : count ≠ 1) (k : ℤ) :
    s.stepPosition image given count k = .ok (.ofReal (l.start.stepped (l.step count) k)) := by
  have hparts : (count : ℝ) - 1 ≠ 0 := sub_ne_zero.mpr (Nat.cast_ne_one.mpr hcount)
  have hcast : (((count : ℤ) - 1 : ℤ) : ℝ) = (count : ℝ) - 1 := by push_cast; rfl
  have hone : (count : ℤ) ≠ 1 := by exact_mod_cast hcount
  have hwalk : ∀ a v : ℝ, a + k * (v / ((count : ℝ) - 1)) =
      a + k * (1 / ((count : ℝ) - 1) * v) := by
    intro a v
    ring
  rw [stepPosition, hband, ok_bind, hline, if_neg hone]
  simp only [Line.ofReal, Point.ofReal, Exact.ofInt_eq_coe, hcast, ← Exact.coe_sub,
    ← Exact.coe_div _ hparts, ← Exact.coe_mul, ← Exact.coe_add, hwalk, Point.stepped, Line.step,
    Line.vector, Prod.smul_fst, Prod.smul_snd, smul_eq_mul]
  rfl

end Sampler

/-- Of a single sample there is one score, and the centred one is no other. -/
theorem count_ne_one_of_ne {scores : List Exact} {count n i : ℕ} {x centred : Exact} (hn : 0 < n)
    (hlength : scores.length = count - n + 1) (hx : scores[i]? = some x)
    (hcentred : scores[(count - n) / 2]? = some centred) (hne : centred ≠ x) : count ≠ 1 := by
  rintro rfl
  have hi := (List.getElem?_eq_some_iff.mp hx).1
  have hplace : (1 - n) / 2 = i := by omega
  rw [hplace, hx] at hcentred
  exact hne (Option.some.inj hcentred).symm

namespace Scorer

variable {k : Scorer Exact} {image : Raster Exact} {line : Line Exact} {count i : ℕ}
  {scores : List Exact} {x centred : Exact}

/-- The choice, in terms of the two offsets that it depends on. -/
theorem choose_eq (hle : k.footprint ≤ count) (hleast : least scores = some (i, x))
    (hcentred : scores[(count - k.footprint) / 2]? = some centred) :
    k.choose image line count scores =
      if centred == x then .ok line.centre
      else k.sampler.stepPosition image line count ((i + (count - k.footprint) / 2 : ℕ) : ℤ) := by
  have hoffset : ((count : ℤ) - k.footprint).fdiv 2 = ((count - k.footprint) / 2 : ℕ) := by
    rw [Int.fdiv_eq_ediv_of_nonneg _ (by decide)]
    omega
  have hlookup : (axisIndex? scores.length ((count - k.footprint) / 2 : ℕ)).bind (scores[·]?) =
      some centred := by
    rw [axisIndex?_natCast (List.getElem?_eq_some_iff.mp hcentred).1]
    exact hcentred
  rw [choose, hoffset, hleast]
  simp only [hlookup]
  rfl

theorem bestPosition_eq (hscores : k.scoreWindowImage image line count = .ok scores)
    (hle : k.footprint ≤ count) (hleast : least scores = some (i, x))
    (hcentred : scores[(count - k.footprint) / 2]? = some centred) :
    k.bestPosition image line count =
      if centred == x then .ok line.centre
      else k.sampler.stepPosition image line count ((i + (count - k.footprint) / 2 : ℕ) : ℤ) := by
  rw [bestPosition, hscores, ok_bind, choose_eq hle hleast hcentred]

end Scorer

/-- What the search for the best position returns, for a sampler that takes as many samples as it is
asked for along a line with the given centre, if all scores are defined. -/
theorem bestPosition_of_firstLeast [LinearAlgebra Exact] {s : Session Exact} {image : Raster Exact}
    {line : Line ℝ} {count : ℕ} {scores : List Exact}
    (hcounted : ∀ band xs,
      s.model.sampler.samples (.ofReal line) band count = .ok xs → xs.length = count)
    (hcentre : ∀ band, (s.model.sampler.sampleLine (.ofReal line) band count).centre =
      (Line.ofReal line).centre)
    (hscores : (ModelM.scoreWindowImage image (.ofReal line) count).answer s = .ok scores)
    (hdefined : ∀ x ∈ scores, x = Scalar.inf ∨ ∃ r : ℝ, x = r) :
    let n := s.model.footprint
    let o := (count - n) / 2
    let answer := (ModelM.bestPosition image (.ofReal line) count).answer s
    n ≤ count ∧ scores.length = count - n + 1 ∧
    ∃ (i : ℕ) (x centred : Exact) (band : Raster Exact) (l : Line ℝ),
      FirstLeast scores i x ∧ scores[o]? = some centred ∧ image.band 0 = .ok band ∧
      s.model.sampler.sampleLine (.ofReal line) band count = .ofReal l ∧
      (centred = x → answer = .ok (Line.ofReal line).centre ∧
        ∃ c : Point ℝ, l.footprintCentre count n o = .ofReal c ∧ (Line.ofReal line).centre =
          .ofReal (c.stepped (l.step count) (((count - n) % 2 : ℕ) / 2))) ∧
      (centred ≠ x → (∃ r : ℝ, x = r) ∧ x < centred ∧
        answer = .ok (.ofReal (l.start.stepped (l.step count) (i + o))) ∧
        ∃ c : Point ℝ, l.footprintCentre count n i = .ofReal c ∧
          l.start.stepped (l.step count) (i + o) =
            c.stepped (l.step count) (o - ((n : ℝ) - 1) / 2)) ∧
      (Odd n → count = 2 * n - 1 →
        ∃ j, scores[j]? = some x ∧ answer = .ok (l.footprintCentre count n j)) := by
  intro n o answer
  have hpure := (ModelM.yields_scoreWindowImage image _ count s).answer_eq.symm.trans hscores
  obtain ⟨w, hw, hwindow⟩ := bind_eq_ok.mp hpure
  obtain ⟨hle, hlength⟩ := Scorer.length_scores hwindow
  obtain ⟨hcount, band, hband⟩ := Sampler.length_window_of_counted hcounted hw
  obtain ⟨l, hline, hmiddle⟩ := Line.exists_ofReal ((hcentre band).trans line.centre_ofReal)
  have hpos : 0 < n := s.model.footprint_pos
  have hle : n ≤ count := hcount ▸ hle
  have hlength : scores.length = count - n + 1 := hcount ▸ hlength
  have hself : ∀ x ∈ scores, (x == x) = true := by
    intro x hx
    rcases hdefined x hx with rfl | ⟨r, rfl⟩
    · rfl
    · simp
  obtain ⟨i, x, hleast, hfirst⟩ :=
    exists_firstLeast (List.ne_nil_of_length_pos (by omega)) hself
  have hi : i < scores.length := (List.getElem?_eq_some_iff.mp hfirst.value_at).1
  obtain ⟨centred, hcentred⟩ : ∃ centred, scores[o]? = some centred :=
    ⟨_, List.getElem?_eq_getElem (show o < scores.length by omega)⟩
  have hanswer : answer = _ := (ModelM.yields_bestPosition image _ count s).answer_eq.trans
    (Scorer.bestPosition_eq hpure hle hleast hcentred)
  have hx := List.mem_of_getElem? hfirst.value_at
  have hmem := List.mem_of_getElem? hcentred
  rw [Line.centre_ofReal] at hanswer ⊢
  refine ⟨hle, hlength, i, x, centred, band, l, hfirst, hcentred, hband, hline, ?_⟩
  -- Whether the centred score is the least one decides between both ways to answer.
  by_cases hsame : centred = x
  · rw [if_pos ((Exact.beq_iff_eq (hself _ hmem)).mpr hsame)] at hanswer
    obtain ⟨c, hc, hoff⟩ := l.exists_footprintCentre_centred hpos hle
    rw [hmiddle] at hoff
    refine ⟨fun _ => ⟨hanswer, c, hc, congrArg Point.ofReal hoff⟩, fun hne => absurd hsame hne,
      fun ⟨k, hk⟩ hwidth => ⟨o, hsame ▸ hcentred, ?_⟩⟩
    have heven : (count - n) % 2 = 0 := by omega
    rw [heven, Nat.cast_zero, zero_div, Point.stepped_zero] at hoff
    rw [hanswer, hoff, hc]
  · have hbeq : ¬ (centred == x) = true := fun h => hsame ((Exact.beq_iff_eq (hself _ hmem)).mp h)
    rw [if_neg hbeq] at hanswer
    have hlt : x < centred := Exact.lt_of_le_of_ne (hfirst.minimal _ hmem) (Ne.symm hsame)
    have hone : count ≠ 1 := count_ne_one_of_ne hpos hlength hfirst.value_at hcentred hsame
    have hmoved : answer = .ok (.ofReal (l.start.stepped (l.step count) (i + o))) := by
      have hposition := Sampler.stepPosition_eq hband hline hone ((i + o : ℕ) : ℤ)
      push_cast at hposition
      exact hanswer.trans hposition
    obtain ⟨c, hc, hoff⟩ := l.exists_footprintCentre_moved hpos (by omega) hone (i := i) o
    have hfinite : ∃ r : ℝ, x = r := by
      refine (hdefined x hx).resolve_left ?_
      rintro rfl
      rcases hdefined centred hmem with rfl | ⟨r, rfl⟩
      · exact Exact.not_lt_self _ hlt
      · exact Exact.not_inf_lt_coe r hlt
    refine ⟨fun heq => absurd heq hsame, fun _ => ⟨hfinite, hlt, hmoved, c, hc, hoff⟩,
      fun ⟨k, hk⟩ hwidth => ⟨i, hfirst.value_at, ?_⟩⟩
    have hhalf : (o : ℝ) - ((n : ℝ) - 1) / 2 = 0 := by
      have ho : o = k := by omega
      rw [ho, hk]
      push_cast
      ring
    rw [hhalf, Point.stepped_zero] at hoff
    rw [hmoved, hoff, hc]

noncomputable def Raster.ofRow (width : ℕ) (row : ℕ → ℝ) : Raster Exact :=
  ⟨[1, width], fun index => row (index.getD 1 0)⟩

noncomputable def Line.alongRow (width : ℕ) : Line ℝ := ⟨⟨0, 0⟩, ⟨(width : ℝ) - 1, 0⟩⟩

theorem Line.positions_alongRow {width : ℕ} (hwidth : width ≠ 1) :
    (ofReal (alongRow width)).positions width =
      (List.range width).map fun i : ℕ => .ofReal ⟨i, (0 : ℕ)⟩ := by
  have hparts : (width : ℝ) - 1 ≠ 0 := sub_ne_zero.mpr (Nat.cast_ne_one.mpr hwidth)
  rw [positions_eq_steps, Point.steps]
  refine List.map_congr_left fun i _ => congrArg Point.ofReal ?_
  simp only [step, vector, alongRow, middle, Point.stepped, Prod.smul_fst, Prod.smul_snd,
    smul_eq_mul, Point.mk.injEq, Nat.cast_zero]
  constructor
  · field_simp
    ring
  · ring

theorem Sampler.exists_window_ofRow (row : ℕ → ℝ) {width : ℕ} (hwidth : 1 < width)
    (hsmall : width < 2 ^ 63) :
    ∃ w, nearest.window (.ofRow width row) (.ofReal (.alongRow width)) width = .ok w ∧
      w.length = width ∧ w.bands = [(List.range width).map fun i => (row i : Exact)] := by
  let image : Raster Exact := .ofRow width row
  let p : Plane Exact := ⟨1, width, fun r column => image.cell [r, column]⟩
  have hpixels : ∀ i ∈ List.range width, look Plane.nearest image (.ofReal ⟨(i : ℝ), (0 : ℕ)⟩) =
      row i := fun i hi =>
    Plane.nearest_natCast (p := p) Nat.one_pos (List.mem_range.mp hi)
      (Nat.one_lt_two_pow (by decide)) hsmall
  have hsamples : ∀ band ∈ [image], nearest.samples (.ofReal (.alongRow width)) band width =
      .ok ((List.range width).map fun i => (row i : Exact)) := by
    intro band hband
    rw [List.mem_singleton.mp hband, samples_nearest (p := p) rfl (by omega),
      if_neg (Plane.not_isEmpty Nat.one_pos (by omega)), Int.toNat_natCast,
      Line.positions_alongRow (by omega), List.map_map]
    exact congrArg Except.ok (List.map_congr_left hpixels)
  exact window_eq_ok (Raster.bands_of_two rfl) (List.cons_ne_nil image []) hsamples
    fun _ _ => by simp

theorem Session.scores_ofRow {s : Session Exact} (hfootprint : s.model.footprint = 1)
    (hsampler : s.model.sampler = .nearest)
    (hlearned : s.model.Learned ([![1]].map Exact.ofReals)) (row : ℕ → ℝ) {width : ℕ}
    (hwidth : 1 < width) (hsmall : width < 2 ^ 63) :
    (ModelM.scoreWindowImage (.ofRow width row) (.ofReal (.alongRow width)) width).answer s =
      .ok ((List.range width).map fun i => if row i = 0 then Scalar.inf else 0) := by
  obtain ⟨w, hw, hlength, hbands⟩ := Sampler.exists_window_ofRow row hwidth hsmall
  have hD : w.bands.length * s.model.footprint = 1 := by rw [hbands, hfootprint]; rfl
  obtain ⟨scores, hscores, hcount, -⟩ :=
    hlearned.exists_scoreWindow (by simp) hD (by omega)
  rw [(ModelM.yields_scoreWindowImage _ _ _ s).answer_eq]
  rw [← hsampler] at hw
  rw [Scorer.scoreWindowImage_of_window hw, hscores]
  refine congrArg Except.ok (List.ext_getElem? fun i => ?_)
  by_cases hi : i < width
  · obtain ⟨x, hx⟩ : ∃ x, scores[i]? = some x := ⟨_, List.getElem?_eq_getElem (by omega)⟩
    obtain ⟨-, hwith⟩ := Session.scoresWith_of_scoreWindow hscores hx
    have hpart : w.part s.model.footprint i = [(row i : Exact)] := by
      rw [hfootprint, Window.part, hbands, List.flatMap_singleton,
        List.take_one_drop_eq_of_lt_length (by simpa using hi)]
      simp
    rw [hpart] at hwith
    rw [hx, hwith.of_singleton hlearned]
    simp [hi]
  · rw [List.getElem?_eq_none (by omega), List.getElem?_eq_none (by simpa using hi)]

/-- The only bright one of three pixels is the last. A model that takes single samples finds it, and
returns a position one step beyond it. -/
theorem bestPosition_of_firstLeast_of_three :
    let image : Raster Exact := .ofRow 3 fun i => if i = 2 then 1 else 0
    ∃ m : Model Exact, Model.create 1 .nearest 1 = .ok m ∧
      (ModelM.bestPosition image (.ofReal (.alongRow 3)) 3).answer
        (m.start.after [.updateVector (Exact.ofReals ![1])]) = .ok (.ofReal ⟨3, 0⟩) := by
  intro image
  obtain ⟨m, hm⟩ : ∃ m : Model Exact, Model.create 1 .nearest 1 = .ok m := ⟨_, rfl⟩
  have hlearned : (m.start.after [.updateVector (Exact.ofReals ![1])]).model.Learned
      ([![1]].map Exact.ofReals) := learned_after hm _
  cases hm
  have hscores := Session.scores_ofRow rfl rfl hlearned (fun i => if i = 2 then 1 else 0)
    (show 1 < 3 by decide) (by decide)
  have hlist : ((List.range 3).map fun i => if (if i = 2 then (1 : ℝ) else 0) = 0 then
      (Scalar.inf : Exact) else 0) = [Scalar.inf, Scalar.inf, 0] := by
    simp [List.range_succ]
  rw [hlist] at hscores
  have hcounted : ∀ band xs, Strategy.nearest.sampler.samples (.ofReal (.alongRow 3)) band 3 =
      .ok xs → xs.length = 3 := fun band xs h => (Sampler.length_samples_strategy h).2
  have hdefined : ∀ x ∈ [(Scalar.inf : Exact), Scalar.inf, 0], x = Scalar.inf ∨ ∃ r : ℝ, x = r := by
    simp only [List.forall_mem_cons, true_or, true_and]
    exact ⟨Or.inr ⟨0, rfl⟩, List.forall_mem_nil _⟩
  refine ⟨_, rfl, ?_⟩
  obtain ⟨-, -, i, x, centred, band, l, hfirst, hcentred, -, hline, -, hmoved, -⟩ :=
    bestPosition_of_firstLeast hcounted (fun band => rfl) hscores hdefined
  have hzero : x ≤ 0 := hfirst.minimal 0 (by simp)
  have hne : x ≠ Scalar.inf := by
    rintro rfl
    obtain ⟨_, ⟨⟩, _, ⟨⟩, hle⟩ := hzero
    exact absurd hle (not_le.mpr (EReal.coe_lt_top 0))
  have hi : i = 2 := by
    have hx := hfirst.value_at
    match i with
    | 0 | 1 => exact absurd (Option.some.inj hx).symm hne
    | 2 => rfl
  subst hi
  have hcentred : centred = Scalar.inf := (Option.some.inj hcentred).symm
  obtain ⟨-, -, hanswer, -⟩ := hmoved (hcentred ▸ hne.symm)
  have hl : l = .alongRow 3 := (Line.ofReal_inj.mp hline).symm
  refine hanswer.trans (congrArg (fun p => Except.ok (Point.ofReal p)) ?_)
  rw [hl]
  change (Line.alongRow 3).start.stepped _ ((2 : ℕ) + ((3 - 1) / 2 : ℕ)) = _
  norm_num [Line.alongRow, Line.step, Line.vector, Point.stepped]

end Transect
