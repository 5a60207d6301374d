import Transect.Proofs.BestPositions

/-!
# How far a search moves

Measured against half of the line that is sampled, a position on it lies as far from the centre as
its share of the way tells, whatever the line. For a position that a search has found the share is
told by the winning offset alone. No offset leads out of a window that is shorter than three
footprints, and the last offset leads out of any other window.
-/
namespace Transect

theorem Point.distance_stepped (p : Point ℝ) (u : ℝ × ℝ) (s t : ℝ) :
    (ofReal (p.stepped u s)).distance (ofReal (p.stepped u t)) =
      ((|t - s| * √(u.1 * u.1 + u.2 * u.2) : ℝ) : Exact) := by
  have hsquares : (s * u.1 - t * u.1) * (s * u.1 - t * u.1) +
      (s * u.2 - t * u.2) * (s * u.2 - t * u.2) =
        (t - s) ^ 2 * (u.1 * u.1 + u.2 * u.2) := by ring
  simp only [distance, ofReal, stepped, ← Exact.coe_sub, add_sub_add_left_eq_sub, Exact.hypot_coe,
    hsquares, Real.sqrt_mul (sq_nonneg (t - s)), Real.sqrt_sq_eq_abs]

/-- How far the finish of a line lies from its start. -/
noncomputable def Line.extent (l : Line ℝ) : ℝ :=
  √(l.vector.1 * l.vector.1 + l.vector.2 * l.vector.2)

namespace Line

variable (l : Line ℝ) (t : ℝ)

theorem extent_level (a b y : ℝ) : (⟨⟨a, y⟩, ⟨b, y⟩⟩ : Line ℝ).extent = |b - a| := by
  simp only [extent, vector, sub_self, mul_zero, add_zero, Real.sqrt_mul_self_eq_abs]

theorem length_ofReal : (ofReal l).length = (l.extent : Exact) := by
  have hfinish : l.finish = l.start.stepped l.vector 1 := by simp [Point.stepped, vector]
  have h := l.start.distance_stepped l.vector 0 1
  rw [Point.stepped_zero, ← hfinish, sub_zero, abs_one, one_mul] at h
  exact h

theorem extent_mul_self :
    l.extent * l.extent = l.vector.1 * l.vector.1 + l.vector.2 * l.vector.2 :=
  Real.mul_self_sqrt (add_nonneg (mul_self_nonneg _) (mul_self_nonneg _))

theorem direction_eq_ite : (ofReal l).direction = if l.extent < 1e-12 then (0, 0)
    else (((l.vector.1 / l.extent : ℝ) : Exact), ((l.vector.2 / l.extent : ℝ) : Exact)) :=
  l.direction_ofReal (Real.sqrt_nonneg _) l.extent_mul_self

theorem start_stepped_vector :
    l.start.stepped l.vector t = l.middle.stepped l.vector (t - 1 / 2) := by
  simp only [Point.stepped, middle, vector, Point.mk.injEq]
  constructor <;> ring

theorem distance_middle_stepped :
    (Point.ofReal l.middle).distance (.ofReal (l.middle.stepped l.vector t)) =
      ((|t| * l.extent : ℝ) : Exact) := by
  have h := l.middle.distance_stepped l.vector 0 t
  rwa [Point.stepped_zero, sub_zero] at h

theorem movement_start_stepped :
    (ofReal l).movement (.ofReal (l.start.stepped l.vector t)) =
      ((if l.extent = 0 then 0 else |2 * t - 1| : ℝ) : Exact) := by
  have hdouble : 2 * |t - 1 / 2| = |2 * t - 1| := by
    rw [← abs_two, ← abs_mul]
    congr 1
    ring
  have htwo : (2.0 : Exact) = ((2 : ℝ) : Exact) := by
    rw [Exact.ofScientific_eq_coe]
    norm_num
  rw [movement, start_stepped_vector, centre_ofReal, distance_middle_stepped, length_ofReal,
    ← Exact.coe_zero, Exact.coe_beq_coe, Exact.coe_beq_coe]
  by_cases h : l.extent = 0
  · simp [h]
  · simp only [h, decide_false, Bool.false_eq_true, if_false, htwo, ← Exact.coe_mul,
      ← Exact.coe_div _ h, ← mul_assoc, mul_div_cancel_right₀ _ h, hdouble]

theorem stepped_step {count : ℕ} (p : Point ℝ) :
    p.stepped (l.step count) t = p.stepped l.vector (t / ((count : ℝ) - 1)) := by
  rw [step, Point.stepped_smul, mul_one_div]

theorem eq_of_stepped_eq {r : ℝ} (h : l.extent ≠ 0) {p : Point ℝ}
    (heq : p.stepped l.vector r = p.stepped l.vector t) : r = t := by
  by_contra hne
  obtain ⟨hx, hy⟩ : l.vector.1 = 0 ∧ l.vector.2 = 0 := by
    simpa [Point.stepped, hne] using heq
  exact h (by simp [extent, hx, hy])

end Line

/-- A movement is not negative, be the line finite or not. -/
theorem Line.not_movement_neg (l : Line Exact) (p : Point Exact) : ¬ l.movement p < 0 := by
  have htwo : ¬ (2.0 : Exact) < 0 := by
    rw [Exact.ofScientific_eq_coe, ← Exact.coe_zero, Exact.coe_lt_coe]
    norm_num
  rw [movement]
  split_ifs
  · exact Exact.not_lt_self 0
  · exact Exact.not_inf_lt 0
  · exact Exact.not_div_neg (Exact.not_mul_neg htwo (Exact.not_hypot_neg _ _))
      (Exact.not_hypot_neg _ _)

section

variable {count n i : ℕ}

/-- The share of the way at which a search finds the winning offset, if that is not the centred
one. -/
noncomputable def winningShare (count n i : ℕ) : ℝ :=
  ((i : ℝ) + ((count - n) / 2 : ℕ)) / ((count : ℝ) - 1)

theorem two_mul_winningShare (hcount : 1 < count) :
    |2 * winningShare count n i - 1| =
      |2 * ((i : ℝ) + ((count - n) / 2 : ℕ)) - ((count : ℝ) - 1)| / ((count : ℝ) - 1) := by
  have hparts : 0 < (count : ℝ) - 1 := sub_pos.mpr (Nat.one_lt_cast.mpr hcount)
  rw [winningShare]
  nth_rewrite 3 [← abs_of_pos hparts]
  rw [← abs_div]
  congr 1
  field_simp

theorem winningShare_nonneg (hcount : 1 < count) : 0 ≤ winningShare count n i := by
  have hparts : 0 < (count : ℝ) - 1 := sub_pos.mpr (Nat.one_lt_cast.mpr hcount)
  exact div_nonneg (by positivity) hparts.le

theorem winningShare_le_one (hcount : 1 < count) (hi : i + n ≤ count) (hwidth : count ≤ 3 * n - 1) :
    winningShare count n i ≤ 1 := by
  have hparts : 0 < (count : ℝ) - 1 := sub_pos.mpr (Nat.one_lt_cast.mpr hcount)
  have hsteps : i + (count - n) / 2 + 1 ≤ count := by omega
  rw [winningShare, div_le_one hparts, le_sub_iff_add_le]
  exact_mod_cast hsteps

theorem one_lt_winningShare (hn : 0 < n) (hwidth : 3 * n ≤ count) (hi : i = count - n) :
    1 < winningShare count n i := by
  have hparts : 0 < (count : ℝ) - 1 := sub_pos.mpr (Nat.one_lt_cast.mpr (by omega))
  have hsteps : count < i + (count - n) / 2 + 1 := by omega
  rw [winningShare, one_lt_div hparts, sub_lt_iff_lt_add]
  exact_mod_cast hsteps

end

/-- The centre of the line, or the share of the sampled line that the winning offset tells. -/
theorem Scorer.exists_share {k : Scorer Exact} {strategy : Strategy} {wraps : ℕ}
    (hsampler : k.sampler = .shipped strategy wraps) (hn : 0 < k.footprint) {image : Raster Exact}
    {line : Line ℝ} {count i : ℕ} {scores : List Exact} {x centred : Exact}
    (hscores : k.scoreWindowImage image (.ofReal line) count = .ok scores)
    (hdefined : ∀ x ∈ scores, (x == x) = true) (hleast : least scores = some (i, x))
    (hcentred : scores[(count - k.footprint) / 2]? = some centred) :
    ∃ (band : Raster Exact) (l : Line ℝ) (t : ℝ), image.band 0 = .ok band ∧
      k.sampler.sampleLine (.ofReal line) band count = .ofReal l ∧
      k.bestPosition image (.ofReal line) count = .ok (.ofReal (l.start.stepped l.vector t)) ∧
      (centred = x → t = 1 / 2) ∧
      (centred ≠ x → 1 < count ∧ t = winningShare count k.footprint i) := by
  obtain ⟨⟨band, hband⟩, hcount, hle, hlength⟩ := searchable hsampler hscores
  obtain ⟨r, -, hline⟩ := Sampler.exists_sampleLine_shipped hsampler band hcount line
  have hself := hdefined _ (List.mem_of_getElem? hcentred)
  have hanswer : k.bestPosition image (.ofReal line) count = _ :=
    bestPosition_eq hscores (by omega) hleast hcentred
  by_cases hsame : centred = x
  · refine ⟨band, _, 1 / 2, hband, hline, ?_, fun _ => rfl, fun hne => absurd hsame hne⟩
    rw [hanswer, if_pos ((Exact.beq_iff_eq hself).mpr hsame), Line.start_stepped_vector, sub_self,
      Point.stepped_zero, Point.middle_span, Line.centre_ofReal]
  · have hbeq : ¬ (centred == x) = true := fun h => hsame ((Exact.beq_iff_eq hself).mp h)
    have hone : count ≠ 1 :=
      count_ne_one_of_ne hn (by omega) (getElem?_of_least hleast) hcentred hsame
    refine ⟨band, _, _, hband, hline, ?_, fun heq => absurd heq hsame, fun _ => ⟨by omega, rfl⟩⟩
    rw [hanswer, if_neg hbeq, Sampler.stepPosition_eq hband hline hone, Line.stepped_step,
      winningShare]
    push_cast
    rfl

/-- The movement that a search for the best position makes, if all scores are defined, as a function
of the winning offset. -/
theorem movement_of_firstLeast [LinearAlgebra Exact] {s : Session Exact} {strategy : Strategy}
    {wraps : ℕ} (hsampler : s.model.sampler = .shipped strategy wraps) {image : Raster Exact}
    {line : Line ℝ} {count : ℕ} {scores : List Exact}
    (hscores : (ModelM.scoreWindowImage image (.ofReal line) count).answer s = .ok scores)
    (hdefined : ∀ x ∈ scores, (x == x) = true) :
    let n := s.model.footprint
    let o := (count - n) / 2
    n ≤ count ∧ scores.length = count - n + 1 ∧
    ∃ (i : ℕ) (x centred : Exact) (band : Raster Exact) (l : Line ℝ) (p : Point ℝ) (d : ℝ),
      FirstLeast scores i x ∧ scores[o]? = some centred ∧ image.band 0 = .ok band ∧
      s.model.sampler.sampleLine (.ofReal line) band count = .ofReal l ∧
      (ModelM.bestPosition image (.ofReal line) count).answer s = .ok (.ofReal p) ∧
      s.model.movement image (.ofReal line) count (.ofReal p) = .ok (d : Exact) ∧
      (centred = x ∨ (Line.ofReal l).length = 0 → d = 0) ∧
      (centred ≠ x → (Line.ofReal l).length ≠ 0 →
        d = |2 * ((i : ℝ) + o) - ((count : ℝ) - 1)| / ((count : ℝ) - 1)) ∧
      (count ≤ 3 * n - 1 →
        0 ≤ d ∧ d ≤ 1 ∧ ∃ t, 0 ≤ t ∧ t ≤ 1 ∧ p = l.start.stepped l.vector t) ∧
      (3 * n ≤ count → i = count - n → centred ≠ x → (Line.ofReal l).length ≠ 0 →
        1 < d ∧ ∀ t, p = l.start.stepped l.vector t → 1 < t) := by
  intro n o
  have hpure := (ModelM.yields_scoreWindowImage image _ count s).answer_eq.symm.trans hscores
  obtain ⟨-, -, hle, hlength⟩ := Scorer.searchable hsampler hpure
  have hn : 0 < n := s.model.footprint_pos
  have hle : n ≤ count := Int.ofNat_le.mp hle
  have hlength : scores.length = count - n + 1 := hlength
  obtain ⟨i, x, hleast, hfirst⟩ :=
    exists_firstLeast (List.ne_nil_of_length_pos (by omega)) hdefined
  have hi : i < scores.length := (List.getElem?_eq_some_iff.mp hfirst.value_at).1
  obtain ⟨centred, hcentred⟩ : ∃ centred, scores[o]? = some centred :=
    ⟨_, List.getElem?_eq_getElem (show o < scores.length by omega)⟩
  obtain ⟨band, l, t, hband, hline, hanswer, hcentre, haway⟩ :=
    Scorer.exists_share hsampler hn hpure hdefined hleast hcentred
  -- All of it follows from the share of the way along the sampled line.
  let d : ℝ := if l.extent = 0 then 0 else |2 * t - 1|
  have hmovement : s.model.movement image (.ofReal line) count
      (.ofReal (l.start.stepped l.vector t)) = .ok (d : Exact) := by
    have hmoved := l.movement_start_stepped t
    change s.model.sampler.sampleLine _ _ _ = _ at hline
    rw [Model.movement, Sampler.movement, hband, ok_bind, hline, hmoved]
    rfl
  have hpoint : (Line.ofReal l).length = 0 ↔ l.extent = 0 := by
    rw [l.length_ofReal, ← Exact.coe_zero, Exact.coe_inj]
  refine ⟨hle, hlength, i, x, centred, band, l, _, d, hfirst, hcentred, hband, hline,
    (ModelM.yields_bestPosition image _ count s).answer_eq.trans hanswer, hmovement, ?_, ?_, ?_, ?_⟩
  · rintro (hsame | hlength)
    · simp [d, hcentre hsame]
    · exact if_pos (hpoint.mp hlength)
  · intro hne hlength
    obtain ⟨hcount, rfl⟩ := haway hne
    exact (if_neg (mt hpoint.mpr hlength)).trans (two_mul_winningShare hcount)
  · intro hwidth
    obtain ⟨hlow, hhigh⟩ : 0 ≤ t ∧ t ≤ 1 := by
      by_cases hsame : centred = x
      · rw [hcentre hsame]
        norm_num
      · obtain ⟨hcount, rfl⟩ := haway hsame
        exact ⟨winningShare_nonneg hcount, winningShare_le_one hcount (by omega) hwidth⟩
    have hshare : |2 * t - 1| ≤ 1 := abs_le.mpr ⟨by linarith, by linarith⟩
    refine ⟨?_, ?_, t, hlow, hhigh, rfl⟩
    · exact ite_nonneg le_rfl (abs_nonneg _)
    · exact (ite_le_sup _ _ _).trans (sup_le zero_le_one hshare)
  · intro hwidth hlast hne hlength
    obtain ⟨hcount, rfl⟩ := haway hne
    have hbeyond : 1 < winningShare count s.model.scorer.footprint i :=
      one_lt_winningShare hn hwidth hlast
    have hextent := mt hpoint.mpr hlength
    refine ⟨?_, fun r hr => ?_⟩
    · rw [show d = _ from if_neg hextent, lt_abs]
      exact Or.inl (by linarith)
    · exact hbeyond.trans_eq (l.eq_of_stepped_eq _ hextent hr)

/-- The only bright one of three pixels is the last. A model that takes single samples moves twice
as far as half of the line, which takes it out of the window. -/
theorem movement_of_firstLeast_of_three :
    let image : Raster Exact := .ofRow 3 fun i => if i = 2 then 1 else 0
    ∃ m : Model Exact, Model.create 1 .nearest 1 = .ok m ∧
      let s := m.start.after [.updateVector (Exact.ofReals ![1])]
      ∃ p : Point ℝ, (ModelM.bestPosition image (.ofReal (.alongRow 3)) 3).answer s =
          .ok (.ofReal p) ∧
        s.model.movement image (.ofReal (.alongRow 3)) 3 (.ofReal p) = .ok ((2 : ℝ) : Exact) ∧
        ∀ t, p = (Line.alongRow 3).start.stepped (Line.alongRow 3).vector t → 1 < t := by
  intro image
  obtain ⟨m, hm⟩ : ∃ m : Model Exact, Model.create 1 .nearest 1 = .ok m := ⟨_, rfl⟩
  have hlearned : (m.start.after [.updateVector (Exact.ofReals ![1])]).model.Learned
      ([![1]].map Exact.ofReals) := learned_after hm _
  cases hm
  have hscores := Session.scores_ofRow rfl rfl hlearned (fun i => if i = 2 then 1 else 0)
    (show 1 < 3 by decide) (by decide)
  have hlist : ((List.range 3).map fun i => if (if i = 2 then (1 : ℝ) else 0) = 0 then
      (Scalar.inf : Exact) else 0) = [Scalar.inf, Scalar.inf, 0] := by
    simp [List.range_succ]
  rw [hlist] at hscores
  have hzero : (0 : Exact) < Scalar.inf := Exact.coe_lt_inf 0
  have hwins : FirstLeast [(Scalar.inf : Exact), Scalar.inf, 0] 2 0 := by
    refine ⟨rfl, ?_, fun j hj y hy => ?_⟩
    · have hself : (0 : Exact) ≤ 0 := Exact.coe_le_coe.mpr (le_refl (0 : ℝ))
      simp [hself, Exact.le_of_lt hzero]
    · match j with
      | 0 | 1 => exact Option.some.inj hy ▸ hzero
  have hdefined : ∀ x ∈ [(Scalar.inf : Exact), Scalar.inf, 0], (x == x) = true := by
    simp only [List.forall_mem_cons]
    exact ⟨rfl, rfl, by rw [← Exact.coe_zero, Exact.coe_beq_coe, decide_eq_true rfl],
      List.forall_mem_nil _⟩
  refine ⟨_, rfl, ?_⟩
  obtain ⟨-, -, i, x, centred, band, l, p, d, hfirst, hcentred, -, hline, hanswer, hmovement, -,
    hmoved, -, houtside⟩ :=
    movement_of_firstLeast (show _ = Sampler.shipped .nearest 0 from rfl) hscores hdefined
  obtain ⟨rfl, rfl⟩ := hfirst.unique hwins
  obtain rfl : centred = Scalar.inf := (Option.some.inj hcentred).symm
  obtain rfl : l = .alongRow 3 := (Line.ofReal_inj.mp hline).symm
  have hne : (Scalar.inf : Exact) ≠ 0 := fun h => Exact.not_lt_self _ (h ▸ hzero)
  have hlength : (Line.ofReal (.alongRow 3)).length ≠ 0 := by
    rw [Line.length_ofReal, ← Exact.coe_zero, Ne, Exact.coe_inj]
    norm_num [Line.alongRow, Line.extent_level]
  obtain ⟨-, hbeyond⟩ := houtside le_rfl rfl hne hlength
  have htwice : d = 2 := by
    rw [hmoved hne hlength]
    change |2 * (((2 : ℕ) : ℝ) + ((3 - 1) / 2 : ℕ)) - (((3 : ℕ) : ℝ) - 1)| / (((3 : ℕ) : ℝ) - 1) = 2
    norm_num
  exact ⟨p, hanswer, hmovement.trans (by rw [htwice]), hbeyond⟩

end Transect
