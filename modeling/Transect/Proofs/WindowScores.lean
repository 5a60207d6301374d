import Transect.Proofs.SampleRate
import Transect.Proofs.UnusableModels

/-!
# Scores of a window and scores of its parts

The scores of a window are those of the vectors that its columns make, one band after the other,
each normalized by its own sum. Vectors that cannot be normalized score infinitely high and are no
concern of the model; how it fails otherwise does not depend on which of the vectors can.
-/
namespace Transect

variable {α : Type}

namespace Raster

/-- The values of an array in the `n` columns from column `i` on, one row after the other. -/
def columns (r : Raster α) (rows n i : Nat) : List α :=
  (List.range rows).flatMap fun b => (List.range n).map fun j => r.cell [b, i + j]

theorem length_columns (r : Raster α) (rows n i : Nat) :
    (r.columns rows n i).length = rows * n := by
  simp [columns, List.length_flatMap]

theorem getElem?_columns (r : Raster α) {rows n b j : Nat} (i : Nat) (hb : b < rows) (hj : j < n) :
    (r.columns rows n i)[b * n + j]? = some (r.cell [b, i + j]) := by
  -- On the number of rows: the place lies in the last row or among those before it.
  induction rows with
  | zero => omega
  | succ rows ih =>
    have hsplit : r.columns (rows + 1) n i =
        r.columns rows n i ++ (List.range n).map fun j => r.cell [rows, i + j] := by
      simp [columns, List.range_succ]
    rw [hsplit]
    rcases Nat.lt_succ_iff_lt_or_eq.mp hb with hb | rfl
    · have hplace : b * n + j < rows * n := by
        calc b * n + j < (b + 1) * n := by rw [Nat.succ_mul]; omega
          _ ≤ rows * n := Nat.mul_le_mul_right n hb
      rw [List.getElem?_append_left (by rwa [length_columns]), ih hb]
    · rw [List.getElem?_append_right (by rw [length_columns]; omega), length_columns,
        Nat.add_sub_cancel_left]
      simp [hj]

theorem columns_congr {r other : Raster α} {rows n i : Nat}
    (h : ∀ b < rows, ∀ j < n, other.cell [b, i + j] = r.cell [b, i + j]) :
    other.columns rows n i = r.columns rows n i := by
  refine List.flatMap_congr fun b hb => List.map_congr_left fun j hj => ?_
  exact h b (List.mem_range.mp hb) j (List.mem_range.mp hj)

end Raster

/-- An array of two axes is a window whose parts are the columns of the array. -/
theorem Window.exists_ofRaster {r : Raster α} {rows width : Nat} (h : r.extents = [rows, width]) :
    ∃ w, Window.ofRaster r = .ok w ∧ w.length = width ∧ w.bands.length = rows ∧
      ∀ n i, i + n ≤ width → w.part n i = r.columns rows n i := by
  have hplane : r.plane? = some ⟨rows, width, fun row column => r.cell [row, column]⟩ := by
    rw [Raster.plane?, h]
  unfold Window.ofRaster
  rw [hplane]
  refine ⟨_, rfl, rfl, by simp, fun n i hi => ?_⟩
  rw [part, List.flatMap_map, Raster.columns]
  refine List.flatMap_congr fun b _ => ?_
  have hcolumns : ((List.range width).drop i).take n = (List.range n).map (i + ·) := by
    refine List.ext_getElem ?_ fun j _ _ => by simp
    rw [List.length_take, List.length_drop, List.length_range, List.length_map, List.length_range]
    omega
  rw [← List.map_drop, ← List.map_take, hcolumns, List.map_map]
  rfl

variable [Scalar α]

def Normalizable (samples : List α) : Prop :=
  (Scalar.sum samples == 0) = false ∧ Scalar.isFinite (Scalar.sum samples) = true

theorem normalizable_iff {samples : List α} :
    Normalizable samples ↔ ∃ profile, normalize samples = .ok profile := by
  rw [Normalizable, ← isOk_normalize_iff]
  cases normalize samples <;> simp [Except.isOk, Except.toBool]

namespace Scorer

variable {k : Scorer α} {w : Window α} {scores : List α}

theorem of_scoreWindow_eq_ok (h : k.scoreWindow w = .ok scores) {i : Nat} {x : α}
    (hx : scores[i]? = some x) : i + k.footprint ≤ w.length ∧ k.scoreOffset w i = .ok x := by
  obtain ⟨hle, hlength⟩ := length_scores h
  obtain ⟨hi, rfl⟩ := List.getElem?_eq_some_iff.mp hx
  rw [scoreWindow, if_neg (not_lt.mpr hle)] at h
  have hoffset := (forall₂_of_mapM h).get (i := i) (by simpa [hlength] using hi) hi
  refine ⟨by omega, ?_⟩
  simpa using hoffset

/-- A score depends on the part of the window at its offset only. -/
theorem getElem?_scoreWindow_congr {v : Window α} {others : List α}
    (h : k.scoreWindow w = .ok scores) (hother : k.scoreWindow v = .ok others)
    (hlength : v.length = w.length) {i : Nat}
    (hpart : i + k.footprint ≤ w.length → v.part k.footprint i = w.part k.footprint i) :
    others[i]? = scores[i]? := by
  obtain ⟨hle, hscores⟩ := length_scores h
  obtain ⟨-, hothers⟩ := length_scores hother
  by_cases hi : i < scores.length
  · have hi' : i < others.length := by omega
    obtain ⟨hwithin, hx⟩ := of_scoreWindow_eq_ok h (List.getElem?_eq_getElem hi)
    obtain ⟨-, hy⟩ := of_scoreWindow_eq_ok hother (List.getElem?_eq_getElem hi')
    have hsame : k.scoreOffset v i = k.scoreOffset w i := by
      rw [scoreOffset_eq_match, scoreOffset_eq_match, hpart hwithin]
    rw [List.getElem?_eq_getElem hi, List.getElem?_eq_getElem hi']
    exact congrArg some (Except.ok.inj (hy.symm.trans (hsame.trans hx)))
  · rw [List.getElem?_eq_none (by omega), List.getElem?_eq_none (by omega)]

theorem scoreOffset_of_normalize {i : Nat} {profile : List α}
    (h : normalize (w.part k.footprint i) = .ok profile) : k.scoreOffset w i = k.score profile := by
  rw [scoreOffset_eq_match, h]

theorem scoreWindow_of_length_eq (h : w.length = k.footprint) :
    k.scoreWindow w = (k.scoreOffset w 0 >>= fun x => .ok [x]) := by
  rw [scoreWindow, if_neg (not_lt.mpr h.ge), h, Nat.sub_self, zero_add, List.range_one]
  cases hx : k.scoreOffset w 0 <;> simp [hx]

theorem exists_scoreWindow (hle : k.footprint ≤ w.length)
    (h : ∀ profile : List α, profile.length = w.bands.length * k.footprint →
      ∃ x, k.score profile = .ok x) :
    ∃ scores, k.scoreWindow w = .ok scores := by
  have hoffset : ∀ i ∈ List.range (w.length - k.footprint + 1), ∃ x, k.scoreOffset w i = .ok x := by
    intro i hi
    rw [List.mem_range] at hi
    cases hscorable : w.scorable k.footprint i with
    | false => exact ⟨_, scoreOffset_of_not_scorable hscorable⟩
    | true =>
      obtain ⟨profile, hprofile, hscore⟩ := scoreOffset_of_scorable hscorable
      rw [hscore]
      exact h profile ((length_normalize hprofile).trans (w.length_part (by omega)))
  have : Nonempty α := ⟨Scalar.inf⟩
  choose! score hscore using hoffset
  exact ⟨_, by rw [scoreWindow, if_neg (not_lt.mpr hle), mapM_eq_ok hscore]⟩

end Scorer

variable [LinearAlgebra α]

theorem Model.Learned.exists_score {m : Model α} {vectors : List (List α)}
    (hlearned : m.Learned vectors) {D : Nat} (hD : 0 < D)
    (hdimension : m.statistics.dimension? = some D) {profile : List α}
    (hprofile : profile.length = D) : ∃ x, m.scorer.score profile = .ok x := by
  obtain ⟨limit, hlimit⟩ := hlearned.derivation_eq
  cases hs : m.statistics with
  | empty =>
    rw [hs] at hdimension
    cases hdimension
  | ofLength n moments =>
    rw [hs] at hdimension hlimit
    cases hdimension
    obtain ⟨d, hd, rfl⟩ := Statistics.exists_derive hD moments limit
    rw [hd] at hlimit
    rw [Scorer.score, Model.scorer, hlimit, ok_bind, Derived.distance, dif_pos hprofile]
    exact ⟨_, rfl⟩

theorem Model.Learned.dimension?_of_score {m : Model α} {vectors : List (List α)}
    (hlearned : m.Learned vectors) {profile : List α} {x : α}
    (h : m.scorer.score profile = .ok x) : m.statistics.dimension? = some profile.length := by
  obtain ⟨limit, hlimit⟩ := hlearned.derivation_eq
  cases hs : m.statistics with
  | empty =>
    rw [hs] at hlimit
    rw [Scorer.score, Model.scorer, hlimit] at h
    cases h
  | ofLength n moments =>
    have hdimension : m.statistics.dimension? = some n := by rw [hs]; rfl
    rcases Nat.eq_zero_or_pos n with rfl | hpos
    · rw [hlearned.score_of_empty hdimension] at h
      cases h
    · obtain ⟨d, hd, rfl⟩ := Statistics.exists_derive hpos moments limit
      rw [hs, hd] at hlimit
      rw [Scorer.score, Model.scorer, hlimit, ok_bind, Derived.distance] at h
      split_ifs at h with hlength
      rw [hlength]
      rfl

/-- All that can come of a window with an offset that the model is asked about. -/
theorem Model.Learned.scoreWindow_cases {m : Model α} {vectors : List (List α)}
    (hlearned : m.Learned vectors) (hsettled : m.statistics.dimension?.isSome = m.isTrained)
    {w : Window α} (hle : m.footprint ≤ w.length)
    (hscorable : ∃ i, i + m.footprint ≤ w.length ∧ w.scorable m.footprint i = true) :
    (m.isTrained = false ∧ m.scorer.scoreWindow w = .error .notTrained) ∨
      ∃ D, m.statistics.dimension? = some D ∧
        ((D = 0 ∧ m.scorer.scoreWindow w = .error .conditionUndefined) ∨
          (D ≠ w.bands.length * m.footprint ∧ m.scorer.scoreWindow w =
            .error (.dimensionMismatch D (w.bands.length * m.footprint))) ∨
          (D = w.bands.length * m.footprint ∧ ∃ scores, m.scorer.scoreWindow w = .ok scores)) := by
  have hrefused : ∀ e, m.Refuses (w.bands.length * m.footprint) e →
      m.scorer.scoreWindow w = .error e := fun e he =>
    Scorer.scoreWindow_of_refused hle (fun _ => he.score hlearned hsettled) hscorable
  cases htrained : m.isTrained with
  | false => exact Or.inl ⟨rfl, hrefused _ (Or.inl ⟨htrained, rfl⟩)⟩
  | true =>
    rw [htrained, Option.isSome_iff_exists] at hsettled
    obtain ⟨D, hD⟩ := hsettled
    refine Or.inr ⟨D, hD, ?_⟩
    rcases Nat.eq_zero_or_pos D with rfl | hpos
    · exact Or.inl ⟨rfl, Scorer.scoreWindow_of_refused hle
        (fun profile _ => hlearned.score_of_empty hD profile) hscorable⟩
    · by_cases hlength : D = w.bands.length * m.footprint
      · exact Or.inr (Or.inr ⟨hlength, Scorer.exists_scoreWindow hle fun profile hprofile =>
          hlearned.exists_score hpos hD (hprofile.trans hlength.symm)⟩)
      · exact Or.inr (Or.inl ⟨hlength, hrefused _ (Or.inr ⟨D, hpos, hD, hlength, rfl⟩)⟩)

theorem Model.Learned.scoreWindow_ne_degenerate {m : Model α} {vectors : List (List α)}
    (hlearned : m.Learned vectors) (hsettled : m.statistics.dimension?.isSome = m.isTrained)
    {w : Window α} (hle : m.footprint ≤ w.length) (total : α) (length : Nat) :
    m.scorer.scoreWindow w ≠ .error (.degenerateProfile total length) := by
  by_cases hscorable : ∃ i, i + m.footprint ≤ w.length ∧ w.scorable m.footprint i = true
  · rcases hlearned.scoreWindow_cases hsettled hle hscorable with ⟨-, herror⟩ |
      ⟨D, -, ⟨-, herror⟩ | ⟨-, herror⟩ | ⟨-, scores, hscores⟩⟩
    · simp [herror]
    · simp [herror]
    · simp [herror]
    · simp [hscores]
  · have hno : ∀ i, i + m.footprint ≤ w.length → w.scorable m.footprint i = false :=
      fun i hi => Bool.eq_false_iff.mpr fun hyes => hscorable ⟨i, hi, hyes⟩
    simp [Scorer.scoreWindow_of_not_scorable (k := m.scorer) hle hno]

/-- What samples are scored with: the score of their profile, and infinity if they cannot be
normalized. -/
def Session.ScoresWith (s : Session α) (samples : List α) (x : α) : Prop :=
  match normalize samples with
  | .ok profile => (ModelM.score profile).answer s = .ok x
  | .error e => (∃ total length, e = .degenerateProfile total length) ∧ x = Scalar.inf

theorem Session.scoresWith_of_scoreWindow {s : Session α} {w : Window α} {scores : List α}
    (h : s.model.scorer.scoreWindow w = .ok scores) {i : Nat} {x : α} (hx : scores[i]? = some x) :
    i + s.model.footprint ≤ w.length ∧ s.ScoresWith (w.part s.model.footprint i) x := by
  obtain ⟨hi, hoffset⟩ := Scorer.of_scoreWindow_eq_ok h hx
  refine ⟨hi, ?_⟩
  have hfootprint : s.model.scorer.footprint = s.model.footprint := rfl
  rw [Scorer.scoreOffset_eq_match, hfootprint] at hoffset
  unfold ScoresWith
  cases hprofile : normalize (w.part s.model.footprint i) with
  | error e =>
    rw [hprofile] at hoffset
    obtain ⟨total, htotal⟩ := normalize_eq_error hprofile
    exact ⟨⟨total, _, htotal⟩, (Except.ok.inj hoffset).symm⟩
  | ok profile =>
    rw [hprofile] at hoffset
    exact (ModelM.yields_score profile s).answer_eq.trans hoffset

section

variable {array : Raster α} {w : Window α} (h : Window.ofRaster array = .ok w) (s : Session α)
include h

theorem Question.answer_scoreWindow : (scoreWindow array).run.answer s =
    (s.model.scorer.scoreWindow w >>= fun scores => .ok (.numbers scores)) := by
  rw [((scoreWindow array).yields s).answer_eq, answer, h]
  rfl

theorem Question.scoreWindow_eq_ok (scores : List α) :
    (scoreWindow array).run.answer s = .ok (.numbers scores) ↔
      s.model.scorer.scoreWindow w = .ok scores := by
  rw [answer_scoreWindow h]
  cases s.model.scorer.scoreWindow w <;> simp

theorem Question.scoreWindow_eq_error (e : Failure α) :
    (scoreWindow array).run.answer s = .error e ↔ s.model.scorer.scoreWindow w = .error e := by
  rw [answer_scoreWindow h]
  cases s.model.scorer.scoreWindow w <;> simp

end

/-- A model of finite vectors gives infinite scores to no other samples than those that cannot be
normalized. -/
theorem Session.ScoresWith.eq_inf_iff [LinearAlgebra Exact] [LawfulInverse] {s : Session Exact}
    {D : ℕ} {xs : List (Fin D → ℝ)} (hlearned : s.model.Learned (xs.map Exact.ofReals))
    {samples : List Exact} {x : Exact} (h : s.ScoresWith samples x) :
    x = Scalar.inf ↔ ¬ Normalizable samples := by
  rw [normalizable_iff, not_exists]
  unfold ScoresWith at h
  cases hprofile : normalize samples with
  | error e =>
    rw [hprofile] at h
    exact iff_of_true h.2 fun profile => by simp
  | ok profile =>
    rw [hprofile] at h
    have hscore : s.model.scorer.score profile = .ok x :=
      (ModelM.yields_score profile s).answer_eq.symm.trans h
    have hdimension := hlearned.dimension?_of_score hscore
    have hxs : xs ≠ [] := by
      rintro rfl
      rw [← Except.ok.inj hlearned.statistics] at hdimension
      cases hdimension
    have hlength : samples.length = D := by
      rw [hlearned.statistics_eq hxs] at hdimension
      exact (length_normalize hprofile).symm.trans (Option.some.inj hdimension).symm
    obtain ⟨r, hr, -⟩ := hlearned.score_normalize hxs hprofile hlength
    have hx : x = r := Except.ok.inj (hscore.symm.trans hr)
    refine iff_of_false (fun hinf => ?_) fun hno => hno profile rfl
    cases hx.symm.trans hinf

/-- The scores of an array of two axes, by a model in any state that it can get into, are those of
the vectors that its columns make. In exact arithmetic, a model of finite vectors gives an infinite
score to no others than those that cannot be normalized. -/
theorem window_scores_of_columns :
    (∀ {α : Type} [Scalar α] [LinearAlgebra α] {samples : Int} {sampler : Sampler α} {limit : α}
      {m : Model α}, Model.create samples sampler limit = .ok m →
      ∀ (requests : List (Request α)) {array : Raster α} {rows width : Nat},
      array.extents = [rows, width] →
      let s := m.start.after requests
      let n := s.model.footprint
      let v := array.columns rows n
      let answer := (Question.scoreWindow array).run.answer s
      n ≤ width →
      (∀ i, (v i).length = rows * n ∧
        ∀ b < rows, ∀ j < n, (v i)[b * n + j]? = some (array.cell [b, i + j])) ∧
      ((∀ i, i + n ≤ width → ¬ Normalizable (v i)) →
        answer = .ok (.numbers (List.replicate (width - n + 1) Scalar.inf))) ∧
      ((∃ i, i + n ≤ width ∧ Normalizable (v i)) →
        (s.model.isTrained = false → answer = .error .notTrained) ∧
        (s.model.isTrained = true → ∃ D, s.model.statistics.dimension? = some D ∧ (0 < D →
          (D ≠ rows * n → answer = .error (.dimensionMismatch D (rows * n))) ∧
          (D = rows * n → ∃ scores, answer = .ok (.numbers scores) ∧
            scores.length = width - n + 1 ∧
            ∀ i x, scores[i]? = some x → s.ScoresWith (v i) x)))) ∧
      (∀ total length, answer ≠ .error (.degenerateProfile total length)) ∧
      ∀ (other : Raster α) (scores others : List α), other.extents = [rows, width] →
        answer = .ok (.numbers scores) →
        (Question.scoreWindow other).run.answer s = .ok (.numbers others) →
        ∀ i, (∀ b < rows, ∀ j < n, other.cell [b, i + j] = array.cell [b, i + j]) →
          others[i]? = scores[i]?) ∧
    ∀ [LinearAlgebra Exact] [LawfulInverse] {s : Session Exact} {D : ℕ} {xs : List (Fin D → ℝ)},
      s.model.Learned (xs.map Exact.ofReals) →
      ∀ {array : Raster Exact} {rows width : ℕ} {scores : List Exact},
      array.extents = [rows, width] →
      (Question.scoreWindow array).run.answer s = .ok (.numbers scores) →
      ∀ i x, scores[i]? = some x →
        (x = Scalar.inf ↔ ¬ Normalizable (array.columns rows s.model.footprint i)) := by
  constructor
  · intro α _ _ samples sampler limit m h requests array rows width harray s n v answer hwidth
    have hlearned := learned_after h requests
    have hsettled := Session.settled_after h requests
    obtain ⟨w, hw, rfl, rfl, hparts⟩ := Window.exists_ofRaster harray
    have hok := Question.scoreWindow_eq_ok hw s
    have herror := Question.scoreWindow_eq_error hw s
    have hscorable : ∀ i, i + n ≤ w.length → (w.scorable n i = true ↔ Normalizable (v i)) := by
      intro i hi
      rw [Window.scorable_iff, hparts n i hi, Normalizable]
    refine ⟨fun i => ⟨array.length_columns _ n i, fun b hb j hj => array.getElem?_columns i hb hj⟩,
      fun hno => ?_, fun ⟨i, hi, hyes⟩ => ?_, fun total length => ?_, ?_⟩
    · rw [hok]
      exact Scorer.scoreWindow_of_not_scorable hwidth fun i hi =>
        Bool.eq_false_iff.mpr fun hyes => hno i hi ((hscorable i hi).mp hyes)
    · -- One offset is enough for the model to be asked, and it answers all of them or none.
      have hsome : ∃ i, i + n ≤ w.length ∧ w.scorable n i = true :=
        ⟨i, hi, (hscorable i hi).mpr hyes⟩
      rcases hlearned.scoreWindow_cases hsettled hwidth hsome with ⟨huntrained, hfailed⟩ |
        ⟨D, hD, hcases⟩
      · refine ⟨fun _ => (herror _).mpr hfailed, fun htrained => ?_⟩
        rw [huntrained] at htrained
        cases htrained
      · rw [hD] at hsettled
        refine ⟨fun huntrained => ?_, fun _ => ⟨D, hD, fun hpos => ?_⟩⟩
        · rw [huntrained] at hsettled
          cases hsettled
        · rcases hcases with ⟨hzero, -⟩ | ⟨hne, hfailed⟩ | ⟨hlength, scores, hscores⟩
          · exact absurd hzero hpos.ne'
          · exact ⟨fun _ => (herror _).mpr hfailed, fun hlength => absurd hlength hne⟩
          · refine ⟨fun hne => absurd hlength hne, fun _ => ?_⟩
            refine ⟨scores, (hok scores).mpr hscores, (Scorer.length_scores hscores).2, ?_⟩
            intro i x hx
            obtain ⟨hi, hx⟩ := Session.scoresWith_of_scoreWindow hscores hx
            rwa [hparts n i hi] at hx
    · rw [Ne, herror]
      exact hlearned.scoreWindow_ne_degenerate hsettled hwidth total length
    · intro other scores others hother hscores hothers i hcells
      obtain ⟨w', hw', hlength, -, hparts'⟩ := Window.exists_ofRaster hother
      rw [Question.scoreWindow_eq_ok hw'] at hothers
      refine Scorer.getElem?_scoreWindow_congr ((hok scores).mp hscores) hothers hlength
        fun hi => ?_
      exact (hparts' n i hi).trans ((Raster.columns_congr hcells).trans (hparts n i hi).symm)
  · intro _ _ s D xs hlearned array rows width scores harray hanswer i x hx
    obtain ⟨w, hw, rfl, rfl, hparts⟩ := Window.exists_ofRaster harray
    rw [Question.scoreWindow_eq_ok hw] at hanswer
    obtain ⟨hi, hscore⟩ := Session.scoresWith_of_scoreWindow hanswer hx
    rw [hparts _ i hi] at hscore
    exact hscore.eq_inf_iff hlearned

theorem normalizable_singleton {x : ℝ} : Normalizable [(x : Exact)] ↔ x ≠ 0 := by
  rw [Normalizable, Exact.sum_eq_list_sum, List.sum_singleton, ← Exact.coe_zero, Exact.coe_beq_coe]
  simp

theorem normalize_singleton {x : ℝ} (hx : x ≠ 0) :
    normalize [(x : Exact)] = .ok [((1 : ℝ) : Exact)] := by
  simpa [hx] using normalize_finite (show [x].sum ≠ 0 by simpa using hx)

theorem Session.ScoresWith.of_singleton {s : Session Exact}
    (hlearned : s.model.Learned ([![1]].map Exact.ofReals)) {y : ℝ} {x : Exact}
    (h : s.ScoresWith [(y : Exact)] x) : x = if y = 0 then Scalar.inf else 0 := by
  split_ifs with hy
  · exact (h.eq_inf_iff hlearned).mpr fun hyes => normalizable_singleton.mp hyes hy
  · obtain ⟨r, hr, -, hzero⟩ := hlearned.score_ofReals (by simp) Nat.one_pos ![1]
    unfold ScoresWith at h
    rw [normalize_singleton hy] at h
    rw [hzero.mpr (by simp [Sample.mean])] at hr
    exact Except.ok.inj (h.symm.trans ((ModelM.yields_score _ _).answer_eq.trans hr))

/-- Of three columns with a zero, a one and a two the first cannot be normalized. The others are
normalized to the same profile, which is the one that has been learned. -/
theorem window_scores_of_three :
    let array : Raster Exact := ⟨[1, 3], fun index => ((index.getD 1 0 : ℕ) : ℝ)⟩
    ∃ m : Model Exact, Model.create 1 .nearest 1 = .ok m ∧
      ∃ scores, (Question.scoreWindow array).run.answer
          (m.start.after [.updateVector (Exact.ofReals ![1])]) = .ok (.numbers scores) ∧
        scores.length = 3 ∧ scores[0]? = some Scalar.inf ∧ scores[1]? = some 0 ∧
        scores[2]? = some 0 := by
  intro array
  obtain ⟨m, hm⟩ : ∃ m : Model Exact, Model.create 1 .nearest 1 = .ok m := ⟨_, rfl⟩
  have harray : array.extents = [1, 3] := rfl
  have hlearned : (m.start.after [.updateVector (Exact.ofReals ![1])]).model.Learned
      ([![1]].map Exact.ofReals) := learned_after hm _
  obtain ⟨hall, hinfinite⟩ := window_scores_of_columns
  have hcases := hall hm [.updateVector (Exact.ofReals ![1])] harray
  cases hm
  obtain ⟨-, -, hsome, -, -⟩ := hcases (show 1 ≤ 3 by decide)
  have hcolumn : ∀ i, array.columns 1 1 i = [(((i : ℕ) : ℝ) : Exact)] := by
    intro i
    simp [array, Raster.columns]
  have hyes : ∃ i, i + 1 ≤ 3 ∧ Normalizable (array.columns 1 1 i) :=
    ⟨1, by decide, by rw [hcolumn, normalizable_singleton]; norm_num⟩
  obtain ⟨D, hD, hscores⟩ := (hsome hyes).2 rfl
  cases hD
  obtain ⟨scores, hanswer, hlength, hscores⟩ := (hscores Nat.one_pos).2 rfl
  have hscore : ∀ i : ℕ, i < 3 → ∃ x, scores[i]? = some x :=
    fun i hi => ⟨_, List.getElem?_eq_getElem (hlength.symm ▸ hi)⟩
  have hlater : ∀ i : ℕ, i < 3 → i ≠ 0 → scores[i]? = some 0 := by
    intro i hi hne
    obtain ⟨x, hx⟩ := hscore i hi
    have hwith : Session.ScoresWith _ (array.columns 1 1 i) x := hscores i x hx
    rw [hcolumn] at hwith
    rw [hx, hwith.of_singleton hlearned, if_neg (Nat.cast_ne_zero.mpr hne)]
  obtain ⟨x, hfirst⟩ := hscore 0 (by decide)
  have hzero : ¬ Normalizable (array.columns 1 1 0) := by
    rw [hcolumn, normalizable_singleton]
    simp
  have hx : x = Scalar.inf := (hinfinite hlearned harray hanswer 0 x hfirst).mpr hzero
  rw [hx] at hfirst
  exact ⟨_, rfl, scores, hanswer, hlength, hfirst, hlater 1 (by decide) (by decide),
    hlater 2 (by decide) (by decide)⟩

/-- Every number is infinitely far from a single vector that is infinite. -/
theorem Model.Learned.score_of_infinite {m : Model Exact} (hlearned : m.Learned [[.posInf]])
    (x : ℝ) : m.scorer.score [(x : Exact)] = .ok Scalar.inf := by
  obtain ⟨limit, hlimit⟩ := hlearned.derivation_eq
  let moments : Moments Exact 1 := (Moments.zero 1).add (Vec.ofList [.posInf] rfl)
  have hs : m.statistics = .ofLength 1 moments := (Except.ok.inj hlearned.statistics).symm
  have hinvert : moments.covariance.invert limit = .ok (.fallback 1) := by
    rw [Moments.covariance, if_pos (show moments.count = 1 from rfl), Mat.invert_nan Nat.one_pos]
  rw [hs, Statistics.derive, Statistics.estimate, ok_bind, hinvert] at hlimit
  have hmean : moments.mean.get 0 = .posInf := by
    simp only [moments, Moments.add, Vec.get_ofFn]
    have hshare : (.posInf / Scalar.ofNat 1 : Exact) = .posInf := by
      change Exact.infinity (1 * if (((1 : ℕ) : ℤ) : ℝ) < 0 then -1 else 1) = _
      norm_num
      rfl
    exact (zero_add _).trans hshare
  have hdeviation : ∀ v : Vec Exact 1, v.get 0 = x → (Vec.sub v moments.mean).get 0 = .negInf := by
    intro v hv
    rw [Vec.sub, Vec.get_ofFn, hv, hmean]
    rfl
  have hone : (Exact.negInf * (1 : Exact)) = .negInf := by
    change Exact.infinity (-1 * SignType.sign (1 : ℝ)) = _
    simp
    rfl
  rw [Scorer.score, Model.scorer, hlimit]
  simp only [Inversion.fallback, ok_bind, Derived.distance]
  change Except.ok (Mat.form _ _) = _
  rw [Mat.form, Vec.dot, Exact.sumOver_eq_sum, Fin.sum_univ_one, Mat.vecMul, Vec.get_ofFn,
    Exact.sumOver_eq_sum, Fin.sum_univ_one, hdeviation _ rfl, Mat.identity, Mat.entry_ofFn,
    if_pos rfl, hone]
  rfl

/-- A model of vectors without elements cannot be asked about the column that can be normalized, but
fails before it compares lengths. A model of an infinite vector gives an infinite score to a column
that can be normalized. -/
theorem window_scores_not_of_columns :
    let array : Raster Exact := .filled 1 1 1
    ∃ m : Model Exact, Model.create 1 .nearest 1 = .ok m ∧ m.footprint = 1 ∧
      Normalizable (array.columns 1 1 0) ∧
      (m.start.after [.updateVector []]).model.isTrained = true ∧
      (m.start.after [.updateVector []]).model.statistics.dimension? = some 0 ∧
      (Question.scoreWindow array).run.answer (m.start.after [.updateVector []]) =
        .error .conditionUndefined ∧
      (Question.scoreWindow array).run.answer (m.start.after [.updateVector [.posInf]]) =
        .ok (.numbers [Scalar.inf]) := by
  intro array
  obtain ⟨m, hm⟩ : ∃ m : Model Exact, Model.create 1 .nearest 1 = .ok m := ⟨_, rfl⟩
  let s : Session Exact := m.start.after [.updateVector [.posInf]]
  have hempty := learned_after hm [.updateVector []]
  have hinfinite : s.model.Learned [[.posInf]] := learned_after hm _
  obtain ⟨w, hw, hlength, -, hparts⟩ :=
    Window.exists_ofRaster (show array.extents = [1, 1] from rfl)
  have hcolumn : array.columns 1 1 0 = [((1 : ℝ) : Exact)] := rfl
  have hyes : Normalizable (array.columns 1 1 0) := by
    rw [hcolumn, normalizable_singleton]
    exact one_ne_zero
  have hscorable : w.scorable 1 0 = true := by
    rw [Window.scorable_iff, hparts 1 0 (by decide)]
    exact hyes
  have hprofile : normalize (w.part 1 0) = .ok [((1 : ℝ) : Exact)] := by
    rw [hparts 1 0 (by decide), hcolumn, normalize_singleton one_ne_zero]
  have hscores : s.model.scorer.footprint = 1 →
      s.model.scorer.scoreWindow w = .ok [Scalar.inf] := by
    intro hfootprint
    rw [← hfootprint] at hprofile
    rw [Scorer.scoreWindow_of_length_eq (hlength.trans hfootprint.symm),
      Scorer.scoreOffset_of_normalize hprofile, hinfinite.score_of_infinite 1]
    rfl
  cases hm
  refine ⟨_, rfl, rfl, hyes, rfl, rfl, ?_, ?_⟩
  · rw [Question.scoreWindow_eq_error hw]
    exact Scorer.scoreWindow_of_refused hlength.ge
      (fun profile _ => hempty.score_of_empty rfl profile) ⟨0, hlength.ge, hscorable⟩
  · rw [Question.scoreWindow_eq_ok hw]
    exact hscores rfl

end Transect
