import Transect.Proofs.NoDrift

/-!
# Searching with a model that cannot be used

A model that has learned nothing, or profiles of another length, refuses each profile that it is
asked about. A search is refused as soon as it asks, that is, if there is an offset whose samples
can be normalized. Otherwise all offsets score infinitely high and the model is not asked at all.
-/
namespace Transect

/-- A traversal whose steps can only fail in one way fails in that way if a step does. -/
theorem mapM_eq_error {ε β γ : Type} {f : β → Except ε γ} {e : ε} {xs : List β}
    (hall : ∀ x ∈ xs, f x = .error e ∨ ∃ y, f x = .ok y) (hsome : ∃ x ∈ xs, f x = .error e) :
    xs.mapM f = .error e := by
  induction xs with
  | nil =>
    obtain ⟨x, hx, -⟩ := hsome
    exact absurd hx List.not_mem_nil
  | cons x xs ih =>
    rw [List.mapM_cons]
    obtain ⟨hhead, htail⟩ := List.forall_mem_cons.mp hall
    rcases hhead with he | ⟨y, hy⟩
    · rw [he]
      rfl
    · have hrest : ∃ z ∈ xs, f z = .error e := by
        obtain ⟨z, hz, hfailed⟩ := hsome
        rcases List.mem_cons.mp hz with rfl | hz
        · rw [hy] at hfailed
          cases hfailed
        · exact ⟨z, hz, hfailed⟩
      rw [hy, ih htail hrest]
      rfl

variable {α : Type} [Scalar α]

/-- A model cannot be asked about profiles of some length, and this is what it answers. -/
def Model.Refuses (m : Model α) (length : Nat) (e : Failure α) : Prop :=
  m.isTrained = false ∧ e = .notTrained ∨
    ∃ D, 0 < D ∧ m.statistics.dimension? = some D ∧ D ≠ length ∧ e = .dimensionMismatch D length

section

variable [LinearAlgebra α]

theorem Mat.invert_empty (A : Mat α 0 0) (limit : α) :
    A.invert limit = .error .conditionUndefined := by
  have hfinite : A.isFinite = true := by
    rw [isFinite, Vector.all_eq_true]
    exact fun i hi => absurd hi (Nat.not_lt_zero i)
  simp [invert, hfinite]

theorem Mat.exists_invert {n : Nat} (hn : 0 < n) (A : Mat α n n) (limit : α) :
    ∃ inversion, A.invert limit = .ok inversion := by
  unfold invert
  rw [if_neg hn.ne']
  split_ifs
  · exact ⟨_, rfl⟩
  · split <;> exact ⟨_, rfl⟩
  · exact ⟨_, rfl⟩

theorem Statistics.exists_derive {n : Nat} (hn : 0 < n) (moments : Moments α n) (limit : α) :
    ∃ d, (ofLength n moments).derive limit = .ok d ∧ d.dimension = n := by
  obtain ⟨inversion, hinvert⟩ := moments.covariance.exists_invert hn limit
  refine ⟨⟨⟨n, moments.mean, moments.covariance⟩, inversion⟩, ?_, rfl⟩
  simp only [derive, estimate, ok_bind, hinvert]
  rfl

theorem Model.Refuses.score {m : Model α} {vectors : List (List α)} (hlearned : m.Learned vectors)
    (hsettled : m.statistics.dimension?.isSome = m.isTrained) {length : Nat} {e : Failure α}
    (h : m.Refuses length e) {profile : List α} (hprofile : profile.length = length) :
    m.scorer.score profile = .error e := by
  subst hprofile
  obtain ⟨limit, hlimit⟩ := hlearned.derivation_eq
  rcases h with ⟨huntrained, rfl⟩ | ⟨D, hD, hdimension, hne, rfl⟩
  · cases hs : m.statistics with
    | empty =>
      rw [hs] at hlimit
      rw [Scorer.score, Model.scorer, hlimit]
      rfl
    | ofLength n moments =>
      rw [hs, huntrained] at hsettled
      cases hsettled
  · cases hs : m.statistics with
    | empty =>
      rw [hs] at hdimension
      cases hdimension
    | ofLength n moments =>
      rw [hs] at hdimension hlimit
      cases hdimension
      obtain ⟨d, hd, rfl⟩ := Statistics.exists_derive hD moments limit
      rw [hd] at hlimit
      rw [Scorer.score, Model.scorer, hlimit, ok_bind, Derived.distance, dif_neg hne.symm]

/-- A model of profiles without elements fails before it compares any length. -/
theorem Model.Learned.score_of_empty {m : Model α} {vectors : List (List α)}
    (hlearned : m.Learned vectors) (h : m.statistics.dimension? = some 0) (profile : List α) :
    m.scorer.score profile = .error .conditionUndefined := by
  obtain ⟨limit, hlimit⟩ := hlearned.derivation_eq
  cases hs : m.statistics with
  | empty =>
    rw [hs] at h
    cases h
  | ofLength n moments =>
    rw [hs] at h hlimit
    cases h
    rw [Scorer.score, Model.scorer, hlimit]
    simp only [Statistics.derive, Statistics.estimate, ok_bind, Mat.invert_empty, error_bind]

end

theorem isOk_normalize_iff (samples : List α) : (normalize samples).isOk = true ↔
    (Scalar.sum samples == 0) = false ∧ Scalar.isFinite (Scalar.sum samples) = true := by
  have hdegenerate : ∀ b c : Bool, ¬ (b || !c) = true ↔ b = false ∧ c = true := by decide
  rw [← hdegenerate]
  unfold normalize divisor
  dsimp only
  split_ifs with h
  · simp [h, Except.isOk, Except.toBool]
  · simp [h, Except.isOk, Except.toBool]

theorem Window.scorable_iff (w : Window α) (n i : Nat) : w.scorable n i = true ↔
    (Scalar.sum (w.part n i) == 0) = false ∧ Scalar.isFinite (Scalar.sum (w.part n i)) = true :=
  isOk_normalize_iff (w.part n i)

namespace Scorer

variable {k : Scorer α} {w : Window α} {i : Nat} {e : Failure α}

theorem scoreOffset_of_scorable (h : w.scorable k.footprint i = true) :
    ∃ profile, normalize (w.part k.footprint i) = .ok profile ∧
      k.scoreOffset w i = k.score profile := by
  unfold Window.scorable at h
  rw [scoreOffset_eq_match]
  cases hprofile : normalize (w.part k.footprint i) with
  | error e =>
    rw [hprofile] at h
    cases h
  | ok profile => exact ⟨profile, rfl, rfl⟩

theorem scoreOffset_of_not_scorable (h : w.scorable k.footprint i = false) :
    k.scoreOffset w i = .ok Scalar.inf := by
  unfold Window.scorable at h
  rw [scoreOffset_eq_match]
  cases hprofile : normalize (w.part k.footprint i) with
  | error e => rfl
  | ok profile =>
    rw [hprofile] at h
    cases h

/-- Where a model refuses all profiles, one offset that it is asked about is enough. -/
theorem scoreWindow_of_refused (hle : k.footprint ≤ w.length)
    (hrefused : ∀ profile : List α, profile.length = w.bands.length * k.footprint →
      k.score profile = .error e)
    (hscorable : ∃ i, i + k.footprint ≤ w.length ∧ w.scorable k.footprint i = true) :
    k.scoreWindow w = .error e := by
  have hasked : ∀ i, i + k.footprint ≤ w.length → w.scorable k.footprint i = true →
      k.scoreOffset w i = .error e := by
    intro i hi hyes
    obtain ⟨profile, hprofile, hscore⟩ := scoreOffset_of_scorable hyes
    rw [hscore]
    exact hrefused profile ((length_normalize hprofile).trans (w.length_part hi))
  rw [scoreWindow, if_neg (not_lt.mpr hle)]
  apply mapM_eq_error
  · intro i hi
    rw [List.mem_range] at hi
    cases hyes : w.scorable k.footprint i with
    | true => exact Or.inl (hasked i (by omega) hyes)
    | false => exact Or.inr ⟨_, scoreOffset_of_not_scorable hyes⟩
  · obtain ⟨i, hi, hyes⟩ := hscorable
    exact ⟨i, List.mem_range.mpr (by omega), hasked i hi hyes⟩

/-- Without an offset to be asked about, no model is asked. -/
theorem scoreWindow_of_not_scorable (hle : k.footprint ≤ w.length)
    (hno : ∀ i, i + k.footprint ≤ w.length → w.scorable k.footprint i = false) :
    k.scoreWindow w = .ok (List.replicate (w.length - k.footprint + 1) Scalar.inf) := by
  have hoffset : ∀ i ∈ List.range (w.length - k.footprint + 1),
      k.scoreOffset w i = .ok Scalar.inf := by
    intro i hi
    rw [List.mem_range] at hi
    exact scoreOffset_of_not_scorable (hno i (by omega))
  rw [scoreWindow, if_neg (not_lt.mpr hle), mapM_eq_ok hoffset, List.map_const',
    List.length_range]

variable {image : Raster α} {line : Line α} {count : Int}

theorem bestPosition_of_error (h : k.scoreWindowImage image line count = .error e) :
    k.bestPosition image line count = .error e := by
  rw [bestPosition, h]
  rfl

theorem refine_of_error {config : SearchConfig α} (hwindow : config.window = count)
    (hlimit : 1 ≤ config.stepLimit) (h : k.scoreWindowImage image line count = .error e) :
    k.refine config image line = .error e := by
  rw [refine, if_neg (by omega), hwindow]
  unfold searchFrom searchStep
  rw [bestPosition_of_error h]
  rfl

/-- A search that asks nothing stays where it is. -/
theorem stays_of_not_scorable {k : Scorer Exact} {strategy : Strategy} {wraps : ℕ}
    (hsampler : k.sampler = .shipped strategy wraps) {image : Raster Exact} {line : Line ℝ}
    {count : ℤ} {w : Window Exact} (hw : k.sampler.window image (.ofReal line) count = .ok w)
    (hle : k.footprint ≤ w.length)
    (hno : ∀ i, i + k.footprint ≤ w.length → w.scorable k.footprint i = false) :
    k.bestPosition image (.ofReal line) count = .ok (.ofReal line.middle) ∧
      k.searchStep image (.ofReal line) count = .ok (.ofReal line.middle, 0) := by
  have hscores := (scoreWindowImage_of_window hw).trans (scoreWindow_of_not_scorable hle hno)
  have hdefined : ∀ x ∈ List.replicate (w.length - k.footprint + 1) (Scalar.inf : Exact),
      (x == x) = true := by
    intro x hx
    rw [List.eq_of_mem_replicate hx]
    rfl
  obtain ⟨-, -, hcount, hlength⟩ := searchable hsampler hscores
  have hoffset := centredOffset_add_le hcount
  have hleast : LeastAt (List.replicate (w.length - k.footprint + 1) Scalar.inf)
      (centredOffset count k.footprint) := by
    refine ⟨Scalar.inf, ?_, fun y hy => ?_⟩
    · rw [List.length_replicate] at hlength
      rw [List.getElem?_replicate, if_pos (by omega)]
    · rw [List.eq_of_mem_replicate hy]
      exact Exact.not_lt_self _
  exact ⟨bestPosition_of_leastAt hsampler hscores hdefined hleast,
    searchStep_of_leastAt hsampler hscores hdefined hleast⟩

end Scorer

section

variable [LinearAlgebra α]

/-- Searching with a model that cannot be used, in any state that a model can get into. It is
reported as soon as some offset can be normalized, and the model is not asked if there is none. What
is searched can be any window, or an image that the sampler can sample; the samplers of this library
sample all images whose bands they reach. -/
theorem unusable_reported {samples : Int} {sampler : Sampler α} {limit : α} {m : Model α}
    (h : Model.create samples sampler limit = .ok m) (requests : List (Request α)) :
    let s := m.start.after requests
    let n := s.model.footprint
    (∀ w : Window α, n ≤ w.length →
      ((∃ i, i + n ≤ w.length ∧ w.scorable n i = true) →
        ∀ e, s.model.Refuses (w.bands.length * n) e →
          (ModelM.scoreWindow w).answer s = .error e ∧
          ∀ image line count, s.model.sampler.window image line count = .ok w →
            (ModelM.scoreWindowImage image line count).answer s = .error e ∧
            (ModelM.bestPosition image line count).answer s = .error e ∧
            ∀ config : SearchConfig α, config.window = count → 1 ≤ config.stepLimit →
              (ModelM.refine config image line).answer s = .error e) ∧
      ((∀ i, i + n ≤ w.length → w.scorable n i = false) →
        (ModelM.scoreWindow w).answer s =
          .ok (List.replicate (w.length - n + 1) Scalar.inf) ∧
        ∀ image line count, s.model.sampler.window image line count = .ok w →
          (ModelM.scoreWindowImage image line count).answer s =
            .ok (List.replicate (w.length - n + 1) Scalar.inf))) ∧
    ∀ strategy wraps, sampler = .shipped strategy wraps →
      ∀ (image : Raster α) (line : Line α) (height width bands count : Nat),
        image.extents = [height, width] ∧ bands = 1 ∨ image.extents = [height, width, bands] →
        0 < height → 0 < width → 0 < bands → 0 < count → strategy.Reaches height width count →
        ∃ w, s.model.sampler.window image line count = .ok w ∧ w.length = count ∧
          w.bands.length = bands := by
  intro s n
  obtain ⟨hfootprint, hsampler⟩ := Session.fixed_after h requests
  have hlearned := learned_after h requests
  have hsettled := Session.settled_after h requests
  refine ⟨fun w hle => ⟨?_, ?_⟩, ?_⟩
  · intro hscorable e hrefuses
    have hscores : s.model.scorer.scoreWindow w = .error e :=
      Scorer.scoreWindow_of_refused hle
        (fun profile hprofile => hrefuses.score hlearned hsettled hprofile) hscorable
    refine ⟨(ModelM.yields_scoreWindow w s).answer_eq.trans hscores, fun image line count hw => ?_⟩
    have hscoresImage :=
      (Scorer.scoreWindowImage_of_window (k := s.model.scorer) hw).trans hscores
    refine ⟨?_, ?_, fun config hwindow hlimit => ?_⟩
    · exact (ModelM.yields_scoreWindowImage image line count s).answer_eq.trans hscoresImage
    · exact (ModelM.yields_bestPosition image line count s).answer_eq.trans
        (Scorer.bestPosition_of_error hscoresImage)
    · exact (ModelM.answer_refine config image line s).trans
        (Scorer.refine_of_error hwindow hlimit hscoresImage)
  · intro hno
    have hscores := Scorer.scoreWindow_of_not_scorable (k := s.model.scorer) hle hno
    refine ⟨(ModelM.yields_scoreWindow w s).answer_eq.trans hscores, fun image line count hw => ?_⟩
    exact (ModelM.yields_scoreWindowImage image line count s).answer_eq.trans
      ((Scorer.scoreWindowImage_of_window (k := s.model.scorer) hw).trans hscores)
  · rintro strategy wraps rfl image line height width bands count hshape hheight hwidth hbands
      hcount hreach
    rw [hsampler]
    exact Sampler.exists_window_shipped hshape hheight hwidth hbands hcount hreach line

end

theorem exists_window_of_ones (line : Line Exact) :
    ∃ w, (Sampler.shipped .nearest 0).window (.filled 1 1 (1 : Exact)) line 3 = .ok w ∧
      w.length = 3 ∧ w.bands.length = 1 ∧ ∃ i, i + 2 ≤ w.length ∧ w.scorable 2 i = true := by
  obtain ⟨w, hw, hlength, hbands⟩ := Sampler.exists_window_filled Nat.one_pos Nat.one_pos
    (show 0 < 3 by decide) 0 (1 : Exact) line
  refine ⟨w, hw, hlength, by rw [hbands]; rfl, 0, by omega, (w.scorable_iff 2 0).mpr ?_⟩
  have hpart : w.part 2 0 = [1, 1].map Exact.finite := by
    rw [Window.part, hbands]
    rfl
  have hsum : ([1, 1].map Exact.finite).sum = ((2 : ℝ) : Exact) := by
    rw [← Exact.coe_list_sum]
    norm_num
  rw [hpart, Exact.sum_eq_list_sum, hsum, ← Exact.coe_zero, Exact.coe_beq_coe]
  norm_num

/-- A window of ones is scored by no model that is untrained or has learned vectors of another
length. -/
theorem unusable_reported_of_ones :
    let image : Raster Exact := .filled 1 1 1
    let line : Line Exact := .ofReal ⟨⟨0, 0⟩, ⟨0, 0⟩⟩
    ∃ m : Model Exact, Model.create 2 (.shipped .nearest 0) 1 = .ok m ∧
      (ModelM.bestPosition image line 3).answer m.start = .error .notTrained ∧
      (ModelM.refine ⟨3, 1, 10⟩ image line).answer
        (m.start.after [.updateVector (Exact.ofReals ![1, 1, 1])]) =
          .error (.dimensionMismatch 3 2) := by
  intro image line
  obtain ⟨m, hm⟩ : ∃ m : Model Exact, Model.create 2 (.shipped .nearest 0) 1 = .ok m := ⟨_, rfl⟩
  obtain ⟨w, hw, hlength, hbands, hscorable⟩ := exists_window_of_ones line
  have huntrained := (unusable_reported hm []).1 w
  have hother := (unusable_reported hm [.updateVector (Exact.ofReals ![1, 1, 1])]).1 w
  have hle : 2 ≤ w.length := by omega
  have hone : w.bands.length * 2 = 2 := by rw [hbands]
  cases hm
  obtain ⟨-, hrefused⟩ := (huntrained hle).1 hscorable _ (Or.inl ⟨rfl, rfl⟩)
  obtain ⟨-, hmismatch⟩ := (hother hle).1 hscorable (.dimensionMismatch 3 2)
    (Or.inr ⟨3, by decide, rfl, hone.symm ▸ by decide, congrArg _ hone.symm⟩)
  obtain ⟨-, hposition, -⟩ := hrefused image line 3 hw
  obtain ⟨-, -, hrefine⟩ := hmismatch image line 3 hw
  exact ⟨_, rfl, hposition, hrefine ⟨3, 1, 10⟩ rfl (by decide)⟩

theorem exists_window_of_zeros (line : Line Exact) :
    ∃ w, (Sampler.shipped .nearest 0).window (.filled 1 1 (0 : Exact)) line 3 = .ok w ∧
      w.length = 3 ∧ w.bands.length = 1 ∧ ∀ n i, w.scorable n i = false := by
  obtain ⟨w, hw, hlength, hbands⟩ := Sampler.exists_window_filled Nat.one_pos Nat.one_pos
    (show 0 < 3 by decide) 0 (0 : Exact) line
  refine ⟨w, hw, hlength, by rw [hbands]; rfl, fun n i => ?_⟩
  rw [← Bool.not_eq_true, Window.scorable_iff]
  rintro ⟨hsum, -⟩
  have hzero : (w.part n i).sum = 0 := by
    apply List.sum_eq_zero
    intro x hx
    simp only [Window.part, hbands, List.flatMap_singleton] at hx
    exact (List.mem_replicate.mp (List.mem_of_mem_drop (List.mem_of_mem_take hx))).2
  rw [Exact.sum_eq_list_sum, hzero, ← Exact.coe_zero, Exact.coe_beq_coe] at hsum
  norm_num at hsum

/-- A window of zeros asks no model. One that is untrained and one that has learned vectors of
another length score it all the same, and the search ends in its centre. A window of ones asks, but
a model that has learned vectors without elements fails without comparing lengths. -/
theorem unusable_not_reported_of_zeros :
    let image : Raster Exact := .filled 1 1 0
    let line : Line Exact := .ofReal ⟨⟨0, 0⟩, ⟨0, 0⟩⟩
    let config : SearchConfig Exact := ⟨3, 1, 10⟩
    ∃ m : Model Exact, Model.create 2 (.shipped .nearest 0) 1 = .ok m ∧
      (∃ w, m.sampler.window image line 3 = .ok w ∧ w.length = 3 ∧
        w.bands.length * m.footprint = 2 ∧
        ∀ s ∈ [m.start, m.start.after [.updateVector (Exact.ofReals ![1, 1, 1])]],
          (s.model.isTrained = false ∨ s.model.statistics.dimension? = some 3) ∧
          (ModelM.scoreWindow w).answer s = .ok [Scalar.inf, Scalar.inf] ∧
          (ModelM.scoreWindowImage image line 3).answer s = .ok [Scalar.inf, Scalar.inf] ∧
          (ModelM.bestPosition image line 3).answer s = .ok line.centre ∧
          (ModelM.refine config image line).answer s = .ok ⟨line.centre, line, 1, 0, true⟩) ∧
      ∃ w, m.sampler.window (.filled 1 1 1) line 3 = .ok w ∧ w.length = 3 ∧
        w.bands.length * m.footprint = 2 ∧
        (m.start.after [.updateVector []]).model.statistics.dimension? = some 0 ∧
        (ModelM.scoreWindow w).answer (m.start.after [.updateVector []]) =
          .error .conditionUndefined := by
  intro image line config
  obtain ⟨m, hm⟩ : ∃ m : Model Exact, Model.create 2 (.shipped .nearest 0) 1 = .ok m := ⟨_, rfl⟩
  have hlearned := learned_after hm [.updateVector []]
  obtain ⟨w, hw, hlength, hbands, hno⟩ := exists_window_of_zeros line
  obtain ⟨v, hv, hlength', hbands', hscorable⟩ := exists_window_of_ones line
  cases hm
  refine ⟨_, rfl, ⟨w, hw, hlength, congrArg (· * 2) hbands, fun s hs => ?_⟩,
    v, hv, hlength', congrArg (· * 2) hbands', rfl, ?_⟩
  · obtain ⟨hfootprint, hsampler, hunusable⟩ : s.model.scorer.footprint = 2 ∧
        s.model.scorer.sampler = .shipped .nearest 0 ∧
        (s.model.isTrained = false ∨ s.model.statistics.dimension? = some 3) := by
      rcases List.mem_cons.mp hs with rfl | hs
      · exact ⟨rfl, rfl, Or.inl rfl⟩
      · rw [List.mem_singleton.mp hs]
        exact ⟨rfl, rfl, Or.inr rfl⟩
    have hle : s.model.scorer.footprint ≤ w.length := by omega
    have hscores : s.model.scorer.scoreWindow w = .ok [Scalar.inf, Scalar.inf] := by
      rw [Scorer.scoreWindow_of_not_scorable hle fun i _ => hno _ i, hlength, hfootprint]
      rfl
    have hwindow : s.model.scorer.sampler.window image line 3 = .ok w := hsampler ▸ hw
    obtain ⟨hposition, hstep⟩ :=
      Scorer.stays_of_not_scorable hsampler hwindow hle fun i _ => hno _ i
    have hrefine := Scorer.refine_of_stay hstep (show config.window = 3 from rfl) (by decide)
      (Exact.coe_lt_coe.mpr one_pos)
    refine ⟨hunusable, ?_, ?_, ?_, ?_⟩
    · exact (ModelM.yields_scoreWindow w s).answer_eq.trans hscores
    · exact (ModelM.yields_scoreWindowImage image line 3 s).answer_eq.trans
        ((Scorer.scoreWindowImage_of_window hwindow).trans hscores)
    · rw [(ModelM.yields_bestPosition image line 3 s).answer_eq, hposition, Line.centre_ofReal]
    · rw [ModelM.answer_refine, hrefine, Line.centre_ofReal]
  · refine (ModelM.yields_scoreWindow v _).answer_eq.trans ?_
    have hle : 2 ≤ v.length := by omega
    exact Scorer.scoreWindow_of_refused hle (fun profile _ => hlearned.score_of_empty rfl profile)
      hscorable

end Transect
