import Transect.Proofs.ExactMatch
import Transect.Proofs.FlatImages
import Transect.Proofs.Lifecycle
import Transect.Proofs.SampleRate

/-!
# No drift

A search whose window has nothing better than its centre stays where it is, and so do all searches
after it. Such are the windows of an image without structure, and those along the line that a model
has learned, if it has learned nothing else.
-/
namespace Transect

/-- At some place there is a number that no other one is less than. -/
def LeastAt (xs : List Exact) (i : ℕ) : Prop := ∃ x, xs[i]? = some x ∧ ∀ y ∈ xs, ¬ y < x

/-- The offset at which a footprint of `n` samples lies in the centre of a window. -/
def centredOffset (count : ℤ) (n : ℕ) : ℕ := ((count - n).fdiv 2).toNat

theorem fdiv_eq_centredOffset {count : ℤ} {n : ℕ} (h : n ≤ count) :
    (count - n).fdiv 2 = centredOffset count n := by
  rw [centredOffset, Int.fdiv_eq_ediv_of_nonneg _ (by decide)]
  omega

theorem centredOffset_add_le {count : ℤ} {n : ℕ} (h : n ≤ count) :
    centredOffset count n + n ≤ count.toNat := by
  rw [centredOffset, Int.fdiv_eq_ediv_of_nonneg _ (by decide)]
  omega

namespace Scorer

variable {k : Scorer Exact} {strategy : Strategy} {wraps : ℕ}
  (hsampler : k.sampler = .shipped strategy wraps) {image : Raster Exact} {line : Line ℝ}
  {count : ℤ} {scores : List Exact}
  (hscores : k.scoreWindowImage image (.ofReal line) count = .ok scores)
include hsampler hscores

theorem leastAt_of_flat (hn : 0 < k.footprint) (hflat : image.IsFlat) :
    LeastAt scores (centredOffset count k.footprint) := by
  obtain ⟨-, -, hle, hlength⟩ := searchable hsampler hscores
  obtain ⟨w, hw, hscores⟩ := bind_eq_ok.mp hscores
  rw [hsampler] at hw
  have hequal := scores_of_flat (Sampler.flat_window hflat hw) hn hscores
  have hoffset := centredOffset_add_le hle
  have hlt : centredOffset count k.footprint < scores.length := by omega
  refine ⟨scores[centredOffset count k.footprint], List.getElem?_eq_getElem hlt, fun y hy => ?_⟩
  rw [hequal y hy _ (List.getElem_mem hlt)]
  exact Exact.not_lt_self _

variable (hdefined : ∀ x ∈ scores, (x == x) = true)
  (hleast : LeastAt scores (centredOffset count k.footprint))
include hdefined hleast

theorem bestPosition_of_leastAt :
    k.bestPosition image (.ofReal line) count = .ok (.ofReal line.middle) := by
  obtain ⟨-, -, hle, -⟩ := searchable hsampler hscores
  obtain ⟨x, hx, hbest⟩ := hleast
  have hmem := List.mem_of_getElem? hx
  obtain ⟨i, y, hy, hfirst⟩ := exists_firstLeast (List.ne_nil_of_mem hmem) hdefined
  have hymem := List.mem_of_getElem? hfirst.value_at
  have hequal : (x == y) = true := Exact.beq_of_not_lt (hdefined x hmem) (hdefined y hymem)
    (Exact.not_lt_of_le (hfirst.minimal x hmem)) (hbest y hymem)
  have hcentred : (axisIndex? scores.length ((count - k.footprint).fdiv 2)).bind (scores[·]?) =
      some x := by
    rw [fdiv_eq_centredOffset hle, axisIndex?_natCast (List.getElem?_eq_some_iff.mp hx).1]
    exact hx
  simp only [bestPosition, hscores, ok_bind, choose, hy, hcentred, hequal, if_true,
    Line.centre_ofReal]

theorem searchStep_of_leastAt :
    k.searchStep image (.ofReal line) count = .ok (.ofReal line.middle, 0) := by
  obtain ⟨⟨band, hband⟩, hcount, -, -⟩ := searchable hsampler hscores
  obtain ⟨t, -, ht⟩ := Sampler.exists_sampleLine_shipped hsampler band hcount line
  rw [searchStep, bestPosition_of_leastAt hsampler hscores hdefined hleast, ok_bind,
    Sampler.movement_span hband ht]
  rfl

end Scorer

namespace ModelM

variable {α : Type} [Scalar α] [LinearAlgebra α]

/-- Searches that each start from the line that the one before found. -/
def refineTimes (config : SearchConfig α) (image : Raster α) :
    Nat → Line α → ModelM α (List (SearchResult α))
  | 0, _ => return []
  | times + 1, line => do
    let result ← refine config image line
    return result :: (← refineTimes config image times result.line)

theorem yields_refineTimes {config : SearchConfig α} {image : Raster α} {line : Line α}
    {result : SearchResult α} {s : Session α}
    (h : s.model.scorer.refine config image line = .ok result) (hline : result.line = line)
    (times : Nat) :
    ∃ asked, (refineTimes config image times line).Yields s
      (.ok (List.replicate times result)) asked := by
  induction times generalizing s with
  | zero => exact ⟨false, yields_pure [] s⟩
  | succ times ih =>
    obtain ⟨asked, hrefine⟩ := yields_refine config image line s
    rw [h] at hrefine
    refine hrefine.bind_exists fun t ht => ?_
    rw [hline]
    have hsame : t.model.scorer = s.model.scorer := by rw [ht, Model.scorer_kept]
    obtain ⟨again, hrest⟩ := ih (hsame ▸ h)
    exact hrest.bind_exists fun u _ => ⟨false, yields_pure _ u⟩

end ModelM

section

variable {α : Type} [Scalar α] [LinearAlgebra α] {image : Raster α} {line : Line α}

/-- A model that was created and then taught one image along one line, as often as may be. In
between it may have been asked anything, and its limit may have been changed. -/
def Session.TaughtOnly (s : Session α) (image : Raster α) (line : Line α) : Prop :=
  ∃ samples sampler limit m requests, Model.create samples sampler limit = .ok m ∧
    (∀ request ∈ requests, request.teaches = true → request = .update image line) ∧
    s = m.start.after requests

theorem Session.TaughtOnly.exists_profile {s : Session α} (h : s.TaughtOnly image line)
    (htrained : s.model.isTrained = true) :
    ∃ k v, 0 < k ∧ s.model.sampler.profile image line s.model.footprint = .ok v ∧
      s.model.Learned (List.replicate k v) := by
  obtain ⟨samples, sampler, limit, m, requests, hm, honly, rfl⟩ := h
  obtain ⟨hfootprint, hsampler⟩ := Session.fixed_after hm requests
  have hlearned := learned_after hm requests
  have hprofiles : ∀ v ∈ ((Reference.start samples.toNat sampler limit).after requests).accepted,
      sampler.profile image line samples.toNat = .ok v := by
    refine Reference.forall_accepted_after (fun request hrequest v hlesson => ?_)
      (List.forall_mem_nil _)
    rcases hlesson with rfl | ⟨image', line', rfl, hv⟩
    · cases honly _ hrequest rfl
    · cases honly _ hrequest rfl
      exact hv
  rw [hfootprint, hsampler]
  obtain ⟨v, rest, hcons⟩ := List.exists_cons_of_ne_nil (hlearned.ne_nil htrained)
  rw [hcons] at hprofiles hlearned
  obtain ⟨hv, hrest⟩ := List.forall_mem_cons.mp hprofiles
  have hequal : v :: rest = List.replicate (rest.length + 1) v := by
    refine List.eq_replicate_iff.mpr ⟨rfl, List.forall_mem_cons.mpr ⟨rfl, fun u hu => ?_⟩⟩
    exact Except.ok.inj ((hrest u hu).symm.trans hv)
  exact ⟨rest.length + 1, v, Nat.succ_pos _, hv, hequal ▸ hlearned⟩

end

theorem Sample.mean_replicate {D k : ℕ} (hk : 0 < k) (v : Fin D → ℝ) :
    mean (List.replicate k v) = v := by
  have hne : (k : ℝ) ≠ 0 := Nat.cast_ne_zero.mpr hk.ne'
  funext i
  simp [mean, List.sum_replicate, hne]

/-- In a window of unit steps the footprint in the centre has the samples that are learned. -/
theorem Sampler.Pointwise.part_centre {inner : Sampler Exact}
    {value : Raster Exact → Point Exact → Exact} (hinner : inner.Pointwise value)
    {image : Raster Exact} {line : Line ℝ} {count : ℤ} {n : ℕ} {few many : Window Exact}
    (hfew : (unitStep inner).window image (.ofReal line) n = .ok few)
    (hmany : (unitStep inner).window image (.ofReal line) count = .ok many) (hle : n ≤ count)
    (heven : Even (count - n)) : many.part n (centredOffset count n) = few.samples := by
  obtain ⟨N, rfl⟩ := Int.eq_ofNat_of_zero_le (show 0 ≤ count by omega)
  have hcount : n ≤ N := by omega
  have hdifference : Even (N - n) := by
    rw [← Int.even_coe_nat, Nat.cast_sub hcount]
    exact heven
  have hoffset : centredOffset N n = (N - n) / 2 := by
    rw [centredOffset, Int.fdiv_eq_ediv_of_nonneg _ (by decide)]
    omega
  obtain ⟨-, bands, hbands, hreads⟩ := hinner.reads_window hmany
  obtain ⟨-, parts, hparts, hsamples⟩ := hinner.reads_window hfew
  rw [Except.ok.inj (hparts.symm.trans hbands)] at hsamples
  rw [hreads.part, hsamples.samples, hoffset, Int.toNat_natCast, Int.toNat_natCast,
    line.take_drop_unitSteps hcount hdifference]

section

variable [LinearAlgebra Exact] [LawfulInverse] {m : Model Exact} {image : Raster Exact}
  {line : Line ℝ} {count : ℤ} {scores : List Exact}

/-- A model that knows one profile finds it in the centre of the window around it. -/
theorem Model.Learned.scores_of_replicate {k : ℕ} {v : List Exact} (hk : 0 < k)
    (hlearned : m.Learned (List.replicate k v))
    (hv : m.sampler.profile image (.ofReal line) m.footprint = .ok v) {inner : Sampler Exact}
    (hinner : inner = .nearest ∨ inner = .interpolated) (hsampler : m.sampler = .unitStep inner)
    (hle : m.footprint ≤ count) (heven : Even (count - m.footprint))
    (hscores : m.scorer.scoreWindowImage image (.ofReal line) count = .ok scores) :
    (∀ x ∈ scores, (x == x) = true) ∧ LeastAt scores (centredOffset count m.footprint) := by
  obtain ⟨value, hvalue⟩ := Sampler.exists_pointwise hinner
  obtain ⟨w, hw, hscores⟩ := bind_eq_ok.mp hscores
  obtain ⟨few, hfew, hprofile⟩ := bind_eq_ok.mp hv
  change m.sampler.window image (.ofReal line) count = .ok w at hw
  rw [hsampler] at hw hfew
  have hpart := hvalue.part_centre hfew hw hle heven
  have hoffset := centredOffset_add_le hle
  rw [← (hvalue.reads_window hw).1] at hoffset
  -- As many samples as the profile has: the dimension of the model.
  obtain ⟨u, rfl, -⟩ := exists_ofReals_of_normalize hprofile
    (hpart ▸ w.length_part hoffset)
  have hxs : List.replicate k u ≠ [] := by simp [hk.ne']
  rw [← List.map_replicate] at hlearned
  have hrates : ∀ {i x}, scores[i]? = some x → m.Rates u (w.part m.footprint i) x := by
    intro i x hx
    have h := (hlearned.rates_of_scoreWindow hxs rfl hscores hx).2
    rwa [Sample.mean_replicate hk] at h
  obtain ⟨-, hlength⟩ := Scorer.length_scores hscores
  change scores.length = w.length - m.footprint + 1 at hlength
  have hcentre := List.getElem?_eq_getElem
    (show centredOffset count m.footprint < scores.length by omega)
  have hbest := hrates hcentre
  rw [hpart] at hbest
  rw [hbest.eq_zero hprofile] at hcentre
  refine ⟨fun y hy => ?_, 0, hcentre, fun y hy => ?_⟩
  · obtain ⟨i, hi⟩ := List.mem_iff_getElem?.mp hy
    exact (hrates hi).beq_self
  · obtain ⟨i, hi⟩ := List.mem_iff_getElem?.mp hy
    exact (hrates hi).not_lt_zero

/-- A search whose window is nowhere better than in its centre stays on its line, and so do all that
follow it. Windows of flat images are such, and so are those of a model that has learned nothing but
the line that it is shown, as far as they lie around the footprint evenly. -/
theorem no_drift {s : Session Exact} {strategy : Strategy} {wraps : ℕ}
    (hsampler : s.model.sampler = .shipped strategy wraps) (image : Raster Exact) (line : Line ℝ)
    (count : ℤ) :
    let responses := (ModelM.scoreWindowImage image (.ofReal line) count).answer s
    let centre := centredOffset count s.model.footprint
    (∀ scores, responses = .ok scores → (∀ x ∈ scores, (x == x) = true) → LeastAt scores centre →
      ∀ config : SearchConfig Exact, config.window = count → 1 ≤ config.stepLimit →
        0 < config.threshold → ∀ times,
          (ModelM.refineTimes config image times (.ofReal line)).answer s =
            .ok (List.replicate times
              { point := (Line.ofReal line).centre
                line := .ofReal line
                steps := 1
                movement := 0
                converged := true })) ∧
    (image.IsFlat → ∀ scores, responses = .ok scores → LeastAt scores centre) ∧
    (wraps = 1 → strategy ≠ .derivative → Even (count - s.model.footprint) →
      s.TaughtOnly image (.ofReal line) → s.model.isTrained = true →
      ∀ scores, responses = .ok scores →
        (∀ x ∈ scores, (x == x) = true) ∧ LeastAt scores centre) ∧
    ∀ (D : ℕ) (xs : List (Fin D → ℝ)) (w : Window Exact), xs ≠ [] →
      s.model.Learned (xs.map Exact.ofReals) →
      s.model.sampler.window image (.ofReal line) count = .ok w →
      w.bands.length * s.model.footprint = D → s.model.footprint ≤ w.length →
      ∃ scores, responses = .ok scores ∧ ∀ x ∈ scores, (x == x) = true := by
  intro responses centre
  have hresponses : responses = s.model.scorer.scoreWindowImage image (.ofReal line) count :=
    (ModelM.yields_scoreWindowImage image (.ofReal line) count s).answer_eq
  rw [hresponses]
  have hfootprint := s.model.footprint_pos
  refine ⟨?_, ?_, ?_, ?_⟩
  · intro scores hscores hdefined hleast config hwindow hlimit hthreshold times
    have hstep := Scorer.searchStep_of_leastAt hsampler hscores hdefined hleast
    have hrefine := Scorer.refine_of_stay hstep hwindow hlimit hthreshold
    obtain ⟨asked, hyields⟩ := ModelM.yields_refineTimes hrefine rfl times
    rw [hyields.answer_eq, Line.centre_ofReal]
  · intro hflat scores hscores
    exact Scorer.leastAt_of_flat hsampler hscores hfootprint hflat
  · rintro rfl hstrategy heven htaught htrained scores hscores
    obtain ⟨k, v, hk, hv, hlearned⟩ := htaught.exists_profile htrained
    have hinner : strategy.sampler = (.nearest : Sampler Exact) ∨
        strategy.sampler = (.interpolated : Sampler Exact) := by
      cases strategy with
      | nearest => exact Or.inl rfl
      | interpolated => exact Or.inr rfl
      | derivative => exact absurd rfl hstrategy
    obtain ⟨-, -, hle, -⟩ := Scorer.searchable hsampler hscores
    exact hlearned.scores_of_replicate hk hv hinner hsampler hle heven hscores
  · intro D xs w hxs hlearned hw hD hle
    obtain ⟨scores, hscores, -, -⟩ := hlearned.exists_scoreWindow hxs hD hle
    refine ⟨scores, ?_, fun x hx => ?_⟩
    · exact (Scorer.scoreWindowImage_of_window (k := s.model.scorer) hw).trans hscores
    · obtain ⟨i, hi⟩ := List.mem_iff_getElem?.mp hx
      exact (hlearned.rates_of_scoreWindow hxs hD hscores hi).2.beq_self

end

/-- A flat image learned twice along one line, and then twenty searches along it. -/
theorem no_drift_of_two :
    let image : Raster Exact := .filled 1 5 1
    let line : Line ℝ := ⟨⟨1, 0⟩, ⟨3, 0⟩⟩
    let requests : List (Request Exact) :=
      [.update image (.ofReal line), .ask .mean, .update image (.ofReal line)]
    let config : SearchConfig Exact := ⟨5, 1, 10⟩
    ∃ m : Model Exact, Model.create 3 (.shipped .nearest 1) 1 = .ok m ∧
      (m.start.after requests).model.isTrained = true ∧
      (ModelM.refineTimes config image 20 (.ofReal line)).answer (m.start.after requests) =
        .ok (List.replicate 20 ⟨(Line.ofReal line).centre, .ofReal line, 1, 0, true⟩) := by
  intro image line requests config
  obtain ⟨m, hm⟩ : ∃ m : Model Exact, Model.create 3 (.shipped .nearest 1) 1 = .ok m := ⟨_, rfl⟩
  have hprofile : (Sampler.shipped .nearest 1).profile image (.ofReal line) 3 =
      .ok (Exact.ofReals (fun _ : Fin 3 => (1 / 3 : ℝ))) := by
    obtain ⟨w, hw, -, hbands⟩ := Sampler.exists_window_filled Nat.one_pos (show 0 < 5 by decide)
      (show 0 < 3 by decide) 1 (1 : Exact) (.ofReal line)
    have hones : w.samples = [1, 1, 1].map Exact.finite := by
      rw [Window.samples, hbands]
      rfl
    change (do
      normalize (← (Sampler.shipped .nearest 1).window image (.ofReal line) (3 : ℕ)).samples) = _
    rw [hw, ok_bind, hones, normalize_finite (by norm_num)]
    norm_num [Exact.ofReals, List.ofFn_succ]
  have honly : (m.start.after requests).TaughtOnly image (.ofReal line) := by
    refine ⟨3, _, 1, m, requests, hm, fun request hrequest hteaches => ?_, rfl⟩
    simp only [requests, List.mem_cons, List.not_mem_nil, or_false] at hrequest
    rcases hrequest with rfl | rfl | rfl
    · rfl
    · cases hteaches
    · rfl
  have htrained : (m.start.after requests).model.isTrained = true := by
    cases hm
    have hsettled := Session.dimension?_after_cons (r := .update image (.ofReal line))
      (s := Model.start ⟨3, by decide, .shipped .nearest 1, 1, .empty, none⟩)
      (congrArg some hprofile) rfl requests.tail
    rw [← Session.isSome_dimension?_after rfl requests]
    exact Option.isSome_of_eq_some hsettled
  obtain ⟨hfootprint, hsampler⟩ := Session.fixed_after hm requests
  obtain ⟨k, v, hk, hv, hlearned⟩ := honly.exists_profile htrained
  rw [hfootprint, hsampler] at hv
  rw [Except.ok.inj (hv.symm.trans hprofile), ← List.map_replicate] at hlearned
  obtain ⟨w, hw, hlength, hbands⟩ := Sampler.exists_window_filled Nat.one_pos
    (show 0 < 5 by decide) (show 0 < 5 by decide) 1 (1 : Exact) (.ofReal line)
  obtain ⟨hstay, -, hlearnedOnly, hfinite⟩ := no_drift hsampler image line 5
  rw [hfootprint, hsampler] at hfinite
  rw [hfootprint] at hlearnedOnly
  obtain ⟨scores, hscores, -⟩ := hfinite 3 _ w (by simp [hk.ne']) hlearned hw (by simp [hbands])
    (by simp [hlength])
  obtain ⟨hdefined, hleast⟩ :=
    hlearnedOnly rfl (by decide) (by decide) honly htrained scores hscores
  rw [← hfootprint] at hleast
  exact ⟨m, hm, htrained, hstay scores hscores hdefined hleast config rfl (by decide)
    (Exact.coe_lt_coe.mpr one_pos) 20⟩

end Transect
