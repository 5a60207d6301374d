import Transect.Proofs.LitSamples
import Transect.Proofs.Operations

/-!
# Runs in other light

A model takes no notice of the light in which an image was taken, because normalizing cancels the
factor of the samples, in a profile as in each part of a window. So it learns the same profiles and
gives the same answers, and searches take the same steps.
-/
namespace Transect

theorem Window.scorable_scaled {a : ℝ} (ha : a ≠ 0) (w : Window Exact) (n i : ℕ) :
    (w.scaled a).scorable n i = w.scorable n i := by
  have h := normalize_scaleBy ha (w.part n i)
  rw [scorable, scorable, part_scaled]
  generalize normalize (scaleBy a (w.part n i)) = x, normalize (w.part n i) = y at h
  cases h <;> rfl

namespace Scorer

variable {k : Scorer Exact}

theorem scoreOffset_scaled {a : ℝ} (ha : a ≠ 0) (w : Window Exact) (i : ℕ) :
    k.scoreOffset (w.scaled a) i = k.scoreOffset w i := by
  have h := normalize_scaleBy ha (w.part k.footprint i)
  rw [scoreOffset_eq_match, scoreOffset_eq_match, Window.part_scaled]
  generalize normalize (scaleBy a (w.part k.footprint i)) = x,
    normalize (w.part k.footprint i) = y at h
  cases h <;> rfl

theorem scoreWindow_scaled {a : ℝ} (ha : a ≠ 0) (w : Window Exact) :
    k.scoreWindow (w.scaled a) = k.scoreWindow w := by
  have hlength : (w.scaled a).length = w.length := rfl
  have hoffset : k.scoreOffset (w.scaled a) = k.scoreOffset w := funext (scoreOffset_scaled ha w)
  rw [scoreWindow, scoreWindow, hoffset, hlength]

theorem asksWindow_scaled {a : ℝ} (ha : a ≠ 0) (w : Window Exact) :
    k.asksWindow (w.scaled a) = k.asksWindow w := by
  have hlength : (w.scaled a).length = w.length := rfl
  have hscorable : (w.scaled a).scorable k.footprint = w.scorable k.footprint :=
    funext (w.scorable_scaled ha k.footprint)
  rw [asksWindow, asksWindow, hscorable, hlength]

variable {strategy : Strategy} {wraps : ℕ} (hk : k.sampler = .shipped strategy wraps)
  {light : Light} (h : light.Suits strategy) (image : Raster Exact)
include hk h

theorem scoreImage_under (line : Line Exact) :
    SameOutcome (k.scoreImage (image.under light) line) (k.scoreImage image line) := by
  rw [scoreImage, scoreImage, hk]
  exact (Sampler.profile_under h image wraps line k.footprint).bind k.score

theorem asksImage_under (line : Line Exact) :
    k.asksImage (image.under light) line = k.asksImage image line := by
  have hprofile := Sampler.profile_under h image wraps line k.footprint
  rw [asksImage, asksImage, hk]
  generalize (Sampler.shipped strategy wraps).profile (image.under light) line k.footprint = x,
    (Sampler.shipped strategy wraps).profile image line k.footprint = y at hprofile
  cases hprofile <;> rfl

theorem scoreWindowImage_under (line : Line Exact) (count : ℤ) :
    k.scoreWindowImage (image.under light) line count = k.scoreWindowImage image line count := by
  rw [scoreWindowImage, scoreWindowImage, hk, Sampler.window_under h]
  cases (Sampler.shipped strategy wraps).window image line count with
  | error e => rfl
  | ok w => exact scoreWindow_scaled (strategy.factor_ne_zero light.gain_ne_zero) w

theorem asksWindowImage_under (line : Line Exact) (count : ℤ) :
    k.asksWindowImage (image.under light) line count = k.asksWindowImage image line count := by
  rw [asksWindowImage, asksWindowImage, hk, Sampler.window_under h]
  cases (Sampler.shipped strategy wraps).window image line count with
  | error e => rfl
  | ok w => exact asksWindow_scaled (strategy.factor_ne_zero light.gain_ne_zero) w

theorem searchesAlike_under : SearchesAlike k k image (image.under light) where
  footprint := rfl
  scores := scoreWindowImage_under hk h image
  asks := asksWindowImage_under hk h image
  position := by
    have hextents : (image.under light).extents = image.extents := rfl
    exact hk ▸ Sampler.stepPosition_congr hextents strategy wraps
  movement := by
    have hextents : (image.under light).extents = image.extents := rfl
    exact hk ▸ Sampler.movement_congr hextents strategy wraps

end Scorer

/-- A window that is given as such has no bands with offsets any more, but it may be scaled. -/
theorem Window.ofRaster_scaled (array : Raster Exact) (a : ℝ) :
    ofRaster (array.map ((a : Exact) * ·)) = Except.map (·.scaled a) (ofRaster array) := by
  obtain ⟨extents, cell⟩ := array
  rcases extents with - | ⟨height, - | ⟨width, - | ⟨n, rest⟩⟩⟩
  · rfl
  · rfl
  · refine congrArg Except.ok ?_
    simp [scaled, scaleBy, Raster.map, Function.comp_def]
  · rfl

noncomputable def Question.under (light : Light) : Question Exact → Question Exact
  | scoreImage image line => scoreImage (image.under light) line
  | scoreWindow array => scoreWindow (array.map ((light.gain : Exact) * ·))
  | scoreWindowImage image line count => scoreWindowImage (image.under light) line count
  | bestPosition image line count => bestPosition (image.under light) line count
  | q => q

noncomputable def Operation.under (light : Light) : Operation Exact → Operation Exact
  | request (.update image line) => request (.update (image.under light) line)
  | request (.ask question) => request (.ask (question.under light))
  | refine config image line => refine config (image.under light) line
  | o => o

section

variable {k : Scorer Exact} {strategy : Strategy} {wraps : ℕ}
  (hk : k.sampler = .shipped strategy wraps) {light : Light} (h : light.Suits strategy)
include hk h

theorem Question.under_cases (q : Question Exact) :
    SameOutcome ((q.under light).answer k) (q.answer k) ∧
      (q.under light).asks k = q.asks k := by
  cases q with
  | mean => exact ⟨.same _, rfl⟩
  | covariance => exact ⟨.same _, rfl⟩
  | inverseCovariance => exact ⟨.same _, rfl⟩
  | score profile => exact ⟨.same _, rfl⟩
  | scoreImage image line =>
    exact ⟨(Scorer.scoreImage_under hk h image line).bind _, Scorer.asksImage_under hk h image line⟩
  | scoreWindow array =>
    have harray := Window.ofRaster_scaled array light.gain
    have hgain := light.gain_ne_zero
    simp only [under, answer, asks, harray]
    cases Window.ofRaster array with
    | error e => exact ⟨.same _, rfl⟩
    | ok w =>
      simp only [Except.map, ok_bind, Scorer.scoreWindow_scaled hgain]
      exact ⟨.same _, Scorer.asksWindow_scaled hgain w⟩
  | scoreWindowImage image line count =>
    refine ⟨?_, Scorer.asksWindowImage_under hk h image line count⟩
    simp only [under, answer, Scorer.scoreWindowImage_under hk h]
    exact .same _
  | bestPosition image line count =>
    refine ⟨?_, Scorer.asksWindowImage_under hk h image line count⟩
    simp only [under, answer, (Scorer.searchesAlike_under hk h image).bestPosition]
    exact .same _

end

section

variable [LinearAlgebra Exact] {strategy : Strategy} {wraps : ℕ}

/-- What an operation does to a model, in whatever light its image is. -/
theorem Operation.under_cases {m : Model Exact} (hm : m.sampler = .shipped strategy wraps)
    {light : Light} (h : light.Suits strategy) (o : Operation Exact) :
    SameOutcome ((o.under light).reply m) (o.reply m) ∧ (o.under light).next m = o.next m := by
  have hk : m.scorer.sampler = .shipped strategy wraps := hm
  cases o with
  | request r =>
    cases r with
    | update image line =>
      have hprofile := Sampler.profile_under h image wraps line m.footprint
      rw [← hm] at hprofile
      have htaught : SameOutcome
          (m.taught (m.sampler.profile (image.under light) line m.footprint))
          (m.taught (m.sampler.profile image line m.footprint)) :=
        hprofile.bind fun profile => m.taught (.ok profile)
      exact ⟨htaught.bind _, congrArg (·.getD m) htaught.toOption_eq⟩
    | updateVector profile => exact ⟨.same _, rfl⟩
    | setLimit limit => exact ⟨.same _, rfl⟩
    | ask question =>
      obtain ⟨hanswer, hasks⟩ := question.under_cases hk h
      exact ⟨hanswer.bind _, congrArg m.kept hasks⟩
  | refine config image line =>
    obtain ⟨hanswer, hasks⟩ := (Scorer.searchesAlike_under hk h image).refine config line
    refine ⟨?_, congrArg m.kept hasks⟩
    simp only [under, reply, hanswer]
    exact .same _

theorem Model.run_under {m : Model Exact} (hm : m.sampler = .shipped strategy wraps)
    {run : List (Operation Exact × Light)} (hrun : ∀ p ∈ run, p.2.Suits strategy) :
    List.Forall₂ SameOutcome (m.replies (run.map fun p => p.1.under p.2))
        (m.replies (run.map Prod.fst)) ∧
      m.through (run.map fun p => p.1.under p.2) = m.through (run.map Prod.fst) := by
  induction run generalizing m with
  | nil => exact ⟨.nil, rfl⟩
  | cons p rest ih =>
    obtain ⟨hp, hrest⟩ := List.forall_mem_cons.mp hrun
    obtain ⟨hreply, hnext⟩ := Operation.under_cases hm hp p.1
    obtain ⟨hreplies, hthrough⟩ := ih ((p.1.fixed_next m).2.trans hm) hrest
    simp only [List.map_cons, replies]
    refine ⟨.cons hreply ?_, ?_⟩
    · rw [hnext]
      exact hreplies
    · change ((p.1.under p.2).next m).through _ = (p.1.next m).through _
      rw [hnext]
      exact hthrough

/-- A run of operations with one of the samplers of this library, and the same run with every image
in a light of its own. All replies are the same, and so is the model in the end. What cannot be
normalized cannot be normalized in any light. -/
theorem replies_under_light {samples : ℤ} {limit : Exact} {m : Model Exact}
    (h : Model.create samples (.shipped strategy wraps) limit = .ok m)
    {run : List (Operation Exact × Light)} (hrun : ∀ p ∈ run, p.2.Suits strategy) :
    let given := run.map Prod.fst
    let lit := run.map fun p => p.1.under p.2
    List.Forall₂ SameOutcome (m.start.replies lit) (m.start.replies given) ∧
      (m.start.through lit).model = (m.start.through given).model := by
  intro given lit
  rw [Session.replies_eq, Session.replies_eq, Session.model_through, Session.model_through]
  exact Model.run_under (Model.of_create h).2.1 hrun

end

/-- Two bands of squares, along a line that is sampled at steps of one pixel. The images that are
learned are negatives, and the others are taken in triple light. -/
theorem replies_under_light_of_squares :
    let image : Raster Exact :=
      ⟨[1, 4, 2], fun index => (((index.getD 1 0 + index.getD 2 0) ^ 2 : ℕ) : ℝ)⟩
    let line : Line Exact := .ofReal ⟨⟨0, 0⟩, ⟨3, 0⟩⟩
    let negative : Light := ⟨-1, by norm_num, fun _ => 255⟩
    let bright : Light := ⟨3, by norm_num, fun band => band⟩
    let run : List (Operation Exact × Light) :=
      [(.request (.update image line), negative),
        (.request (.ask (.scoreImage image line)), bright),
        (.request (.ask (.bestPosition image line 4)), bright),
        (.refine ⟨4, 1, 10⟩ image line, bright)]
    ∃ m : Model Exact, Model.create 2 (.shipped .derivative 1) 1 = .ok m ∧
      (∀ p ∈ run, p.2.Suits .derivative) ∧
      List.Forall₂ SameOutcome (m.start.replies (run.map fun p => p.1.under p.2))
        (m.start.replies (run.map Prod.fst)) ∧
      (m.start.through (run.map fun p => p.1.under p.2)).model =
        (m.start.through (run.map Prod.fst)).model := by
  intro image line negative bright run
  obtain ⟨m, hm⟩ : ∃ m : Model Exact, Model.create 2 (.shipped .derivative 1) 1 = .ok m :=
    ⟨_, rfl⟩
  have hrun : ∀ p ∈ run, p.2.Suits .derivative := fun p _ => Or.inl rfl
  exact ⟨m, hm, hrun, replies_under_light hm hrun⟩

end Transect
