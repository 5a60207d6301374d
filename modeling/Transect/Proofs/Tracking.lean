import Transect.Proofs.NoDrift

/-!
# Tracking along a line

A search moves a line along itself only, by multiples of what leads from its start to its finish.
Wherever a tracking run takes a line, it is the line that the run began with, moved along itself.
-/
namespace Transect

noncomputable def Line.slid (l : Line ℝ) (r : ℝ) : Line ℝ :=
  l.movedTo (l.middle.stepped l.vector r)

namespace Line

variable (l : Line ℝ) (r t : ℝ)

@[simp] theorem middle_slid : (l.slid r).middle = l.middle.stepped l.vector r :=
  l.middle_movedTo _

@[simp] theorem vector_slid : (l.slid r).vector = l.vector := by
  simp [vector, slid, movedTo]

@[simp] theorem slid_zero : l.slid 0 = l := by simp [slid]

theorem movedTo_movedTo (p q : Point ℝ) : (l.movedTo p).movedTo q = l.movedTo q := by
  have hmiddle := l.middle_movedTo p
  rw [movedTo, hmiddle]
  simp only [movedTo, Line.mk.injEq, Point.mk.injEq]
  refine ⟨⟨?_, ?_⟩, ?_, ?_⟩ <;> ring

theorem slid_slid : (l.slid r).slid t = l.slid (r + t) := by
  rw [slid, middle_slid, vector_slid, Point.stepped_stepped, slid, movedTo_movedTo, slid]

theorem ofReal_slid : ofReal (l.slid r) =
    (ofReal l).translated (r * l.vector.1 : ℝ) (r * l.vector.2 : ℝ) := by
  simp only [slid, movedTo, Point.stepped, add_sub_cancel_left, ofReal, Point.ofReal, translated,
    Point.translated, Exact.coe_add]

theorem extent_slid :
    (ofReal (l.slid r)).finish.x - (ofReal (l.slid r)).start.x =
        (ofReal l).finish.x - (ofReal l).start.x ∧
      (ofReal (l.slid r)).finish.y - (ofReal (l.slid r)).start.y =
        (ofReal l).finish.y - (ofReal l).start.y := by
  simp only [slid, movedTo, ofReal, Point.ofReal, ← Exact.coe_sub, add_sub_add_right_eq_sub,
    and_self]

theorem length_slid : (ofReal (l.slid r)).length = (ofReal l).length := by
  simp only [length, Point.distance, slid, movedTo, ofReal, Point.ofReal, ← Exact.coe_sub,
    add_sub_add_right_eq_sub]

end Line

/-- A search has gone along a line: it ends on the line moved along itself, in the centre of it. -/
def SearchResult.Follows (result : SearchResult Exact) (line : Line ℝ) : Prop :=
  ∃ r, result.line = .ofReal (line.slid r) ∧ result.point = .ofReal (line.slid r).middle

theorem SearchResult.Follows.trans {result : SearchResult Exact} {line : Line ℝ} {r : ℝ}
    (h : result.Follows (line.slid r)) : result.Follows line := by
  obtain ⟨t, ht⟩ := h
  rw [Line.slid_slid] at ht
  exact ⟨r + t, ht⟩

namespace Scorer

section

variable {α : Type} [Scalar α] {k : Scorer α} {image : Raster α} {line : Line α} {count : Int}

theorem choose_cases {scores : List α} {p : Point α}
    (h : k.choose image line count scores = .ok p) :
    p = line.centre ∨ ∃ steps, k.sampler.stepPosition image line count steps = .ok p := by
  simp only [choose] at h
  split at h
  · split_ifs at h
    · exact Or.inl (Except.ok.inj h).symm
    · exact Or.inr ⟨_, h⟩
  · cases h

/-- A search that returns has taken a step. It ends with that step if the movement was small or no
steps are left, and otherwise goes on from where the step led. -/
theorem searchFrom_cases {threshold : α} {left done : Nat} {result : SearchResult α}
    (h : k.searchFrom image count threshold left done line = .ok result) :
    ∃ p movement, k.searchStep image line count = .ok (p, movement) ∧
      (movement < threshold ∧ result = ⟨p, line.centredAt p, done + 1, movement, true⟩ ∨
        ¬ movement < threshold ∧ left = 0 ∧
          result = ⟨(line.centredAt p).centre, line.centredAt p, done + 1, movement, false⟩ ∨
        ¬ movement < threshold ∧ ∃ rest, left = rest + 1 ∧
          k.searchFrom image count threshold rest (done + 1) (line.centredAt p) = .ok result) := by
  unfold searchFrom at h
  obtain ⟨⟨p, movement⟩, hstep, h⟩ := bind_eq_ok.mp h
  refine ⟨p, movement, hstep, ?_⟩
  by_cases hmovement : movement < threshold
  · simp only [hmovement, if_true] at h
    exact Or.inl ⟨hmovement, (Except.ok.inj h).symm⟩
  · simp only [hmovement, if_false] at h
    cases left with
    | zero => exact Or.inr (Or.inl ⟨hmovement, rfl, (Except.ok.inj h).symm⟩)
    | succ rest => exact Or.inr (Or.inr ⟨hmovement, rest, rfl, h⟩)

end

variable {k : Scorer Exact} {strategy : Strategy} {wraps : ℕ}
  (hsampler : k.sampler = .shipped strategy wraps) {image : Raster Exact} {line : Line ℝ}
include hsampler

theorem exists_of_bestPosition {window : ℤ} {p : Point Exact}
    (h : k.bestPosition image (.ofReal line) window = .ok p) :
    ∃ r, p = .ofReal (line.slid r).middle := by
  obtain ⟨scores, hscores, hchoose⟩ := bind_eq_ok.mp h
  rcases choose_cases hchoose with rfl | ⟨steps, hposition⟩
  · exact ⟨0, by rw [Line.slid_zero, Line.centre_ofReal]⟩
  · obtain ⟨⟨band, hband⟩, hcount, -, -⟩ := searchable hsampler hscores
    obtain ⟨t, -, ht⟩ := Sampler.exists_sampleLine_shipped hsampler band hcount line
    have hone : window ≠ 1 := by
      rintro rfl
      simp [Sampler.stepPosition, hband] at hposition
    rw [Sampler.stepPosition_span hband ht hone] at hposition
    exact ⟨_, by rw [Line.middle_slid, Except.ok.inj hposition]⟩

theorem exists_of_searchStep {window : ℤ} {p : Point Exact} {movement : Exact}
    (h : k.searchStep image (.ofReal line) window = .ok (p, movement)) :
    ∃ r, p = .ofReal (line.slid r).middle ∧
      (Line.ofReal line).centredAt p = .ofReal (line.slid r) := by
  obtain ⟨q, hq, h⟩ := bind_eq_ok.mp h
  obtain ⟨measured, -, h⟩ := bind_eq_ok.mp h
  cases h
  obtain ⟨r, rfl⟩ := exists_of_bestPosition hsampler hq
  refine ⟨r, rfl, ?_⟩
  rw [Line.centredAt_ofReal, Line.middle_slid, Line.slid]

theorem searchFrom_follows {window : ℤ} {threshold : Exact} {left done : ℕ}
    {result : SearchResult Exact}
    (h : k.searchFrom image window threshold left done (.ofReal line) = .ok result) :
    done + 1 ≤ result.steps ∧ result.steps ≤ done + 1 + left ∧ result.Follows line := by
  -- On the steps that are left: both ways to end have taken one, and going on leaves one less.
  induction left using Nat.strong_induction_on generalizing done line with
  | _ left ih =>
    obtain ⟨p, movement, hstep, hcases⟩ := searchFrom_cases h
    obtain ⟨r, hp, hline⟩ := exists_of_searchStep hsampler hstep
    rw [hline] at hcases
    rcases hcases with ⟨-, rfl⟩ | ⟨-, rfl, rfl⟩ | ⟨-, rest, rfl, hrest⟩
    · exact ⟨le_rfl, Nat.le_add_right _ _, r, rfl, hp⟩
    · exact ⟨le_rfl, le_rfl, r, rfl, Line.centre_ofReal _⟩
    · obtain ⟨hlow, hhigh, hfollows⟩ := ih rest (Nat.lt_succ_self rest) hrest
      exact ⟨by omega, by omega, hfollows.trans⟩

theorem refine_follows {config : SearchConfig Exact} {result : SearchResult Exact}
    (h : k.refine config image (.ofReal line) = .ok result) :
    1 ≤ result.steps ∧ result.steps ≤ config.stepLimit ∧ result.Follows line := by
  unfold refine at h
  split_ifs at h with hlimit
  obtain ⟨hlow, hhigh, hfollows⟩ := searchFrom_follows hsampler h
  exact ⟨by omega, by omega, hfollows⟩

end Scorer

section

variable {α : Type} [Scalar α] [LinearAlgebra α] {s : Session α} {config : SearchConfig α}
  {image : Raster α} {line : Line α}

namespace ModelM

omit [LinearAlgebra α] in
theorem run_learnImage_cases (image : Raster α) (line : Line α) (s : Session α) :
    (∃ e, (learnImage image line).run s = .error e s) ∨
      ∃ statistics journal, (learnImage image line).run s =
        .ok () ⟨{ s.model with statistics, derived? := none }, journal⟩ := by
  cases hprofile : s.model.sampler.profile image line s.model.footprint with
  | error e => exact Or.inl ⟨e, by simp [learnImage, hprofile]⟩
  | ok profile =>
    cases hadd : s.model.statistics.add profile with
    | error e => exact Or.inl ⟨e, by simp [learnImage, learn, hprofile, hadd]⟩
    | ok statistics =>
      refine Or.inr ⟨statistics, s.journal.push (.modelUpdated statistics.count), ?_⟩
      simp [learnImage, learn, hprofile, hadd]

/-- A frame that cannot be searched ends the work on it, and one that cannot be learned has been
searched all the same. In both cases the model is as it was but for derived values. -/
theorem run_track_cases (config : SearchConfig α) (image : Raster α) (line : Line α)
    (s : Session α) :
    (∃ e t, (track config image line).run s = .error e t ∧ ∃ asked, t.model = s.model.kept asked) ∨
      ∃ result learned t, (track config image line).run s = .ok (result, learned) t ∧
        s.model.scorer.refine config image line = .ok result ∧
        t.model.sampler = s.model.sampler ∧
        ∀ e, learned = .error e → ∃ asked, t.model = s.model.kept asked := by
  obtain ⟨asked, journal, hrefine⟩ := yields_refine config image line s
  cases hresult : s.model.scorer.refine config image line with
  | error e =>
    rw [hresult] at hrefine
    refine Or.inl ⟨e, ⟨s.model.kept asked, journal⟩, ?_, asked, rfl⟩
    rw [track, EStateM.run_bind, hrefine]
    rfl
  | ok result =>
    rw [hresult] at hrefine
    rcases run_learnImage_cases image result.line ⟨s.model.kept asked, journal⟩ with
      ⟨e, hlearn⟩ | ⟨statistics, later, hlearn⟩
    · refine Or.inr ⟨result, .error e, ⟨s.model.kept asked, journal⟩, ?_, rfl,
        s.model.sampler_kept asked, fun _ _ => ⟨asked, rfl⟩⟩
      rw [track, EStateM.run_bind, hrefine]
      simp only [ending, EStateM.run_bind, run_attempt, hlearn]
      rfl
    · refine Or.inr ⟨result, .ok (), ⟨{ s.model.kept asked with statistics, derived? := none },
        later⟩, ?_, rfl, s.model.sampler_kept asked, fun e he => by cases he⟩
      rw [track, EStateM.run_bind, hrefine]
      simp only [ending, EStateM.run_bind, run_attempt, hlearn]
      rfl

end ModelM

/-- The lines of a tracking run over some frames, the first one included. A frame in which the
search fails leaves the line where it is. -/
def Session.course : Session α → Line α → List (SearchConfig α × Raster α) → List (Line α)
  | _, line, [] => [line]
  | s, line, (config, image) :: rest =>
    line :: match (ModelM.track config image line).run s with
      | .ok (result, _) t => t.course result.line rest
      | .error _ t => t.course line rest

end

section

variable [LinearAlgebra Exact] {s : Session Exact} {strategy : Strategy} {wraps : ℕ}

theorem Session.exists_slid_of_mem_course (hsampler : s.model.sampler = .shipped strategy wraps)
    {frames : List (SearchConfig Exact × Raster Exact)} {line : Line ℝ} {l : Line Exact}
    (h : l ∈ s.course (.ofReal line) frames) : ∃ r, l = .ofReal (line.slid r) := by
  induction frames generalizing s line with
  | nil => exact ⟨0, by rw [Line.slid_zero, List.mem_singleton.mp h]⟩
  | cons frame rest ih =>
    obtain ⟨config, image⟩ := frame
    simp only [course] at h
    rcases List.mem_cons.mp h with rfl | h
    · exact ⟨0, by rw [Line.slid_zero]⟩
    rcases ModelM.run_track_cases config image (.ofReal line) s with
      ⟨e, t, hrun, asked, hsame⟩ | ⟨result, learned, t, hrun, hresult, hsame, -⟩
    · simp only [hrun] at h
      refine ih ?_ h
      rw [hsame, Model.sampler_kept, hsampler]
    · simp only [hrun] at h
      obtain ⟨-, -, r, hline, -⟩ := Scorer.refine_follows hsampler hresult
      rw [hline] at h
      obtain ⟨q, rfl⟩ := ih (hsame.trans hsampler) h
      exact ⟨r + q, by rw [Line.slid_slid]⟩

/-- Where a search ends that returns, and where a line can get in a tracking run. -/
theorem lines_keep_course (hsampler : s.model.sampler = .shipped strategy wraps) (line : Line ℝ) :
    (∀ config image result t, (ModelM.refine config image (.ofReal line)).run s = .ok result t →
      1 ≤ result.steps ∧ result.steps ≤ config.stepLimit ∧ result.point = result.line.centre ∧
      result.line.finish.x - result.line.start.x =
        (Line.ofReal line).finish.x - (Line.ofReal line).start.x ∧
      result.line.finish.y - result.line.start.y =
        (Line.ofReal line).finish.y - (Line.ofReal line).start.y ∧
      ∃ r : ℝ, result.line =
        (Line.ofReal line).translated (r * line.vector.1 : ℝ) (r * line.vector.2 : ℝ)) ∧
    (∀ config image result e t,
      (ModelM.track config image (.ofReal line)).run s = .ok (result, .error e) t →
      t.model.statistics = s.model.statistics) ∧
    ∀ frames, ∀ l ∈ s.course (.ofReal line) frames,
      (∃ r : ℝ, l = (Line.ofReal line).translated (r * line.vector.1 : ℝ) (r * line.vector.2 : ℝ)) ∧
      l.length = (Line.ofReal line).length := by
  refine ⟨?_, ?_, ?_⟩
  · intro config image result t hrun
    obtain ⟨asked, hyields⟩ := ModelM.yields_refine config image (.ofReal line) s
    obtain ⟨hresult, -⟩ := hyields.of_run_ok hrun
    obtain ⟨hlow, hhigh, r, hline, hpoint⟩ := Scorer.refine_follows hsampler hresult
    obtain ⟨hx, hy⟩ := line.extent_slid r
    rw [hpoint, hline, Line.centre_ofReal]
    exact ⟨hlow, hhigh, rfl, hx, hy, r, line.ofReal_slid r⟩
  · intro config image result e t hrun
    rcases ModelM.run_track_cases config image (.ofReal line) s with
      ⟨e', t', hrun', -⟩ | ⟨result', learned, t', hrun', -, -, hfailed⟩
    · rw [hrun] at hrun'
      cases hrun'
    · rw [hrun] at hrun'
      cases hrun'
      obtain ⟨asked, hsame⟩ := hfailed e rfl
      rw [hsame, Model.statistics_kept]
  · intro frames l hl
    obtain ⟨r, rfl⟩ := Session.exists_slid_of_mem_course hsampler hl
    exact ⟨⟨r, line.ofReal_slid r⟩, line.length_slid r⟩

end

/-- The search for a bar moves the line by a quarter of its length. -/
theorem lines_keep_course_of_bar :
    let xs : List (Fin 3 → ℝ) := [![1 / 4, 1 / 2, 1 / 4]]
    let m : Model Exact :=
      ⟨3, by decide, .shipped .nearest 1, 1, .ofLength 3 (.ofSample xs), none⟩
    let line : Line ℝ := ⟨⟨0, 0⟩, ⟨4, 0⟩⟩
    let image : Raster Exact := ⟨[1, 5], fun index =>
      ([1, 2, 1, 0, 0].map Exact.finite).getD (index.getD 1 0) 0⟩
    let config : SearchConfig Exact := ⟨5, 1, 10⟩
    ∃ result t, (ModelM.refine config image (.ofReal line)).run m.start = .ok result t ∧
      result.point = .ofReal ⟨1, 0⟩ ∧ 1 ≤ result.steps ∧ result.steps ≤ (10 : ℤ) ∧
      ∃ r : ℝ, result.line = (Line.ofReal line).translated (r * 4 : ℝ) (r * 0 : ℝ) := by
  intro xs m line image config
  have hxs : xs ≠ [] := by simp [xs]
  have hlearned : m.Learned (xs.map Exact.ofReals) :=
    ⟨Statistics.ofVectors_ofReals hxs, fun d hd => by cases hd⟩
  have hmean : Sample.mean xs = ![1 / 4, 1 / 2, 1 / 4] := by simp [xs, Sample.mean]
  obtain ⟨w, hw, hfirst, hcentre⟩ := exists_window_of_bar
  rw [← hmean] at hfirst hcentre
  obtain ⟨steps, -, movement, hrefine⟩ := hlearned.refine_of_first (k := 1) (N := 5) hxs
    Sampler.nearest_pointwise rfl rfl rfl hw
    (show 0 < config.threshold from Exact.coe_lt_coe.mpr one_pos) rfl (by decide) hfirst (by simp)
    hcentre (u := (1, 0)) direction_of_bar
  obtain ⟨asked, journal, hrun⟩ := ModelM.yields_refine config image (.ofReal line) m.start
  obtain ⟨hsearch, -, -⟩ :=
    lines_keep_course (show m.start.model.sampler = .shipped .nearest 1 from rfl) line
  have hscorer : m.start.model.scorer = m.scorer := rfl
  rw [hscorer, hrefine] at hrun
  obtain ⟨hlow, hhigh, -, -, -, r, hline⟩ := hsearch _ _ _ _ hrun
  refine ⟨_, _, hrun, ?_, hlow, hhigh, r, ?_⟩
  · norm_num [Line.middle, Point.stepped]
  · simpa [line, Line.vector] using hline

end Transect
