import Transect.Proofs.RealLookups
import Transect.Proofs.Trained

/-!
# Exact matches

A window may hold samples that a model knows exactly: normalized, they are its mean. The search then
goes to the first of them in at most two steps, or stays where it is if they lie in the centre, and
from there it does not move any more.
-/
namespace Transect

section

variable {α : Type} [Scalar α]

theorem getElem?_of_least {xs : List α} {i : Nat} {x : α} (h : least xs = some (i, x)) :
    xs[i]? = some x := by
  induction xs generalizing i x with
  | nil => cases h
  | cons y ys ih =>
    cases hrest : least ys with
    | none =>
      rw [least, hrest] at h
      cases h
      rfl
    | some best =>
      obtain ⟨j, z⟩ := best
      simp only [least, hrest] at h
      split at h
      · cases h
        exact ih hrest
      · cases h
        rfl

end

/-- A number that is as small as all others, and the first of those that are. -/
structure FirstLeast (xs : List Exact) (i : ℕ) (x : Exact) : Prop where
  value_at : xs[i]? = some x
  minimal : ∀ y ∈ xs, x ≤ y
  leftmost : ∀ j < i, ∀ y, xs[j]? = some y → x < y

theorem exists_firstLeast {xs : List Exact} (hne : xs ≠ [])
    (hdefined : ∀ x ∈ xs, (x == x) = true) :
    ∃ i x, least xs = some (i, x) ∧ FirstLeast xs i x := by
  induction xs with
  | nil => exact absurd rfl hne
  | cons x rest ih =>
    obtain ⟨hx, hrest⟩ := List.forall_mem_cons.mp hdefined
    have hself : x ≤ x := Exact.le_of_not_lt hx hx (Exact.not_lt_self x)
    have hfirst : (∀ y ∈ rest, x ≤ y) → FirstLeast (x :: rest) 0 x := fun hmin =>
      ⟨rfl, List.forall_mem_cons.mpr ⟨hself, hmin⟩, fun j hj => absurd hj (Nat.not_lt_zero j)⟩
    by_cases hnil : rest = []
    · subst hnil
      exact ⟨0, x, rfl, hfirst (List.forall_mem_nil _)⟩
    · obtain ⟨i, y, hleast, hy⟩ := ih hnil hrest
      have hdefined := hrest y (List.mem_of_getElem? hy.value_at)
      by_cases hlt : y < x
      · refine ⟨i + 1, y, by simp [least, hleast, hx, hlt], hy.value_at, ?_, ?_⟩
        · exact List.forall_mem_cons.mpr
            ⟨Exact.le_of_not_lt hdefined hx (Exact.not_lt_of_lt hlt), hy.minimal⟩
        · intro j hj z hz
          cases j with
          | zero => exact Option.some.inj hz ▸ hlt
          | succ j => exact hy.leftmost j (Nat.lt_of_succ_lt_succ hj) z hz
      · refine ⟨0, x, by simp [least, hleast, hx, hlt, hdefined], hfirst fun z hz => ?_⟩
        exact Exact.le_trans (Exact.le_of_not_lt hx hdefined hlt) (hy.minimal z hz)

theorem FirstLeast.unique {xs : List Exact} {i j : ℕ} {x y : Exact} (h : FirstLeast xs i x)
    (h' : FirstLeast xs j y) : i = j ∧ x = y := by
  have hxy := h.minimal y (List.mem_of_getElem? h'.value_at)
  have hyx := h'.minimal x (List.mem_of_getElem? h.value_at)
  have hplace : i = j := le_antisymm
    (not_lt.mp fun hlt => Exact.not_lt_of_le hyx (h.leftmost j hlt y h'.value_at))
    (not_lt.mp fun hlt => Exact.not_lt_of_le hxy (h'.leftmost i hlt x h.value_at))
  subst hplace
  exact ⟨rfl, Option.some.inj (h.value_at.symm.trans h'.value_at)⟩

theorem FirstLeast.least_eq {xs : List Exact} {i : ℕ} {x : Exact} (h : FirstLeast xs i x)
    (hdefined : ∀ x ∈ xs, (x == x) = true) : least xs = some (i, x) := by
  obtain ⟨j, y, hleast, hfirst⟩ :=
    exists_firstLeast (List.ne_nil_of_mem (List.mem_of_getElem? h.value_at)) hdefined
  obtain ⟨rfl, rfl⟩ := h.unique hfirst
  exact hleast

variable {D : ℕ}

/-- At some offset the samples of a window are a multiple of a profile. -/
def Window.Matches (w : Window Exact) (n : ℕ) (v : Fin D → ℝ) (i : ℕ) : Prop :=
  i + n ≤ w.length ∧ normalize (w.part n i) = .ok (Exact.ofReals v)

theorem Window.Matches.length_eq {w : Window Exact} {n i : ℕ} {v : Fin D → ℝ}
    (h : w.Matches n v i) : w.bands.length * n = D := by
  obtain ⟨hi, hprofile⟩ := h
  rw [← w.length_part hi, ← length_normalize hprofile, Exact.length_ofReals]

theorem centre_offset {n k N : ℕ} (hn : n = 2 * k + 1) (hN : N = 4 * k + 1) :
    ((N : ℤ) - n).fdiv 2 = k := by
  rw [Int.fdiv_eq_ediv_of_nonneg _ (by decide)]
  omega

/-- Where the footprint at an offset has its centre, in a window of twice its width but for one
sample. -/
theorem Line.centroid_footprint {line : Line ℝ} {u : ℝ × ℝ}
    (hu : (ofReal line).direction = ((u.1 : Exact), (u.2 : Exact))) {n k N i : ℕ}
    (hn : n = 2 * k + 1) (hN : N = 4 * k + 1) (hi : i + n ≤ N) :
    Point.centroid (((((ofReal line).unitSteps N).positions N).drop i).take n) =
      .ofReal (line.middle.stepped u ((i : ℝ) - k)) := by
  have hpos : 0 < n := by omega
  have hcentre : -(((N : ℝ) - 1) / 2) + i + ((n : ℝ) - 1) / 2 = (i : ℝ) - k := by
    rw [hn, hN]
    push_cast
    ring
  rw [positions_unitSteps hu, Point.take_drop_steps _ _ _ hi, Point.centroid_steps _ _ _ hpos,
    hcentre]

theorem Window.Matches.exists_first {w : Window Exact} {n k : ℕ} {v : Fin D → ℝ}
    (h : w.Matches n v k) : ∃ i, w.Matches n v i ∧ ∀ j < i, ¬ w.Matches n v j := by
  classical
  have hexists : ∃ i, w.Matches n v i := ⟨k, h⟩
  exact ⟨Nat.find hexists, Nat.find_spec hexists, fun j hj => Nat.find_min hexists hj⟩

namespace Sampler.Pointwise

variable {inner s : Sampler Exact} {value : Raster Exact → Point Exact → Exact}
  (hinner : inner.Pointwise value) (hs : s = unitStep inner) {image : Raster Exact} {line : Line ℝ}
  {N : ℕ} {w : Window Exact} (hw : s.window image (.ofReal line) N = .ok w)
include hinner hs hw

/-- What can be searched has a first band, and is sampled along the line of unit steps. -/
theorem exists_sampleLine : ∃ band, image.band 0 = .ok band ∧
    s.sampleLine (.ofReal line) band N = (Line.ofReal line).unitSteps N := by
  obtain ⟨bands, hbands, hne, -⟩ := of_window_eq_ok hw
  obtain ⟨band, hband⟩ := Raster.exists_band_zero hbands hne
  refine ⟨band, hband, ?_⟩
  rw [hs]
  exact hinner.sampleLine _ band N

variable {u : ℝ × ℝ} (hu : (Line.ofReal line).direction = ((u.1 : Exact), (u.2 : Exact)))
include hu

theorem exists_reads : w.length = N ∧ ∃ bands,
    w.Reads bands value (line.middle.steps u (-(((N : ℝ) - 1) / 2)) N) ∧
    ∀ p : Point ℝ, ∃ v, s.window image (.ofReal (line.movedTo p)) N = .ok v ∧
      v.length = N ∧ v.Reads bands value (p.steps u (-(((N : ℝ) - 1) / 2)) N) := by
  rw [hs] at hw ⊢
  obtain ⟨bands, hbands, hne, hall⟩ := hinner.window_unitStep hw
  obtain ⟨v, hv, hlength, hreads⟩ := hall (.ofReal line)
  have hvw : v = w := Except.ok.inj (hv.symm.trans hw)
  rw [hvw] at hlength hreads
  rw [Int.toNat_natCast, Line.positions_unitSteps hu] at hreads
  refine ⟨hlength, bands, hreads, fun p => ?_⟩
  obtain ⟨v, hv, hlength, hreads⟩ := hall (.ofReal (line.movedTo p))
  have hmoved := (line.direction_movedTo p).trans hu
  rw [Int.toNat_natCast, Line.positions_unitSteps hmoved, Line.middle_movedTo] at hreads
  exact ⟨v, hv, hlength, hreads⟩

/-- Moved by as many steps as the match lies off the centre, the line passes through its positions
in the centre. -/
theorem matches_movedTo {n i k : ℕ} {v : Fin D → ℝ} (hk : k + n ≤ N) (hmatch : w.Matches n v i) :
    ∃ moved, s.window image
        (.ofReal (line.movedTo (line.middle.stepped u ((i : ℝ) - k)))) N = .ok moved ∧
      moved.Matches n v k := by
  obtain ⟨hlength, bands, hreads, hall⟩ := hinner.exists_reads hs hw hu
  obtain ⟨moved, hmoved, hmovedLength, hmovedReads⟩ :=
    hall (line.middle.stepped u ((i : ℝ) - k))
  obtain ⟨hi, hprofile⟩ := hmatch
  refine ⟨moved, hmoved, by omega, ?_⟩
  have hshift : (i : ℝ) - k + (-(((N : ℝ) - 1) / 2) + k) = -(((N : ℝ) - 1) / 2) + i := by ring
  rw [← hprofile, hreads.part, hmovedReads.part, Point.take_drop_steps _ _ _ hk,
    Point.take_drop_steps _ _ _ (by omega), Point.steps_stepped, hshift]

end Sampler.Pointwise

namespace Scorer

variable {k : Scorer Exact} {image : Raster Exact} {line : Line ℝ} {window : ℤ}
  (hstep : k.searchStep image (.ofReal line) window = .ok (.ofReal line.middle, 0))
include hstep

theorem searchFrom_of_stay {threshold : Exact} (hthreshold : 0 < threshold) (left done : ℕ) :
    k.searchFrom image window threshold left done (.ofReal line) =
      .ok ⟨.ofReal line.middle, .ofReal line, done + 1, 0, true⟩ := by
  unfold searchFrom
  rw [hstep, ok_bind]
  simp only [Line.centredAt_ofReal, Line.movedTo_middle, hthreshold, if_true]
  rfl

theorem refine_of_stay {config : SearchConfig Exact} (hwindow : config.window = window)
    (hlimit : 1 ≤ config.stepLimit) (hthreshold : 0 < config.threshold) :
    k.refine config image (.ofReal line) = .ok ⟨.ofReal line.middle, .ofReal line, 1, 0, true⟩ := by
  rw [refine, if_neg (by omega), hwindow]
  exact searchFrom_of_stay hstep hthreshold _ 0

end Scorer

section

variable [LinearAlgebra Exact]

namespace Model.Rates

variable {m : Model Exact} {mean : Fin D → ℝ} {samples : List Exact} {x : Exact}

theorem cases (h : m.Rates mean samples x) :
    x = Scalar.inf ∧ normalize samples ≠ .ok (Exact.ofReals mean) ∨
      ∃ r : ℝ, x = r ∧ 0 ≤ r ∧ (r = 0 ↔ normalize samples = .ok (Exact.ofReals mean)) := by
  unfold Rates at h
  cases hprofile : normalize samples with
  | error e =>
    rw [hprofile] at h
    exact Or.inl ⟨h, nofun⟩
  | ok profile =>
    rw [hprofile] at h
    obtain ⟨-, r, hr, hnonneg, hzero⟩ := h
    exact Or.inr ⟨r, hr, hnonneg, hzero.trans (by simp)⟩

theorem beq_self (h : m.Rates mean samples x) : (x == x) = true := by
  rcases h.cases with ⟨rfl, -⟩ | ⟨r, rfl, -⟩
  · rfl
  · simp

theorem not_lt_zero (h : m.Rates mean samples x) : ¬ x < 0 := by
  rcases h.cases with ⟨rfl, -⟩ | ⟨r, rfl, hnonneg, -⟩
  · exact Exact.not_inf_lt_coe 0
  · rw [← Exact.coe_zero, Exact.coe_lt_coe]
    exact not_lt.mpr hnonneg

theorem eq_zero (h : m.Rates mean samples x)
    (hmatch : normalize samples = .ok (Exact.ofReals mean)) : x = 0 := by
  rcases h.cases with ⟨-, hne⟩ | ⟨r, rfl, -, hzero⟩
  · exact absurd hmatch hne
  · rw [hzero.mpr hmatch, Exact.coe_zero]

theorem zero_lt (h : m.Rates mean samples x)
    (hmatch : normalize samples ≠ .ok (Exact.ofReals mean)) : 0 < x := by
  rcases h.cases with ⟨rfl, -⟩ | ⟨r, rfl, hnonneg, hzero⟩
  · exact Exact.coe_lt_inf 0
  · rw [← Exact.coe_zero, Exact.coe_lt_coe]
    exact lt_of_le_of_ne hnonneg fun h => hmatch (hzero.mp h.symm)

theorem beq_zero (h : m.Rates mean samples x)
    (hmatch : normalize samples ≠ .ok (Exact.ofReals mean)) : (x == 0) = false := by
  rcases h.cases with ⟨rfl, -⟩ | ⟨r, rfl, -, hzero⟩
  · exact Exact.inf_beq_coe 0
  · rw [← Exact.coe_zero, Exact.coe_beq_coe]
    exact decide_eq_false fun h => hmatch (hzero.mp h)

end Model.Rates

namespace Model.Learned

variable [LawfulInverse] {xs : List (Fin D → ℝ)} {m : Model Exact}
  (h : m.Learned (xs.map Exact.ofReals)) (hxs : xs ≠ []) {image : Raster Exact} {line : Line Exact}
  {count : ℤ} {w : Window Exact} (hw : m.sampler.window image line count = .ok w) {k i : ℕ}
  (hk : k + m.footprint ≤ w.length) (hfirst : w.Matches m.footprint (Sample.mean xs) i)
  (hbefore : ∀ j < i, ¬ w.Matches m.footprint (Sample.mean xs) j)
include h hxs hw hk hfirst hbefore

theorem exists_scores : ∃ scores x, m.scorer.scoreWindowImage image line count = .ok scores ∧
    least scores = some (i, 0) ∧ (axisIndex? scores.length (k : ℤ)).bind (scores[·]?) = some x ∧
    m.Rates (Sample.mean xs) (w.part m.footprint k) x := by
  have hi := hfirst.1
  obtain ⟨scores, hscores, hlength, hall⟩ := h.exists_scoreWindow hxs hfirst.length_eq (by omega)
  have hrated : ∀ {j y}, scores[j]? = some y → j + m.footprint ≤ w.length ∧
      m.Rates (Sample.mean xs) (w.part m.footprint j) y := fun hy =>
    h.rates_of_scoreWindow hxs hfirst.length_eq hscores hy
  have hmem : ∀ y ∈ scores, ∃ j, scores[j]? = some y := fun y hy => List.mem_iff_getElem?.mp hy
  obtain ⟨x, hx, hrates⟩ := hall i hi
  obtain ⟨c, hc, hcentre⟩ := hall k hk
  refine ⟨scores, c, ?_, ?_, ?_, hcentre⟩
  · exact (Scorer.scoreWindowImage_of_window (k := m.scorer) hw).trans hscores
  · rw [hrates.eq_zero hfirst.2] at hx
    have hdefined : ∀ y ∈ scores, (y == y) = true := by
      intro y hy
      obtain ⟨j, hj⟩ := hmem y hy
      exact (hrated hj).2.beq_self
    refine FirstLeast.least_eq ⟨hx, fun y hy => ?_, fun j hj y hy => ?_⟩ hdefined
    · obtain ⟨j, hj⟩ := hmem y hy
      exact Exact.le_of_not_lt (hdefined 0 (List.mem_of_getElem? hx)) (hdefined y hy)
        (hrated hj).2.not_lt_zero
    · obtain ⟨hwithin, hrates⟩ := hrated hy
      exact hrates.zero_lt fun hmatch => hbefore j hj ⟨hwithin, hmatch⟩
  · rw [axisIndex?_natCast (List.getElem?_eq_some_iff.mp hc).1]
    exact hc

variable (hoffset : (count - m.footprint).fdiv 2 = k)
include hoffset

theorem bestPosition_of_centre (hcentre : w.Matches m.footprint (Sample.mean xs) k) :
    m.scorer.bestPosition image line count = .ok line.centre := by
  obtain ⟨scores, x, hscores, hleast, hx, hrates⟩ := h.exists_scores hxs hw hk hfirst hbefore
  have hbest : (x == (0 : Exact)) = true := by
    rw [hrates.eq_zero hcentre.2]
    exact Exact.coe_beq_coe.trans (decide_eq_true rfl)
  have hfootprint : m.scorer.footprint = m.footprint := rfl
  simp only [Scorer.bestPosition, hscores, ok_bind, Scorer.choose, hfootprint, hoffset, hleast, hx,
    hbest, if_true]

theorem bestPosition_of_first (hcentre : ¬ w.Matches m.footprint (Sample.mean xs) k) :
    m.scorer.bestPosition image line count =
      m.sampler.stepPosition image line count ((i : ℤ) + k) := by
  obtain ⟨scores, x, hscores, hleast, hx, hrates⟩ := h.exists_scores hxs hw hk hfirst hbefore
  have hbest : (x == (0 : Exact)) = false := hrates.beq_zero fun hmatch => hcentre ⟨hk, hmatch⟩
  have hfootprint : m.scorer.footprint = m.footprint := rfl
  simp only [Scorer.bestPosition, hscores, ok_bind, Scorer.choose, hfootprint, hoffset, hleast, hx,
    hbest, Bool.false_eq_true, if_false]
  rfl

end Model.Learned

namespace Model.Learned

variable [LawfulInverse] {xs : List (Fin D → ℝ)} {m : Model Exact}
  (h : m.Learned (xs.map Exact.ofReals)) (hxs : xs ≠ []) {inner : Sampler Exact}
  {value : Raster Exact → Point Exact → Exact} (hinner : inner.Pointwise value)
  (hsampler : m.sampler = .unitStep inner) {k N : ℕ} (hfootprint : m.footprint = 2 * k + 1)
  (hN : N = 4 * k + 1) {image : Raster Exact} {line : Line ℝ} {w : Window Exact}
  (hw : m.sampler.window image (.ofReal line) N = .ok w) {config : SearchConfig Exact}
  (hthreshold : 0 < config.threshold) (hwindow : config.window = N)
include h hxs hinner hsampler hfootprint hN hw

theorem searchStep_of_centre (hcentre : w.Matches m.footprint (Sample.mean xs) k) :
    m.scorer.searchStep image (.ofReal line) N = .ok (.ofReal line.middle, 0) := by
  obtain ⟨band, hband, hline⟩ := hinner.exists_sampleLine hsampler hw
  obtain ⟨u, hu⟩ := line.exists_direction
  obtain ⟨i, hfirst, hbefore⟩ := hcentre.exists_first
  have hposition := h.bestPosition_of_centre hxs hw hcentre.1 hfirst hbefore
    (centre_offset hfootprint hN) hcentre
  have hmovement : m.scorer.sampler.movement image (.ofReal line) N (.ofReal line.middle) =
      .ok 0 := Sampler.movement_span hband (hline.trans (Line.unitSteps_ofReal hu N))
  rw [Scorer.searchStep, hposition, ok_bind, Line.centre_ofReal, hmovement]
  rfl

theorem searchStep_of_first {i : ℕ} (hfirst : w.Matches m.footprint (Sample.mean xs) i)
    (hbefore : ∀ j < i, ¬ w.Matches m.footprint (Sample.mean xs) j)
    (hcentre : ¬ w.Matches m.footprint (Sample.mean xs) k) {u : ℝ × ℝ}
    (hu : (Line.ofReal line).direction = ((u.1 : Exact), (u.2 : Exact))) :
    ∃ movement, m.scorer.searchStep image (.ofReal line) N =
      .ok (.ofReal (line.middle.stepped u ((i : ℝ) - k)), movement) := by
  obtain ⟨band, hband, hline⟩ := hinner.exists_sampleLine hsampler hw
  have hlength := (hinner.exists_reads hsampler hw hu).1
  have hi := hfirst.1
  have hcount : (N : ℤ) ≠ 1 := by
    intro hone
    have hik : i = k := by omega
    rw [hik] at hfirst
    exact hcentre hfirst
  have hposition := h.bestPosition_of_first hxs hw (by omega) hfirst hbefore
    (centre_offset hfootprint hN) hcentre
  have hsteps : (((i : ℤ) + k : ℤ) : ℝ) - (((N : ℤ) : ℝ) - 1) / 2 = (i : ℝ) - k := by
    rw [hN]
    push_cast
    ring
  rw [Sampler.stepPosition_unitSteps hband hline hu hcount, hsteps] at hposition
  have hmovement : ∀ p, m.scorer.sampler.movement image (.ofReal line) N p =
      .ok ((m.sampler.sampleLine (.ofReal line) band N).movement p) := by
    intro p
    rw [Sampler.movement, hband]
    rfl
  rw [Scorer.searchStep, hposition, ok_bind, hmovement]
  exact ⟨_, rfl⟩

include hthreshold

theorem searchFrom_of_first {i : ℕ} (hfirst : w.Matches m.footprint (Sample.mean xs) i)
    (hbefore : ∀ j < i, ¬ w.Matches m.footprint (Sample.mean xs) j)
    (hcentre : ¬ w.Matches m.footprint (Sample.mean xs) k) {u : ℝ × ℝ}
    (hu : (Line.ofReal line).direction = ((u.1 : Exact), (u.2 : Exact))) (left done : ℕ) :
    ∃ steps ≤ done + 2, ∃ movement,
      m.scorer.searchFrom image N config.threshold (left + 1) done (.ofReal line) =
        .ok ⟨.ofReal (line.middle.stepped u ((i : ℝ) - k)),
          .ofReal (line.movedTo (line.middle.stepped u ((i : ℝ) - k))), steps, movement, true⟩ := by
  obtain ⟨movement, hstep⟩ :=
    h.searchStep_of_first hxs hinner hsampler hfootprint hN hw hfirst hbefore hcentre hu
  unfold Scorer.searchFrom
  rw [hstep, ok_bind]
  simp only [Line.centredAt_ofReal]
  by_cases hmovement : movement < config.threshold
  · simp only [hmovement, if_true]
    exact ⟨done + 1, by omega, movement, rfl⟩
  · simp only [hmovement, if_false]
    have hk : k + m.footprint ≤ N := by omega
    obtain ⟨moved, hmoved, hmatch⟩ := hinner.matches_movedTo hsampler hw hu hk hfirst
    have hheld := Scorer.searchFrom_of_stay
      (h.searchStep_of_centre hxs hinner hsampler hfootprint hN hmoved hmatch) hthreshold left
      (done + 1)
    rw [Line.middle_movedTo] at hheld
    exact ⟨done + 2, le_rfl, 0, hheld⟩

include hwindow

theorem refine_of_first (hlimit : 2 ≤ config.stepLimit) {i : ℕ}
    (hfirst : w.Matches m.footprint (Sample.mean xs) i)
    (hbefore : ∀ j < i, ¬ w.Matches m.footprint (Sample.mean xs) j)
    (hcentre : ¬ w.Matches m.footprint (Sample.mean xs) k) {u : ℝ × ℝ}
    (hu : (Line.ofReal line).direction = ((u.1 : Exact), (u.2 : Exact))) :
    ∃ steps ≤ 2, ∃ movement, m.scorer.refine config image (.ofReal line) =
      .ok ⟨.ofReal (line.middle.stepped u ((i : ℝ) - k)),
        .ofReal (line.movedTo (line.middle.stepped u ((i : ℝ) - k))), steps, movement, true⟩ := by
  obtain ⟨left, hleft⟩ : ∃ left, config.stepLimit.toNat - 1 = left + 1 :=
    ⟨config.stepLimit.toNat - 2, by omega⟩
  rw [Scorer.refine, if_neg (by omega), hwindow, hleft]
  exact h.searchFrom_of_first hxs hinner hsampler hfootprint hN hw hthreshold hfirst hbefore
    hcentre hu left 0

end Model.Learned

theorem ModelM.exists_run_refine {s : Session Exact} {config : SearchConfig Exact}
    {image : Raster Exact} {line next : Line Exact} {result again : SearchResult Exact}
    (hresult : s.model.scorer.refine config image line = .ok result)
    (hagain : s.model.scorer.refine config image next = .ok again) :
    ∃ t u, (refine config image line).run s = .ok result t ∧
      (refine config image next).run t = .ok again u := by
  obtain ⟨asked, journal, hrun⟩ := yields_refine config image line s
  rw [hresult] at hrun
  obtain ⟨asked', journal', hrun'⟩ := yields_refine config image next ⟨s.model.kept asked, journal⟩
  rw [Model.scorer_kept, hagain] at hrun'
  exact ⟨_, _, hrun, hrun'⟩

/-- A search whose window holds an exact match ends at the first one, or at the centre if that is
one, and a search that starts there stays there. -/
theorem refine_exact_match [LawfulInverse] {inner : Sampler Exact}
    (hinner : inner = .nearest ∨ inner = .interpolated) {s : Session Exact}
    (hsampler : s.model.sampler = .unitStep inner) (hodd : Odd s.model.footprint)
    {xs : List (Fin D → ℝ)} (hxs : xs ≠ []) (hlearned : s.model.Learned (xs.map Exact.ofReals))
    {config : SearchConfig Exact} (hwindow : config.window = 2 * s.model.footprint - 1)
    (hlimit : 2 ≤ config.stepLimit) (hthreshold : 0 < config.threshold) {image : Raster Exact}
    {line : Line ℝ} {w : Window Exact}
    (hw : s.model.sampler.window image (.ofReal line) config.window = .ok w)
    (hmatch : ∃ i, w.Matches s.model.footprint (Sample.mean xs) i) :
    ∃ result t, (ModelM.refine config image (.ofReal line)).run s = .ok result t ∧
      result.converged = true ∧ result.steps ≤ 2 ∧
      (w.Matches s.model.footprint (Sample.mean xs) ((s.model.footprint - 1) / 2) →
        result.point = (Line.ofReal line).centre) ∧
      (¬ w.Matches s.model.footprint (Sample.mean xs) ((s.model.footprint - 1) / 2) →
        ∀ i, w.Matches s.model.footprint (Sample.mean xs) i →
          (∀ j < i, ¬ w.Matches s.model.footprint (Sample.mean xs) j) →
          let positions := ((Line.ofReal line).unitSteps config.window).positions
            config.window.toNat
          result.point = .centroid ((positions.drop i).take s.model.footprint)) ∧
      result.line = (Line.ofReal line).centredAt result.point ∧
      ∃ again u, (ModelM.refine config image result.line).run t = .ok again u ∧
        again.point = result.point ∧ again.line = result.line ∧ again.movement = 0 := by
  obtain ⟨k, hfootprint⟩ := hodd
  have hmiddle : (s.model.footprint - 1) / 2 = k := by omega
  have hN : config.window = (4 * k + 1 : ℕ) := by omega
  obtain ⟨value, hvalue⟩ := Sampler.exists_pointwise hinner
  rw [hN] at hw
  rw [hmiddle, hN, Int.toNat_natCast]
  -- Without a match in the centre the first step leads to the first match, and has it there then.
  by_cases hcentre : w.Matches s.model.footprint (Sample.mean xs) k
  · have hrefine := Scorer.refine_of_stay
      (hlearned.searchStep_of_centre hxs hvalue hsampler hfootprint rfl hw hcentre) hN (by omega)
      hthreshold
    obtain ⟨t, u, hrun, hagain⟩ := ModelM.exists_run_refine hrefine hrefine
    refine ⟨_, t, hrun, rfl, by simp, ?_, ?_, ?_, _, u, hagain, rfl, rfl, rfl⟩
    · intro _
      exact line.centre_ofReal.symm
    · intro hno
      exact absurd hcentre hno
    · simp only [Line.centredAt_ofReal, Line.movedTo_middle]
  · obtain ⟨u, hu⟩ := line.exists_direction
    obtain ⟨j, hj⟩ := hmatch
    obtain ⟨i, hfirst, hbefore⟩ := hj.exists_first
    obtain ⟨steps, hsteps, movement, hrefine⟩ := hlearned.refine_of_first hxs hvalue hsampler
      hfootprint rfl hw hthreshold hN hlimit hfirst hbefore hcentre hu
    have hk : k + s.model.footprint ≤ 4 * k + 1 := by omega
    obtain ⟨moved, hmoved, hheld⟩ := hvalue.matches_movedTo hsampler hw hu hk hfirst
    have hstay := Scorer.refine_of_stay
      (hlearned.searchStep_of_centre hxs hvalue hsampler hfootprint rfl hmoved hheld) hN (by omega)
      hthreshold
    rw [Line.middle_movedTo] at hstay
    obtain ⟨t, v, hrun, hagain⟩ := ModelM.exists_run_refine hrefine hstay
    refine ⟨_, t, hrun, rfl, hsteps, ?_, ?_, ?_, _, v, hagain, rfl, rfl, rfl⟩
    · intro hyes
      exact absurd hyes hcentre
    · intro _ j hj hleast
      have hfind : j = i := by
        rcases lt_trichotomy j i with hlt | heq | hgt
        · exact absurd hj (hbefore j hlt)
        · exact heq
        · exact absurd hfirst (hleast i hgt)
      have hlength := (hvalue.exists_reads hsampler hw hu).1
      have hwithin := hfirst.1
      rw [hfind]
      exact (Line.centroid_footprint hu hfootprint rfl (by omega)).symm
    · simp only [Line.centredAt_ofReal]

end

theorem direction_of_bar :
    (Line.ofReal ⟨⟨0, 0⟩, ⟨4, 0⟩⟩).direction = (((1 : ℝ) : Exact), ((0 : ℝ) : Exact)) := by
  rw [Line.direction_ofReal _ (show (0 : ℝ) ≤ 4 by norm_num) (by norm_num),
    if_neg (by norm_num)]
  norm_num

/-- A window along five pixels, of which the first three are a bar: it is there at the first offset,
and not at the second. -/
theorem exists_window_of_bar :
    let image : Raster Exact := ⟨[1, 5], fun index =>
      ([1, 2, 1, 0, 0].map Exact.finite).getD (index.getD 1 0) 0⟩
    ∃ w, (Sampler.unitStep .nearest).window image (.ofReal ⟨⟨0, 0⟩, ⟨4, 0⟩⟩) 5 = .ok w ∧
      w.Matches 3 ![1 / 4, 1 / 2, 1 / 4] 0 ∧ ¬ w.Matches 3 ![1 / 4, 1 / 2, 1 / 4] 1 := by
  intro image
  have hpositions : ((Line.ofReal ⟨⟨0, 0⟩, ⟨4, 0⟩⟩).unitSteps 5).positions 5 =
      (List.range 5).map fun i : ℕ => .ofReal ⟨(i : ℝ), (0 : ℕ)⟩ := by
    refine (Line.positions_unitSteps (u := (1, 0)) direction_of_bar 5).trans
      (List.map_congr_left fun i _ => ?_)
    norm_num [Line.middle, Point.stepped]
  have hsamples : ∀ band ∈ [image], (Sampler.unitStep .nearest).samples
      (.ofReal ⟨⟨0, 0⟩, ⟨4, 0⟩⟩) band 5 = .ok ([1, 2, 1, 0, 0].map Exact.finite) := by
    intro band hband
    rw [List.mem_singleton.mp hband]
    change Sampler.nearest.samples ((Line.ofReal ⟨⟨0, 0⟩, ⟨4, 0⟩⟩).unitSteps 5) image 5 = _
    rw [Sampler.samples_nearest (p := ⟨1, 5, fun row column => image.cell [row, column]⟩) rfl
      (by decide), if_neg (by simp [Plane.isEmpty])]
    have hpixels : ∀ i ∈ List.range 5, Sampler.look Plane.nearest image
        (.ofReal ⟨(i : ℝ), (0 : ℕ)⟩) = image.cell [0, i] := by
      intro i hi
      exact Plane.nearest_natCast (p := ⟨1, 5, fun row column => image.cell [row, column]⟩)
        Nat.one_pos (List.mem_range.mp hi) (by decide) (by decide)
    change Except.ok (List.map _ (((Line.ofReal ⟨⟨0, 0⟩, ⟨4, 0⟩⟩).unitSteps 5).positions 5)) = _
    rw [hpositions, List.map_map]
    exact congrArg Except.ok (List.map_congr_left hpixels)
  obtain ⟨w, hw, hlength, hbands⟩ := Sampler.window_eq_ok (Raster.bands_of_two rfl)
    (List.cons_ne_nil image []) hsamples fun _ _ => rfl
  have hpart : ∀ i, w.part 3 i = (([1, 2, 1, 0, 0].drop i).take 3).map Exact.finite := by
    intro i
    simp [Window.part, hbands, List.map_drop, List.map_take]
  refine ⟨w, hw, ⟨by simp [hlength], ?_⟩, ?_⟩
  · rw [hpart, normalize_finite (by norm_num)]
    norm_num [Exact.ofReals, List.ofFn_succ]
  · rintro ⟨-, h⟩
    rw [hpart, normalize_finite (by norm_num)] at h
    norm_num [Exact.ofReals, List.ofFn_succ] at h

/-- A bar of three pixels at the left end of five, and a line centred on the third pixel. -/
theorem refine_exact_match_of_bar :
    let xs : List (Fin 3 → ℝ) := [![1 / 4, 1 / 2, 1 / 4]]
    let m : Model Exact := ⟨3, by decide, .unitStep .nearest, 1, .ofLength 3 (.ofSample xs), none⟩
    let image : Raster Exact := ⟨[1, 5], fun index =>
      ([1, 2, 1, 0, 0].map Exact.finite).getD (index.getD 1 0) 0⟩
    let config : SearchConfig Exact := ⟨5, 1, 10⟩
    ∃ result t, (ModelM.refine config image (.ofReal ⟨⟨0, 0⟩, ⟨4, 0⟩⟩)).run m.start =
        .ok result t ∧ result.converged = true ∧ result.point = .ofReal ⟨1, 0⟩ ∧
      ∃ again u, (ModelM.refine config image result.line).run t = .ok again u ∧
        again.point = result.point ∧ again.movement = 0 := by
  intro xs m image config
  have hxs : xs ≠ [] := by simp [xs]
  have hlearned : m.Learned (xs.map Exact.ofReals) :=
    ⟨Statistics.ofVectors_ofReals hxs, fun d hd => by cases hd⟩
  have hmean : Sample.mean xs = ![1 / 4, 1 / 2, 1 / 4] := by simp [xs, Sample.mean]
  obtain ⟨w, hw, hfirst, hcentre⟩ := exists_window_of_bar
  rw [← hmean] at hfirst hcentre
  obtain ⟨result, t, hrun, hconverged, -, -, hpoint, -, again, u, hagain, hsame, -, hmovement⟩ :=
    refine_exact_match (Or.inl rfl) (s := m.start) rfl (show Odd 3 by decide) hxs hlearned
      (show config.window = 2 * (m.footprint : ℤ) - 1 from rfl)
      (show (2 : ℤ) ≤ 10 by decide) (Exact.coe_lt_coe.mpr one_pos) hw ⟨0, hfirst⟩
  refine ⟨result, t, hrun, hconverged, ?_, again, u, hagain, hsame, hmovement⟩
  have hfootprint : m.start.model.footprint = 3 := rfl
  rw [hfootprint] at hpoint
  rw [hpoint hcentre 0 hfirst (by simp)]
  refine (Line.centroid_footprint (u := (1, 0)) (n := 3) (k := 1) (N := 5) (i := 0)
    direction_of_bar rfl rfl (by decide)).trans ?_
  norm_num [Line.middle, Point.stepped]

end Transect
