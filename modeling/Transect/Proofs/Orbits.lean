import Transect.Proofs.Movements

/-!
# The orbit of a line

Along which lines a search would go is settled before it is told when to stop: each step leads from
one line to the next. A search ends with the first step that moves the line by less than the
threshold, with the last step it may take, or with the first one that fails. So a search that has
not converged can be gone on with from the line that it got to, and nothing is lost.
-/
namespace Transect

/-- What one step finds: a position, how far it lies from the centre of the window, and the line
moved to it. -/
structure Stride (α : Type) where
  point : Point α
  movement : α
  line : Line α

/-- A result that comes after some other steps. -/
def SearchResult.after {α : Type} (steps : Nat) (r : SearchResult α) : SearchResult α :=
  { r with steps := r.steps + steps }

section

variable {α : Type} [Scalar α] [LinearAlgebra α]

namespace Session

variable (s : Session α) (image : Raster α) (window : Int) (line : Line α)

def stride : Except (Failure α) (Stride α) := do
  let point ← (ModelM.bestPosition image line window).answer s
  let movement ← s.model.movement image line window point
  return ⟨point, movement, line.centredAt point⟩

/-- The line after some steps that have all been taken, whatever they were like. -/
def orbit : Nat → Except (Failure α) (Line α)
  | 0 => .ok line
  | k + 1 => do return (← s.stride image window (← orbit k)).line

def strideAfter (k : Nat) : Except (Failure α) (Stride α) := do
  s.stride image window (← s.orbit image window line k)

/-- The step after `k` others moves the line by less than a threshold. -/
def Hits (threshold : α) (k : Nat) : Prop :=
  ∃ t, s.strideAfter image window line k = .ok t ∧ t.movement < threshold

variable {s image window line} {threshold : α} {k left done : Nat} {t : Stride α} {l : Line α}
  {e : Failure α}

theorem orbit_succ (k : Nat) :
    s.orbit image window line (k + 1) = (s.strideAfter image window line k).map Stride.line := by
  rw [orbit, strideAfter]
  cases s.orbit image window line k with
  | error e => rfl
  | ok l =>
    simp only [ok_bind]
    cases s.stride image window l <;> rfl

theorem orbit_succ_of_stride (h : s.strideAfter image window line k = .ok t) :
    s.orbit image window line (k + 1) = .ok t.line := by
  rw [orbit_succ, h, Except.map]

theorem strideAfter_of_orbit_error (h : s.orbit image window line (k + 1) = .error e) :
    s.strideAfter image window line k = .error e := by
  rw [orbit_succ] at h
  cases hstride : s.strideAfter image window line k with
  | error e' =>
    rw [hstride] at h
    cases h
    rfl
  | ok t =>
    rw [hstride] at h
    cases h

theorem searchFrom_eq (s : Session α) (image : Raster α) (window : Int) (threshold : α)
    (left done : Nat) (line : Line α) :
    s.model.scorer.searchFrom image window threshold left done line =
      (s.stride image window line >>= fun t =>
        if t.movement < threshold then .ok ⟨t.point, t.line, done + 1, t.movement, true⟩
        else match left with
          | 0 => .ok ⟨t.line.centre, t.line, done + 1, t.movement, false⟩
          | left + 1 =>
            s.model.scorer.searchFrom image window threshold left (done + 1) t.line) := by
  rw [stride, (ModelM.yields_bestPosition image line window s).answer_eq]
  rw [Scorer.searchFrom.eq_def]
  dsimp only [Scorer.searchStep, Model.movement]
  cases s.model.scorer.bestPosition image line window with
  | error e => rfl
  | ok p =>
    simp only [ok_bind, Model.scorer]
    cases s.model.sampler.movement image line window p with
    | error e => rfl
    | ok movement => rfl

theorem searchFrom_of_error (h : s.stride image window line = .error e) :
    s.model.scorer.searchFrom image window threshold left done line = .error e := by
  rw [searchFrom_eq, h, error_bind]

theorem searchFrom_of_hit (h : s.stride image window line = .ok t) (hhit : t.movement < threshold) :
    s.model.scorer.searchFrom image window threshold left done line =
      .ok ⟨t.point, t.line, done + 1, t.movement, true⟩ := by
  rw [searchFrom_eq, h, ok_bind, if_pos hhit]

theorem searchFrom_of_last (h : s.stride image window line = .ok t)
    (hmiss : ¬ t.movement < threshold) :
    s.model.scorer.searchFrom image window threshold 0 done line =
      .ok ⟨t.line.centre, t.line, done + 1, t.movement, false⟩ := by
  rw [searchFrom_eq, h, ok_bind, if_neg hmiss]

theorem searchFrom_of_miss (h : s.stride image window line = .ok t)
    (hmiss : ¬ t.movement < threshold) :
    s.model.scorer.searchFrom image window threshold (left + 1) done line =
      s.model.scorer.searchFrom image window threshold left (done + 1) t.line := by
  rw [searchFrom_eq, h, ok_bind, if_neg hmiss]

/-- A search goes along the orbit as long as no step is a hit. -/
theorem searchFrom_skip (hl : s.orbit image window line k = .ok l)
    (hmiss : ∀ j < k, ¬ s.Hits image window line threshold j) :
    s.model.scorer.searchFrom image window threshold (left + k) done line =
      s.model.scorer.searchFrom image window threshold left (done + k) l := by
  -- On the steps that are skipped, of which the last is taken off.
  induction k generalizing left l with
  | zero =>
    cases hl
    rfl
  | succ k ih =>
    obtain ⟨before, hbefore, h⟩ := bind_eq_ok.mp hl
    obtain ⟨t, hstride, h⟩ := bind_eq_ok.mp h
    cases h
    have hlast : ¬ t.movement < threshold := fun hlt =>
      hmiss k (Nat.lt_succ_self k) ⟨t, by rw [strideAfter, hbefore, ok_bind, hstride], hlt⟩
    have hrest : s.model.scorer.searchFrom image window threshold (left + 1 + k) done line = _ :=
      ih hbefore fun j hj => hmiss j (hj.trans (Nat.lt_succ_self k))
    rw [show left + (k + 1) = left + 1 + k by omega, hrest, searchFrom_of_miss hstride hlast]
    rfl

/-- The first failure is that of the search, unless there is a hit before. -/
theorem searchFrom_of_strideAfter_error (h : s.strideAfter image window line k = .error e)
    (hmiss : ∀ j < k, ¬ s.Hits image window line threshold j) :
    s.model.scorer.searchFrom image window threshold (left + k) done line = .error e := by
  induction k generalizing left with
  | zero => exact searchFrom_of_error h
  | succ k ih =>
    cases hl : s.orbit image window line (k + 1) with
    | error e' =>
      have hsame : e' = e := by
        rw [strideAfter, hl] at h
        exact Except.error.inj h
      rw [show left + (k + 1) = left + 1 + k by omega]
      exact ih (hsame ▸ strideAfter_of_orbit_error hl) fun j hj =>
        hmiss j (hj.trans (Nat.lt_succ_self k))
    | ok l =>
      rw [strideAfter, hl, ok_bind] at h
      rw [searchFrom_skip hl hmiss, searchFrom_of_error h]

/-- Steps that were taken before are counted and change nothing else. -/
theorem searchFrom_after (n : Nat) :
    s.model.scorer.searchFrom image window threshold left (done + n) line =
      (s.model.scorer.searchFrom image window threshold left done line).map (.after n) := by
  induction left generalizing done line with
  | zero =>
    rw [searchFrom_eq, searchFrom_eq, Nat.add_right_comm]
    cases s.stride image window line with
    | error e => rfl
    | ok t =>
      simp only [ok_bind]
      split_ifs <;> rfl
  | succ left ih =>
    rw [searchFrom_eq, searchFrom_eq, Nat.add_right_comm]
    cases s.stride image window line with
    | error e => rfl
    | ok t =>
      simp only [ok_bind, ih]
      split_ifs <;> rfl

theorem stride_of_searchStep {p : Point α} {movement : α}
    (h : s.model.scorer.searchStep image line window = .ok (p, movement)) :
    s.stride image window line = .ok ⟨p, movement, line.centredAt p⟩ := by
  obtain ⟨q, hq, h⟩ := bind_eq_ok.mp h
  obtain ⟨measured, hmeasured, h⟩ := bind_eq_ok.mp h
  cases h
  rw [stride, (ModelM.yields_bestPosition image line window s).answer_eq, hq, ok_bind]
  exact bind_eq_ok.mpr ⟨_, hmeasured, rfl⟩

variable {config : SearchConfig α} (hlimit : 1 ≤ config.stepLimit)
include hlimit

theorem answer_refine_of_lt (hk : k < config.stepLimit.toNat) :
    ∃ left, config.stepLimit.toNat = left + k + 1 ∧
      (ModelM.refine config image line).answer s =
        s.model.scorer.searchFrom image config.window config.threshold (left + k) 0 line := by
  obtain ⟨left, hleft⟩ := Nat.exists_eq_add_of_lt hk
  have hcount : config.stepLimit.toNat - 1 = left + k := by omega
  refine ⟨left, by omega, ?_⟩
  rw [ModelM.answer_refine, Scorer.refine, if_neg (by omega), hcount]

theorem answer_refine_of_hit (hk : k < config.stepLimit.toNat)
    (h : s.strideAfter image config.window line k = .ok t) (hhit : t.movement < config.threshold)
    (hmiss : ∀ j < k, ¬ s.Hits image config.window line config.threshold j) :
    (ModelM.refine config image line).answer s =
      .ok ⟨t.point, t.line, k + 1, t.movement, true⟩ := by
  obtain ⟨left, -, hanswer⟩ := answer_refine_of_lt hlimit hk
  obtain ⟨l, hl, hstride⟩ := bind_eq_ok.mp h
  rw [hanswer, searchFrom_skip hl hmiss, searchFrom_of_hit hstride hhit, Nat.zero_add]

theorem answer_refine_of_miss (h : s.strideAfter image config.window line
      (config.stepLimit.toNat - 1) = .ok t)
    (hmiss : ∀ j < config.stepLimit.toNat,
      ¬ s.Hits image config.window line config.threshold j) :
    (ModelM.refine config image line).answer s =
      .ok ⟨t.line.centre, t.line, config.stepLimit.toNat, t.movement, false⟩ := by
  have hk : config.stepLimit.toNat - 1 < config.stepLimit.toNat := by omega
  obtain ⟨left, hleft, hanswer⟩ := answer_refine_of_lt hlimit hk
  obtain rfl : left = 0 := by omega
  obtain ⟨l, hl, hstride⟩ := bind_eq_ok.mp h
  rw [hanswer, searchFrom_skip hl fun j hj => hmiss j (hj.trans hk),
    searchFrom_of_last hstride fun hlt => hmiss _ hk ⟨t, h, hlt⟩, Nat.zero_add]
  congr 2
  omega

theorem answer_refine_of_error (hk : k < config.stepLimit.toNat)
    (h : s.strideAfter image config.window line k = .error e)
    (hmiss : ∀ j < k, ¬ s.Hits image config.window line config.threshold j) :
    (ModelM.refine config image line).answer s = .error e := by
  obtain ⟨left, -, hanswer⟩ := answer_refine_of_lt hlimit hk
  rw [hanswer, searchFrom_of_strideAfter_error h hmiss]

theorem refine_cases :
    (∃ k t, k < config.stepLimit.toNat ∧ s.strideAfter image config.window line k = .ok t ∧
      t.movement < config.threshold ∧
      ∀ j < k, ¬ s.Hits image config.window line config.threshold j) ∨
    (∃ k e, k < config.stepLimit.toNat ∧ s.strideAfter image config.window line k = .error e ∧
      ∀ j < config.stepLimit.toNat, ¬ s.Hits image config.window line config.threshold j) ∨
    ∃ t, s.strideAfter image config.window line (config.stepLimit.toNat - 1) = .ok t ∧
      ∀ j < config.stepLimit.toNat, ¬ s.Hits image config.window line config.threshold j := by
  classical
  by_cases hhit : ∃ k, k < config.stepLimit.toNat ∧
      s.Hits image config.window line config.threshold k
  · obtain ⟨hk, t, ht, hlt⟩ := Nat.find_spec hhit
    exact Or.inl ⟨_, t, hk, ht, hlt, fun j hj hits =>
      Nat.find_min hhit hj ⟨hj.trans hk, hits⟩⟩
  · have hmiss : ∀ j < config.stepLimit.toNat,
        ¬ s.Hits image config.window line config.threshold j :=
      fun j hj hits => hhit ⟨j, hj, hits⟩
    cases hlast : s.strideAfter image config.window line (config.stepLimit.toNat - 1) with
    | error e => exact Or.inr (Or.inl ⟨_, e, by omega, hlast, hmiss⟩)
    | ok t => exact Or.inr (Or.inr ⟨t, rfl, hmiss⟩)

/-- A search returns if its steps do, up to the first hit. It has then converged if there is one. -/
theorem answer_refine_eq_ok :
    ((∃ r, (ModelM.refine config image line).answer s = .ok r) ↔
      ∀ k < config.stepLimit.toNat,
        (∀ j < k, ¬ s.Hits image config.window line config.threshold j) →
          ∃ t, s.strideAfter image config.window line k = .ok t) ∧
    ∀ r, (ModelM.refine config image line).answer s = .ok r →
      (r.converged = true ↔ ∃ k < config.stepLimit.toNat,
        s.Hits image config.window line config.threshold k) := by
  refine ⟨⟨fun ⟨r, hr⟩ k hk hmiss => ?_, fun hall => ?_⟩, fun r hr => ?_⟩
  · cases h : s.strideAfter image config.window line k with
    | ok t => exact ⟨t, rfl⟩
    | error e =>
      rw [answer_refine_of_error hlimit hk h hmiss] at hr
      cases hr
  · rcases refine_cases hlimit with
      ⟨k, t, hk, ht, hhit, hmiss⟩ | ⟨k, e, hk, he, hmiss⟩ | ⟨t, ht, hmiss⟩
    · exact ⟨_, answer_refine_of_hit hlimit hk ht hhit hmiss⟩
    · obtain ⟨t, ht⟩ := hall k hk fun j hj => hmiss j (hj.trans hk)
      rw [he] at ht
      cases ht
    · exact ⟨_, answer_refine_of_miss hlimit ht hmiss⟩
  · rcases refine_cases hlimit with
      ⟨k, t, hk, ht, hhit, hmiss⟩ | ⟨k, e, hk, he, hmiss⟩ | ⟨t, ht, hmiss⟩
    · rw [answer_refine_of_hit hlimit hk ht hhit hmiss] at hr
      cases hr
      exact ⟨fun _ => ⟨k, hk, t, ht, hhit⟩, fun _ => rfl⟩
    · rw [answer_refine_of_error hlimit hk he fun j hj => hmiss j (hj.trans hk)] at hr
      cases hr
    · rw [answer_refine_of_miss hlimit ht hmiss] at hr
      cases hr
      exact ⟨nofun, fun ⟨k, hk, hits⟩ => absurd hits (hmiss k hk)⟩

theorem orbit_of_not_converged {r : SearchResult α}
    (hr : (ModelM.refine config image line).answer s = .ok r) (hconverged : r.converged = false) :
    s.orbit image config.window line config.stepLimit.toNat = .ok r.line ∧
      ∀ j < config.stepLimit.toNat, ¬ s.Hits image config.window line config.threshold j := by
  rcases refine_cases hlimit with
    ⟨k, t, hk, ht, hhit, hmiss⟩ | ⟨k, e, hk, he, hmiss⟩ | ⟨t, ht, hmiss⟩
  · rw [answer_refine_of_hit hlimit hk ht hhit hmiss] at hr
    cases hr
    cases hconverged
  · rw [answer_refine_of_error hlimit hk he fun j hj => hmiss j (hj.trans hk)] at hr
    cases hr
  · rw [answer_refine_of_miss hlimit ht hmiss] at hr
    cases hr
    have hnext := orbit_succ_of_stride ht
    rw [Nat.sub_add_cancel (by omega)] at hnext
    exact ⟨hnext, hmiss⟩

omit hlimit in
/-- A search that did not converge is gone on with. -/
theorem answer_refine_split {a b : ℕ} (ha : 1 ≤ a) (hb : 1 ≤ b) (hsum : config.stepLimit = a + b)
    {r : SearchResult α} {u : Session α}
    (hr : (ModelM.refine { config with stepLimit := a } image line).run s = .ok r u)
    (hconverged : r.converged = false) :
    (ModelM.refine config image line).answer s =
      ((ModelM.refine { config with stepLimit := b } image r.line).answer u).map (.after a) := by
  obtain ⟨asked, hyields⟩ := ModelM.yields_refine { config with stepLimit := (a : ℤ) } image line s
  obtain ⟨hresult, hkept⟩ := hyields.of_run_ok hr
  have hscorer : u.model.scorer = s.model.scorer := by rw [hkept, Model.scorer_kept]
  have hfirst : 1 ≤ ({ config with stepLimit := (a : ℤ) } : SearchConfig α).stepLimit :=
    Int.ofNat_le.mpr ha
  obtain ⟨horbit, hmiss⟩ :=
    orbit_of_not_converged hfirst (hyields.answer_eq.trans hresult) hconverged
  rw [Int.toNat_natCast] at horbit hmiss
  have hlimit : 1 ≤ config.stepLimit := by omega
  obtain ⟨left, hleft, hanswer⟩ : ∃ left, _ ∧ (ModelM.refine config image line).answer s = _ :=
    answer_refine_of_lt hlimit (show a < config.stepLimit.toNat by omega)
  have hrest : ((b : ℤ)).toNat - 1 = left := by omega
  rw [hanswer, searchFrom_skip horbit hmiss, searchFrom_after, ModelM.answer_refine, hscorer,
    Scorer.refine, if_neg (show ¬ (b : ℤ) < 1 by omega), hrest]

end Session

end

namespace Session

variable [LinearAlgebra Exact] {s : Session Exact} {image : Raster Exact} {window : ℤ}
  {line : Line Exact} {threshold : Exact} {k : ℕ} {t : Stride Exact}

theorem not_movement_neg (h : s.strideAfter image window line k = .ok t) : ¬ t.movement < 0 := by
  obtain ⟨l, hl, h⟩ := bind_eq_ok.mp h
  obtain ⟨p, hp, h⟩ := bind_eq_ok.mp h
  obtain ⟨movement, hmovement, h⟩ := bind_eq_ok.mp h
  obtain ⟨band, hband, hmovement⟩ := bind_eq_ok.mp hmovement
  cases h
  cases hmovement
  exact Line.not_movement_neg _ _

theorem not_hits_of_not_finite (h : s.strideAfter image window line k = .ok t)
    (hmovement : t.movement = Scalar.inf ∨ t.movement = Scalar.nan) :
    ¬ s.Hits image window line threshold k := by
  rintro ⟨t', ht', hlt⟩
  obtain rfl : t' = t := Except.ok.inj (ht'.symm.trans h)
  rcases hmovement with hinf | hnan
  · exact Exact.not_inf_lt _ (hinf ▸ hlt)
  · exact Exact.not_nan_lt _ (hnan ▸ hlt)

theorem not_hits_of_nonpos (h : threshold ≤ 0) (k : ℕ) :
    ¬ s.Hits image window line threshold k := by
  rintro ⟨t, ht, hlt⟩
  exact not_movement_neg ht (Exact.lt_of_lt_of_le hlt h)

end Session

/-- A search is the first hit of its orbit: it ends with the first step that moves the line by less
than the threshold, with the last step if there is none, and with the first failure before. A search
that has not converged can be cut in two. -/
theorem refine_eq_first_hit :
    (∀ (α : Type) [Scalar α] [LinearAlgebra α] (s : Session α) (config : SearchConfig α)
      (image : Raster α) (line : Line α), 1 ≤ config.stepLimit →
      let limit := config.stepLimit.toNat
      let strideAfter := s.strideAfter image config.window line
      let Hits := s.Hits image config.window line config.threshold
      let answer := (ModelM.refine config image line).answer s
      (∀ k t, k < limit → strideAfter k = .ok t → t.movement < config.threshold →
        (∀ j < k, ¬ Hits j) → answer = .ok ⟨t.point, t.line, k + 1, t.movement, true⟩) ∧
      (∀ t, strideAfter (limit - 1) = .ok t → (∀ j < limit, ¬ Hits j) →
        answer = .ok ⟨t.line.centre, t.line, limit, t.movement, false⟩) ∧
      (∀ k e, k < limit → strideAfter k = .error e → (∀ j < k, ¬ Hits j) → answer = .error e) ∧
      ((∃ r, answer = .ok r) ↔
        ∀ k < limit, (∀ j < k, ¬ Hits j) → ∃ t, strideAfter k = .ok t) ∧
      (∀ r, answer = .ok r → (r.converged = true ↔ ∃ k < limit, Hits k)) ∧
      ∀ (a b : ℕ) r u, 1 ≤ a → 1 ≤ b → config.stepLimit = a + b →
        (ModelM.refine { config with stepLimit := a } image line).run s = .ok r u →
        r.converged = false →
        answer =
          ((ModelM.refine { config with stepLimit := b } image r.line).answer u).map (.after a)) ∧
    ∀ [LinearAlgebra Exact] (s : Session Exact) (config : SearchConfig Exact)
      (image : Raster Exact) (line : Line Exact),
      let Hits := s.Hits image config.window line config.threshold
      (∀ k t, s.strideAfter image config.window line k = .ok t →
        t.movement = Scalar.inf ∨ t.movement = Scalar.nan → ¬ Hits k) ∧
      (config.threshold ≤ 0 → ∀ k, ¬ Hits k) := by
  refine ⟨?_, fun s config image line => ⟨fun k t h hmovement =>
    Session.not_hits_of_not_finite h hmovement, Session.not_hits_of_nonpos⟩⟩
  intro α _ _ s config image line hlimit limit strideAfter Hits answer
  refine ⟨?_, ?_, ?_, (Session.answer_refine_eq_ok hlimit).1,
    (Session.answer_refine_eq_ok hlimit).2, ?_⟩
  · intro k t hk ht hhit hmiss
    exact Session.answer_refine_of_hit hlimit hk ht hhit hmiss
  · intro t ht hmiss
    exact Session.answer_refine_of_miss hlimit ht hmiss
  · intro k e hk he hmiss
    exact Session.answer_refine_of_error hlimit hk he hmiss
  · intro a b r u ha hb hsum hr hfalse
    exact Session.answer_refine_split ha hb hsum hr hfalse

theorem movement_of_bar :
    ((Line.ofReal ⟨⟨0, 0⟩, ⟨4, 0⟩⟩).unitSteps 5).movement (.ofReal ⟨1, 0⟩) =
      ((1 / 2 : ℝ) : Exact) := by
  let bar : Line ℝ := ⟨⟨0, 0⟩, ⟨4, 0⟩⟩
  have hsteps : (Line.ofReal bar).unitSteps 5 = .ofReal bar := by
    rw [Line.unitSteps_ofReal (u := (1, 0)) direction_of_bar, Line.ofReal_inj]
    norm_num [bar, Line.middle, Point.span, Point.stepped]
  have hquarter : bar.start.stepped bar.vector (1 / 4) = ⟨1, 0⟩ := by
    norm_num [bar, Line.vector, Point.stepped]
  have hextent : bar.extent ≠ 0 := by norm_num [bar, Line.extent_level]
  rw [hsteps, ← hquarter, bar.movement_start_stepped, if_neg hextent]
  norm_num

/-- A bar of three pixels at the left end of five, and a line centred on the third pixel. The first
step moves the line by half of its half, and the second finds it in place. A search that may take
one step only stops between both, and the next one takes the second step. -/
theorem refine_eq_first_hit_of_bar :
    let xs : List (Fin 3 → ℝ) := [![1 / 4, 1 / 2, 1 / 4]]
    let m : Model Exact := ⟨3, by decide, .unitStep .nearest, 1, .ofLength 3 (.ofSample xs), none⟩
    let image : Raster Exact := ⟨[1, 5], fun index =>
      ([1, 2, 1, 0, 0].map Exact.finite).getD (index.getD 1 0) 0⟩
    let line : Line Exact := .ofReal ⟨⟨0, 0⟩, ⟨4, 0⟩⟩
    let config : SearchConfig Exact := ⟨5, ((1 / 4 : ℝ) : Exact), 10⟩
    let found : SearchResult Exact :=
      ⟨.ofReal ⟨1, 0⟩, .ofReal ⟨⟨-1, 0⟩, ⟨3, 0⟩⟩, 2, 0, true⟩
    (ModelM.refine config image line).answer m.start = .ok found ∧
      ∃ r u, (ModelM.refine { config with stepLimit := 1 } image line).run m.start = .ok r u ∧
        r.converged = false ∧ r.movement = ((1 / 2 : ℝ) : Exact) ∧
        ((ModelM.refine { config with stepLimit := 9 } image r.line).answer u).map (.after 1) =
          .ok found := by
  intro xs m image line config found
  have hxs : xs ≠ [] := by simp [xs]
  have hlearned : m.Learned (xs.map Exact.ofReals) :=
    ⟨Statistics.ofVectors_ofReals hxs, fun d hd => by cases hd⟩
  have hmean : Sample.mean xs = ![1 / 4, 1 / 2, 1 / 4] := by simp [xs, Sample.mean]
  obtain ⟨w, hw, hfirst, hcentre⟩ := exists_window_of_bar
  rw [← hmean] at hfirst hcentre
  let bar : Line ℝ := ⟨⟨0, 0⟩, ⟨4, 0⟩⟩
  have hpoint : bar.middle.stepped (1, 0) (((0 : ℕ) : ℝ) - (1 : ℕ)) = ⟨1, 0⟩ := by
    norm_num [bar, Line.middle, Point.stepped]
  have hmovedTo : bar.movedTo ⟨1, 0⟩ = ⟨⟨-1, 0⟩, ⟨3, 0⟩⟩ := by
    norm_num [bar, Line.movedTo, Line.middle]
  -- The first step leads to the first offset, and the line is then centred on it.
  obtain ⟨movement, hstep⟩ := hlearned.searchStep_of_first (k := 1) (N := 5) hxs
    Sampler.nearest_pointwise rfl rfl rfl hw hfirst (by simp) hcentre (u := (1, 0)) direction_of_bar
  rw [hpoint] at hstep
  obtain ⟨moved, hmoved, hheld⟩ := Sampler.nearest_pointwise.matches_movedTo rfl hw
    (u := (1, 0)) direction_of_bar (show 1 + 3 ≤ 5 by decide) hfirst
  rw [hpoint, hmovedTo] at hmoved
  have hstay := hlearned.searchStep_of_centre (k := 1) (N := 5) hxs Sampler.nearest_pointwise rfl
    rfl rfl hmoved hheld
  obtain rfl : movement = ((1 / 2 : ℝ) : Exact) := by
    obtain ⟨band, hband, hline⟩ := Sampler.nearest_pointwise.exists_sampleLine rfl hw
    obtain ⟨p, -, h⟩ := bind_eq_ok.mp hstep
    obtain ⟨d, hd, h⟩ := bind_eq_ok.mp h
    cases h
    rw [Sampler.movement, hband, ok_bind] at hd
    exact (Except.ok.inj hd).symm.trans ((congrArg (Line.movement · _) hline).trans movement_of_bar)
  -- The steps of the orbit, of which the second is the first hit.
  have hzeroth : m.start.strideAfter image 5 line 0 =
      .ok ⟨.ofReal ⟨1, 0⟩, ((1 / 2 : ℝ) : Exact), .ofReal ⟨⟨-1, 0⟩, ⟨3, 0⟩⟩⟩ := by
    have hstride := Session.stride_of_searchStep (s := m.start) hstep
    rwa [Line.centredAt_ofReal, hmovedTo] at hstride
  have hsecond : m.start.strideAfter image 5 line 1 =
      .ok ⟨.ofReal ⟨1, 0⟩, 0, .ofReal ⟨⟨-1, 0⟩, ⟨3, 0⟩⟩⟩ := by
    have hstride := Session.stride_of_searchStep (s := m.start) hstay
    have hmiddle : (⟨⟨-1, 0⟩, ⟨3, 0⟩⟩ : Line ℝ).middle = ⟨1, 0⟩ := by norm_num [Line.middle]
    rw [Line.centredAt_ofReal, Line.movedTo_middle, hmiddle] at hstride
    rw [Session.strideAfter, Session.orbit_succ_of_stride hzeroth]
    exact hstride
  have hmiss : ∀ j < 1, ¬ m.start.Hits image 5 line config.threshold j := by
    rintro j hj ⟨t, ht, hlt⟩
    obtain rfl : j = 0 := Nat.lt_one_iff.mp hj
    cases hzeroth.symm.trans ht
    exact absurd (Exact.coe_lt_coe.mp hlt) (by norm_num)
  have hhit : (0 : Exact) < config.threshold := Exact.coe_lt_coe.mpr (by norm_num)
  obtain ⟨hall, -⟩ := refine_eq_first_hit
  obtain ⟨hfirstHit, -, -, -, -, hsplit⟩ :=
    hall Exact m.start config image line (show (1 : ℤ) ≤ 10 by decide)
  obtain ⟨-, hstopped, -⟩ := hall Exact m.start { config with stepLimit := 1 } image line le_rfl
  have hfound := hfirstHit 1 _ (by decide) hsecond hhit hmiss
  obtain ⟨asked, journal, hrun⟩ :=
    ModelM.yields_refine { config with stepLimit := 1 } image line m.start
  rw [← ModelM.answer_refine, hstopped _ hzeroth hmiss] at hrun
  refine ⟨hfound, _, _, hrun, rfl, rfl, ?_⟩
  exact (hsplit 1 9 _ _ le_rfl (by decide) rfl hrun rfl).symm.trans hfound

end Transect
