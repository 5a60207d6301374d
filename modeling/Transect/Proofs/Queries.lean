import Transect.Search

/-!
# Questions as functions

A question to a model changes nothing of it but what it keeps of the derived values. What it answers
is a function of the scorer of the model, and whether the derived values are asked for at all is a
function of the scorer too. Each action has one lemma here that says both.
-/
namespace Transect

variable {α β γ : Type}

@[simp] theorem ok_bind (b : β) (f : β → Except (Failure α) γ) : (.ok b >>= f) = f b := rfl

@[simp] theorem error_bind (e : Failure α) (f : β → Except (Failure α) γ) :
    (.error e >>= f) = .error e := rfl

theorem bind_eq_ok {x : Except (Failure α) β} {f : β → Except (Failure α) γ} {c : γ} :
    (x >>= f) = .ok c ↔ ∃ b, x = .ok b ∧ f b = .ok c := by
  cases x <;> simp

/-- What answers depend on. The derived values come with the reason why there are none. -/
structure Scorer (α : Type) where
  footprint : Nat
  sampler : Sampler α
  derived : Except (Failure α) (Derived α)

variable [Scalar α]

def Window.scorable (w : Window α) (n i : Nat) : Bool := (normalize (w.part n i)).isOk

namespace Scorer

def score (k : Scorer α) (profile : List α) : Except (Failure α) α := do
  (← k.derived).distance profile

def scoreImage (k : Scorer α) (image : Raster α) (line : Line α) : Except (Failure α) α := do
  k.score (← k.sampler.profile image line k.footprint)

def scoreOffset (k : Scorer α) (w : Window α) (i : Nat) : Except (Failure α) α := do
  let samples := w.part k.footprint i
  let total := Scalar.sum samples
  if total == 0 || !Scalar.isFinite total then return Scalar.inf
  else k.score (← normalize samples)

/-- The normalization does not fail where it is asked for. -/
theorem scoreOffset_eq_match (k : Scorer α) (w : Window α) (i : Nat) :
    k.scoreOffset w i = match normalize (w.part k.footprint i) with
      | .ok profile => k.score profile
      | .error _ => .ok Scalar.inf := by
  unfold scoreOffset normalize divisor
  dsimp only
  cases Scalar.sum (w.part k.footprint i) == 0 ||
    !Scalar.isFinite (Scalar.sum (w.part k.footprint i)) <;> rfl

def scoreWindow (k : Scorer α) (w : Window α) : Except (Failure α) (List α) :=
  if w.length < k.footprint then .error (.windowTooShort w.length k.footprint)
  else (List.range (w.length - k.footprint + 1)).mapM (k.scoreOffset w)

def scoreWindowImage (k : Scorer α) (image : Raster α) (line : Line α) (count : Int) :
    Except (Failure α) (List α) := do
  k.scoreWindow (← k.sampler.window image line count)

/-- The position that a list of scores stands for. -/
def choose (k : Scorer α) (image : Raster α) (line : Line α) (count : Int) (scores : List α) :
    Except (Failure α) (Point α) :=
  let offset := (count - k.footprint).fdiv 2
  match least scores, (axisIndex? scores.length offset).bind (scores[·]?) with
  | some (i, best), some centred =>
    if centred == best then .ok line.centre
    else k.sampler.stepPosition image line count (i + offset)
  | _, _ => .error (.centreNotScored offset scores.length)

def bestPosition (k : Scorer α) (image : Raster α) (line : Line α) (count : Int) :
    Except (Failure α) (Point α) := do
  k.choose image line count (← k.scoreWindowImage image line count)

def searchStep (k : Scorer α) (image : Raster α) (line : Line α) (window : Int) :
    Except (Failure α) (Point α × α) := do
  let point ← k.bestPosition image line window
  let movement ← k.sampler.movement image line window point
  return (point, movement)

def searchFrom (k : Scorer α) (image : Raster α) (window : Int) (threshold : α) :
    (left done : Nat) → Line α → Except (Failure α) (SearchResult α)
  | left, done, line => do
    let (point, movement) ← k.searchStep image line window
    let line := line.centredAt point
    if movement < threshold then return ⟨point, line, done + 1, movement, true⟩
    else match left with
      | 0 => return ⟨line.centre, line, done + 1, movement, false⟩
      | left + 1 => k.searchFrom image window threshold left (done + 1) line

def refine (k : Scorer α) (config : SearchConfig α) (image : Raster α) (line : Line α) :
    Except (Failure α) (SearchResult α) :=
  if config.stepLimit < 1 then .error (.iterationsBelowOne config.stepLimit)
  else k.searchFrom image config.window config.threshold (config.stepLimit.toNat - 1) 0 line

theorem scoreWindowImage_of_window {k : Scorer α} {image : Raster α} {line : Line α} {count : Int}
    {w : Window α} (hw : k.sampler.window image line count = .ok w) :
    k.scoreWindowImage image line count = k.scoreWindow w := by
  rw [scoreWindowImage, hw, ok_bind]

/-! Offsets that cannot be normalized are scored without the derived values. -/

/-- What comes after a failure asks for nothing. -/
def asksAfter (r : Except (Failure α) β) (asks : β → Bool) : Bool :=
  match r with
  | .ok b => asks b
  | .error _ => false

def asksImage (k : Scorer α) (image : Raster α) (line : Line α) : Bool :=
  asksAfter (k.sampler.profile image line k.footprint) fun _ => true

def asksWindow (k : Scorer α) (w : Window α) : Bool :=
  decide (k.footprint ≤ w.length) &&
    (List.range (w.length - k.footprint + 1)).any (w.scorable k.footprint)

def asksWindowImage (k : Scorer α) (image : Raster α) (line : Line α) (count : Int) : Bool :=
  asksAfter (k.sampler.window image line count) k.asksWindow

/-- A search that goes on asks again with each of its steps. -/
def asksFrom (k : Scorer α) (image : Raster α) (window : Int) (threshold : α) :
    (left : Nat) → Line α → Bool
  | left, line => k.asksWindowImage image line window ||
    asksAfter (k.searchStep image line window) fun (point, movement) =>
      if movement < threshold then false
      else match left with
        | 0 => false
        | left + 1 => k.asksFrom image window threshold left (line.centredAt point)

def asksRefine (k : Scorer α) (config : SearchConfig α) (image : Raster α) (line : Line α) : Bool :=
  if config.stepLimit < 1 then false
  else k.asksFrom image config.window config.threshold (config.stepLimit.toNat - 1) line

/-- Windows along the same line are scored alike, and positions along it are the same. Nothing else
of an image counts in a search. -/
structure SearchesAlike (k l : Scorer α) (image image' : Raster α) : Prop where
  footprint : l.footprint = k.footprint
  scores : ∀ line count, l.scoreWindowImage image' line count = k.scoreWindowImage image line count
  asks : ∀ line count, l.asksWindowImage image' line count = k.asksWindowImage image line count
  position : ∀ line count steps, l.sampler.stepPosition image' line count steps =
    k.sampler.stepPosition image line count steps
  movement : ∀ line count p, l.sampler.movement image' line count p =
    k.sampler.movement image line count p

namespace SearchesAlike

variable {k l : Scorer α} {image image' : Raster α} (h : SearchesAlike k l image image')
include h

theorem bestPosition (line : Line α) (count : Int) :
    l.bestPosition image' line count = k.bestPosition image line count := by
  have hchoose : l.choose image' line count = k.choose image line count := by
    funext scores
    simp only [choose, h.footprint, h.position]
  rw [Scorer.bestPosition, Scorer.bestPosition, h.scores, hchoose]

theorem searchStep (line : Line α) (window : Int) :
    l.searchStep image' line window = k.searchStep image line window := by
  rw [Scorer.searchStep, Scorer.searchStep, h.bestPosition]
  simp only [h.movement]

theorem searchFrom (window : Int) (threshold : α) (left done : Nat) (line : Line α) :
    l.searchFrom image' window threshold left done line =
      k.searchFrom image window threshold left done line := by
  induction left generalizing done line with
  | zero =>
    unfold Scorer.searchFrom
    rw [h.searchStep]
  | succ left ih =>
    unfold Scorer.searchFrom
    simp only [h.searchStep, ih]

theorem asksFrom (window : Int) (threshold : α) (left : Nat) (line : Line α) :
    l.asksFrom image' window threshold left line = k.asksFrom image window threshold left line := by
  induction left generalizing line with
  | zero =>
    unfold Scorer.asksFrom
    rw [h.searchStep, h.asks]
  | succ left ih =>
    unfold Scorer.asksFrom
    simp only [h.searchStep, h.asks, ih]

theorem refine (config : SearchConfig α) (line : Line α) :
    l.refine config image' line = k.refine config image line ∧
      l.asksRefine config image' line = k.asksRefine config image line := by
  simp only [Scorer.refine, Scorer.asksRefine, h.searchFrom, h.asksFrom, and_self]

end SearchesAlike

end Scorer

variable [LinearAlgebra α]

namespace Model

/-- What the model answers with if the derived values are asked for. -/
def derivation (m : Model α) : Except (Failure α) (Derived α) :=
  match m.derived? with
  | some d => .ok d
  | none => m.derive

def scorer (m : Model α) : Scorer α := ⟨m.footprint, m.sampler, m.derivation⟩

/-- The model after a question that may have asked for the derived values. -/
def kept (m : Model α) (asked : Bool) : Model α :=
  if asked then { m with derived? := m.derivation.toOption } else m

@[simp] theorem kept_false (m : Model α) : m.kept false = m := rfl

@[simp] theorem footprint_kept (m : Model α) (asked : Bool) :
    (m.kept asked).footprint = m.footprint := by
  cases asked <;> rfl

@[simp] theorem sampler_kept (m : Model α) (asked : Bool) :
    (m.kept asked).sampler = m.sampler := by
  cases asked <;> rfl

@[simp] theorem statistics_kept (m : Model α) (asked : Bool) :
    (m.kept asked).statistics = m.statistics := by
  cases asked <;> rfl

@[simp] theorem conditionLimit_kept (m : Model α) (asked : Bool) :
    (m.kept asked).conditionLimit = m.conditionLimit := by
  cases asked <;> rfl

@[simp] theorem derivation_kept (m : Model α) (asked : Bool) :
    (m.kept asked).derivation = m.derivation := by
  cases asked with
  | false => rfl
  | true =>
    cases hd : m.derived? with
    | some d => simp [kept, derivation, hd, Except.toOption]
    | none =>
      cases he : m.derive with
      | ok d => simp [kept, derivation, hd, he, Except.toOption]
      | error e =>
        have hsame : ({ m with derived? := none } : Model α).derive = m.derive := rfl
        simp [kept, derivation, hd, he, Except.toOption, hsame]

@[simp] theorem scorer_kept (m : Model α) (asked : Bool) : (m.kept asked).scorer = m.scorer := by
  simp [scorer]

theorem kept_of_some {m : Model α} {d : Derived α} (h : m.derived? = some d) (asked : Bool) :
    m.kept asked = m := by
  have hsame : m.derivation.toOption = m.derived? := by simp [derivation, h, Except.toOption]
  cases asked with
  | false => rfl
  | true => simp only [kept, if_true, hsame]

theorem kept_of_error {m : Model α} {e : Failure α} (h : m.derivation = .error e) (asked : Bool) :
    m.kept asked = m := by
  cases hd : m.derived? with
  | some d => exact kept_of_some hd asked
  | none =>
    cases asked with
    | false => rfl
    | true => simp only [kept, if_true, h, Except.toOption, ← hd]

theorem kept_kept (m : Model α) (asked again : Bool) :
    (m.kept asked).kept again = m.kept (asked || again) := by
  cases again with
  | false => simp
  | true =>
    have h := m.derivation_kept asked
    cases asked with
    | false => rfl
    | true =>
      simp only [kept, if_true] at h
      simp [kept, h]

end Model

namespace ModelM

/-- How an action ends that gives an answer, or fails, in a session. -/
def ending (answer : Except (Failure α) β) (s : Session α) :
    EStateM.Result (Failure α) (Session α) β :=
  match answer with
  | .ok b => .ok b s
  | .error e => .error e s

/-- What an action answers and whether it asks for the derived values. Besides those it leaves
nothing but entries in the journal. -/
def Yields (x : ModelM α β) (s : Session α) (answer : Except (Failure α) β) (asked : Bool) : Prop :=
  ∃ journal, x.run s = ending answer ⟨s.model.kept asked, journal⟩

def answer (x : ModelM α β) (s : Session α) : Except (Failure α) β :=
  match x.run s with
  | .ok b _ => .ok b
  | .error e _ => .error e

variable {s : Session α} {x : ModelM α β} {f : β → ModelM α γ} {asked again : Bool}

theorem Yields.answer_eq {r : Except (Failure α) β} (h : x.Yields s r asked) : x.answer s = r := by
  obtain ⟨journal, hrun⟩ := h
  cases r <;> simp [answer, hrun, ending]

theorem Yields.of_run_ok {r : Except (Failure α) β} (h : x.Yields s r asked) {b : β}
    {t : Session α} (hrun : x.run s = .ok b t) : r = .ok b ∧ t.model = s.model.kept asked := by
  obtain ⟨journal, hyields⟩ := h
  rw [hrun] at hyields
  cases r with
  | error e => cases hyields
  | ok c =>
    cases hyields
    exact ⟨rfl, rfl⟩

theorem yields_pure (b : β) (s : Session α) : (pure b : ModelM α β).Yields s (.ok b) false :=
  ⟨s.journal, rfl⟩

theorem yields_lift (r : Except (Failure α) β) (s : Session α) : (lift r).Yields s r false := by
  cases r <;> exact ⟨s.journal, rfl⟩

theorem yields_report (e : Event α) (s : Session α) : (report e).Yields s (.ok ()) false :=
  ⟨_, rfl⟩

theorem Yields.bind_exists {b : β} {answer : Except (Failure α) γ}
    (hx : x.Yields s (.ok b) asked)
    (hf : ∀ t : Session α, t.model = s.model.kept asked → ∃ again, (f b).Yields t answer again) :
    ∃ again, (x >>= f).Yields s answer again := by
  obtain ⟨journal, hrun⟩ := hx
  obtain ⟨again, later, hlater⟩ := hf ⟨s.model.kept asked, journal⟩ rfl
  refine ⟨asked || again, later, ?_⟩
  rw [EStateM.run_bind, hrun, ← Model.kept_kept]
  exact hlater

theorem Yields.bind {b : β} {answer : Except (Failure α) γ} (hx : x.Yields s (.ok b) asked)
    (hf : ∀ t : Session α, t.model = s.model.kept asked → (f b).Yields t answer again) :
    (x >>= f).Yields s answer (asked || again) := by
  obtain ⟨journal, hrun⟩ := hx
  obtain ⟨later, hlater⟩ := hf ⟨s.model.kept asked, journal⟩ rfl
  refine ⟨later, ?_⟩
  rw [EStateM.run_bind, hrun, ← Model.kept_kept]
  exact hlater

theorem Yields.bind_error {e : Failure α} (hx : x.Yields s (.error e) asked) :
    (x >>= f).Yields s (.error e) asked := by
  obtain ⟨journal, hrun⟩ := hx
  refine ⟨journal, ?_⟩
  rw [EStateM.run_bind, hrun]
  rfl

theorem yields_derived (s : Session α) : derived.Yields s s.model.derivation true := by
  cases hc : s.model.derived? with
  | some d =>
    refine ⟨s.journal, ?_⟩
    simp [run_derived_of_some hc, ending, Model.derivation, hc, Model.kept_of_some hc]
  | none =>
    cases hd : s.model.derive with
    | error e =>
      have he : s.model.derivation = .error e := by simp [Model.derivation, hc, hd]
      refine ⟨s.journal, ?_⟩
      simp [run_derived_of_error hc hd, ending, he, Model.kept_of_error he]
    | ok d =>
      obtain ⟨journal, h⟩ := run_derived_of_ok hc hd
      refine ⟨journal, ?_⟩
      simp [h, ending, Model.derivation, Model.kept, hc, hd, Except.toOption]

theorem Yields.map {r : Except (Failure α) β} (hx : x.Yields s r asked) (g : β → γ) :
    (x >>= fun b => pure (g b)).Yields s (r >>= fun b => pure (g b)) asked := by
  cases r with
  | error e => exact hx.bind_error
  | ok b =>
    rw [← Bool.or_false asked]
    exact hx.bind fun t _ => yields_pure (g b) t

theorem Yields.model_bind {f : Model α → ModelM α γ} {answer : Except (Failure α) γ}
    (hf : (f s.model).Yields s answer asked) : (model >>= f).Yields s answer asked := hf

theorem Yields.lift_bind {r : Except (Failure α) β} {answer : β → Except (Failure α) γ}
    {asks : β → Bool} (hf : ∀ b, (f b).Yields s (answer b) (asks b)) :
    (lift r >>= f).Yields s (r >>= answer) (Scorer.asksAfter r asks) := by
  cases r with
  | error e => exact (yields_lift _ s).bind_error
  | ok b => exact hf b

theorem yields_score (profile : List α) (s : Session α) :
    (score profile).Yields s (s.model.scorer.score profile) true := by
  have hd := yields_derived s
  unfold score Scorer.score Model.scorer
  cases h : s.model.derivation with
  | error e =>
    rw [h] at hd
    exact hd.bind_error
  | ok d =>
    rw [h] at hd
    exact hd.bind fun t _ => yields_lift (d.distance profile) t

theorem yields_scoreImage (image : Raster α) (line : Line α) (s : Session α) :
    (scoreImage image line).Yields s (s.model.scorer.scoreImage image line)
      (s.model.scorer.asksImage image line) := by
  apply Yields.model_bind
  exact Yields.lift_bind (r := s.model.sampler.profile image line s.model.footprint)
    fun profile => yields_score profile s

theorem yields_scoreOffset (w : Window α) (i : Nat) (s : Session α) :
    (scoreOffset w s.model.footprint i).Yields s (s.model.scorer.scoreOffset w i)
      (w.scorable s.model.footprint i) := by
  have hfootprint : s.model.scorer.footprint = s.model.footprint := rfl
  rw [scoreOffset_eq_match, Scorer.scoreOffset_eq_match, hfootprint, Window.scorable]
  cases normalize (w.part s.model.footprint i) with
  | error e => exact yields_pure _ s
  | ok profile => exact yields_score profile s

/-- The offsets are scored one after the other up to the first failure, which can only come after
the derived values have been asked for. -/
theorem yields_mapM_scoreOffset (w : Window α) (is : List Nat) (s : Session α) :
    (is.mapM fun i => scoreOffset w s.model.footprint i).Yields s
      (is.mapM (s.model.scorer.scoreOffset w)) (is.any (w.scorable s.model.footprint)) := by
  induction is generalizing s with
  | nil => exact yields_pure _ s
  | cons i is ih =>
    have hi := yields_scoreOffset w i s
    simp only [List.mapM_cons, List.any_cons]
    cases hscore : s.model.scorer.scoreOffset w i with
    | error e =>
      have hscorable : w.scorable s.model.footprint i = true := by
        cases hn : normalize (w.part s.model.footprint i) with
        | ok profile => simp [Window.scorable, hn, Except.isOk, Except.toBool]
        | error e => simp [Scorer.scoreOffset_eq_match, Model.scorer, hn] at hscore
      rw [hscore] at hi
      rw [hscorable, Bool.true_or]
      rw [hscorable] at hi
      exact hi.bind_error
    | ok x =>
      rw [hscore] at hi
      refine hi.bind fun t ht => ?_
      have hrest := ih t
      rw [ht, Model.footprint_kept, Model.scorer_kept] at hrest
      cases hxs : is.mapM (s.model.scorer.scoreOffset w) with
      | error e =>
        rw [hxs] at hrest
        exact hrest.bind_error
      | ok xs =>
        rw [hxs] at hrest
        rw [← Bool.or_false (is.any _)]
        exact hrest.bind fun t _ => yields_pure (x :: xs) t

theorem yields_scoreWindow (w : Window α) (s : Session α) :
    (scoreWindow w).Yields s (s.model.scorer.scoreWindow w) (s.model.scorer.asksWindow w) := by
  apply Yields.model_bind
  unfold Scorer.scoreWindow Scorer.asksWindow
  change ModelM.Yields (if w.length < s.model.footprint then _ else _) _
    (if w.length < s.model.footprint then _ else _) (decide (s.model.footprint ≤ w.length) && _)
  by_cases hlength : w.length < s.model.footprint
  · have hno : ¬ s.model.footprint ≤ w.length := by omega
    rw [if_pos hlength, if_pos hlength, decide_eq_false hno]
    exact ⟨s.journal, rfl⟩
  · have hyes : s.model.footprint ≤ w.length := by omega
    rw [if_neg hlength, if_neg hlength, decide_eq_true hyes]
    exact yields_mapM_scoreOffset w _ s

theorem yields_scoreWindowImage (image : Raster α) (line : Line α) (count : Int) (s : Session α) :
    (scoreWindowImage image line count).Yields s (s.model.scorer.scoreWindowImage image line count)
      (s.model.scorer.asksWindowImage image line count) := by
  apply Yields.model_bind
  exact Yields.lift_bind (r := s.model.sampler.window image line count)
    fun w => yields_scoreWindow w s

theorem yields_bestPosition (image : Raster α) (line : Line α) (count : Int) (s : Session α) :
    (bestPosition image line count).Yields s (s.model.scorer.bestPosition image line count)
      (s.model.scorer.asksWindowImage image line count) := by
  have hscores := yields_scoreWindowImage image line count s
  unfold bestPosition Scorer.bestPosition
  cases h : s.model.scorer.scoreWindowImage image line count with
  | error e =>
    rw [h] at hscores
    exact hscores.bind_error
  | ok scores =>
    rw [h] at hscores
    rw [← Bool.or_false (s.model.scorer.asksWindowImage image line count)]
    refine hscores.bind fun t ht => Yields.model_bind ?_
    rw [ht, Model.footprint_kept, Model.sampler_kept]
    change Yields _ t (s.model.scorer.choose image line count scores) false
    simp only [Scorer.choose, Model.scorer]
    cases least scores with
    | none => exact yields_lift (.error _) t
    | some best =>
      cases (axisIndex? scores.length ((count - s.model.footprint).fdiv 2)).bind (scores[·]?) with
      | none => exact yields_lift (.error _) t
      | some centred =>
        dsimp only
        cases centred == best.2 with
        | true => exact yields_pure line.centre t
        | false => exact yields_lift _ t

theorem yields_searchStep (image : Raster α) (line : Line α) (window : Int) (s : Session α) :
    (searchStep image line window).Yields s (s.model.scorer.searchStep image line window)
      (s.model.scorer.asksWindowImage image line window) := by
  have hposition := yields_bestPosition image line window s
  unfold searchStep Scorer.searchStep
  cases h : s.model.scorer.bestPosition image line window with
  | error e =>
    rw [h] at hposition
    exact hposition.bind_error
  | ok p =>
    rw [h] at hposition
    rw [← Bool.or_false (s.model.scorer.asksWindowImage image line window)]
    refine hposition.bind fun t ht => Yields.model_bind ?_
    rw [ht]
    simp only [Model.movement, Model.sampler_kept, Model.scorer, ok_bind]
    cases s.model.sampler.movement image line window p with
    | error e => exact (yields_lift (.error e) t).bind_error
    | ok movement => exact yields_pure (p, movement) t

theorem yields_searchFrom (image : Raster α) (window : Int) (threshold : α) (left done : Nat)
    (line : Line α) (s : Session α) :
    (searchFrom image window threshold left done line).Yields s
      (s.model.scorer.searchFrom image window threshold left done line)
      (s.model.scorer.asksFrom image window threshold left line) := by
  have hstep := yields_searchStep image line window s
  induction left generalizing done line s with
  | zero =>
    unfold searchFrom Scorer.searchFrom Scorer.asksFrom
    cases h : s.model.scorer.searchStep image line window with
    | error e =>
      rw [h] at hstep
      rw [Scorer.asksAfter, Bool.or_false]
      exact hstep.bind_error
    | ok p =>
      rw [h] at hstep
      refine hstep.bind fun t _ => (yields_report _ t).bind fun t _ => ?_
      rw [ok_bind]
      by_cases hm : p.2 < threshold
      · simp only [hm, if_true]
        exact yields_pure _ t
      · simp only [hm, if_false]
        exact (yields_report _ t).bind fun t _ => yields_pure _ t
  | succ left ih =>
    unfold searchFrom Scorer.searchFrom Scorer.asksFrom
    cases h : s.model.scorer.searchStep image line window with
    | error e =>
      rw [h] at hstep
      rw [Scorer.asksAfter, Bool.or_false]
      exact hstep.bind_error
    | ok p =>
      rw [h] at hstep
      refine hstep.bind fun t ht => (yields_report _ t).bind fun u hu => ?_
      have hscorer : u.model.scorer = s.model.scorer := by simp [hu, ht]
      rw [ok_bind, ← hscorer]
      by_cases hm : p.2 < threshold
      · simp only [hm, if_true]
        exact yields_pure _ u
      · simp only [hm, if_false]
        exact ih (done + 1) (line.centredAt p.1) u (yields_searchStep image _ window u)

theorem yields_refine_asks (config : SearchConfig α) (image : Raster α) (line : Line α)
    (s : Session α) :
    (refine config image line).Yields s (s.model.scorer.refine config image line)
      (s.model.scorer.asksRefine config image line) := by
  unfold refine Scorer.refine Scorer.asksRefine
  by_cases h : config.stepLimit < 1
  · rw [if_pos h, if_pos h, if_pos h]
    exact yields_lift (.error _) s
  · rw [if_neg h, if_neg h, if_neg h]
    exact yields_searchFrom image config.window config.threshold _ 0 line s

theorem yields_refine (config : SearchConfig α) (image : Raster α) (line : Line α)
    (s : Session α) :
    ∃ asked,
      (refine config image line).Yields s (s.model.scorer.refine config image line) asked :=
  ⟨_, yields_refine_asks config image line s⟩

theorem answer_refine (config : SearchConfig α) (image : Raster α) (line : Line α)
    (s : Session α) :
    (refine config image line).answer s = s.model.scorer.refine config image line := by
  obtain ⟨asked, hyields⟩ := yields_refine config image line s
  exact hyields.answer_eq

end ModelM
end Transect
