import Transect.Proofs.BandOrder
import Transect.Proofs.SingularCovariances

/-!
# Runs on images with their bands in another order

A model does not tell the bands of its images apart. If all images of a run have their bands in one
other order, then every score, every position and every search ends as before, and what the model
says about its own vectors and matrices has its blocks in the other order.
-/
namespace Transect

variable {C D n : ℕ}

/-- Two scorers of which the second one has learned its vectors in another order. -/
structure Scorer.Rearranged (π : Equiv.Perm (Fin D)) (k l : Scorer Exact) : Prop where
  footprint : l.footprint = k.footprint
  sampler : l.sampler = k.sampler
  derived : Alike (Derived.Rearranged π) k.derived l.derived

theorem mapM_congr {ε β γ : Type} {f g : β → Except ε γ} {xs : List β}
    (h : ∀ x ∈ xs, g x = f x) : xs.mapM g = xs.mapM f := by
  induction xs with
  | nil => rfl
  | cons x xs ih =>
    obtain ⟨hx, hxs⟩ := List.forall_mem_cons.mp h
    rw [List.mapM_cons, List.mapM_cons, hx, ih hxs]

theorem any_congr {β : Type} {p q : β → Bool} {xs : List β} (h : ∀ x ∈ xs, q x = p x) :
    xs.any q = xs.any p := by
  rw [List.any_eq, List.any_eq, decide_eq_decide]
  refine exists_congr fun x => and_congr_right fun hx => ?_
  rw [h x hx]

theorem Alike.isOk_eq {ε β γ : Type} {R : β → γ → Prop} {x : Except ε β} {y : Except ε γ}
    (h : Alike R x y) : y.isOk = x.isOk := by
  cases h <;> rfl

theorem Alike.asksAfter_eq {α β γ : Type} {R : β → γ → Prop} {x : Except (Failure α) β}
    {y : Except (Failure α) γ} (h : Alike R x y) {f : β → Bool} {g : γ → Bool}
    (hfg : ∀ b c, R b c → g c = f b) : Scorer.asksAfter y g = Scorer.asksAfter x f := by
  cases h with
  | error e => rfl
  | ok h => exact hfg _ _ h

theorem Scorer.scoreOffset_congr {k l : Scorer Exact} (hfootprint : l.footprint = k.footprint)
    {w v : Window Exact} {i j : ℕ} {R : List Exact → List Exact → Prop}
    (hparts : Alike R (normalize (w.part k.footprint i)) (normalize (v.part k.footprint j)))
    (hscore : ∀ xs ys, R xs ys → l.score ys = k.score xs) :
    l.scoreOffset v j = k.scoreOffset w i ∧
      v.scorable k.footprint j = w.scorable k.footprint i := by
  refine ⟨?_, hparts.isOk_eq⟩
  rw [scoreOffset_eq_match, scoreOffset_eq_match, hfootprint]
  generalize normalize (w.part k.footprint i) = x, normalize (v.part k.footprint j) = y at hparts
  cases hparts with
  | error e => rfl
  | ok hxs => exact hscore _ _ hxs

namespace Scorer.Rearranged

variable {σ : Equiv.Perm (Fin C)} {k l : Scorer Exact}
  (h : Rearranged (blocks σ k.footprint) k l)
include h

theorem score_eq {xs ys : List Exact} (hxs : Reordered (blocks σ k.footprint) xs ys) :
    l.score ys = k.score xs :=
  h.derived.bind_eq fun _ _ hderived => hderived.distance_eq hxs

theorem scoreOffset_eq {w v : Window Exact} (hw : Window.Permuted σ w v) {i : ℕ}
    (hi : i + k.footprint ≤ w.length) :
    l.scoreOffset v i = k.scoreOffset w i ∧
      v.scorable k.footprint i = w.scorable k.footprint i :=
  scoreOffset_congr h.footprint (normalize_reordered (hw.part hi)) fun _ _ => h.score_eq

theorem scoreWindow_eq {w v : Window Exact} (hw : Window.Permuted σ w v) :
    l.scoreWindow v = k.scoreWindow w ∧ l.asksWindow v = k.asksWindow w := by
  rw [scoreWindow, scoreWindow, asksWindow, asksWindow, hw.length, h.footprint]
  by_cases hshort : w.length < k.footprint
  · have hno : ¬ k.footprint ≤ w.length := not_le.mpr hshort
    rw [if_pos hshort, if_pos hshort, decide_eq_false hno, Bool.false_and, Bool.false_and]
    exact ⟨rfl, rfl⟩
  · have hoffset : ∀ i ∈ List.range (w.length - k.footprint + 1), i + k.footprint ≤ w.length := by
      intro i hi
      rw [List.mem_range] at hi
      omega
    rw [if_neg hshort, if_neg hshort,
      mapM_congr fun i hi => (h.scoreOffset_eq hw (hoffset i hi)).1]
    exact ⟨rfl, congrArg _ (any_congr fun i hi => (h.scoreOffset_eq hw (hoffset i hi)).2)⟩

variable {strategy : Strategy} {wraps : ℕ} (hk : k.sampler = .shipped strategy wraps)
  {image : Raster Exact} (himage : image.bandCount = .ok C)
include hk himage

theorem scoreImage_eq (line : Line Exact) :
    l.scoreImage (image.permuted 2 σ) line = k.scoreImage image line ∧
      l.asksImage (image.permuted 2 σ) line = k.asksImage image line := by
  have hprofile := Sampler.profile_permuted himage σ strategy wraps line k.footprint
  rw [← hk] at hprofile
  rw [scoreImage, scoreImage, asksImage, asksImage, h.sampler, h.footprint]
  exact ⟨hprofile.bind_eq fun _ _ => h.score_eq, hprofile.asksAfter_eq fun _ _ _ => rfl⟩

theorem scoreWindowImage_eq (line : Line Exact) (count : ℤ) :
    l.scoreWindowImage (image.permuted 2 σ) line count = k.scoreWindowImage image line count ∧
      l.asksWindowImage (image.permuted 2 σ) line count = k.asksWindowImage image line count := by
  have hwindow := Sampler.window_permuted himage σ strategy wraps line count
  rw [← hk] at hwindow
  rw [scoreWindowImage, scoreWindowImage, asksWindowImage, asksWindowImage, h.sampler]
  exact ⟨hwindow.bind_eq fun _ _ hw => (h.scoreWindow_eq hw.1).1,
    hwindow.asksAfter_eq fun _ _ hw => (h.scoreWindow_eq hw.1).2⟩

theorem searchesAlike : SearchesAlike k l image (image.permuted 2 σ) where
  footprint := h.footprint
  scores line count := (h.scoreWindowImage_eq hk himage line count).1
  asks line count := (h.scoreWindowImage_eq hk himage line count).2
  position line count steps := by
    rw [h.sampler, hk]
    exact Sampler.stepPosition_congr (image.extents_permuted 2 σ) strategy wraps line count steps
  movement line count p := by
    rw [h.sampler, hk]
    exact Sampler.movement_congr (image.extents_permuted 2 σ) strategy wraps line count p

end Scorer.Rearranged

/-- A question about images of `C` bands, or about vectors and windows of `C` bands of which `n`
samples are taken. -/
def Question.OfBands (C n : ℕ) : Question Exact → Prop
  | mean | covariance | inverseCovariance => True
  | score profile => profile.length = C * n
  | scoreImage image _ | scoreWindowImage image _ _ | bestPosition image _ _ =>
    image.bandCount = .ok C
  | scoreWindow array => ∃ length, array.extents = [C, length]

def Question.permuted (σ : Equiv.Perm (Fin C)) (n : ℕ) : Question Exact → Question Exact
  | score profile => score (blockwise σ n profile)
  | scoreImage image line => scoreImage (image.permuted 2 σ) line
  | scoreWindow array => scoreWindow (array.permuted 0 σ)
  | scoreWindowImage image line count => scoreWindowImage (image.permuted 2 σ) line count
  | bestPosition image line count => bestPosition (image.permuted 2 σ) line count
  | q => q

/-- The answer to that question: the blocks of what the model has learned are in the other order,
and nothing else is different. -/
def Question.permutedAnswer (σ : Equiv.Perm (Fin C)) (n : ℕ) :
    Question Exact → Answer Exact → Answer Exact
  | mean, .numbers xs => .numbers (blockwise σ n xs)
  | covariance, .matrix rows | inverseCovariance, .matrix rows =>
    .matrix (blockwise σ n (rows.map (blockwise σ n)))
  | _, answer => answer

namespace Operation

def OfBands (C n : ℕ) : Operation Exact → Prop
  | request (.update image _) | refine _ image _ => image.bandCount = .ok C
  | request (.updateVector profile) => profile.length = C * n
  | request (.setLimit _) => True
  | request (.ask question) => question.OfBands C n

def permuted (σ : Equiv.Perm (Fin C)) (n : ℕ) : Operation Exact → Operation Exact
  | request (.update image line) => request (.update (image.permuted 2 σ) line)
  | request (.updateVector profile) => request (.updateVector (blockwise σ n profile))
  | request (.setLimit limit) => request (.setLimit limit)
  | request (.ask question) => request (.ask (question.permuted σ n))
  | refine config image line => refine config (image.permuted 2 σ) line

def permutedReply (σ : Equiv.Perm (Fin C)) (n : ℕ) :
    Operation Exact → Reply Exact → Reply Exact
  | request (.ask question), .answer answer => .answer (question.permutedAnswer σ n answer)
  | _, reply => reply

end Operation

/-- What a model says about its own vectors and matrices, if the other order can be told from a list
alone. -/
theorem Derived.Rearranged.toList_eq {π : Equiv.Perm (Fin D)} {d e : Derived Exact}
    (h : Rearranged π d e) {t : List Exact → List Exact}
    (ht : ∀ xs ys, Reordered π xs ys → ys = t xs) {u : List (List Exact) → List (List Exact)}
    (hu : ∀ rows rows', Reordered π rows rows' → rows' = u rows) :
    e.mean.toList = t d.mean.toList ∧ e.covariance.toLists = u (d.covariance.toLists.map t) ∧
      e.inversion.matrix.toLists = u (d.inversion.matrix.toLists.map t) := by
  obtain ⟨mean, covariance, inversion⟩ := h
  have hvector (v : Vec Exact D) : (Vec.rearranged π v).toList = t v.toList :=
    ht _ _ (Vec.reordered_toList v)
  have hmatrix (A : Mat Exact D D) : (Mat.rearranged π A).toLists = u (A.toLists.map t) :=
    hu _ _ (Mat.reordered_toLists hvector A)
  exact ⟨hvector mean, hmatrix covariance, hmatrix inversion.matrix⟩

/-- A window that is given as such has its bands along the first axis. -/
theorem Window.ofRaster_permuted {array : Raster Exact} {length : ℕ}
    (h : array.extents = [C, length]) (σ : Equiv.Perm (Fin C)) :
    ∃ w v, ofRaster array = .ok w ∧ ofRaster (array.permuted 0 σ) = .ok v ∧ Permuted σ w v := by
  have hplane : array.plane? =
      some ⟨C, length, fun row column => array.cell [row, column]⟩ := by
    rw [Raster.plane?, h]
  have hplane' : (array.permuted 0 σ).plane? =
      some ⟨C, length, fun row column => array.cell [placeOf σ row, column]⟩ := by
    rw [Raster.plane?, array.extents_permuted 0 σ, h]
    rfl
  rw [ofRaster, ofRaster, hplane, hplane']
  refine ⟨_, _, rfl, rfl, rfl, fun b => (List.range length).map (array.cell [b, ·]),
    map_range_eq_ofFn _, ?_⟩
  refine (map_range_eq_ofFn _).trans (congrArg List.ofFn (funext fun b => ?_))
  simp only [placeOf_val, Function.comp_apply]

theorem Question.answer_permuted {σ : Equiv.Perm (Fin C)} {k l : Scorer Exact}
    (h : Scorer.Rearranged (blocks σ k.footprint) k l) {strategy : Strategy} {wraps : ℕ}
    (hk : k.sampler = .shipped strategy wraps) {q : Question Exact}
    (hq : q.OfBands C k.footprint) :
    (q.permuted σ k.footprint).answer l =
        Except.map (q.permutedAnswer σ k.footprint) (q.answer k) ∧
      (q.permuted σ k.footprint).asks l = q.asks k := by
  have hlists {d e : Derived Exact} (hd : Derived.Rearranged (blocks σ k.footprint) d e) :=
    hd.toList_eq (fun _ _ hxs => hxs.blockwise_eq) fun _ _ hrows => hrows.blockwise_eq
  cases q with
  | mean =>
    exact ⟨h.derived.bind_eq_map fun d e hd =>
      congrArg (fun xs => Except.ok (Answer.numbers xs)) (hlists hd).1, rfl⟩
  | covariance =>
    exact ⟨h.derived.bind_eq_map fun d e hd =>
      congrArg (fun rows => Except.ok (Answer.matrix rows)) (hlists hd).2.1, rfl⟩
  | inverseCovariance =>
    exact ⟨h.derived.bind_eq_map fun d e hd =>
      congrArg (fun rows => Except.ok (Answer.matrix rows)) (hlists hd).2.2, rfl⟩
  | score profile =>
    refine ⟨?_, rfl⟩
    simp only [permuted, answer, h.score_eq (.of_blockwise hq)]
    cases k.score profile <;> rfl
  | scoreImage image line =>
    obtain ⟨hscore, hasks⟩ := h.scoreImage_eq hk hq line
    refine ⟨?_, hasks⟩
    simp only [permuted, answer, hscore]
    cases k.scoreImage image line <;> rfl
  | scoreWindow array =>
    obtain ⟨length, harray⟩ := hq
    obtain ⟨w, v, hw, hv, hpermuted⟩ := Window.ofRaster_permuted harray σ
    obtain ⟨hscores, hasks⟩ := h.scoreWindow_eq hpermuted
    simp only [permuted, answer, asks, hw, hv, ok_bind, hscores]
    refine ⟨?_, hasks⟩
    cases k.scoreWindow w <;> rfl
  | scoreWindowImage image line count =>
    obtain ⟨hscores, hasks⟩ := h.scoreWindowImage_eq hk hq line count
    refine ⟨?_, hasks⟩
    simp only [permuted, answer, hscores]
    cases k.scoreWindowImage image line count <;> rfl
  | bestPosition image line count =>
    refine ⟨?_, (h.scoreWindowImage_eq hk hq line count).2⟩
    simp only [permuted, answer, (h.searchesAlike hk hq).bestPosition]
    cases k.bestPosition image line count <;> rfl

/-- Two models of which the second one has learned its vectors in another order. -/
structure Model.Rearranged (π : Equiv.Perm (Fin D)) (m m' : Model Exact) : Prop where
  footprint : m'.footprint = m.footprint
  sampler : m'.sampler = m.sampler
  conditionLimit : m'.conditionLimit = m.conditionLimit
  statistics : Statistics.Rearranged π m.statistics m'.statistics
  derived : Option.Rel (Derived.Rearranged π) m.derived? m'.derived?

namespace Model.Rearranged

variable [LinearAlgebra Exact] [LawfulLinearAlgebra] {π : Equiv.Perm (Fin D)} {m m' : Model Exact}
  (h : Rearranged π m m')
include h

theorem derivation : Alike (Derived.Rearranged π) m.derivation m'.derivation := by
  have hderive : Alike (Derived.Rearranged π) m.derive m'.derive := by
    have hstatistics := h.statistics.derive m.conditionLimit
    nth_rewrite 2 [← h.conditionLimit] at hstatistics
    exact hstatistics
  have hkept := h.derived
  rw [Model.derivation, Model.derivation]
  generalize m.derived? = x, m'.derived? = y at hkept
  cases hkept with
  | some hd => exact .ok hd
  | none => exact hderive

theorem scorer : Scorer.Rearranged π m.scorer m'.scorer :=
  ⟨h.footprint, h.sampler, h.derivation⟩

theorem kept (asked : Bool) : Rearranged π (m.kept asked) (m'.kept asked) := by
  cases asked with
  | false => exact h
  | true =>
    refine ⟨h.footprint, h.sampler, h.conditionLimit, h.statistics, ?_⟩
    have hderivation := h.derivation
    simp only [Model.kept, if_true]
    generalize m.derivation = x, m'.derivation = y at hderivation
    cases hderivation with
    | error e => exact .none
    | ok hd => exact .some hd

/-- Questions that are answered alike and need the derived values alike keep two models related. -/
theorem asked {q q' : Question Exact} {t : Answer Exact → Answer Exact}
    (hanswer : q'.answer m'.scorer = Except.map t (q.answer m.scorer))
    (hasks : q'.asks m'.scorer = q.asks m.scorer) {g : Reply Exact → Reply Exact}
    (hg : ∀ answer, g (.answer answer) = .answer (t answer)) :
    (Operation.request (.ask q')).reply m' =
        Except.map g ((Operation.request (.ask q)).reply m) ∧
      Rearranged π ((Operation.request (.ask q)).next m)
        ((Operation.request (.ask q')).next m') := by
  constructor
  · rw [Operation.reply, Operation.reply, hanswer]
    cases q.answer m.scorer with
    | error e => rfl
    | ok answer => exact congrArg Except.ok (hg answer).symm
  · rw [Operation.next, Operation.next, hasks]
    exact h.kept (q.asks m.scorer)

omit [LinearAlgebra Exact] [LawfulLinearAlgebra]

theorem taught {lesson lesson' : Except (Failure Exact) (List Exact)}
    (hlesson : Alike (Reordered π) lesson lesson') :
    Alike (Rearranged π) (m.taught lesson) (m'.taught lesson') :=
  hlesson.bind fun _ _ hxs => (h.statistics.add hxs).bind fun _ _ hstatistics =>
    .ok ⟨h.footprint, h.sampler, h.conditionLimit, hstatistics, .none⟩

end Model.Rearranged

section

variable [LinearAlgebra Exact] [LawfulLinearAlgebra] {σ : Equiv.Perm (Fin C)}
  {strategy : Strategy} {wraps : ℕ} {m m' : Model Exact}

/-- What an operation does to a model, and on permuted bands to one that has learned such. -/
theorem Operation.permuted_cases (h : Model.Rearranged (blocks σ m.footprint) m m')
    (hm : m.sampler = .shipped strategy wraps) {o : Operation Exact}
    (ho : o.OfBands C m.footprint) :
    (o.permuted σ m.footprint).reply m' =
        Except.map (o.permutedReply σ m.footprint) (o.reply m) ∧
      Model.Rearranged (blocks σ m.footprint) (o.next m)
        ((o.permuted σ m.footprint).next m') := by
  have hscorer : Scorer.Rearranged (blocks σ m.scorer.footprint) m.scorer m'.scorer := h.scorer
  have hk : m.scorer.sampler = .shipped strategy wraps := hm
  cases o with
  | request r =>
    cases r with
    | update image line =>
      have hprofile := Sampler.profile_permuted ho σ strategy wraps line m.footprint
      rw [← hm] at hprofile
      have hlesson : Alike (Reordered (blocks σ m.footprint))
          (m.sampler.profile image line m.footprint)
          (m'.sampler.profile (image.permuted 2 σ) line m'.footprint) := by
        rw [h.sampler, h.footprint]
        exact hprofile
      have htaught := h.taught hlesson
      exact ⟨htaught.bind_eq_map fun _ _ _ => rfl, htaught.getD h⟩
    | updateVector profile =>
      have hlesson : Alike (Reordered (blocks σ m.footprint))
          (.ok profile : Except (Failure Exact) (List Exact))
          (.ok (blockwise σ m.footprint profile)) := .ok (.of_blockwise ho)
      have htaught := h.taught hlesson
      exact ⟨htaught.bind_eq_map fun _ _ _ => rfl, htaught.getD h⟩
    | setLimit limit =>
      exact ⟨rfl, h.footprint, h.sampler, rfl, h.statistics, h.derived⟩
    | ask question =>
      have hquestion : question.OfBands C m.scorer.footprint := ho
      obtain ⟨hanswer, hasks⟩ := Question.answer_permuted hscorer hk hquestion
      exact h.asked hanswer hasks fun _ => rfl
  | refine config image line =>
    obtain ⟨hfound, hasks⟩ := (hscorer.searchesAlike hk ho).refine config line
    refine ⟨?_, ?_⟩
    · simp only [permuted, reply, hfound]
      cases m.scorer.refine config image line <;> rfl
    · have hnext := h.kept (m.scorer.asksRefine config image line)
      nth_rewrite 2 [← hasks] at hnext
      exact hnext

theorem Model.run_permuted (h : Rearranged (blocks σ m.footprint) m m')
    (hm : m.sampler = .shipped strategy wraps) {operations : List (Operation Exact)}
    (hoperations : ∀ o ∈ operations, o.OfBands C m.footprint) :
    m'.replies (operations.map (·.permuted σ m.footprint)) =
        List.zipWith (fun o => Except.map (o.permutedReply σ m.footprint)) operations
          (m.replies operations) ∧
      Rearranged (blocks σ m.footprint) (m.through operations)
        (m'.through (operations.map (·.permuted σ m.footprint))) := by
  refine run_of_step (fun k k' o hfootprint hsampler hrelated ho => ?_) rfl hm h hoperations
  rw [← hfootprint] at hrelated ho ⊢
  exact Operation.permuted_cases hrelated hsampler ho

/-- A run of operations on images of `C` bands with one of the samplers of this library, and the
same run with the bands of every image in another order. All replies are the same, except that mean,
covariance and inverse have their blocks in the other order, too. Movements are the same after both
runs. -/
theorem replies_of_permuted_bands {samples : ℤ} {limit : Exact}
    (h : Model.create samples (.shipped strategy wraps) limit = .ok m) (σ : Equiv.Perm (Fin C))
    {operations : List (Operation Exact)}
    (hoperations : ∀ o ∈ operations, o.OfBands C samples.toNat) :
    let n := samples.toNat
    let permuted := operations.map (·.permuted σ n)
    m.start.replies permuted =
        List.zipWith (fun o => Except.map (o.permutedReply σ n)) operations
          (m.start.replies operations) ∧
      ∀ image line count p, (m.start.through permuted).model.movement (image.permuted 2 σ) line
          count p = (m.start.through operations).model.movement image line count p := by
  intro n permuted
  obtain ⟨hfootprint, hsampler, -, hempty, hnone⟩ := Model.of_create h
  have hstart : Model.Rearranged (blocks σ m.footprint) m m := by
    refine ⟨rfl, rfl, rfl, ?_, ?_⟩
    · rw [hempty]
      exact .empty
    · rw [hnone]
      exact .none
  rw [← hfootprint] at hoperations
  obtain ⟨hreplies, hthrough⟩ := Model.run_permuted hstart hsampler hoperations
  rw [hfootprint] at hreplies hthrough
  rw [Session.replies_eq, Session.replies_eq, Session.model_through, Session.model_through]
  refine ⟨hreplies, fun image line count p => ?_⟩
  have hgiven : (m.start.model.through operations).sampler = .shipped strategy wraps :=
    (m.fixed_through operations).2.trans hsampler
  have hpermuted : (m.start.model.through permuted).sampler = .shipped strategy wraps :=
    (m.fixed_through permuted).2.trans hsampler
  rw [Model.movement, Model.movement, hgiven, hpermuted]
  exact Sampler.movement_congr (image.extents_permuted 2 σ) strategy wraps line count p

end

/-- Two pixels of two bands each are learned, and then the bands are exchanged. -/
theorem replies_of_permuted_bands_of_pixels :
    let line : Line Exact := ⟨⟨0, 0⟩, ⟨0, 0⟩⟩
    let σ : Equiv.Perm (Fin 2) := Equiv.swap 0 1
    let operations : List (Operation Exact) :=
      [.request (.update (.pixel 1 3) line), .request (.update (.pixel 1 4) line),
        .request (.ask .covariance), .request (.ask (.scoreImage (.pixel 3 1) line)),
        .request (.ask (.bestPosition (.pixel 2 1) line 3)), .refine ⟨3, 0, 2⟩ (.pixel 2 1) line]
    ∃ m : Model Exact, Model.create 1 (.shipped .interpolated 1) 1 = .ok m ∧
      (∀ o ∈ operations, o.OfBands 2 1) ∧
      m.start.replies (operations.map (·.permuted σ 1)) =
        List.zipWith (fun o => Except.map (o.permutedReply σ 1)) operations
          (m.start.replies operations) := by
  intro line σ operations
  obtain ⟨m, hm⟩ : ∃ m : Model Exact, Model.create 1 (.shipped .interpolated 1) 1 = .ok m :=
    ⟨_, rfl⟩
  have hoperations : ∀ o ∈ operations, o.OfBands 2 1 := by
    simp [operations, Operation.OfBands, Question.OfBands, Raster.pixel, Raster.bandCount]
  exact ⟨m, hm, hoperations, (replies_of_permuted_bands hm σ hoperations).1⟩

end Transect
