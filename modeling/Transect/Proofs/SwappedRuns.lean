import Transect.Proofs.BandPermutations
import Transect.Proofs.SwappedLines

/-!
# Runs along swapped lines

A model cannot tell from which end its lines are sampled, as long as all of them are sampled from
the same end. If every line of a run is swapped, every cost is the same, the scores of a window come
in the opposite order, and so do, band by band, the samples of what the model has learned.
-/
namespace Transect

variable {B C n : ℕ}

/-- A traversal that can fail in one way only fails in that way from either end. -/
theorem mapM_reverse {ε β γ : Type} [Nonempty γ] {f : β → Except ε γ} {xs : List β}
    (h : ∀ x ∈ xs, ∀ y ∈ xs, ∀ d e, f x = .error d → f y = .error e → d = e) :
    xs.reverse.mapM f = Except.map List.reverse (xs.mapM f) := by
  -- Which item fails first depends on the order, but not what it fails with.
  by_cases hok : ∀ x ∈ xs, ∃ y, f x = .ok y
  · choose! g hg using hok
    have hback : ∀ x ∈ xs.reverse, f x = .ok (g x) := fun x hx => hg x (List.mem_reverse.mp hx)
    rw [mapM_eq_ok hg, mapM_eq_ok hback, List.map_reverse]
    rfl
  · push Not at hok
    obtain ⟨x, hx, hfailed⟩ := hok
    cases hfx : f x with
    | ok y => exact absurd hfx (hfailed y)
    | error e =>
      have hall : ∀ y ∈ xs, f y = .error e ∨ ∃ z, f y = .ok z := by
        intro y hy
        cases hfy : f y with
        | ok z => exact Or.inr ⟨z, rfl⟩
        | error d => exact Or.inl (congrArg Except.error (h y hy x hx d e hfy hfx))
      rw [mapM_eq_error hall ⟨x, hx, hfx⟩,
        mapM_eq_error (fun y hy => hall y (List.mem_reverse.mp hy))
          ⟨x, List.mem_reverse.mpr hx, hfx⟩]
      rfl

/-- Profiles of blocks that are as long as those of a model. If these are more or fewer blocks,
neither profile can be scored. -/
theorem Derived.Rearranged.distance_backward {d e : Derived Exact}
    (h : Rearranged (backward C n) d e) (hn : 0 < n) {xs ys : List Exact}
    (hxs : Reordered (backward B n) xs ys) : e.distance ys = d.distance xs := by
  by_cases hB : B = C
  · subst hB
    exact h.distance_eq hxs
  · obtain ⟨hx, hy⟩ := hxs.length_eq
    obtain ⟨mean, covariance, inversion⟩ := h
    have hne : B * n ≠ C * n := fun heq => hB (Nat.eq_of_mul_eq_mul_right hn heq)
    rw [distance, distance, dif_neg (hx.trans_ne hne), dif_neg (hy.trans_ne hne), hx, hy]

/-- Profiles of one length cannot be scored for one reason only. -/
theorem Scorer.score_eq_error {α : Type} [Scalar α] {k : Scorer α} {xs ys : List α}
    (hlength : xs.length = ys.length) {d e : Failure α} (hd : k.score xs = .error d)
    (he : k.score ys = .error e) : d = e := by
  rw [score] at hd he
  cases hderived : k.derived with
  | error e' =>
    rw [hderived] at hd he
    cases hd
    cases he
    rfl
  | ok derived =>
    rw [hderived, ok_bind, Derived.distance] at hd he
    split_ifs at hd he
    cases hd
    cases he
    rw [hlength]

theorem Scorer.scoreOffset_eq_error {α : Type} [Scalar α] {k : Scorer α} {w : Window α} {i j : ℕ}
    (hi : i + k.footprint ≤ w.length) (hj : j + k.footprint ≤ w.length) {d e : Failure α}
    (hd : k.scoreOffset w i = .error d) (he : k.scoreOffset w j = .error e) : d = e := by
  rw [scoreOffset_eq_match] at hd he
  cases hx : normalize (w.part k.footprint i) with
  | error e' =>
    rw [hx] at hd
    cases hd
  | ok xs =>
    cases hy : normalize (w.part k.footprint j) with
    | error e' =>
      rw [hy] at he
      cases he
    | ok ys =>
      rw [hx] at hd
      rw [hy] at he
      refine score_eq_error ?_ hd he
      rw [length_normalize hx, length_normalize hy, w.length_part hi, w.length_part hj]

namespace Scorer.Rearranged

variable {k l : Scorer Exact} (h : Rearranged (backward C k.footprint) k l)
  (hn : 0 < k.footprint)
include h hn

theorem score_backward {xs ys : List Exact} (hxs : Reordered (backward B k.footprint) xs ys) :
    l.score ys = k.score xs :=
  h.derived.bind_eq fun _ _ hderived => hderived.distance_backward hn hxs

theorem scoreOffset_reversed (w : Window Exact) {i : ℕ} (hi : i + k.footprint ≤ w.length) :
    l.scoreOffset w.reversed i = k.scoreOffset w (w.length - k.footprint - i) ∧
      w.reversed.scorable k.footprint i =
        w.scorable k.footprint (w.length - k.footprint - i) :=
  scoreOffset_congr h.footprint (normalize_reordered (w.part_reversed hi)) fun _ _ =>
    h.score_backward hn

theorem scoreWindow_reversed (w : Window Exact) :
    l.scoreWindow w.reversed = Except.map List.reverse (k.scoreWindow w) ∧
      l.asksWindow w.reversed = k.asksWindow w := by
  have hlength : w.reversed.length = w.length := rfl
  rw [scoreWindow, scoreWindow, asksWindow, asksWindow, hlength, h.footprint]
  by_cases hshort : w.length < k.footprint
  · have hno : ¬ k.footprint ≤ w.length := not_le.mpr hshort
    rw [if_pos hshort, if_pos hshort, decide_eq_false hno, Bool.false_and, Bool.false_and]
    exact ⟨rfl, rfl⟩
  · -- what is scored at an offset from one end is scored at the same one from the other end
    let offsets := List.range (w.length - k.footprint + 1)
    let back (i : ℕ) : ℕ := w.length - k.footprint - i
    have hback : offsets.map back = offsets.reverse := by
      simp [offsets, back, List.range_eq_range', List.reverse_range']
    have hoffset : ∀ i ∈ offsets, i + k.footprint ≤ w.length := by
      intro i hi
      rw [List.mem_range] at hi
      omega
    have hagain (i : ℕ) (hi : i ∈ offsets) := h.scoreOffset_reversed hn w (hoffset i hi)
    rw [if_neg hshort, if_neg hshort]
    refine ⟨?_, congrArg _ ?_⟩
    · calc offsets.mapM (l.scoreOffset w.reversed)
          = offsets.mapM (k.scoreOffset w ∘ back) := mapM_congr fun i hi => (hagain i hi).1
        _ = (offsets.map back).mapM (k.scoreOffset w) := List.mapM_map.symm
        _ = offsets.reverse.mapM (k.scoreOffset w) := by rw [hback]
        _ = Except.map List.reverse (offsets.mapM (k.scoreOffset w)) :=
          mapM_reverse fun i hi j hj _ _ => scoreOffset_eq_error (hoffset i hi) (hoffset j hj)
    · calc offsets.any (w.reversed.scorable k.footprint)
          = offsets.any (w.scorable k.footprint ∘ back) := any_congr fun i hi => (hagain i hi).2
        _ = (offsets.map back).any (w.scorable k.footprint) := List.any_map.symm
        _ = offsets.any (w.scorable k.footprint) := by rw [hback, List.any_reverse]

variable {strategy : Strategy} {wraps : ℕ} (hk : k.sampler = .shipped strategy wraps)
  (image : Raster Exact) (line : Line ℝ)
include hk

theorem scoreImage_swapped :
    l.scoreImage image (.ofReal line.swapped) = k.scoreImage image (.ofReal line) ∧
      l.asksImage image (.ofReal line.swapped) = k.asksImage image (.ofReal line) := by
  have hprofile := Sampler.profile_swapped strategy wraps line image k.footprint
  rw [scoreImage, scoreImage, asksImage, asksImage, h.sampler, h.footprint, hk]
  refine ⟨hprofile.bind_eq fun _ _ hxs => ?_, hprofile.asksAfter_eq fun _ _ _ => rfl⟩
  obtain ⟨B, hxs⟩ := hxs
  exact h.score_backward hn hxs

theorem scoreWindowImage_swapped (count : ℤ) :
    l.scoreWindowImage image (.ofReal line.swapped) count =
        Except.map List.reverse (k.scoreWindowImage image (.ofReal line) count) ∧
      l.asksWindowImage image (.ofReal line.swapped) count =
        k.asksWindowImage image (.ofReal line) count := by
  rw [scoreWindowImage, scoreWindowImage, asksWindowImage, asksWindowImage, h.sampler, hk,
    Sampler.window_swapped]
  cases (Sampler.shipped strategy wraps).window image (.ofReal line) count with
  | error e => exact ⟨rfl, rfl⟩
  | ok w => exact h.scoreWindow_reversed hn w

end Scorer.Rearranged

def Line.IsReal (l : Line Exact) : Prop := ∃ line : Line ℝ, l = .ofReal line

/-- A question about what a model has learned, or about images along real lines. -/
def Question.AlongLines : Question Exact → Prop
  | mean | covariance | inverseCovariance => True
  | scoreImage _ line | scoreWindowImage _ line _ => line.IsReal
  | score _ | scoreWindow _ | bestPosition .. => False

def Question.swapped : Question Exact → Question Exact
  | scoreImage image line => scoreImage image line.swapped
  | scoreWindowImage image line count => scoreWindowImage image line.swapped count
  | bestPosition image line count => bestPosition image line.swapped count
  | q => q

/-- The answer to the question along the swapped line: scores of a window come in the opposite
order, and what has been learned has the samples of each band in the opposite order. -/
def Question.swappedAnswer (n : ℕ) : Question Exact → Answer Exact → Answer Exact
  | mean, .numbers xs => .numbers (blocksReversed n xs)
  | covariance, .matrix rows | inverseCovariance, .matrix rows =>
    .matrix (blocksReversed n (rows.map (blocksReversed n)))
  | scoreWindowImage .., .numbers xs => .numbers xs.reverse
  | _, answer => answer

namespace Operation

def AlongLines : Operation Exact → Prop
  | request (.update _ line) => line.IsReal
  | request (.setLimit _) => True
  | request (.ask question) => question.AlongLines
  | request (.updateVector _) | refine .. => False

def swapped : Operation Exact → Operation Exact
  | request (.update image line) => request (.update image line.swapped)
  | request (.updateVector profile) => request (.updateVector profile)
  | request (.setLimit limit) => request (.setLimit limit)
  | request (.ask question) => request (.ask question.swapped)
  | refine config image line => refine config image line.swapped

def swappedReply (n : ℕ) : Operation Exact → Reply Exact → Reply Exact
  | request (.ask question), .answer answer => .answer (question.swappedAnswer n answer)
  | _, reply => reply

end Operation

theorem Question.answer_swapped {k l : Scorer Exact}
    (h : Scorer.Rearranged (backward C k.footprint) k l) (hn : 0 < k.footprint)
    {strategy : Strategy} {wraps : ℕ} (hk : k.sampler = .shipped strategy wraps)
    {q : Question Exact} (hq : q.AlongLines) :
    q.swapped.answer l = Except.map (q.swappedAnswer k.footprint) (q.answer k) ∧
      q.swapped.asks l = q.asks k := by
  have hlists {d e : Derived Exact} (hd : Derived.Rearranged (backward C k.footprint) d e) :=
    hd.toList_eq (fun _ _ hxs => hxs.blocksReversed_eq hn) fun _ _ hrows =>
      hrows.blocksReversed_eq hn
  cases q with
  | mean =>
    exact ⟨h.derived.bind_eq_map fun d e hd =>
      congrArg (fun xs => Except.ok (Answer.numbers xs)) (hlists hd).1, rfl⟩
  | covariance =>
    exact ⟨h.derived.bind_eq_map fun d e hd =>
      congrArg (fun rows => Except.ok (Answer.matrix rows)) (hlists hd).2.1, rfl⟩
  | inverseCovariance =>
    exact ⟨h.derived.bind_eq_map fun d e hd =>
      congrArg (fun rows => Except.ok (Answer.matrix rows)) (hlists hd).2.2, rfl⟩
  | scoreImage image line =>
    obtain ⟨line, rfl⟩ := hq
    obtain ⟨hscore, hasks⟩ := h.scoreImage_swapped hn hk image line
    refine ⟨?_, hasks⟩
    change (l.scoreImage image (.ofReal line.swapped) >>= fun x => pure (Answer.number x)) = _
    rw [hscore, answer]
    cases k.scoreImage image (.ofReal line) <;> rfl
  | scoreWindowImage image line count =>
    obtain ⟨line, rfl⟩ := hq
    obtain ⟨hscores, hasks⟩ := h.scoreWindowImage_swapped hn hk image line count
    refine ⟨?_, hasks⟩
    change (l.scoreWindowImage image (.ofReal line.swapped) count >>= fun xs =>
      pure (Answer.numbers xs)) = _
    rw [hscores, answer]
    cases k.scoreWindowImage image (.ofReal line) count <;> rfl
  | score profile => exact hq.elim
  | scoreWindow array => exact hq.elim
  | bestPosition image line count => exact hq.elim

/-- One more vector, which both refuse if it has another number of blocks. -/
theorem Statistics.Rearranged.add_backward {s t : Statistics Exact}
    (h : Rearranged (backward C n) s t) (hn : 0 < n) {xs ys : List Exact}
    (hxs : Reordered (backward B n) xs ys) :
    Alike (fun s t => ∃ C', Rearranged (backward C' n) s t) (s.add xs) (t.add ys) := by
  by_cases hB : B = C
  · subst hB
    exact (h.add hxs).imp fun _ _ hadded => ⟨B, hadded⟩
  · cases h with
    | empty => exact (Rearranged.empty.add hxs).imp fun _ _ hadded => ⟨B, hadded⟩
    | ofLength moments =>
      obtain ⟨hx, hy⟩ := hxs.length_eq
      have hne : B * n ≠ C * n := fun heq => hB (Nat.eq_of_mul_eq_mul_right hn heq)
      rw [Statistics.add, Statistics.add, dif_neg (hx.trans_ne hne), dif_neg (hy.trans_ne hne), hx,
        hy]
      exact .error _

theorem Model.Rearranged.taught_backward {m m' : Model Exact}
    (h : Rearranged (backward C n) m m') (hn : 0 < n)
    {lesson lesson' : Except (Failure Exact) (List Exact)}
    (hlesson : Alike (fun xs ys => ∃ B, Reordered (backward B n) xs ys) lesson lesson') :
    Alike (fun m m' => ∃ C', Rearranged (backward C' n) m m') (m.taught lesson)
      (m'.taught lesson') := by
  refine hlesson.bind fun xs ys hxs => ?_
  obtain ⟨B, hxs⟩ := hxs
  refine (h.statistics.add_backward hn hxs).bind fun s t hstatistics => ?_
  obtain ⟨C', hstatistics⟩ := hstatistics
  exact .ok ⟨C', h.footprint, h.sampler, h.conditionLimit, hstatistics, .none⟩

section

variable [LinearAlgebra Exact] [LawfulLinearAlgebra] {strategy : Strategy} {wraps : ℕ}
  {m m' : Model Exact}

/-- What an operation does to a model, and along swapped lines to one that has learned along
swapped lines. -/
theorem Operation.swapped_cases (h : Model.Rearranged (backward C m.footprint) m m')
    (hm : m.sampler = .shipped strategy wraps) {o : Operation Exact} (ho : o.AlongLines) :
    o.swapped.reply m' = Except.map (o.swappedReply m.footprint) (o.reply m) ∧
      ∃ C', Model.Rearranged (backward C' m.footprint) (o.next m) (o.swapped.next m') := by
  have hn : 0 < m.footprint := m.footprint_pos
  cases o with
  | request r =>
    cases r with
    | update image line =>
      obtain ⟨line, rfl⟩ := ho
      have hlesson : Alike (fun xs ys => ∃ B, Reordered (backward B m.footprint) xs ys)
          (m.sampler.profile image (.ofReal line) m.footprint)
          (m'.sampler.profile image (.ofReal line.swapped) m'.footprint) := by
        rw [h.sampler, h.footprint, hm]
        exact Sampler.profile_swapped strategy wraps line image m.footprint
      have htaught := h.taught_backward hn hlesson
      exact ⟨htaught.bind_eq_map fun _ _ _ => rfl, htaught.getD ⟨C, h⟩⟩
    | setLimit limit => exact ⟨rfl, C, h.footprint, h.sampler, rfl, h.statistics, h.derived⟩
    | ask question =>
      have hscorer : Scorer.Rearranged (backward C m.scorer.footprint) m.scorer m'.scorer :=
        h.scorer
      have hk : m.scorer.sampler = .shipped strategy wraps := hm
      have hquestion : question.AlongLines := ho
      obtain ⟨hanswer, hasks⟩ := Question.answer_swapped hscorer hn hk hquestion
      obtain ⟨hreply, hnext⟩ :=
        h.asked (g := swappedReply m.footprint (request (.ask question))) hanswer hasks fun _ => rfl
      exact ⟨hreply, C, hnext⟩
    | updateVector profile => exact ho.elim
  | refine config image line => exact ho.elim

theorem Model.run_swapped (h : Rearranged (backward C m.footprint) m m')
    (hm : m.sampler = .shipped strategy wraps) {operations : List (Operation Exact)}
    (hoperations : ∀ o ∈ operations, o.AlongLines) :
    m'.replies (operations.map Operation.swapped) =
        List.zipWith (fun o => Except.map (o.swappedReply m.footprint)) operations
          (m.replies operations) ∧
      ∃ C', Rearranged (backward C' m.footprint) (m.through operations)
        (m'.through (operations.map Operation.swapped)) := by
  refine run_of_step (R := fun k k' => ∃ C, Rearranged (backward C m.footprint) k k')
    (fun k k' o hfootprint hsampler hrelated ho => ?_) rfl hm ⟨C, h⟩ hoperations
  obtain ⟨C, hrelated⟩ := hrelated
  rw [← hfootprint] at hrelated ⊢
  exact Operation.swapped_cases hrelated hsampler ho

theorem Model.Rearranged.answers_swapped {s t : Session Exact}
    (h : Rearranged (backward C n) s.model t.model) (hn : s.model.footprint = n)
    (hs : s.model.sampler = .shipped strategy wraps) (image : Raster Exact) (line : Line ℝ)
    (count : ℤ) :
    (ModelM.scoreImage image (.ofReal line.swapped)).answer t =
        (ModelM.scoreImage image (.ofReal line)).answer s ∧
      (ModelM.scoreWindowImage image (.ofReal line.swapped) count).answer t =
        Except.map List.reverse
          ((ModelM.scoreWindowImage image (.ofReal line) count).answer s) := by
  subst hn
  have hscorer : Scorer.Rearranged (backward C s.model.scorer.footprint) s.model.scorer
      t.model.scorer := h.scorer
  have hn : 0 < s.model.scorer.footprint := s.model.footprint_pos
  have hk : s.model.scorer.sampler = .shipped strategy wraps := hs
  rw [(ModelM.yields_scoreImage image _ t).answer_eq,
    (ModelM.yields_scoreImage image _ s).answer_eq,
    (ModelM.yields_scoreWindowImage image _ count t).answer_eq,
    (ModelM.yields_scoreWindowImage image _ count s).answer_eq]
  exact ⟨(hscorer.scoreImage_swapped hn hk image line).1,
    (hscorer.scoreWindowImage_swapped hn hk image line count).1⟩

/-- A run of operations along lines with one of the samplers of this library, and the same run along
the swapped lines. The samples come in the opposite order, the line of their positions is swapped,
all costs are the same, and the scores of windows come in the opposite order, in the replies and
after the runs. -/
theorem replies_along_swapped_lines {samples : ℤ} {limit : Exact}
    (h : Model.create samples (.shipped strategy wraps) limit = .ok m)
    {operations : List (Operation Exact)} (hoperations : ∀ o ∈ operations, o.AlongLines) :
    let sampler : Sampler Exact := .shipped strategy wraps
    let back := operations.map Operation.swapped
    (∀ (line : Line ℝ) (band : Raster Exact) (count : ℤ), 1 ≤ count →
      sampler.samples (.ofReal line.swapped) band count =
          Except.map List.reverse (sampler.samples (.ofReal line) band count) ∧
        sampler.sampleLine (.ofReal line.swapped) band count =
          (sampler.sampleLine (.ofReal line) band count).swapped) ∧
    (∀ (line : Line ℝ) (band : Raster Exact) (height width count : ℕ),
      band.extents = [height, width] → 0 < height → 0 < width → 0 < count →
      strategy.Reaches height width count →
      ∃ xs, xs.length = count ∧ sampler.samples (.ofReal line) band count = .ok xs ∧
        sampler.samples (.ofReal line.swapped) band count = .ok xs.reverse) ∧
    m.start.replies back =
      List.zipWith (fun o => Except.map (o.swappedReply samples.toNat)) operations
        (m.start.replies operations) ∧
    ∀ (image : Raster Exact) (line : Line ℝ) (count : ℤ),
      (ModelM.scoreImage image (.ofReal line.swapped)).answer (m.start.through back) =
          (ModelM.scoreImage image (.ofReal line)).answer (m.start.through operations) ∧
        (ModelM.scoreWindowImage image (.ofReal line.swapped) count).answer
            (m.start.through back) =
          Except.map List.reverse ((ModelM.scoreWindowImage image (.ofReal line) count).answer
            (m.start.through operations)) := by
  intro sampler back
  refine ⟨fun line band count hcount => ?_,
    fun line band height width count hband hheight hwidth hcount hreach => ?_, ?_⟩
  · exact ⟨Sampler.samples_swapped strategy wraps line band count,
      Sampler.sampleLine_swapped strategy wraps line band hcount⟩
  · exact Sampler.exists_samples_swapped strategy wraps line band hband hheight hwidth hcount
      hreach
  · obtain ⟨hfootprint, hsampler, -, hempty, hnone⟩ := Model.of_create h
    have hstart : Model.Rearranged (backward 0 m.footprint) m m := by
      refine ⟨rfl, rfl, rfl, ?_, ?_⟩
      · rw [hempty]
        exact .empty
      · rw [hnone]
        exact .none
    obtain ⟨hreplies, C, hthrough⟩ := Model.run_swapped hstart hsampler hoperations
    have hend : Model.Rearranged (backward C m.footprint) (m.start.through operations).model
        (m.start.through back).model := by
      rw [Session.model_through, Session.model_through]
      exact hthrough
    obtain ⟨hfixed, hgiven⟩ : (m.start.through operations).model.footprint = m.footprint ∧
        (m.start.through operations).model.sampler = m.sampler := by
      rw [Session.model_through]
      exact m.fixed_through operations
    rw [hfootprint] at hreplies
    rw [Session.replies_eq, Session.replies_eq]
    exact ⟨hreplies, hend.answers_swapped hfixed (hgiven.trans hsampler)⟩

end

/-- A row of three pixels, the last of them bright, that is learned once and then looked for in a
window of three samples. -/
theorem replies_along_swapped_lines_of_three :
    let image : Raster Exact := .ofRow 3 fun i => if i = 2 then 3 else 1
    let line : Line Exact := .ofReal (.alongRow 3)
    let operations : List (Operation Exact) :=
      [.request (.update image line), .request (.ask .mean),
        .request (.ask (.scoreImage image line)), .request (.ask (.scoreWindowImage image line 3))]
    ∃ m : Model Exact, Model.create 2 (.shipped .nearest 1) 1 = .ok m ∧
      (∀ o ∈ operations, o.AlongLines) ∧
      m.start.replies (operations.map Operation.swapped) =
        List.zipWith (fun o => Except.map (o.swappedReply 2)) operations
          (m.start.replies operations) := by
  intro image line operations
  obtain ⟨m, hm⟩ : ∃ m : Model Exact, Model.create 2 (.shipped .nearest 1) 1 = .ok m := ⟨_, rfl⟩
  have hline : line.IsReal := ⟨.alongRow 3, rfl⟩
  have hoperations : ∀ o ∈ operations, o.AlongLines := by
    simp [operations, Operation.AlongLines, Question.AlongLines, hline]
  exact ⟨m, hm, hoperations, (replies_along_swapped_lines hm hoperations).2.2.1⟩

end Transect
