import Transect.Proofs.BandOrder
import Transect.Proofs.Movements
import Transect.Proofs.SamplePositions

/-!
# Lines sampled from the other end

A line with its start and its finish exchanged has the same positions in the opposite order, however
it is stretched before they are taken. So the samples along it are those along the line, the last
one first, and a difference does not tell from which side it is taken. In a window this is so for
each band, and in a profile within the block of each band.
-/
namespace Transect

variable {α β γ : Type}

def Line.swapped (l : Line α) : Line α := ⟨l.finish, l.start⟩

/-- Steps to both sides of a point are the same ones in either direction. -/
theorem Point.reverse_places (p : Point ℝ) (u : ℝ × ℝ) (n : ℕ) :
    (p.places u (-(((n : ℝ) - 1) / 2)) n).reverse = p.places (-u) (-(((n : ℝ) - 1) / 2)) n := by
  apply List.ext_getElem
  · simp [places]
  · intro i hi _
    have hlt : i < n := by simpa [places] using hi
    have hback : ((n - 1 - i : ℕ) : ℝ) = (n : ℝ) - 1 - i := by
      rw [Nat.sub_sub, Nat.cast_sub (by omega)]
      push_cast
      ring
    simp only [places, List.getElem_reverse, List.getElem_map, List.getElem_range, List.length_map,
      List.length_range, hback, stepped, Prod.fst_neg, Prod.snd_neg, Point.mk.injEq]
    constructor <;> ring

theorem Point.swapped_span (p : Point ℝ) (u : ℝ × ℝ) (t : ℝ) :
    (p.span u t).swapped = p.span (-u) t := by
  simp only [Line.swapped, span, stepped, Prod.fst_neg, Prod.snd_neg, mul_neg, neg_mul, neg_neg]

namespace Line

variable (l : Line ℝ)

@[simp] theorem middle_swapped : l.swapped.middle = l.middle := by
  simp only [middle, swapped, add_comm]

@[simp] theorem vector_swapped : l.swapped.vector = -l.vector := by
  simp only [vector, swapped, Prod.neg_mk, neg_sub]

@[simp] theorem extent_swapped : l.swapped.extent = l.extent := by
  simp only [extent, vector_swapped, Prod.fst_neg, Prod.snd_neg, neg_mul_neg]

theorem positions_swapped (n : ℕ) :
    (ofReal l.swapped).positions n = ((ofReal l).positions n).reverse := by
  rw [positions_ofReal, positions_ofReal, ← List.map_reverse, Point.reverse_places, middle_swapped,
    vector_swapped, smul_neg]

theorem direction_swapped : ∃ u : ℝ × ℝ,
    (ofReal l).direction = ((u.1 : Exact), (u.2 : Exact)) ∧
      (ofReal l.swapped).direction = (((-u).1 : Exact), ((-u).2 : Exact)) := by
  rw [direction_eq_ite, direction_eq_ite, extent_swapped, vector_swapped]
  split_ifs
  · exact ⟨0, rfl, by simp⟩
  · exact ⟨(l.vector.1 / l.extent, l.vector.2 / l.extent), rfl, by simp [neg_div]⟩

theorem unitSteps_swapped (n : ℤ) :
    ∃ steps : Line ℝ, (ofReal l).unitSteps n = ofReal steps ∧
      (ofReal l.swapped).unitSteps n = ofReal steps.swapped := by
  obtain ⟨u, hu, hswapped⟩ := l.direction_swapped
  refine ⟨_, unitSteps_ofReal hu n, ?_⟩
  rw [unitSteps_ofReal hswapped, middle_swapped, Point.swapped_span]

theorem innerLine_swapped (count : ℤ) (wraps : ℕ) :
    ∃ inner : Line ℝ, Sampler.innerLine count wraps (ofReal l) = ofReal inner ∧
      Sampler.innerLine count wraps (ofReal l.swapped) = ofReal inner.swapped := by
  induction wraps generalizing l with
  | zero => exact ⟨l, rfl, rfl⟩
  | succ wraps ih =>
    obtain ⟨steps, hsteps, hswapped⟩ := l.unitSteps_swapped count
    rw [Sampler.innerLine, Sampler.innerLine, hsteps, hswapped]
    exact ih steps

end Line

/-- How far apart two neighbours are does not depend on which of them comes first. -/
theorem differences_reverse (xs : List Exact) :
    differences xs.reverse = (differences xs).reverse := by
  have hpairs (ys : List Exact) : differences ys =
      ys.dropLast.zipWith (fun u v => Scalar.abs (v - u)) ys.tail := by
    rw [differences_eq_zipWith, List.zipWith_eq_zipWith_take_min, List.length_tail,
      min_eq_right (Nat.sub_le _ _), ← List.dropLast_eq_take, List.take_of_length_le (by simp)]
  have hlength : xs.dropLast.length = xs.tail.length := by simp
  rw [hpairs, hpairs, List.dropLast_reverse, List.tail_reverse, List.reverse_zipWith hlength]
  exact List.zipWith_comm_of_comm fun u v => Exact.abs_sub_swap v u

theorem Strategy.read_swapped (strategy : Strategy) (p : Plane Exact) (l : Line ℝ) (n : ℕ) :
    strategy.read p (.ofReal l.swapped) n = (strategy.read p (.ofReal l) n).reverse := by
  cases strategy with
  | nearest => rw [read, read, l.positions_swapped, List.map_reverse]
  | interpolated => rw [read, read, l.positions_swapped, List.map_reverse]
  | derivative =>
    rw [read, read, l.positions_swapped, List.map_reverse, differences_reverse]

namespace Sampler

variable (strategy : Strategy) (wraps : ℕ) (l : Line ℝ) (band : Raster Exact) (count : ℤ)

/-- The samples along a swapped line are those along the line from the other end, or neither line
can be sampled, for the same reason. -/
theorem samples_swapped :
    (shipped strategy wraps).samples (.ofReal l.swapped) band count =
      Except.map List.reverse ((shipped strategy wraps).samples (.ofReal l) band count) := by
  obtain ⟨inner, hinner, hswapped⟩ := l.innerLine_swapped count wraps
  rw [samples_shipped, samples_shipped, hinner, hswapped]
  rcases samples_eq_read strategy band count with ⟨e, he⟩ | ⟨p, -, -, -, hread⟩
  · rw [he, he]
    rfl
  · rw [hread, hread, strategy.read_swapped]
    rfl

theorem exists_samples_swapped {height width n : ℕ} (hband : band.extents = [height, width])
    (hheight : 0 < height) (hwidth : 0 < width) (hn : 0 < n)
    (hreach : strategy.Reaches height width n) :
    ∃ xs, xs.length = n ∧ (shipped strategy wraps).samples (.ofReal l) band n = .ok xs ∧
      (shipped strategy wraps).samples (.ofReal l.swapped) band n = .ok xs.reverse := by
  obtain ⟨xs, hxs⟩ := exists_samples_strategy hband hheight hwidth hn hreach
    (innerLine n wraps (.ofReal l))
  obtain ⟨-, hlength⟩ := length_samples_strategy hxs
  rw [← samples_shipped] at hxs
  refine ⟨xs, hlength.trans (Int.toNat_natCast n), hxs, ?_⟩
  rw [samples_swapped, hxs]
  rfl

theorem sampleLine_swapped {count : ℤ} (hcount : 1 ≤ count) :
    (shipped strategy wraps).sampleLine (.ofReal l.swapped) band count =
      ((shipped strategy wraps).sampleLine (.ofReal l) band count).swapped := by
  obtain ⟨inner, hinner, hswapped⟩ := l.innerLine_swapped count wraps
  rw [sampleLine_shipped, sampleLine_shipped, hinner, hswapped]
  cases strategy with
  | nearest => rfl
  | interpolated => rfl
  | derivative =>
    rw [Strategy.sampler, sampleLine_derivative hcount, sampleLine_derivative hcount,
      Line.middle_swapped, Line.vector_swapped, ← Point.swapped_span]
    rfl

end Sampler

/-- `C` blocks of `n` items, each of them in the opposite order. -/
def backward (C n : ℕ) : Equiv.Perm (Fin (C * n)) :=
  finProdFinEquiv.permCongr ((Equiv.refl (Fin C)).prodCongr Fin.revPerm)

@[simp] theorem backward_apply {C n : ℕ} (b : Fin C) (j : Fin n) :
    backward C n (finProdFinEquiv (b, j)) = finProdFinEquiv (b, j.rev) := by
  simp [backward]

/-- A list with each of its blocks of `n` items in the opposite order. -/
def blocksReversed (n : ℕ) (xs : List β) : List β :=
  (List.range (xs.length / n)).flatMap fun b => ((xs.drop (b * n)).take n).reverse

example : blocksReversed 3 [1, 2, 3, 4, 5, 6] = [3, 2, 1, 6, 5, 4] := by decide

theorem reverse_ofFn {n : ℕ} (f : Fin n → β) : (List.ofFn f).reverse = List.ofFn (f ∘ Fin.rev) := by
  rw [List.ofFn_eq_map, ← List.map_reverse, List.finRange_reverse, List.map_map, List.ofFn_eq_map]

namespace Reordered

variable {C n : ℕ}

theorem blocksReversed_eq {xs ys : List β} (h : Reordered (backward C n) xs ys) (hn : 0 < n) :
    ys = blocksReversed n xs := by
  obtain ⟨f, rfl, rfl⟩ := h
  rw [blocksReversed, List.length_ofFn, Nat.mul_div_cancel C hn, ← List.map_coe_finRange_eq_range,
    List.flatMap_map, ofFn_blocks]
  simp only [take_drop_ofFn, reverse_ofFn, Function.comp_def, backward_apply]

theorem flatMap_reverse {rows : List β} {g : β → List γ} (hg : ∀ row ∈ rows, (g row).length = n) :
    Reordered (backward rows.length n) (rows.flatMap g)
      (rows.flatMap fun row => (g row).reverse) := by
  generalize hC : rows.length = C
  obtain ⟨row, rfl⟩ := exists_eq_ofFn hC
  have hrow (b : Fin C) : ∃ f : Fin n → γ, g (row b) = List.ofFn f :=
    exists_eq_ofFn (hg (row b) (List.mem_ofFn.mpr ⟨b, rfl⟩))
  choose f hf using hrow
  have hreverse (b : Fin C) : (g (row b)).reverse = List.ofFn (f b ∘ Fin.rev) := by
    rw [hf, reverse_ofFn]
  refine ⟨fun k => f (finProdFinEquiv.symm k).1 (finProdFinEquiv.symm k).2, flatMap_ofFn hf, ?_⟩
  have hrows := flatMap_ofFn (g := fun row => (g row).reverse) hreverse
  refine hrows.trans (congrArg List.ofFn (funext fun k => ?_))
  obtain ⟨⟨b, j⟩, rfl⟩ := finProdFinEquiv.surjective k
  simp only [Function.comp_apply, backward_apply, Equiv.symm_apply_apply]

end Reordered

def Window.reversed (w : Window α) : Window α where
  length := w.length
  bands := w.bands.map List.reverse
  length_eq := List.forall_mem_map.mpr fun band hband =>
    List.length_reverse.trans (w.length_eq band hband)

/-- What is a part of a reversed window is one of the window, from the other end. -/
theorem Window.part_reversed (w : Window α) {n i : ℕ} (h : i + n ≤ w.length) :
    Reordered (backward w.bands.length n) (w.part n (w.length - n - i)) (w.reversed.part n i) := by
  have hpart : w.reversed.part n i =
      w.bands.flatMap fun band => ((band.drop (w.length - n - i)).take n).reverse := by
    rw [part, reversed, List.flatMap_map, List.flatMap_def, List.flatMap_def]
    refine congrArg List.flatten (List.map_congr_left fun band hband => ?_)
    have hlength := w.length_eq band hband
    have hend : w.length - i - n = w.length - n - i := by omega
    have hwidth : n = w.length - i - (w.length - n - i) := by omega
    rw [List.drop_reverse, List.take_reverse, List.length_take, hlength,
      min_eq_left (Nat.sub_le _ _), hend, List.drop_take, ← hwidth]
  rw [hpart]
  refine .flatMap_reverse fun band hband => ?_
  rw [List.length_take, List.length_drop, w.length_eq band hband]
  omega

theorem Window.samples_reversed (w : Window α) :
    Reordered (backward w.bands.length w.length) w.samples w.reversed.samples := by
  have h := w.part_reversed (Nat.zero_add w.length).le
  rwa [Nat.sub_self, Nat.zero_sub, part_zero, show w.length = w.reversed.length from rfl,
    part_zero] at h

namespace Sampler

variable (strategy : Strategy) (wraps : ℕ) (l : Line ℝ) (image : Raster Exact)

theorem window_swapped (count : ℤ) :
    (shipped strategy wraps).window image (.ofReal l.swapped) count =
      Except.map Window.reversed ((shipped strategy wraps).window image (.ofReal l) count) := by
  rw [window, window]
  cases image.bands with
  | error e => rfl
  | ok bands =>
    have hrows := mapM_of_forall₂ (List.forall₂_same.mpr fun band (_ : band ∈ bands) =>
      samples_swapped strategy wraps l band count)
    rw [ok_bind, ok_bind, hrows]
    cases bands.mapM fun band => (shipped strategy wraps).samples (.ofReal l) band count with
    | error e => rfl
    | ok rows =>
      exact Window.stack_map Window.reversed (fun _ => List.length_reverse) (fun _ => rfl)
        (fun _ => rfl) rows

/-- The samples of one band are a block of a profile. -/
theorem profile_swapped (n : ℕ) :
    Alike (fun xs ys => ∃ C, Reordered (backward C n) xs ys)
      ((shipped strategy wraps).profile image (.ofReal l) n)
      ((shipped strategy wraps).profile image (.ofReal l.swapped) n) := by
  rw [profile, profile, window_swapped]
  cases hw : (shipped strategy wraps).window image (.ofReal l) n with
  | error e => exact .error e
  | ok w =>
    obtain ⟨-, hlength⟩ := length_window_shipped hw
    have hsamples := w.samples_reversed
    rw [hlength, Int.toNat_natCast] at hsamples
    exact (normalize_reordered hsamples).imp fun _ _ hxs => ⟨w.bands.length, hxs⟩

end Sampler

end Transect
