import Transect.Proofs.RealLookups
import Transect.Proofs.ShippedSamplers
import Transect.Proofs.Trained

/-!
# Images without structure

Where a band has the same value everywhere, its samples along any line are all equal, or none of
them is a finite number. To a model all offsets of a window of such samples are the same.
-/
namespace Transect

/-- Whether each band has one value at all of its indices. -/
def Raster.IsFlat {α : Type} (r : Raster α) : Prop :=
  ∀ bands, r.bands = .ok bands →
    ∀ band ∈ bands, ∃ c, ∀ index ∈ indices band.extents, band.cell index = c

/-- Samples that are all equal, or of which none is finite. -/
def Flat (row : List Exact) : Prop :=
  (∃ c, ∀ x ∈ row, x = c) ∨ ∀ x ∈ row, Scalar.isFinite x = false

theorem exists_error_of_not_finite {samples : List Exact} {x : Exact} (hx : x ∈ samples)
    (h : Scalar.isFinite x = false) : ∃ e, normalize samples = .error e := by
  cases hprofile : normalize samples with
  | error e => exact ⟨e, rfl⟩
  | ok profile =>
    obtain ⟨total, -, hsum, -⟩ := normalize_eq_ok hprofile
    obtain ⟨ys, rfl⟩ := Exact.exists_coe_of_sum_eq_coe hsum
    obtain ⟨y, -, rfl⟩ := List.mem_map.mp hx
    cases h

theorem mem_differences {α : Type} [Scalar α] {xs : List α} {d : α} (h : d ∈ differences xs) :
    ∃ u ∈ xs, ∃ v ∈ xs, d = Scalar.abs (v - u) := by
  fun_induction differences xs with
  | case1 u v rest ih =>
    rcases List.mem_cons.mp h with rfl | h
    · exact ⟨u, by simp, v, by simp, rfl⟩
    · obtain ⟨s, hs, t, ht, rfl⟩ := ih h
      exact ⟨s, List.mem_cons_of_mem u hs, t, List.mem_cons_of_mem u ht, rfl⟩
  | case2 => cases h

theorem Flat.differences {row : List Exact} (h : Flat row) : Flat (differences row) := by
  rcases h with ⟨c, hc⟩ | hinfinite
  · refine Or.inl ⟨Scalar.abs (c - c), fun d hd => ?_⟩
    obtain ⟨u, hu, v, hv, rfl⟩ := mem_differences hd
    rw [hc u hu, hc v hv]
  · refine Or.inr fun d hd => ?_
    obtain ⟨u, -, v, hv, rfl⟩ := mem_differences hd
    by_contra hfinite
    rw [Bool.not_eq_false] at hfinite
    have hv' := Exact.isFinite_of_sub (Exact.isFinite_of_abs hfinite)
    rw [hinfinite v hv] at hv'
    cases hv'

theorem clampIndex_lt {n : ℕ} (h : 0 < n) (i : ℤ) : clampIndex n i < n := by
  simp only [clampIndex]
  omega

namespace Plane

variable {p : Plane Exact} {c : Exact}
  (hflat : ∀ row < p.height, ∀ column < p.width, p.cell row column = c)
  (hempty : ¬ p.isEmpty = true)
include hflat hempty

theorem cell_clampIndex (row column : ℤ) :
    p.cell (clampIndex p.height row) (clampIndex p.width column) = c := by
  simp only [isEmpty, Bool.or_eq_true, decide_eq_true_eq, not_or] at hempty
  exact hflat _ (clampIndex_lt (Nat.pos_of_ne_zero hempty.1) row) _
    (clampIndex_lt (Nat.pos_of_ne_zero hempty.2) column)

theorem nearest_of_flat (q : Point Exact) : p.nearest q = c := cell_clampIndex hflat hempty _ _

theorem corner_of_flat (row column : ℤ) : p.corner row column = c :=
  cell_clampIndex hflat hempty row column

theorem bilinear_of_flat {a : ℝ} (hc : c = a) (q : Point Exact) : p.bilinear q = a := by
  simp only [bilinear, corner_of_flat hflat hempty, hc, fractionOf_eq_coe, Exact.single_eq,
    ← Exact.coe_one, ← Exact.coe_sub, ← Exact.coe_mul, ← Exact.coe_add, Exact.coe_inj]
  ring

theorem isFinite_of_bilinear {q : Point Exact} (h : Scalar.isFinite (p.bilinear q) = true) :
    Scalar.isFinite c = true := by
  simp only [bilinear, corner_of_flat hflat hempty] at h
  exact Exact.isFinite_of_mul (Exact.isFinite_of_add h).2

end Plane

theorem flat_bilinear {p : Plane Exact} {c : Exact}
    (hflat : ∀ row < p.height, ∀ column < p.width, p.cell row column = c)
    (hempty : ¬ p.isEmpty = true) (positions : List (Point Exact)) :
    Flat (positions.map p.bilinear) := by
  cases hc : Scalar.isFinite c with
  | true =>
    obtain ⟨a, ha⟩ := Exact.exists_coe_of_isFinite hc
    exact Or.inl ⟨a, List.forall_mem_map.mpr fun q _ => Plane.bilinear_of_flat hflat hempty ha q⟩
  | false =>
    refine Or.inr (List.forall_mem_map.mpr fun q _ => ?_)
    by_contra hfinite
    rw [Bool.not_eq_false] at hfinite
    rw [Plane.isFinite_of_bilinear hflat hempty hfinite] at hc
    cases hc

theorem Strategy.flat_read (strategy : Strategy) {p : Plane Exact} {c : Exact}
    (hflat : ∀ row < p.height, ∀ column < p.width, p.cell row column = c)
    (hempty : ¬ p.isEmpty = true) (line : Line Exact) (n : ℕ) : Flat (strategy.read p line n) := by
  cases strategy with
  | nearest =>
    exact Or.inl ⟨c, List.forall_mem_map.mpr fun q _ => Plane.nearest_of_flat hflat hempty q⟩
  | interpolated => exact flat_bilinear hflat hempty _
  | derivative => exact (flat_bilinear hflat hempty _).differences

namespace Raster

theorem of_planar_eq_ok {α : Type} {r : Raster α} {p : Plane α} (h : r.planar = .ok p) :
    r.extents = [p.height, p.width] ∧ ∀ row column, p.cell row column = r.cell [row, column] := by
  have hplane := Sampler.planar_eq_ok h
  unfold plane? at hplane
  split at hplane
  · next height width hr =>
    cases hplane
    exact ⟨hr, fun _ _ => rfl⟩
  · cases hplane

theorem mem_indices {height width row column : ℕ} (hrow : row < height) (hcolumn : column < width) :
    [row, column] ∈ indices [height, width] := by
  simp [indices, hrow, hcolumn]

end Raster

namespace Sampler

variable {strategy : Strategy} {wraps : ℕ} {image : Raster Exact} {line : Line Exact} {count : ℤ}
  {w : Window Exact}

theorem flat_window (hflat : image.IsFlat)
    (h : (shipped strategy wraps).window image line count = .ok w) : ∀ row ∈ w.bands, Flat row := by
  obtain ⟨bands, hbands, -, hall⟩ := of_window_eq_ok h
  intro row hrow
  obtain ⟨band, hband, hsamples⟩ := exists_of_forall₂ hall.flip row hrow
  rw [samples_shipped] at hsamples
  obtain ⟨p, hplane, hempty, -, rfl⟩ := of_samples_eq_ok hsamples
  obtain ⟨c, hc⟩ := hflat bands hbands band hband
  obtain ⟨hextents, hcell⟩ := Raster.of_planar_eq_ok hplane
  refine strategy.flat_read (c := c) (fun i hi j hj => ?_) hempty _ _
  rw [hcell, hc]
  rw [hextents]
  exact Raster.mem_indices hi hj

end Sampler

def Raster.filled {α : Type} (height width : ℕ) (c : α) : Raster α := ⟨[height, width], fun _ => c⟩

theorem Sampler.exists_window_filled {α : Type} [Scalar α] {height width n : ℕ}
    (hheight : 0 < height) (hwidth : 0 < width) (hn : 0 < n) (wraps : ℕ) (c : α) (line : Line α) :
    ∃ w, (shipped .nearest wraps).window (.filled height width c) line n = .ok w ∧ w.length = n ∧
      w.bands = [List.replicate n c] := by
  have hsamples : ∀ band ∈ [Raster.filled height width c],
      (shipped .nearest wraps).samples line band n = .ok (List.replicate n c) := by
    intro band hband
    rw [List.mem_singleton.mp hband, samples_shipped, Strategy.sampler,
      samples_nearest (Raster.planar_of_extents rfl) (by omega),
      if_neg (Plane.not_isEmpty hheight hwidth), Int.toNat_natCast]
    refine congrArg Except.ok (List.eq_replicate_iff.mpr ⟨by simp, fun x hx => ?_⟩)
    obtain ⟨q, -, rfl⟩ := List.mem_map.mp hx
    rfl
  exact window_eq_ok (Raster.bands_of_two rfl) (List.cons_ne_nil _ []) hsamples
    fun _ _ => List.length_replicate

namespace Window

variable {w : Window Exact} (hflat : ∀ row ∈ w.bands, Flat row) {n i j : ℕ}
  (hi : i + n ≤ w.length) (hj : j + n ≤ w.length)
include hflat hi hj

theorem normalize_part_of_flat (hn : 0 < n) :
    w.part n i = w.part n j ∨
      ∃ e e', normalize (w.part n i) = .error e ∧ normalize (w.part n j) = .error e' := by
  by_cases hequal : ∀ row ∈ w.bands, ∃ c, ∀ x ∈ row, x = c
  · refine Or.inl (List.flatMap_congr fun row hrow => ?_)
    obtain ⟨c, hc⟩ := hequal row hrow
    have hlength := w.length_eq row hrow
    have hpart : ∀ {k}, k + n ≤ w.length → (row.drop k).take n = List.replicate n c := by
      intro k hk
      refine List.eq_replicate_iff.mpr ⟨?_, fun x hx => ?_⟩
      · simp only [List.length_take, List.length_drop, hlength]
        omega
      · exact hc x (List.mem_of_mem_drop (List.mem_of_mem_take hx))
    rw [hpart hi, hpart hj]
  · obtain ⟨row, hrow, hdiffer⟩ := not_forall₂.mp hequal
    have hinfinite := (hflat row hrow).resolve_left hdiffer
    have hpart : ∀ {k}, k + n ≤ w.length → ∃ e, normalize (w.part n k) = .error e := by
      intro k hk
      have hlength := w.length_eq row hrow
      have hlt : k < row.length := by omega
      have hmem : row[k] ∈ (row.drop k).take n := by
        rw [List.drop_eq_getElem_cons hlt, List.take_cons hn]
        exact List.mem_cons_self
      exact exists_error_of_not_finite (List.mem_flatMap.mpr ⟨row, hrow, hmem⟩)
        (hinfinite _ (List.getElem_mem hlt))
    obtain ⟨e, he⟩ := hpart hi
    obtain ⟨e', he'⟩ := hpart hj
    exact Or.inr ⟨e, e', he, he'⟩

end Window

namespace Scorer

variable {k : Scorer Exact} {w : Window Exact} (hflat : ∀ row ∈ w.bands, Flat row)
  (hn : 0 < k.footprint)
include hflat hn

theorem scoreOffset_of_flat {i j : ℕ} (hi : i + k.footprint ≤ w.length)
    (hj : j + k.footprint ≤ w.length) : k.scoreOffset w i = k.scoreOffset w j := by
  rw [scoreOffset_eq_match, scoreOffset_eq_match]
  rcases Window.normalize_part_of_flat hflat hi hj hn with hpart | ⟨e, e', he, he'⟩
  · rw [hpart]
  · rw [he, he']

theorem scores_of_flat {scores : List Exact} (h : k.scoreWindow w = .ok scores) :
    ∀ x ∈ scores, ∀ y ∈ scores, x = y := by
  unfold scoreWindow at h
  split_ifs at h with hlength
  have hall := (forall₂_of_mapM h).flip
  intro x hx y hy
  obtain ⟨i, hi, hscore⟩ := exists_of_forall₂ hall x hx
  obtain ⟨j, hj, hscore'⟩ := exists_of_forall₂ hall y hy
  rw [List.mem_range] at hi hj
  rw [scoreOffset_of_flat hflat hn (i := i) (j := j) (by omega) (by omega), hscore'] at hscore
  exact (Except.ok.inj hscore).symm

end Scorer

end Transect
