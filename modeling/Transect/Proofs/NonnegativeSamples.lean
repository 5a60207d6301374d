import Mathlib.Analysis.Convex.StdSimplex
import Transect.Proofs.FlatImages

/-!
# Samples that are not negative

A value between pixels is a mean of four of them, whatever the position, so that no sample of an
image without negative values is negative. Differences are not negative in any image. Divided by
their sum such samples are shares of a whole; they have no shares only if all of them are zero.
-/
namespace Transect

def Exact.AllIn (S : Set ℝ) (xs : List Exact) : Prop := ∀ x ∈ xs, ∃ a ∈ S, x = (a : Exact)

theorem Exact.AllIn.exists_reals {S : Set ℝ} {xs : List Exact} (h : AllIn S xs) :
    ∃ ys : List ℝ, xs = ys.map finite ∧ ∀ y ∈ ys, y ∈ S := by
  choose! a ha hx using h
  refine ⟨xs.map a, ?_, List.forall_mem_map.mpr ha⟩
  rw [List.map_map]
  exact ((List.map_congr_left hx).symm.trans (List.map_id xs)).symm

def Raster.ValuesIn (r : Raster Exact) (S : Set ℝ) : Prop := Exact.AllIn S r.values

/-- An image of which no sample is negative: none of its values is, or else only differences of
values are sampled. -/
def Strategy.Admits (strategy : Strategy) (image : Raster Exact) : Prop :=
  image.ValuesIn (Set.Ici 0) ∨ strategy = .derivative ∧ image.ValuesIn Set.univ

theorem Raster.ValuesIn.band {image : Raster Exact} {S : Set ℝ} (h : image.ValuesIn S)
    {bands : List (Raster Exact)} (hbands : image.bands = .ok bands) :
    ∀ band ∈ bands, band.ValuesIn S := by
  intro band hband
  rcases bands_cases hbands with ⟨height, width, -, rfl⟩ | ⟨height, width, n, hextents, rfl⟩
  · exact List.mem_singleton.mp hband ▸ h
  · obtain ⟨i, hi, rfl⟩ := List.mem_map.mp hband
    rw [List.mem_range] at hi
    intro x hx
    obtain ⟨index, hindex, rfl⟩ := List.mem_map.mp hx
    have hplanar : (image.atThird i).extents = [height, width] := by simp [atThird, hextents]
    rw [hplanar] at hindex
    obtain ⟨row, hrow, column, hcolumn, rfl⟩ : ∃ row < height, ∃ column < width,
        [row, column] = index := by simpa [indices] using hindex
    refine h _ (List.mem_map_of_mem ?_)
    rw [hextents]
    simp [indices, hrow, hcolumn, hi]

def Plane.CellsIn (p : Plane Exact) (S : Set ℝ) : Prop :=
  ∀ row < p.height, ∀ column < p.width, ∃ a ∈ S, p.cell row column = (a : Exact)

theorem Raster.ValuesIn.cellsIn {r : Raster Exact} {S : Set ℝ} (h : r.ValuesIn S)
    {p : Plane Exact} (hp : r.planar = .ok p) : p.CellsIn S := by
  obtain ⟨hextents, hcell⟩ := of_planar_eq_ok hp
  intro row hrow column hcolumn
  rw [hcell]
  refine h _ (List.mem_map_of_mem ?_)
  rw [hextents]
  exact mem_indices hrow hcolumn

namespace Plane

variable {p : Plane Exact} {S : Set ℝ} (h : p.CellsIn S) (hempty : ¬ p.isEmpty = true)
include h hempty

theorem CellsIn.clampIndex (row column : ℤ) :
    ∃ a ∈ S, p.cell (clampIndex p.height row) (clampIndex p.width column) = (a : Exact) := by
  simp only [isEmpty, Bool.or_eq_true, decide_eq_true_eq, not_or] at hempty
  exact h _ (clampIndex_lt (Nat.pos_of_ne_zero hempty.1) row) _
    (clampIndex_lt (Nat.pos_of_ne_zero hempty.2) column)

theorem CellsIn.bilinear (hS : Convex ℝ S) (q : Point Exact) :
    ∃ a ∈ S, p.bilinear q = (a : Exact) := by
  have hcorner (row column : ℤ) : ∃ a ∈ S, p.corner row column = (a : Exact) :=
    h.clampIndex hempty row column
  choose value hvalue hcorner using hcorner
  let row := pixelOf (subpixel q.y)
  let column := pixelOf (subpixel q.x)
  let down := Int.fract (((subpixel q.y : ℤ) : ℝ) / 32)
  let right := Int.fract (((subpixel q.x : ℤ) : ℝ) / 32)
  have hmix : ∀ {t u v : ℝ}, 0 ≤ t → t < 1 → u ∈ S → v ∈ S → (1 - t) * u + t * v ∈ S :=
    fun ht ht' hu hv => hS hu hv (sub_nonneg.mpr ht'.le) ht (sub_add_cancel 1 _)
  have hlevel (r : ℤ) : (1 - right) * value r column + right * value r (column + 1) ∈ S :=
    hmix (Int.fract_nonneg _) (Int.fract_lt_one _) (hvalue _ _) (hvalue _ _)
  refine ⟨(1 - down) * ((1 - right) * value row column + right * value row (column + 1)) +
    down * ((1 - right) * value (row + 1) column + right * value (row + 1) (column + 1)),
    hmix (Int.fract_nonneg _) (Int.fract_lt_one _) (hlevel row) (hlevel (row + 1)), ?_⟩
  simp only [Plane.bilinear, hcorner, fractionOf_eq_coe, Exact.single_eq, ← Exact.coe_one,
    ← Exact.coe_sub, ← Exact.coe_mul, ← Exact.coe_add, Exact.coe_inj, add_zero]
  simp only [row, column, down, right]
  ring

theorem CellsIn.read_bilinear (hS : Convex ℝ S) (positions : List (Point Exact)) :
    Exact.AllIn S (positions.map p.bilinear) :=
  List.forall_mem_map.mpr fun q _ => h.bilinear hempty hS q

end Plane

theorem Exact.abs_sub_coe (a b : ℝ) :
    Scalar.abs ((b : Exact) - (a : Exact)) = ((|b - a| : ℝ) : Exact) := by
  rw [← Exact.coe_sub]
  rfl

theorem Exact.AllIn.differences {xs : List Exact} (h : AllIn Set.univ xs) :
    AllIn (Set.Ici 0) (differences xs) := by
  intro d hd
  obtain ⟨u, hu, v, hv, rfl⟩ := mem_differences hd
  obtain ⟨a, -, rfl⟩ := h u hu
  obtain ⟨b, -, rfl⟩ := h v hv
  exact ⟨|b - a|, Set.mem_Ici.mpr (abs_nonneg _), abs_sub_coe a b⟩

theorem differences_eq_zero_iff {xs : List Exact} (h : Exact.AllIn Set.univ xs) :
    (∀ d ∈ differences xs, d = 0) ↔ ∃ c, ∀ x ∈ xs, x = c := by
  constructor
  · intro hzero
    fun_induction differences xs with
    | case1 u v rest ih =>
      obtain ⟨hu, htail⟩ := List.forall_mem_cons.mp h
      obtain ⟨hstep, hrest⟩ := List.forall_mem_cons.mp hzero
      obtain ⟨c, hc⟩ := ih htail hrest
      obtain ⟨a, -, rfl⟩ := hu
      obtain ⟨b, -, rfl⟩ := htail v List.mem_cons_self
      rw [Exact.abs_sub_coe, ← Exact.coe_zero, Exact.coe_inj, abs_eq_zero, sub_eq_zero] at hstep
      refine ⟨c, List.forall_mem_cons.mpr ⟨?_, hc⟩⟩
      rw [← hstep]
      exact hc _ List.mem_cons_self
    | case2 xs hshort =>
      rcases xs with - | ⟨u, - | ⟨v, rest⟩⟩
      · exact ⟨0, List.forall_mem_nil _⟩
      · exact ⟨u, List.forall_mem_singleton.mpr rfl⟩
      · exact absurd rfl (hshort u v rest)
  · rintro ⟨c, hc⟩ d hd
    obtain ⟨u, hu, v, hv, rfl⟩ := mem_differences hd
    obtain ⟨a, -, rfl⟩ := h u hu
    rw [hc v hv, ← hc _ hu, Exact.abs_sub_coe, sub_self, abs_zero, Exact.coe_zero]

theorem Strategy.Admits.read {strategy : Strategy} {image band : Raster Exact}
    (h : strategy.Admits image) {bands : List (Raster Exact)} (hbands : image.bands = .ok bands)
    (hband : band ∈ bands) {p : Plane Exact} (hp : band.planar = .ok p)
    (hempty : ¬ p.isEmpty = true) (line : Line Exact) (n : ℕ) :
    Exact.AllIn (Set.Ici 0) (strategy.read p line n) := by
  rcases h with hvalues | ⟨rfl, hvalues⟩
  · have hcells := (hvalues.band hbands band hband).cellsIn hp
    cases strategy with
    | nearest => exact List.forall_mem_map.mpr fun q _ => hcells.clampIndex hempty _ _
    | interpolated => exact hcells.read_bilinear hempty (convex_Ici 0) _
    | derivative =>
      refine Exact.AllIn.differences fun x hx => ?_
      obtain ⟨a, -, rfl⟩ := hcells.read_bilinear hempty (convex_Ici 0) _ x hx
      exact ⟨a, trivial, rfl⟩
  · have hcells := (hvalues.band hbands band hband).cellsIn hp
    exact (hcells.read_bilinear hempty convex_univ _).differences

namespace Sampler

variable {strategy : Strategy} {wraps : ℕ} {image : Raster Exact} {line : Line Exact} {count : ℤ}
  {w : Window Exact}

theorem window_nonneg (himage : strategy.Admits image)
    (h : (shipped strategy wraps).window image line count = .ok w) :
    ∀ row ∈ w.bands, Exact.AllIn (Set.Ici 0) row := by
  obtain ⟨bands, hbands, -, hall⟩ := of_window_eq_ok h
  intro row hrow
  obtain ⟨band, hband, hsamples⟩ := exists_of_forall₂ hall.flip row hrow
  rw [samples_shipped] at hsamples
  obtain ⟨p, hp, hempty, -, rfl⟩ := of_samples_eq_ok hsamples
  exact himage.read hbands hband hp hempty _ _

theorem samples_nonneg (himage : strategy.Admits image)
    (h : (shipped strategy wraps).window image line count = .ok w) :
    Exact.AllIn (Set.Ici 0) w.samples := by
  intro x hx
  obtain ⟨row, hrow, hx⟩ := List.mem_flatten.mp hx
  exact window_nonneg himage h row hrow x hx

theorem part_nonneg (himage : strategy.Admits image)
    (h : (shipped strategy wraps).window image line count = .ok w) (n i : ℕ) :
    Exact.AllIn (Set.Ici 0) (w.part n i) := by
  intro x hx
  obtain ⟨row, hrow, hx⟩ := List.mem_flatMap.mp hx
  exact window_nonneg himage h row hrow x (List.mem_of_mem_drop (List.mem_of_mem_take hx))

end Sampler

theorem Strategy.Admits.real {strategy : Strategy} {image : Raster Exact}
    (h : strategy.Admits image) : image.ValuesIn Set.univ := by
  rcases h with hvalues | ⟨-, hvalues⟩
  · intro x hx
    obtain ⟨a, -, rfl⟩ := hvalues x hx
    exact ⟨a, trivial, rfl⟩
  · exact hvalues

/-- All differences are zero if the values that they are taken of are constant in each band. -/
theorem Sampler.differences_of_window {image : Raster Exact} (himage : image.ValuesIn Set.univ)
    {wraps : ℕ} {line : Line Exact} {count : ℤ} {w : Window Exact}
    (h : (shipped .derivative wraps).window image line count = .ok w)
    {bands : List (Raster Exact)} (hbands : image.bands = .ok bands) :
    (∀ x ∈ w.samples, x = 0) ↔ ∀ band ∈ bands, ∃ p, band.planar = .ok p ∧
      ∃ c, ∀ q ∈ (innerLine count wraps line).positions (count.toNat + 1), p.bilinear q = c := by
  obtain ⟨parts, hparts, -, hall⟩ := of_window_eq_ok h
  obtain rfl : parts = bands := Except.ok.inj (hparts.symm.trans hbands)
  -- Each row of the window is what has been read from its band.
  have hread {band : Raster Exact} {row : List Exact} (hband : band ∈ parts)
      (hsamples : (shipped .derivative wraps).samples line band count = .ok row) :
      ∃ p, band.planar = .ok p ∧ ((∀ x ∈ row, x = 0) ↔
        ∃ c, ∀ q ∈ (innerLine count wraps line).positions (count.toNat + 1),
          p.bilinear q = c) := by
    rw [samples_shipped] at hsamples
    obtain ⟨p, hp, hempty, -, rfl⟩ := of_samples_eq_ok hsamples
    have hcells := (himage.band hbands band hband).cellsIn hp
    refine ⟨p, hp, ?_⟩
    rw [Strategy.read, differences_eq_zero_iff (hcells.read_bilinear hempty convex_univ _)]
    simp only [List.forall_mem_map]
  constructor
  · intro hzero band hband
    obtain ⟨row, hrow, hsamples⟩ := exists_of_forall₂ hall band hband
    obtain ⟨p, hp, hiff⟩ := hread hband hsamples
    exact ⟨p, hp, hiff.mp fun x hx => hzero x (List.mem_flatten.mpr ⟨row, hrow, hx⟩)⟩
  · intro hconstant x hx
    obtain ⟨row, hrow, hx⟩ := List.mem_flatten.mp hx
    obtain ⟨band, hband, hsamples⟩ := exists_of_forall₂ hall.flip row hrow
    obtain ⟨p, hp, hiff⟩ := hread hband hsamples
    obtain ⟨p', hp', hc⟩ := hconstant band hband
    cases hp.symm.trans hp'
    exact hiff.mpr hc x hx

/-- Numbers from zero to one that add up to one. -/
def AreShares (xs : List Exact) : Prop := Exact.AllIn (Set.Icc 0 1) xs ∧ Scalar.sum xs = 1

theorem areShares_ofReals {D : ℕ} {v : Fin D → ℝ} (h : v ∈ stdSimplex ℝ (Fin D)) :
    AreShares (Exact.ofReals v) := by
  constructor
  · intro x hx
    obtain ⟨i, rfl⟩ := List.mem_ofFn.mp hx
    exact ⟨v i, mem_Icc_of_mem_stdSimplex h i, rfl⟩
  · have hsum : (Exact.ofReals v).sum = ((∑ i, v i : ℝ) : Exact) := by
      rw [Exact.ofReals, List.sum_ofFn, Exact.coe_sum]
    rw [Exact.sum_eq_list_sum, hsum, h.2, Exact.coe_one]

/-- Samples that are not negative have shares unless all of them are zero. -/
theorem normalize_of_nonneg {samples : List Exact} (h : Exact.AllIn (Set.Ici 0) samples) {D : ℕ}
    (hD : samples.length = D) :
    ((∀ x ∈ samples, x = 0) → normalize samples = .error (.degenerateProfile 0 D)) ∧
    (¬ (∀ x ∈ samples, x = 0) →
      ∃ v ∈ stdSimplex ℝ (Fin D), normalize samples = .ok (Exact.ofReals v)) := by
  subst hD
  obtain ⟨ys, rfl, hys⟩ := h.exists_reals
  have hzero : (∀ x ∈ ys.map Exact.finite, x = 0) ↔ ∀ y ∈ ys, y = 0 := by
    rw [List.forall_mem_map]
    exact forall₂_congr fun y _ => Exact.coe_inj (b := 0)
  rw [hzero]
  constructor
  · intro hall
    have hsum : Scalar.sum (ys.map Exact.finite) = 0 := by
      rw [Exact.sum_eq_list_sum, ← Exact.coe_list_sum, List.sum_eq_zero hall, Exact.coe_zero]
    rw [normalize, divisor, hsum, if_pos (by simp [← Exact.coe_zero])]
    rfl
  · intro hsome
    have hsum : ys.sum ≠ 0 := fun hsum =>
      hsome fun y hy => List.all_zero_of_le_zero_le_of_sum_eq_zero hys hsum hy
    have hpos : 0 ≤ ys.sum := List.sum_nonneg hys
    have hprofile := normalize_finite hsum
    obtain ⟨v, hv, hone⟩ := exists_ofReals_of_normalize hprofile rfl
    refine ⟨v, ⟨fun i => ?_, hone⟩, hprofile.trans (congrArg Except.ok hv)⟩
    have hmem : (v i : Exact) ∈ (ys.map (· / ys.sum)).map Exact.finite :=
      hv ▸ List.mem_ofFn.mpr ⟨i, rfl⟩
    obtain ⟨_, hshare, hi⟩ := List.mem_map.mp hmem
    obtain ⟨y, hy, rfl⟩ := List.mem_map.mp hshare
    rw [← Exact.coe_inj.mp hi]
    exact div_nonneg (hys y hy) hpos

section

variable {α : Type}

theorem bind_eq_error {β γ : Type} {x : Except (Failure α) β} {f : β → Except (Failure α) γ}
    {e : Failure α} : (x >>= f) = .error e ↔ x = .error e ∨ ∃ b, x = .ok b ∧ f b = .error e := by
  cases x <;> simp

theorem exists_of_mapM_eq_error {ε β γ : Type} {f : β → Except ε γ} {e : ε} {xs : List β}
    (h : xs.mapM f = .error e) : ∃ x ∈ xs, f x = .error e := by
  induction xs with
  | nil => cases h
  | cons x xs ih =>
    cases hx : f x with
    | error e' =>
      rw [List.mapM_cons, hx] at h
      cases h
      exact ⟨x, List.mem_cons_self, hx⟩
    | ok y =>
      cases hxs : xs.mapM f with
      | ok ys =>
        rw [List.mapM_cons, hx, hxs] at h
        cases h
      | error e' =>
        rw [List.mapM_cons, hx, hxs] at h
        cases h
        obtain ⟨z, hz, hfailed⟩ := ih hxs
        exact ⟨z, List.mem_cons_of_mem x hz, hfailed⟩

theorem Raster.bands_eq_error {r : Raster α} {e : Failure α} (h : r.bands = .error e) :
    e = .imageNotPlanar r.extents := by
  unfold bands at h
  rcases bind_eq_error.mp h with hcount | ⟨n, hcount, -⟩
  · unfold bandCount at hcount
    split at hcount <;> cases hcount
    rfl
  · unfold bandCount at hcount
    split at hcount
    · next height width hr =>
      exact absurd ((bands_of_two hr).symm.trans h) nofun
    · next height width n hr =>
      exact absurd ((bands_of_three hr).symm.trans h) nofun
    · cases hcount

variable [Scalar α] {strategy : Strategy} {wraps : ℕ} {total : α} {length : ℕ}

theorem Sampler.samples_ne_degenerate (line : Line α) (band : Raster α) (count : ℤ) :
    (shipped strategy wraps).samples line band count ≠
      .error (.degenerateProfile total length) := by
  rw [samples_shipped]
  generalize innerLine count wraps line = inner
  intro h
  cases hp : band.planar with
  | error e =>
    have he : e = .bandNotPlanar band.extents := by
      unfold Raster.planar at hp
      split at hp <;> cases hp
      rfl
    cases strategy <;>
      simp [Strategy.sampler, nearest, interpolated, derivative, hp, he] at h
  | ok p =>
    by_cases hcount : count < 1
    · rw [samples_of_count_lt hp hcount] at h
      cases h
    · cases strategy with
      | nearest =>
        rw [Strategy.sampler, samples_nearest hp hcount] at h
        split_ifs at h
        cases h
      | interpolated =>
        rw [Strategy.sampler, samples_interpolated hp hcount] at h
        split_ifs at h <;> cases h
      | derivative =>
        rw [Strategy.sampler, samples_derivative hp hcount] at h
        split_ifs at h <;> cases h

theorem Sampler.window_ne_degenerate (image : Raster α) (line : Line α) (count : ℤ) :
    (shipped strategy wraps).window image line count ≠
      .error (.degenerateProfile total length) := by
  intro h
  rcases bind_eq_error.mp h with hbands | ⟨bands, -, h⟩
  · cases Raster.bands_eq_error hbands
  rcases bind_eq_error.mp h with hrows | ⟨rows, -, h⟩
  · obtain ⟨band, -, hsamples⟩ := exists_of_mapM_eq_error hrows
    exact samples_ne_degenerate line band count hsamples
  · unfold Window.stack at h
    split at h
    · cases h
    · split_ifs at h
      cases h

end

namespace Sampler

variable {strategy : Strategy} {wraps : ℕ} {image : Raster Exact} {line : Line Exact} {count : ℤ}
  (himage : strategy.Admits image)
include himage

theorem profile_of_window {w : Window Exact}
    (h : (shipped strategy wraps).window image line count = .ok w) {D : ℕ}
    (hD : w.samples.length = D) :
    ((∀ x ∈ w.samples, x = 0) →
      (shipped strategy wraps).profile image line count = .error (.degenerateProfile 0 D)) ∧
    (¬ (∀ x ∈ w.samples, x = 0) → ∃ v ∈ stdSimplex ℝ (Fin D),
      (shipped strategy wraps).profile image line count = .ok (Exact.ofReals v)) := by
  rw [profile, h, ok_bind]
  exact normalize_of_nonneg (samples_nonneg himage h) hD

theorem exists_of_profile {profile : List Exact}
    (h : (shipped strategy wraps).profile image line count = .ok profile) :
    ∃ D, ∃ v ∈ stdSimplex ℝ (Fin D), profile = Exact.ofReals v := by
  obtain ⟨w, hw, -⟩ := bind_eq_ok.mp h
  obtain ⟨hzero, hsome⟩ := profile_of_window himage hw rfl
  by_cases hall : ∀ x ∈ w.samples, x = 0
  · rw [hzero hall] at h
    cases h
  · obtain ⟨v, hv, hprofile⟩ := hsome hall
    exact ⟨_, v, hv, Except.ok.inj (h.symm.trans hprofile)⟩

theorem profile_degenerate_iff :
    (∃ total length, (shipped strategy wraps).profile image line count =
        .error (.degenerateProfile total length)) ↔
      ∃ w, (shipped strategy wraps).window image line count = .ok w ∧ ∀ x ∈ w.samples, x = 0 := by
  constructor
  · rintro ⟨total, length, h⟩
    rcases bind_eq_error.mp h with hwindow | ⟨w, hw, -⟩
    · exact absurd hwindow (window_ne_degenerate image line count)
    · refine ⟨w, hw, ?_⟩
      by_contra hsome
      obtain ⟨v, -, hprofile⟩ := (profile_of_window himage hw rfl).2 hsome
      exact absurd (hprofile.symm.trans h) nofun
  · rintro ⟨w, hw, hzero⟩
    exact ⟨_, _, (profile_of_window himage hw rfl).1 hzero⟩

end Sampler

end Transect
