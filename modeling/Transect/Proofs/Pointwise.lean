import Mathlib.Data.List.Forall2
import Transect.Proofs.Queries

/-!
# Samplers that look up one position at a time

The nearest pixels and the interpolated values are looked up position by position. Whether that can
be done depends on the band and on the number of positions, but not on the line. The windows of such
a sampler are the positions of the line, looked up in each band, and its parts are some of the
positions.
-/
namespace Transect

section

variable {ε β γ : Type} {f : β → Except ε γ}

theorem mapM_eq_ok {g : β → γ} {xs : List β} (h : ∀ x ∈ xs, f x = .ok (g x)) :
    xs.mapM f = .ok (xs.map g) := by
  induction xs with
  | nil => rfl
  | cons x xs ih =>
    have hx := h x List.mem_cons_self
    have hxs := ih fun y hy => h y (List.mem_cons_of_mem x hy)
    rw [List.mapM_cons, hx, hxs]
    rfl

theorem forall₂_of_mapM {xs : List β} {ys : List γ} (h : xs.mapM f = .ok ys) :
    List.Forall₂ (fun x y => f x = .ok y) xs ys := by
  induction xs generalizing ys with
  | nil =>
    cases h
    exact .nil
  | cons x xs ih =>
    rw [List.mapM_cons] at h
    cases hx : f x with
    | error e =>
      rw [hx] at h
      cases h
    | ok y =>
      cases hxs : xs.mapM f with
      | error e =>
        rw [hx, hxs] at h
        cases h
      | ok rest =>
        rw [hx, hxs] at h
        cases h
        exact .cons hx (ih hxs)

/-- A traversal that gives what another one gives, transformed item by item. -/
theorem mapM_of_forall₂ {β' γ' : Type} {g : β' → Except ε γ'} {t : γ → γ'} {xs : List β}
    {ys : List β'} (h : List.Forall₂ (fun x y => g y = Except.map t (f x)) xs ys) :
    ys.mapM g = Except.map (List.map t) (xs.mapM f) := by
  induction h with
  | nil => rfl
  | @cons x y xs ys hxy _ ih =>
    rw [List.mapM_cons, List.mapM_cons, hxy, ih]
    cases f x with
    | error e => rfl
    | ok u => cases xs.mapM f <;> rfl

theorem exists_of_forall₂ {R : β → γ → Prop} {xs : List β} {ys : List γ}
    (h : List.Forall₂ R xs ys) : ∀ x ∈ xs, ∃ y ∈ ys, R x y := by
  induction h with
  | nil => exact fun x hx => absurd hx List.not_mem_nil
  | @cons x y xs ys hxy _ ih =>
    intro z hz
    rcases List.mem_cons.mp hz with rfl | hz
    · exact ⟨y, List.mem_cons_self, hxy⟩
    · obtain ⟨u, hu, hzu⟩ := ih z hz
      exact ⟨u, List.mem_cons_of_mem y hu, hzu⟩

end

variable {α : Type}

namespace Raster

variable {r : Raster α}

theorem bands_cases {parts : List (Raster α)} (h : r.bands = .ok parts) :
    (∃ height width, r.extents = [height, width] ∧ parts = [r]) ∨
      ∃ height width n, r.extents = [height, width, n] ∧
        parts = (List.range n).map r.atThird := by
  cases hcount : r.bandCount with
  | error e => simp [bands, hcount] at h
  | ok n =>
    unfold bandCount at hcount
    split at hcount
    · next height width hr =>
      rw [bands_of_two hr] at h
      exact Or.inl ⟨height, width, hr, (Except.ok.inj h).symm⟩
    · next height width n hr =>
      rw [bands_of_three hr] at h
      exact Or.inr ⟨height, width, n, hr, (Except.ok.inj h).symm⟩
    · cases hcount

theorem exists_band_zero {parts : List (Raster α)} (h : r.bands = .ok parts) (hne : parts ≠ []) :
    ∃ first, r.band 0 = .ok first := by
  rcases bands_cases h with ⟨height, width, hr, -⟩ | ⟨height, width, n, hr, rfl⟩
  · exact ⟨r, by simp [band, hr]⟩
  · have hn : 0 < n := by
      apply Nat.pos_of_ne_zero
      rintro rfl
      exact hne rfl
    exact ⟨r.atThird 0, band_of_three hr hn⟩

/-- Whether there is some band depends on the extents only. -/
theorem band_congr {r' : Raster α} (h : r'.extents = r.extents) (index : Int) :
    (∃ e, r.band index = .error e ∧ r'.band index = .error e) ∨
      ∃ part part', r.band index = .ok part ∧ r'.band index = .ok part' := by
  simp only [band, h]
  rcases r.extents with - | ⟨height, - | ⟨width, - | ⟨n, rest⟩⟩⟩
  · exact Or.inl ⟨_, rfl, rfl⟩
  · exact Or.inl ⟨_, rfl, rfl⟩
  · by_cases hindex : index = 0
    · exact Or.inr ⟨_, _, if_pos hindex, if_pos hindex⟩
    · exact Or.inl ⟨_, if_neg hindex, if_neg hindex⟩
  · dsimp only
    cases axisIndex? n index with
    | none => exact Or.inl ⟨_, rfl, rfl⟩
    | some i => exact Or.inr ⟨_, _, rfl, rfl⟩

theorem bands_of_extents {height width n : Nat}
    (h : r.extents = [height, width] ∧ n = 1 ∨ r.extents = [height, width, n]) :
    ∃ parts, r.bands = .ok parts ∧ parts.length = n ∧
      ∀ part ∈ parts, part.extents = [height, width] := by
  rcases h with ⟨hr, rfl⟩ | hr
  · refine ⟨[r], bands_of_two hr, rfl, fun part hpart => ?_⟩
    rw [List.mem_singleton.mp hpart, hr]
  · refine ⟨_, bands_of_three hr, by simp, fun part hpart => ?_⟩
    obtain ⟨i, -, rfl⟩ := List.mem_map.mp hpart
    simp [atThird, hr]

theorem planar_of_extents {height width : Nat} (h : r.extents = [height, width]) :
    r.planar = .ok ⟨height, width, fun row column => r.cell [row, column]⟩ := by
  simp [planar, plane?, h]

end Raster

theorem Plane.not_isEmpty {height width : Nat} (hheight : 0 < height) (hwidth : 0 < width)
    {cell : Nat → Nat → α} : ¬ (Plane.mk height width cell).isEmpty = true := by
  simp [isEmpty, Nat.pos_iff_ne_zero.mp hheight, Nat.pos_iff_ne_zero.mp hwidth]

namespace Window

theorem stack_eq_ok {bands : List (List α)} {n : Nat} (hne : bands ≠ [])
    (h : ∀ band ∈ bands, band.length = n) :
    ∃ w, stack bands = .ok w ∧ w.length = n ∧ w.bands = bands := by
  cases bands with
  | nil => exact absurd rfl hne
  | cons first rest =>
    have hfirst := h first List.mem_cons_self
    have hrest : ∀ band ∈ rest, band.length = first.length := fun band hband =>
      (h band (List.mem_cons_of_mem first hband)).trans hfirst.symm
    exact ⟨_, dif_pos hrest, hfirst, rfl⟩

theorem of_stack_eq_ok {bands : List (List α)} {w : Window α} (h : stack bands = .ok w) :
    bands ≠ [] ∧ w.bands = bands := by
  cases bands with
  | nil => cases h
  | cons first rest =>
    simp only [stack] at h
    split at h
    · rw [← Except.ok.inj h]
      exact ⟨List.cons_ne_nil first rest, rfl⟩
    · cases h

theorem ext {w v : Window α} (hlength : w.length = v.length) (hbands : w.bands = v.bands) :
    w = v := by
  cases w
  cases v
  cases hlength
  cases hbands
  rfl

theorem stack_map {t : List α → List α} (u : Window α → Window α)
    (ht : ∀ row, (t row).length = row.length) (hlength : ∀ w, (u w).length = w.length)
    (hbands : ∀ w, (u w).bands = w.bands.map t) (rows : List (List α)) :
    stack (rows.map t) = Except.map u (stack rows) := by
  cases rows with
  | nil => rfl
  | cons first rest =>
    simp only [List.map_cons, stack, List.forall_mem_map, ht]
    split_ifs with hrest
    · refine congrArg Except.ok (ext ?_ ?_)
      · rw [hlength]
      · rw [hbands, List.map_cons]
    · rfl

theorem part_zero (w : Window α) : w.part w.length 0 = w.samples := by
  have hbands : ∀ bands : List (List α), (∀ band ∈ bands, band.length = w.length) →
      (bands.flatMap fun band => (band.drop 0).take w.length) = bands.flatten := by
    intro bands
    induction bands with
    | nil => intro _; rfl
    | cons band rest ih =>
      intro h
      have hband := h band List.mem_cons_self
      rw [List.flatMap_cons, List.flatten_cons, ih fun b hb => h b (List.mem_cons_of_mem band hb),
        List.drop_zero, ← hband, List.take_length]
  exact hbands w.bands w.length_eq

/-- Looking some positions up in each band. -/
def Reads (w : Window α) (bands : List (Raster α)) (value : Raster α → Point α → α)
    (positions : List (Point α)) : Prop :=
  w.bands = bands.map fun band => positions.map (value band)

variable {w : Window α} {bands : List (Raster α)} {value : Raster α → Point α → α}
  {positions : List (Point α)}

theorem Reads.part (h : w.Reads bands value positions) (n i : Nat) :
    w.part n i = bands.flatMap fun band => ((positions.drop i).take n).map (value band) := by
  rw [Window.part, h, List.flatMap_map]
  simp only [List.map_take, List.map_drop]

theorem Reads.samples (h : w.Reads bands value positions) :
    w.samples = bands.flatMap fun band => positions.map (value band) := by
  rw [Window.samples, h, List.flatMap_def]

end Window

theorem Scorer.length_scores [Scalar α] {k : Scorer α} {w : Window α} {scores : List α}
    (h : k.scoreWindow w = .ok scores) :
    k.footprint ≤ w.length ∧ scores.length = w.length - k.footprint + 1 := by
  unfold scoreWindow at h
  split_ifs at h with hlength
  refine ⟨by omega, ?_⟩
  rw [← (forall₂_of_mapM h).length_eq, List.length_range]

namespace Sampler

variable {s : Sampler α} {image : Raster α} {bands : List (Raster α)} {line : Line α} {count : Int}

theorem window_eq_ok {f : Raster α → List α} {n : Nat} (hbands : image.bands = .ok bands)
    (hne : bands ≠ []) (hf : ∀ band ∈ bands, s.samples line band count = .ok (f band))
    (hlength : ∀ band ∈ bands, (f band).length = n) :
    ∃ w, s.window image line count = .ok w ∧ w.length = n ∧ w.bands = bands.map f := by
  have hrows : ∀ row ∈ bands.map f, row.length = n := by
    intro row hrow
    obtain ⟨band, hband, rfl⟩ := List.mem_map.mp hrow
    exact hlength band hband
  obtain ⟨w, hw, hn, hwbands⟩ := Window.stack_eq_ok (by simpa using hne) hrows
  refine ⟨w, ?_, hn, hwbands⟩
  rw [window, hbands, ok_bind, mapM_eq_ok hf, ok_bind, hw]

theorem of_window_eq_ok {w : Window α} (h : s.window image line count = .ok w) :
    ∃ bands, image.bands = .ok bands ∧ bands ≠ [] ∧
      List.Forall₂ (fun band row => s.samples line band count = .ok row) bands w.bands := by
  obtain ⟨bands, hbands, h⟩ := bind_eq_ok.mp h
  obtain ⟨rows, hrows, h⟩ := bind_eq_ok.mp h
  obtain ⟨hne, hwbands⟩ := Window.of_stack_eq_ok h
  have hall := forall₂_of_mapM hrows
  refine ⟨bands, hbands, ?_, hwbands ▸ hall⟩
  rintro rfl
  cases hall
  exact hne rfl

variable [Scalar α]

/-- The samples are looked up one by one. Whether that can be done does not depend on the line. -/
structure Pointwise (s : Sampler α) (value : Raster α → Point α → α) : Prop where
  samples : ∀ band count, (∃ e, ∀ line, s.samples line band count = .error e) ∨
    ∀ line, s.samples line band count = .ok ((line.positions count.toNat).map (value band))
  sampleLine : ∀ line band count, s.sampleLine line band count = line

/-- What is looked up in a raster that is no plane does not matter. -/
def look (value : Plane α → Point α → α) (band : Raster α) (q : Point α) : α :=
  match band.plane? with
  | some p => value p q
  | none => 0

omit [Scalar α] in
theorem planar_eq_ok {band : Raster α} {p : Plane α} (h : band.planar = .ok p) :
    band.plane? = some p := by
  unfold Raster.planar at h
  split at h
  · next hp => rw [hp, Except.ok.inj h]
  · cases h

variable {band : Raster α} {p : Plane α}

theorem look_of_planar (hband : band.planar = .ok p) (value : Plane α → Point α → α) :
    look value band = value p := by
  funext q
  simp [look, planar_eq_ok hband]

theorem samples_nearest (hband : band.planar = .ok p) (hcount : ¬ count < 1) :
    nearest.samples line band count =
      if p.isEmpty then .error .noPixels
      else .ok ((line.positions count.toNat).map (look Plane.nearest band)) := by
  simp only [nearest, hband, ok_bind, Line.points, if_neg hcount, look_of_planar hband]

theorem samples_interpolated (hband : band.planar = .ok p) (hcount : ¬ count < 1) :
    interpolated.samples line band count =
      if p.isEmpty then .error .nothingToResample
      else if lookupLimit ≤ max count.toNat (max p.height p.width) then
        .error (.tooLargeToResample (max count.toNat (max p.height p.width)))
      else .ok ((line.positions count.toNat).map (look Plane.bilinear band)) := by
  simp only [interpolated, hband, ok_bind, Line.points, if_neg hcount, Plane.interpolate,
    Line.length_positions, look_of_planar hband]

theorem nearest_pointwise : (nearest : Sampler α).Pointwise (look Plane.nearest) := by
  refine ⟨fun band count => ?_, fun _ _ _ => rfl⟩
  cases hband : band.planar with
  | error e => exact Or.inl ⟨e, fun line => by simp [nearest, hband]⟩
  | ok p =>
    by_cases hcount : count < 1
    · exact Or.inl ⟨.countBelowOne count, fun line => by
        simp [nearest, hband, Line.points, hcount]⟩
    · simp only [samples_nearest hband hcount]
      by_cases hempty : p.isEmpty
      · exact Or.inl ⟨.noPixels, fun line => by rw [if_pos hempty]⟩
      · exact Or.inr fun line => by rw [if_neg hempty]

theorem interpolated_pointwise : (interpolated : Sampler α).Pointwise (look Plane.bilinear) := by
  refine ⟨fun band count => ?_, fun _ _ _ => rfl⟩
  cases hband : band.planar with
  | error e => exact Or.inl ⟨e, fun line => by simp [interpolated, hband]⟩
  | ok p =>
    by_cases hcount : count < 1
    · exact Or.inl ⟨.countBelowOne count, fun line => by
        simp [interpolated, hband, Line.points, hcount]⟩
    · simp only [samples_interpolated hband hcount]
      by_cases hempty : p.isEmpty
      · exact Or.inl ⟨.nothingToResample, fun line => by rw [if_pos hempty]⟩
      · simp only [if_neg hempty]
        by_cases hlarge : lookupLimit ≤ max count.toNat (max p.height p.width)
        · exact Or.inl ⟨_, fun line => if_pos hlarge⟩
        · exact Or.inr fun line => by rw [if_neg hlarge]

variable {inner : Sampler α}

theorem exists_pointwise (h : inner = nearest ∨ inner = interpolated) :
    ∃ value, inner.Pointwise value := by
  rcases h with rfl | rfl
  · exact ⟨_, nearest_pointwise⟩
  · exact ⟨_, interpolated_pointwise⟩

variable {value : Raster α → Point α → α}

/-- A line that can be sampled in unit steps can be moved and sampled again. -/
theorem Pointwise.window_unitStep (h : inner.Pointwise value) {w : Window α}
    (hw : (unitStep inner).window image line count = .ok w) :
    ∃ bands, image.bands = .ok bands ∧ bands ≠ [] ∧ ∀ other : Line α, ∃ v,
      (unitStep inner).window image other count = .ok v ∧ v.length = count.toNat ∧
        v.Reads bands value ((other.unitSteps count).positions count.toNat) := by
  obtain ⟨bands, hbands, hne, hsamples⟩ := of_window_eq_ok hw
  refine ⟨bands, hbands, hne, fun other => ?_⟩
  refine window_eq_ok hbands hne (fun band hband => ?_) (fun band _ => ?_)
  · obtain ⟨xs, -, hxs⟩ := exists_of_forall₂ hsamples band hband
    rcases h.samples band count with ⟨e, he⟩ | hok
    · rw [unitStep, he] at hxs
      cases hxs
    · exact hok (other.unitSteps count)
  · simp

theorem Pointwise.reads_window (h : inner.Pointwise value) {w : Window α}
    (hw : (unitStep inner).window image line count = .ok w) :
    w.length = count.toNat ∧ ∃ bands, image.bands = .ok bands ∧
      w.Reads bands value ((line.unitSteps count).positions count.toNat) := by
  obtain ⟨bands, hbands, -, hall⟩ := h.window_unitStep hw
  obtain ⟨v, hv, hlength, hreads⟩ := hall line
  rw [Except.ok.inj (hv.symm.trans hw)] at hlength hreads
  exact ⟨hlength, bands, hbands, hreads⟩

end Sampler

end Transect
