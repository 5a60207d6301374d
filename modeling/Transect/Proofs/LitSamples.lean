import Transect.Proofs.FlatImages

/-!
# Samples in other light

If all values of an image are multiplied by a number, the samples along a line are multiplied too,
and so is their sum. Differences of neighbouring values also cancel a constant that is added to a
band. What cannot be sampled cannot be sampled in any light.
-/
namespace Transect

/-- A change of light: all values are multiplied by the gain, and the offset of its band is added to
each of them. -/
structure Light where
  gain : ℝ
  gain_ne_zero : gain ≠ 0
  offset : ℕ → ℝ

/-- Only differences are not affected by what is added. -/
def Light.Suits (light : Light) (strategy : Strategy) : Prop :=
  strategy = .derivative ∨ ∀ band, light.offset band = 0

noncomputable def Raster.under (r : Raster Exact) (light : Light) : Raster Exact where
  extents := r.extents
  cell index := (light.gain : Exact) * r.cell index + (light.offset (index.getD 2 0) : Exact)

noncomputable def scaleBy (a : ℝ) (xs : List Exact) : List Exact := xs.map ((a : Exact) * ·)

/-- Two outcomes that are the same, or that both tell of samples that cannot be normalized. The sums
of these samples may differ. -/
inductive SameOutcome {α β : Type} : (x y : Except (Failure α) β) → Prop where
  | same (x : Except (Failure α) β) : SameOutcome x x
  | degenerate (total total' : α) (length : Nat) :
    SameOutcome (.error (.degenerateProfile total length))
      (.error (.degenerateProfile total' length))

theorem SameOutcome.bind {α β γ : Type} {x y : Except (Failure α) β} (h : SameOutcome x y)
    (f : β → Except (Failure α) γ) : SameOutcome (x >>= f) (y >>= f) := by
  cases h with
  | same => exact .same _
  | degenerate total total' length => exact .degenerate total total' length

theorem SameOutcome.toOption_eq {α β : Type} {x y : Except (Failure α) β} (h : SameOutcome x y) :
    x.toOption = y.toOption := by
  cases h <;> rfl

@[simp] theorem length_scaleBy (a : ℝ) (xs : List Exact) : (scaleBy a xs).length = xs.length :=
  List.length_map _

theorem scaleBy_inv_scaleBy {a : ℝ} (ha : a ≠ 0) (xs : List Exact) :
    scaleBy a⁻¹ (scaleBy a xs) = xs := by
  have hback (x : Exact) : ((a⁻¹ : ℝ) : Exact) * (a * x) = x := by
    obtain ⟨b, rfl⟩ | ⟨s, rfl⟩ := Exact.finite_or_infinity x
    · rw [← Exact.coe_mul, ← Exact.coe_mul, inv_mul_cancel_left₀ ha]
    · rw [Exact.coe_mul_infinity, Exact.coe_mul_infinity, ← mul_assoc, ← sign_mul,
        inv_mul_cancel₀ ha, sign_one, one_mul]
  rw [scaleBy, scaleBy, List.map_map]
  exact (List.map_congr_left fun x _ => hback x).trans (List.map_id xs)

theorem normalize_scaleBy_of_ok {a : ℝ} (ha : a ≠ 0) {samples profile : List Exact}
    (h : normalize samples = .ok profile) : normalize (scaleBy a samples) = .ok profile := by
  obtain ⟨total, hne, hsum, -⟩ := normalize_eq_ok h
  obtain ⟨ys, rfl⟩ := Exact.exists_coe_of_sum_eq_coe hsum
  have htotal : ys.sum ≠ 0 := by
    rw [← Exact.coe_list_sum, Exact.coe_inj] at hsum
    rwa [hsum]
  have hscaled : scaleBy a (ys.map Exact.finite) = (ys.map (a * ·)).map Exact.finite := by
    rw [scaleBy, List.map_map, List.map_map]
    rfl
  have hsums : (ys.map (a * ·)).sum = a * ys.sum := by
    rw [List.sum_map_mul_left, List.map_id']
  have hshares : (ys.map (a * ·)).map (· / (a * ys.sum)) = ys.map (· / ys.sum) := by
    simp only [List.map_map, Function.comp_def, mul_div_mul_left _ _ ha]
  have hdefined : (ys.map (a * ·)).sum ≠ 0 := hsums ▸ mul_ne_zero ha htotal
  rw [hscaled, normalize_finite hdefined, hsums, hshares, ← normalize_finite htotal, h]

theorem normalize_scaleBy {a : ℝ} (ha : a ≠ 0) (samples : List Exact) :
    SameOutcome (normalize (scaleBy a samples)) (normalize samples) := by
  cases hok : normalize samples with
  | ok profile =>
    rw [normalize_scaleBy_of_ok ha hok]
    exact .same _
  | error e =>
    cases hscaled : normalize (scaleBy a samples) with
    | ok profile =>
      have hback := normalize_scaleBy_of_ok (inv_ne_zero ha) hscaled
      rw [scaleBy_inv_scaleBy ha, hok] at hback
      cases hback
    | error e' =>
      obtain ⟨total, rfl⟩ := normalize_eq_error hok
      obtain ⟨total', rfl⟩ := normalize_eq_error hscaled
      rw [length_scaleBy]
      exact .degenerate _ _ _

namespace Plane

noncomputable def under (p : Plane Exact) (gain offset : ℝ) : Plane Exact :=
  ⟨p.height, p.width, fun row column => (gain : Exact) * p.cell row column + (offset : Exact)⟩

@[simp] theorem height_under (p : Plane Exact) (gain offset : ℝ) :
    (p.under gain offset).height = p.height := rfl

@[simp] theorem width_under (p : Plane Exact) (gain offset : ℝ) :
    (p.under gain offset).width = p.width := rfl

@[simp] theorem isEmpty_under (p : Plane Exact) (gain offset : ℝ) :
    (p.under gain offset).isEmpty = p.isEmpty := rfl

variable {gain : ℝ} (hgain : gain ≠ 0)
include hgain

omit hgain in
theorem corner_under (p : Plane Exact) (offset : ℝ) (row column : ℤ) :
    (p.under gain offset).corner row column =
      (gain : Exact) * p.corner row column + (offset : Exact) := rfl

theorem weighted_under (offset : ℝ) (x y z t : Exact) {a b c d : ℝ} (h : a + b + c + d = 1) :
    ((gain : Exact) * x + (offset : Exact)) * (a : Exact) +
        ((gain : Exact) * y + (offset : Exact)) * (b : Exact) +
        ((gain : Exact) * z + (offset : Exact)) * (c : Exact) +
        ((gain : Exact) * t + (offset : Exact)) * (d : Exact) =
      (gain : Exact) * (x * a + y * b + z * c + t * d) + (offset : Exact) := by
  have hoffset : (offset : Exact) = ((offset * a : ℝ) : Exact) + ((offset * b : ℝ) : Exact) +
      ((offset * c : ℝ) : Exact) + ((offset * d : ℝ) : Exact) := by
    rw [← Exact.coe_add, ← Exact.coe_add, ← Exact.coe_add, ← mul_add, ← mul_add, ← mul_add, h,
      mul_one]
  simp only [Exact.add_coe_mul, Exact.coe_mul_mul_coe, Exact.coe_mul_add hgain]
  rw [hoffset]
  abel

/-- How much the four pixels count depends on the position only. -/
theorem bilinear_under (p : Plane Exact) (offset : ℝ) (q : Point Exact) :
    (p.under gain offset).bilinear q = (gain : Exact) * p.bilinear q + (offset : Exact) := by
  simp only [bilinear, corner_under, fractionOf_eq_coe, Exact.single_eq, ← Exact.coe_one,
    ← Exact.coe_sub, ← Exact.coe_mul]
  exact weighted_under hgain offset _ _ _ _ (by ring)

end Plane

/-- Neighbours that are brighter by the same amount are as different as before. -/
theorem differences_under {gain : ℝ} (hgain : gain ≠ 0) (offset : ℝ) (xs : List Exact) :
    differences (xs.map fun x => (gain : Exact) * x + (offset : Exact)) =
      scaleBy |gain| (differences xs) := by
  have hstep (u v : Exact) : Scalar.abs ((gain : Exact) * v + (offset : Exact) -
      ((gain : Exact) * u + (offset : Exact))) = ((|gain| : ℝ) : Exact) * Scalar.abs (v - u) := by
    rw [Exact.add_coe_sub_add_coe, ← Exact.coe_mul_sub hgain, Exact.abs_coe_mul hgain]
  fun_induction differences xs with
  | case1 u v rest ih =>
    simp only [List.map_cons, differences, scaleBy, hstep] at ih ⊢
    rw [ih]
  | case2 xs hshort =>
    rcases xs with - | ⟨u, - | ⟨v, rest⟩⟩
    · rfl
    · rfl
    · exact absurd rfl (hshort u v rest)

/-- The factor of the samples: differences are taken without their signs. -/
noncomputable def Strategy.factor (strategy : Strategy) (gain : ℝ) : ℝ :=
  if strategy = .derivative then |gain| else gain

theorem Strategy.factor_ne_zero (strategy : Strategy) {gain : ℝ} (h : gain ≠ 0) :
    strategy.factor gain ≠ 0 := by
  unfold factor
  split_ifs
  · exact abs_ne_zero.mpr h
  · exact h

section

variable {strategy : Strategy} {gain offset : ℝ} (hgain : gain ≠ 0)
  (hoffset : strategy = .derivative ∨ offset = 0)
include hgain hoffset

theorem Strategy.read_under (p : Plane Exact) (line : Line Exact) (n : ℕ) :
    strategy.read (p.under gain offset) line n =
      scaleBy (strategy.factor gain) (strategy.read p line n) := by
  have hbilinear : (p.under gain offset).bilinear = fun q =>
      (gain : Exact) * p.bilinear q + (offset : Exact) :=
    funext fun q => p.bilinear_under hgain offset q
  cases strategy with
  | nearest =>
    obtain rfl := hoffset.resolve_left (by decide)
    simp [read, factor, scaleBy, Plane.nearest, Plane.under]
  | interpolated =>
    obtain rfl := hoffset.resolve_left (by decide)
    simp [read, factor, scaleBy, hbilinear]
  | derivative =>
    have h := differences_under hgain offset ((line.positions (n + 1)).map p.bilinear)
    rw [List.map_map] at h
    simpa [read, factor, hbilinear, Function.comp_def] using h

theorem Sampler.samples_under {band band' : Raster Exact}
    (hband : band'.planar = Except.map (·.under gain offset) band.planar) (line : Line Exact)
    (count : ℤ) :
    strategy.sampler.samples line band' count =
      Except.map (scaleBy (strategy.factor gain)) (strategy.sampler.samples line band count) := by
  cases hp : band.planar with
  | error e =>
    have hband' : band'.planar = .error e := by rw [hband, hp]; rfl
    cases strategy <;>
      simp [Strategy.sampler, nearest, interpolated, derivative, hp, hband', Except.map]
  | ok p =>
    have hband' : band'.planar = .ok (p.under gain offset) := by rw [hband, hp]; rfl
    have hread := Strategy.read_under hgain hoffset p line
    by_cases hcount : count < 1
    · cases strategy <;>
        simp [Strategy.sampler, nearest, interpolated, derivative, hp, hband', Line.points, hcount,
          Except.map]
    · cases strategy with
      | nearest =>
        rw [Strategy.sampler, samples_nearest hp hcount, samples_nearest hband' hcount,
          look_of_planar hp, look_of_planar hband', Plane.isEmpty_under]
        split_ifs
        · rfl
        · exact congrArg Except.ok (hread count.toNat)
      | interpolated =>
        rw [Strategy.sampler, samples_interpolated hp hcount, samples_interpolated hband' hcount,
          look_of_planar hp, look_of_planar hband', Plane.isEmpty_under, Plane.height_under,
          Plane.width_under]
        split_ifs
        · rfl
        · rfl
        · exact congrArg Except.ok (hread count.toNat)
      | derivative =>
        have hlookups : (count + 1).toNat = count.toNat + 1 := by omega
        rw [Strategy.sampler, samples_derivative hp hcount, samples_derivative hband' hcount,
          Plane.isEmpty_under, Plane.height_under, Plane.width_under, hlookups]
        split_ifs
        · rfl
        · rfl
        · exact congrArg Except.ok (hread count.toNat)

end

namespace Raster

/-- A band that differs from another one in the light only. -/
def Relit (strategy : Strategy) (gain : ℝ) (band band' : Raster Exact) : Prop :=
  ∃ offset : ℝ, (strategy = .derivative ∨ offset = 0) ∧
    band'.planar = Except.map (·.under gain offset) band.planar

variable {strategy : Strategy} {light : Light} (h : light.Suits strategy) (image : Raster Exact)
include h

theorem bands_under :
    (∃ e, image.bands = .error e ∧ (image.under light).bands = .error e) ∨
      ∃ bands bands', image.bands = .ok bands ∧ (image.under light).bands = .ok bands' ∧
        List.Forall₂ (Relit strategy light.gain) bands bands' := by
  have hoffset (i : ℕ) : strategy = .derivative ∨ light.offset i = 0 := h.imp_right fun h => h i
  have hextents : (image.under light).extents = image.extents := rfl
  cases hcount : image.bandCount with
  | error e =>
    have hcount' : (image.under light).bandCount = .error e := hcount
    exact Or.inl ⟨e, by simp [bands, hcount], by simp [bands, hcount']⟩
  | ok n =>
    refine Or.inr ?_
    unfold bandCount at hcount
    split at hcount
    · next height width hr =>
      refine ⟨_, _, bands_of_two hr, bands_of_two (hextents.trans hr), .cons ?_ .nil⟩
      refine ⟨light.offset 0, hoffset 0, ?_⟩
      rw [planar_of_extents hr, planar_of_extents (hextents.trans hr)]
      rfl
    · next height width n hr =>
      refine ⟨_, _, bands_of_three hr, bands_of_three (hextents.trans hr), ?_⟩
      refine List.forall₂_map_left_iff.mpr (List.forall₂_map_right_iff.mpr ?_)
      refine List.forall₂_same.mpr fun i _ => ⟨light.offset i, hoffset i, ?_⟩
      have hpart : (image.atThird i).extents = [height, width] := by simp [atThird, hr]
      have hpart' : ((image.under light).atThird i).extents = [height, width] := hpart
      rw [planar_of_extents hpart, planar_of_extents hpart']
      rfl
    · cases hcount

end Raster

namespace Window

noncomputable def scaled (w : Window Exact) (a : ℝ) : Window Exact where
  length := w.length
  bands := w.bands.map (scaleBy a)
  length_eq := by simpa using w.length_eq

variable (w : Window Exact) (a : ℝ)

theorem samples_scaled : (w.scaled a).samples = scaleBy a w.samples := by
  simp only [samples, scaled, scaleBy, List.map_flatten]
  rfl

theorem part_scaled (n i : ℕ) : (w.scaled a).part n i = scaleBy a (w.part n i) := by
  simp [part, scaled, scaleBy, List.flatMap_map, List.map_flatMap, List.map_take,
    List.map_drop]

theorem stack_scaled (rows : List (List Exact)) :
    stack (rows.map (scaleBy a)) = Except.map (·.scaled a) (stack rows) :=
  stack_map (·.scaled a) (length_scaleBy a) (fun _ => rfl) (fun _ => rfl) rows

end Window

namespace Sampler

section

variable {strategy : Strategy} {light : Light} (h : light.Suits strategy) (image : Raster Exact)
  (wraps : ℕ) (line : Line Exact) (count : ℤ)
include h

theorem window_under :
    (shipped strategy wraps).window (image.under light) line count =
      Except.map (·.scaled (strategy.factor light.gain))
        ((shipped strategy wraps).window image line count) := by
  rcases image.bands_under h with ⟨e, he, he'⟩ | ⟨bands, bands', hbands, hbands', hrelit⟩
  · rw [window, window, he, he']
    rfl
  · have hrows : List.Forall₂ (fun band band' =>
        (shipped strategy wraps).samples line band' count =
          Except.map (scaleBy (strategy.factor light.gain))
            ((shipped strategy wraps).samples line band count)) bands bands' := by
      refine hrelit.imp fun band band' hband => ?_
      obtain ⟨offset, hoffset, hplane⟩ := hband
      rw [samples_shipped, samples_shipped]
      exact samples_under light.gain_ne_zero hoffset hplane _ _
    rw [window, window, hbands, hbands', ok_bind, ok_bind, mapM_of_forall₂ hrows]
    cases bands.mapM fun band => (shipped strategy wraps).samples line band count with
    | error e => rfl
    | ok rows => exact Window.stack_scaled (strategy.factor light.gain) rows

theorem profile_under :
    SameOutcome ((shipped strategy wraps).profile (image.under light) line count)
      ((shipped strategy wraps).profile image line count) := by
  rw [profile, profile, window_under h]
  cases (shipped strategy wraps).window image line count with
  | error e => exact .same _
  | ok w =>
    have hsamples := w.samples_scaled (strategy.factor light.gain)
    change SameOutcome (normalize (w.scaled _).samples) (normalize w.samples)
    rw [hsamples]
    exact normalize_scaleBy (strategy.factor_ne_zero light.gain_ne_zero) w.samples

end

end Sampler

end Transect
