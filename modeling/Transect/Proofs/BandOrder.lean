import Transect.Proofs.ComponentOrder

/-!
# The order of bands

An image with its bands in another order has the samples of the same bands in its windows, and the
same blocks of numbers in its profiles, in the other order. As all bands of an image are equally
large, an image that cannot be sampled cannot be sampled in any order of its bands, for the same
reason.
-/
namespace Transect

variable {α β γ : Type} {C n : ℕ}

/-- Blocks of `n` items, the order of which changes. -/
def blocks (σ : Equiv.Perm (Fin C)) (n : ℕ) : Equiv.Perm (Fin (C * n)) :=
  finProdFinEquiv.permCongr (σ.prodCongr (Equiv.refl (Fin n)))

@[simp] theorem blocks_apply (σ : Equiv.Perm (Fin C)) (b : Fin C) (j : Fin n) :
    blocks σ n (finProdFinEquiv (b, j)) = finProdFinEquiv (σ b, j) := by
  simp [blocks]

/-- A list of `C` blocks of `n` items with its blocks in another order. -/
def blockwise (σ : Equiv.Perm (Fin C)) (n : ℕ) (xs : List β) : List β :=
  (List.finRange C).flatMap fun b => (xs.drop (σ b * n)).take n

theorem ofFn_blocks (f : Fin (C * n) → β) :
    List.ofFn f =
      (List.finRange C).flatMap fun b => List.ofFn fun j => f (finProdFinEquiv (b, j)) := by
  rw [List.ofFn_mul, List.flatMap_def, List.ofFn_eq_map]
  refine congrArg List.flatten (List.map_congr_left fun b _ => congrArg List.ofFn ?_)
  funext j
  refine congrArg f (Fin.ext ?_)
  change (b : ℕ) * n + j = j + n * b
  rw [Nat.mul_comm, Nat.add_comm]

theorem take_drop_ofFn (f : Fin (C * n) → β) (b : Fin C) :
    ((List.ofFn f).drop (b * n)).take n = List.ofFn fun j => f (finProdFinEquiv (b, j)) := by
  have hend : b * n + n ≤ C * n := by
    rw [← Nat.succ_mul]
    exact Nat.mul_le_mul_right n b.isLt
  apply List.ext_getElem
  · simp only [List.length_take, List.length_drop, List.length_ofFn]
    omega
  · intro i _ _
    simp only [List.getElem_take, List.getElem_drop, List.getElem_ofFn]
    refine congrArg f (Fin.ext ?_)
    change b * n + i = i + n * b
    rw [Nat.mul_comm, Nat.add_comm]

theorem map_range_eq_ofFn (f : ℕ → β) :
    (List.range C).map f = List.ofFn fun b : Fin C => f b := by
  rw [← List.map_coe_finRange_eq_range, List.map_map, List.ofFn_eq_map]
  rfl

theorem flatMap_ofFn {row : Fin C → β} {g : β → List γ} {f : Fin C → Fin n → γ}
    (hf : ∀ b, g (row b) = List.ofFn (f b)) :
    (List.ofFn row).flatMap g =
      List.ofFn fun k => f (finProdFinEquiv.symm k).1 (finProdFinEquiv.symm k).2 := by
  rw [ofFn_blocks, List.ofFn_eq_map, List.flatMap_map]
  simp only [hf, Equiv.symm_apply_apply]

theorem exists_eq_ofFn {xs : List β} (h : xs.length = n) : ∃ f : Fin n → β, xs = List.ofFn f := by
  subst h
  exact ⟨xs.get, (List.ofFn_get xs).symm⟩

namespace Reordered

variable {σ : Equiv.Perm (Fin C)}

theorem blockwise_eq {xs ys : List β} (h : Reordered (blocks σ n) xs ys) :
    ys = blockwise σ n xs := by
  obtain ⟨f, rfl, rfl⟩ := h
  simp only [blockwise, take_drop_ofFn]
  rw [ofFn_blocks]
  simp only [Function.comp_apply, blocks_apply]

theorem of_blockwise {xs : List β} (h : xs.length = C * n) :
    Reordered (blocks σ n) xs (blockwise σ n xs) := by
  obtain ⟨f, hf⟩ := exists_eq_ofFn h
  exact ⟨f, hf, (blockwise_eq ⟨f, hf, rfl⟩).symm⟩

example : blockwise (Equiv.swap (0 : Fin 2) 1) 3 [1, 2, 3, 4, 5, 6] = [4, 5, 6, 1, 2, 3] := by
  decide

theorem flatMap {rows rows' : List β} (h : Reordered σ rows rows') {g : β → List γ}
    (hg : ∀ row ∈ rows, (g row).length = n) :
    Reordered (blocks σ n) (rows.flatMap g) (rows'.flatMap g) := by
  obtain ⟨row, rfl, rfl⟩ := h
  have hrow (b : Fin C) : ∃ f : Fin n → γ, g (row b) = List.ofFn f :=
    exists_eq_ofFn (hg (row b) (List.mem_ofFn.mpr ⟨b, rfl⟩))
  choose f hf using hrow
  refine ⟨fun k => f (finProdFinEquiv.symm k).1 (finProdFinEquiv.symm k).2, ?_, ?_⟩
  · exact flatMap_ofFn hf
  · refine (flatMap_ofFn fun b => hf (σ b)).trans (congrArg List.ofFn (funext fun k => ?_))
    obtain ⟨⟨b, j⟩, rfl⟩ := finProdFinEquiv.surjective k
    simp only [Function.comp_apply, blocks_apply, Equiv.symm_apply_apply]

end Reordered

theorem Mat.reordered_toLists {D : ℕ} {π : Equiv.Perm (Fin D)} {t : List α → List α}
    (ht : ∀ v : Vec α D, (Vec.rearranged π v).toList = t v.toList) (A : Mat α D D) :
    Reordered π (A.toLists.map t) (rearranged π A).toLists := by
  have hrow (i : Fin D) : ((rearranged π A).get i).toList = t (A.get (π i)).toList := by
    rw [← ht]
    refine congrArg Vector.toList (Vec.ext_get fun j => ?_)
    rw [Vec.get_rearranged]
    exact A.entry_rearranged i j
  refine ⟨fun i => t (A.get i).toList, ?_, ?_⟩
  · rw [toLists, Vec.toList_eq_ofFn, List.map_ofFn, List.map_ofFn]
    rfl
  · rw [toLists, Vec.toList_eq_ofFn, List.map_ofFn]
    exact congrArg List.ofFn (funext hrow)

/-- The place of the band that comes to place `b`. What is no band stays where it is. -/
def placeOf (σ : Equiv.Perm (Fin C)) (b : ℕ) : ℕ := if h : b < C then σ ⟨b, h⟩ else b

@[simp] theorem placeOf_val (σ : Equiv.Perm (Fin C)) (b : Fin C) : placeOf σ b = σ b :=
  dif_pos b.isLt

theorem placeOf_one (σ : Equiv.Perm (Fin 1)) : placeOf σ = id := by
  funext b
  rw [Subsingleton.elim σ 1, placeOf]
  split_ifs <;> rfl

namespace Raster

def permuted (r : Raster α) (axis : ℕ) (σ : Equiv.Perm (Fin C)) : Raster α where
  extents := r.extents
  cell index := r.cell (index.modify axis (placeOf σ))

variable (r : Raster α) (axis : ℕ) (σ : Equiv.Perm (Fin C))

@[simp] theorem extents_permuted : (r.permuted axis σ).extents = r.extents := rfl

theorem atThird_permuted (b : ℕ) : (r.permuted 2 σ).atThird b = r.atThird (placeOf σ b) := by
  have hindex (index : List ℕ) : (index.insertIdx 2 b).modify 2 (placeOf σ) =
      index.insertIdx 2 (placeOf σ b) := by
    rcases index with - | ⟨row, - | ⟨column, rest⟩⟩ <;> rfl
  simp only [atThird, permuted, hindex]

theorem bands_permuted {r : Raster α} (h : r.bandCount = .ok C) (σ : Equiv.Perm (Fin C)) :
    ∃ extents parts parts', r.bands = .ok parts ∧ (r.permuted 2 σ).bands = .ok parts' ∧
      Reordered σ parts parts' ∧ ∀ part ∈ parts, part.extents = extents := by
  unfold bandCount at h
  split at h
  · next height width hr =>
    cases h
    have hsame : r.permuted 2 σ = r := by
      simp only [permuted, placeOf_one, List.modify_id]
    refine ⟨[height, width], [r], [r], bands_of_two hr, ?_, ⟨fun _ => r, rfl, rfl⟩, ?_⟩
    · rw [hsame, bands_of_two hr]
    · exact List.forall_mem_singleton.mpr hr
  · next height width n hr =>
    cases h
    have hpart (b : ℕ) : (r.atThird b).extents = [height, width] := by simp [atThird, hr]
    refine ⟨[height, width], _, _, bands_of_three hr, bands_of_three hr,
      ⟨fun b => r.atThird b, map_range_eq_ofFn _, ?_⟩, fun part hpart' => ?_⟩
    · rw [map_range_eq_ofFn]
      refine congrArg List.ofFn (funext fun b => ?_)
      rw [atThird_permuted, placeOf_val, Function.comp_apply]
    · obtain ⟨b, -, rfl⟩ := List.mem_map.mp hpart'
      exact hpart b
  · cases h

end Raster

/-- The samples of the same bands, in another order. -/
structure Window.Permuted (σ : Equiv.Perm (Fin C)) (w v : Window α) : Prop where
  length : v.length = w.length
  bands : Reordered σ w.bands v.bands

namespace Window.Permuted

variable {σ : Equiv.Perm (Fin C)} {w v : Window α}

theorem part (h : Permuted σ w v) {i : ℕ} (hi : i + n ≤ w.length) :
    Reordered (blocks σ n) (w.part n i) (v.part n i) := by
  refine h.bands.flatMap fun band hband => ?_
  rw [List.length_take, List.length_drop, w.length_eq band hband]
  omega

theorem samples (h : Permuted σ w v) : Reordered (blocks σ w.length) w.samples v.samples := by
  rw [← w.part_zero, ← v.part_zero, h.length]
  exact h.part (Nat.zero_add _).le

end Window.Permuted

theorem Window.stack_permuted {σ : Equiv.Perm (Fin C)} {rows rows' : List (List α)}
    (h : Reordered σ rows rows') (hrows : ∀ row ∈ rows, row.length = n) :
    Alike (fun w v => Permuted σ w v ∧ w.length = n) (stack rows) (stack rows') := by
  have hrows' : ∀ row ∈ rows', row.length = n := fun row hrow => hrows row (h.perm.subset hrow)
  by_cases hne : rows = []
  · subst hne
    rw [List.perm_nil.mp h.perm]
    exact .error _
  · have hne' : rows' ≠ [] := fun hnil => hne (List.nil_perm.mp (hnil ▸ h.perm))
    obtain ⟨w, hw, hlength, hbands⟩ := stack_eq_ok hne hrows
    obtain ⟨v, hv, hlength', hbands'⟩ := stack_eq_ok hne' hrows'
    rw [hw, hv]
    exact .ok ⟨⟨hlength'.trans hlength.symm, by rw [hbands, hbands']; exact h⟩, hlength⟩

/-- A traversal that fails at all items alike, or at none. -/
theorem Alike.mapM {ε : Type} [Nonempty γ] {σ : Equiv.Perm (Fin C)} {xs ys : List β}
    {f : β → Except ε γ} (h : Reordered σ xs ys)
    (hf : (∃ e, ∀ x ∈ xs, f x = .error e) ∨ ∀ x ∈ xs, ∃ y, f x = .ok y) :
    Alike (fun us vs => Reordered σ us vs ∧ ∀ u ∈ us, ∃ x ∈ xs, f x = .ok u)
      (xs.mapM f) (ys.mapM f) := by
  have hsub : ∀ y ∈ ys, y ∈ xs := fun y hy => h.perm.subset hy
  have hcases : (∀ x ∈ xs, ∃ y, f x = .ok y) ∨ ∃ x ∈ xs, ∃ e, ∀ x ∈ xs, f x = .error e := by
    rcases hf with ⟨e, he⟩ | hok
    · rcases xs.eq_nil_or_concat with rfl | ⟨_, x, rfl⟩
      · exact Or.inl fun x hx => absurd hx List.not_mem_nil
      · exact Or.inr ⟨x, by simp, e, he⟩
    · exact Or.inl hok
  rcases hcases with hok | ⟨x, hx, e, he⟩
  · choose! g hg using hok
    rw [mapM_eq_ok hg, mapM_eq_ok fun y hy => hg y (hsub y hy)]
    exact .ok ⟨h.map g, List.forall_mem_map.mpr fun x hx => ⟨x, hx, hg x hx⟩⟩
  · rw [mapM_eq_error (fun y hy => Or.inl (he y hy)) ⟨x, hx, he x hx⟩,
      mapM_eq_error (fun y hy => Or.inl (he y (hsub y hy)))
        ⟨x, h.perm.mem_iff.mpr hx, he x hx⟩]
    exact .error e

theorem Sampler.window_permuted [Scalar α] {image : Raster α} (h : image.bandCount = .ok C)
    (σ : Equiv.Perm (Fin C)) (strategy : Strategy) (wraps : ℕ) (line : Line α) (count : ℤ) :
    Alike (fun w v => Window.Permuted σ w v ∧ w.length = count.toNat)
      ((shipped strategy wraps).window image line count)
      ((shipped strategy wraps).window (image.permuted 2 σ) line count) := by
  obtain ⟨extents, parts, parts', hparts, hparts', hreordered, hextents⟩ :=
    Raster.bands_permuted h σ
  have hread : (∃ e, ∀ part ∈ parts,
        (shipped strategy wraps).samples line part count = .error e) ∨
      ∀ part ∈ parts, ∃ row, (shipped strategy wraps).samples line part count = .ok row := by
    simp only [samples_shipped]
    rcases samples_cases strategy extents (innerLine count wraps line) count with ⟨e, he⟩ | hok
    · exact Or.inl ⟨e, fun part hpart => he part (hextents part hpart)⟩
    · exact Or.inr fun part hpart => hok part (hextents part hpart)
  rw [window, window, hparts, hparts', ok_bind, ok_bind]
  refine (Alike.mapM hreordered hread).bind fun rows rows' hboth => ?_
  obtain ⟨hrows, hsamples⟩ := hboth
  refine Window.stack_permuted hrows fun row hrow => ?_
  obtain ⟨part, -, hpart⟩ := hsamples row hrow
  rw [samples_shipped] at hpart
  exact (length_samples_strategy hpart).2

theorem normalize_reordered {D : ℕ} {π : Equiv.Perm (Fin D)} {xs ys : List Exact}
    (h : Reordered π xs ys) : Alike (Reordered π) (normalize xs) (normalize ys) := by
  have hsum : Scalar.sum ys = Scalar.sum xs := by
    rw [Exact.sum_eq_list_sum, Exact.sum_eq_list_sum, h.perm.sum_eq]
  obtain ⟨hx, hy⟩ := h.length_eq
  rw [normalize, normalize, divisor, divisor, hsum, hx, hy]
  split_ifs
  · exact .error _
  · exact .ok (h.map _)

theorem Sampler.profile_permuted {image : Raster Exact} (h : image.bandCount = .ok C)
    (σ : Equiv.Perm (Fin C)) (strategy : Strategy) (wraps : ℕ) (line : Line Exact) (n : ℕ) :
    Alike (Reordered (blocks σ n)) ((shipped strategy wraps).profile image line n)
      ((shipped strategy wraps).profile (image.permuted 2 σ) line n) := by
  refine (window_permuted h σ strategy wraps line n).bind fun w v hwindow => ?_
  obtain ⟨hpermuted, hlength⟩ := hwindow
  have hsamples := hpermuted.samples
  rw [hlength, Int.toNat_natCast] at hsamples
  exact normalize_reordered hsamples

end Transect
