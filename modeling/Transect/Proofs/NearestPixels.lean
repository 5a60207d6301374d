import Transect.Proofs.SamplePositions

/-!
# Nearest pixels

Rounding a coordinate half to even and keeping it within the raster gives the pixel that is closest
on that axis, be the position inside the raster, outside of it, or halfway between two pixels. The
pixels that are sampled along a line are therefore the projections of its positions, and their rows
and columns never turn back on the way.
-/
namespace Transect

namespace Exact

theorem abs_sub_nearestEven_le (x : ℝ) : |x - nearestEven x| ≤ 1 / 2 := by
  unfold nearestEven
  split_ifs with h
  · rw [Int.self_sub_floor, abs_of_nonneg (Int.fract_nonneg x)]
    linarith [h.1]
  · exact abs_sub_round x

theorem even_nearestEven {x : ℝ} (h : |x - nearestEven x| = 1 / 2) : Even (nearestEven x) := by
  unfold nearestEven at h ⊢
  split_ifs with hfloor
  · exact hfloor.2
  · rw [if_neg hfloor, abs_sub_round_eq_min] at h
    have hhalf : Int.fract x = 1 / 2 := by
      linarith [min_le_left (Int.fract x) (1 - Int.fract x),
        min_le_right (Int.fract x) (1 - Int.fract x)]
    have hodd : ¬ Even ⌊x⌋ := fun heven => hfloor ⟨by linarith, heven⟩
    have hround : round x = ⌊x⌋ + 1 := by
      have hx : x + 1 / 2 = ((⌊x⌋ + 1 : ℤ) : ℝ) := by
        push_cast
        linarith [Int.floor_add_fract x]
      rw [round_eq, hx, Int.floor_intCast]
    rw [hround, Int.even_add_one]
    exact hodd

theorem nearestEven_mono {x y : ℝ} (h : x ≤ y) : nearestEven x ≤ nearestEven y := by
  by_contra hless
  have hstep : nearestEven y + 1 ≤ nearestEven x := not_le.mp hless
  have hstep : (nearestEven y : ℝ) + 1 ≤ nearestEven x := by exact_mod_cast hstep
  obtain ⟨hx, -⟩ := abs_le.mp (abs_sub_nearestEven_le x)
  obtain ⟨-, hy⟩ := abs_le.mp (abs_sub_nearestEven_le y)
  -- a whole step apart, both are half a step away from the same number
  have hsame : x = y := by linarith
  rw [hsame] at hless
  exact hless le_rfl

end Exact

theorem FitsWord.of_abs_lt {x : ℝ} (h : |x| < 2 ^ 62) : FitsWord 64 x := by
  obtain ⟨hlow, hhigh⟩ := abs_lt.mp h
  obtain ⟨hbelow, habove⟩ := abs_le.mp (Exact.abs_sub_nearestEven_le x)
  have hlow : ((-2 ^ 63 : ℤ) : ℝ) ≤ Exact.nearestEven x := by
    push_cast
    linarith
  have hhigh : (Exact.nearestEven x : ℝ) < ((2 ^ 63 : ℤ) : ℝ) := by
    push_cast
    linarith
  exact ⟨Int.cast_le.mp hlow, Int.cast_lt.mp hhigh⟩

/-- No place on an axis of `n` pixels is closer to a coordinate than `i`, which is the even one of
two that are equally close. -/
structure ClosestPlace (n : ℕ) (x : ℝ) (i : ℕ) : Prop where
  lt : i < n
  le : ∀ j < n, |x - i| ≤ |x - j|
  even : ∀ j < n, j ≠ i → |x - j| = |x - i| → Even i

namespace ClosestPlace

variable {n : ℕ} {x : ℝ}

theorem first (hn : 0 < n) (hx : x < 0) : ClosestPlace n x 0 := by
  have hdistance (j : ℕ) : |x - j| = j - x := by
    rw [abs_sub_comm, abs_of_pos]
    linarith [(Nat.cast_nonneg j : (0 : ℝ) ≤ j)]
  refine ⟨hn, fun j _ => ?_, fun _ _ _ _ => Even.zero⟩
  rw [hdistance, hdistance, Nat.cast_zero]
  linarith [(Nat.cast_nonneg j : (0 : ℝ) ≤ j)]

theorem last (hx : (n : ℝ) < x) : ClosestPlace (n + 1) x n := by
  have hdistance {j : ℕ} (hj : j < n + 1) : |x - j| = x - j := by
    have hle : (j : ℝ) ≤ n := Nat.cast_le.mpr (Nat.le_of_lt_succ hj)
    rw [abs_of_pos]
    linarith
  refine ⟨n.lt_succ_self, fun j hj => ?_, fun j hj hne hequal => ?_⟩
  · have hle : (j : ℝ) ≤ n := Nat.cast_le.mpr (Nat.le_of_lt_succ hj)
    rw [hdistance n.lt_succ_self, hdistance hj]
    linarith
  · rw [hdistance n.lt_succ_self, hdistance hj, sub_right_inj, Nat.cast_inj] at hequal
    exact absurd hequal hne

theorem of_abs_le {i : ℕ} (hi : i < n) (hnear : |x - i| ≤ 1 / 2)
    (heven : |x - i| = 1 / 2 → Even i) : ClosestPlace n x i := by
  have hapart {j : ℕ} (hne : j ≠ i) : 1 - |x - i| ≤ |x - j| := by
    have hstep : (1 : ℝ) ≤ |(j : ℝ) - i| := by
      have hint : (1 : ℤ) ≤ |(j : ℤ) - i| := Int.one_le_abs (by omega)
      exact_mod_cast hint
    have htriangle := abs_sub_le (j : ℝ) x i
    rw [abs_sub_comm (j : ℝ) x] at htriangle
    linarith
  refine ⟨hi, fun j _ => ?_, fun j _ hne hequal => heven ?_⟩
  · rcases eq_or_ne j i with rfl | hne
    · exact le_rfl
    · linarith [hapart hne]
  · linarith [hapart hne]

/-- Halfway between two even places there is a closer one. -/
theorem unique {i j : ℕ} (hi : ClosestPlace n x i) (hj : ClosestPlace n x j) : i = j := by
  by_contra hne
  wlog hless : i < j generalizing i j
  · exact this hj hi (Ne.symm hne) (by omega)
  have hequal : |x - j| = |x - i| := le_antisymm (hj.le i hi.lt) (hi.le j hj.lt)
  obtain ⟨a, ha⟩ := hi.even j hj.lt (Ne.symm hne) hequal
  obtain ⟨b, hb⟩ := hj.even i hi.lt hne hequal.symm
  have hstep : (i : ℝ) + 2 ≤ j := by exact_mod_cast (show i + 2 ≤ j by omega)
  have hbetween := hi.le (i + 1) (by have := hj.lt; omega)
  have hmiddle : x = (i + j) / 2 := by
    rcases abs_eq_abs.mp hequal with hsame | hopposite
    · linarith
    · linarith
  rw [Nat.cast_add_one, abs_of_nonneg (by linarith), abs_of_nonneg (by linarith)] at hbetween
  linarith

end ClosestPlace

theorem closestPlace_clampIndex {n : ℕ} (hn : 0 < n) (x : ℝ) :
    ClosestPlace n x (clampIndex n (Exact.nearestEven x)) := by
  obtain ⟨last, rfl⟩ := Nat.exists_eq_add_one.mpr hn
  have hnear := Exact.abs_sub_nearestEven_le x
  have heven := Exact.even_nearestEven (x := x)
  generalize Exact.nearestEven x = k at hnear heven
  obtain ⟨hlow, hhigh⟩ := abs_le.mp hnear
  rcases lt_or_ge k 0 with hbefore | hstart
  · have hplace : clampIndex (last + 1) k = 0 := by
      simp only [clampIndex]
      omega
    have hk : (k : ℝ) ≤ -1 := by exact_mod_cast (show k ≤ -1 by omega)
    rw [hplace]
    exact .first hn (by linarith)
  · obtain ⟨i, rfl⟩ := Int.eq_ofNat_of_zero_le hstart
    rw [Int.cast_natCast] at hlow hhigh hnear heven
    rcases lt_or_ge last i with hbeyond | hend
    · have hplace : clampIndex (last + 1) (i : ℤ) = last := by
        simp only [clampIndex]
        omega
      have hi : (last : ℝ) + 1 ≤ i := by exact_mod_cast hbeyond
      rw [hplace]
      exact .last (by linarith)
    · have hplace : clampIndex (last + 1) (i : ℤ) = i := by
        simp only [clampIndex]
        omega
      rw [hplace]
      exact .of_abs_le (by omega) hnear fun hhalf => (Int.even_coe_nat i).mp (heven hhalf)

/-- Rounding first and clamping then is the projection onto an axis. -/
theorem closestPlace_iff {n i : ℕ} (hn : 0 < n) (x : ℝ) :
    ClosestPlace n x i ↔ i = clampIndex n (Exact.nearestEven x) := by
  constructor
  · exact fun h => h.unique (closestPlace_clampIndex hn x)
  · rintro rfl
    exact closestPlace_clampIndex hn x

theorem clampIndex_nearestEven_mono (n : ℕ) :
    Monotone fun x : ℝ => clampIndex n (Exact.nearestEven x) := by
  intro x y hxy
  have hrounded := Exact.nearestEven_mono hxy
  simp only [clampIndex]
  omega

namespace Line

variable (l : Line ℝ)

/-- The `k`-th of `n` evenly spaced positions, of which a single one lies in the middle. -/
noncomputable def position (n : ℕ) (k : Fin n) : Point ℝ :=
  if n = 1 then l.middle else l.start.stepped l.vector ((k : ℕ) / ((n : ℝ) - 1))

theorem position_eq (n : ℕ) (k : Fin n) : l.position n k =
    l.middle.stepped ((1 / ((n : ℝ) - 1)) • l.vector) (-(((n : ℝ) - 1) / 2) + (k : ℕ)) := by
  by_cases hn : n = 1
  · subst hn
    simp [position, Subsingleton.elim k 0]
  · have hparts : (n : ℝ) - 1 ≠ 0 := sub_ne_zero.mpr (Nat.cast_ne_one.mpr hn)
    simp only [position, if_neg hn, Point.stepped, middle, vector, Prod.smul_mk, smul_eq_mul,
      Point.mk.injEq]
    constructor
    · field_simp
      ring
    · field_simp
      ring

theorem positions_eq_ofFn (n : ℕ) :
    (ofReal l).positions n = List.ofFn fun k : Fin n => .ofReal (l.position n k) := by
  simp only [positions_ofReal, Point.places, List.map_map, List.ofFn_eq_map, position_eq,
    ← List.map_coe_finRange_eq_range]
  rfl

end Line

/-- Values along the way from one coordinate to another that rise if the coordinate does, and fall
if it does. -/
def RisesWith {β : Type} [Preorder β] {n : ℕ} (a b : ℝ) (f : Fin n → β) : Prop :=
  (a ≤ b → Monotone f) ∧ (b ≤ a → Antitone f)

namespace RisesWith

variable {β : Type} [Preorder β] {n : ℕ} {a b : ℝ} {f : Fin n → ℝ}

theorem comp (h : RisesWith a b f) {g : ℝ → β} (hg : Monotone g) : RisesWith a b (g ∘ f) :=
  ⟨fun hab => hg.comp (h.1 hab), fun hba => hg.comp_antitone (h.2 hba)⟩

theorem const (n : ℕ) (a b c : ℝ) : RisesWith a b fun _ : Fin n => c :=
  ⟨fun _ => monotone_const, fun _ => antitone_const⟩

theorem steps (n : ℕ) (a b : ℝ) :
    RisesWith a b fun k : Fin n => a + (k : ℕ) / ((n : ℝ) - 1) * (b - a) := by
  have hshare {i j : Fin n} (hij : i ≤ j) :
      ((i : ℕ) : ℝ) / ((n : ℝ) - 1) ≤ (j : ℕ) / ((n : ℝ) - 1) := by
    have hone : (1 : ℝ) ≤ n := by exact_mod_cast i.pos
    have hcast : ((i : ℕ) : ℝ) ≤ (j : ℕ) := by exact_mod_cast hij
    exact div_le_div_of_nonneg_right hcast (by linarith)
  constructor
  · intro hab i j hij
    exact add_le_add_right (mul_le_mul_of_nonneg_right (hshare hij) (sub_nonneg.mpr hab)) a
  · intro hba i j hij
    exact add_le_add_right (mul_le_mul_of_nonpos_right (hshare hij) (sub_nonpos.mpr hba)) a

end RisesWith

theorem Line.risesWith_position (l : Line ℝ) (n : ℕ) :
    (RisesWith l.start.x l.finish.x fun k => (l.position n k).x) ∧
      RisesWith l.start.y l.finish.y fun k => (l.position n k).y := by
  by_cases hn : n = 1
  · simp only [position, if_pos hn]
    exact ⟨.const n _ _ _, .const n _ _ _⟩
  · simp only [position, if_neg hn]
    exact ⟨.steps n _ _, .steps n _ _⟩

/-- The samples of the nearest pixels along a line are the values at the projections of its
positions onto the raster, on either axis: the closest pixel, the even one of two. Rows and columns
go one way along the line. -/
theorem nearest_samples_of_projections {band : Raster Exact} {height width n : ℕ}
    (hband : band.extents = [height, width]) (hheight : 0 < height) (hwidth : 0 < width)
    (hn : 0 < n) {line : Line ℝ}
    (hnear : ∀ k : Fin n, |(line.position n k).x| < 2 ^ 62 ∧ |(line.position n k).y| < 2 ^ 62) :
    (Line.ofReal line).points n = .ok (List.ofFn fun k => .ofReal (line.position n k)) ∧
    ∃ row column : Fin n → ℕ,
      Sampler.nearest.samples (.ofReal line) band n =
        .ok (List.ofFn fun k => band.cell [row k, column k]) ∧
      (∀ k i, ClosestPlace height (line.position n k).y i ↔ i = row k) ∧
      (∀ k i, ClosestPlace width (line.position n k).x i ↔ i = column k) ∧
      RisesWith line.start.y line.finish.y row ∧
      RisesWith line.start.x line.finish.x column := by
  have hplace (k : Fin n) := (Plane.mk height width fun row column => band.cell [row, column])
    |>.nearest_ofReal (.of_abs_lt (hnear k).1) (.of_abs_lt (hnear k).2)
  refine ⟨?_, fun k => clampIndex height (Exact.nearestEven (line.position n k).y),
    fun k => clampIndex width (Exact.nearestEven (line.position n k).x), ?_,
    fun k i => closestPlace_iff hheight _, fun k i => closestPlace_iff hwidth _, ?_, ?_⟩
  · rw [Line.points, if_neg (by omega), Int.toNat_natCast, Line.positions_eq_ofFn]
  · have hreach : Strategy.nearest.Reaches height width n := Or.inl rfl
    have hsamples := Sampler.samples_of_reaches hband hheight hwidth hn hreach (.ofReal line)
    rw [Strategy.sampler] at hsamples
    rw [hsamples, Strategy.read, Line.positions_eq_ofFn, List.map_ofFn]
    exact congrArg (fun f => Except.ok (List.ofFn f)) (funext hplace)
  · exact (line.risesWith_position n).2.comp (clampIndex_nearestEven_mono height)
  · exact (line.risesWith_position n).1.comp (clampIndex_nearestEven_mono width)

/-- Four positions along a row boundary, the first of them before the raster and the last beyond
it. -/
theorem nearest_samples_of_four_projections :
    let band : Raster Exact := ⟨[2, 2], fun index => Scalar.ofNat (index.getD 1 0)⟩
    let line : Line ℝ := ⟨⟨-1 / 2, 1 / 2⟩, ⟨5 / 2, 1 / 2⟩⟩
    band.extents = [2, 2] ∧ 0 < 2 ∧ 0 < 4 ∧
      (∀ k : Fin 4, |(line.position 4 k).x| < 2 ^ 62 ∧ |(line.position 4 k).y| < 2 ^ 62) ∧
      ∃ row column : Fin 4 → ℕ,
        Sampler.nearest.samples (.ofReal line) band 4 =
          .ok (List.ofFn fun k => band.cell [row k, column k]) ∧
        (∀ k, row k = 0) ∧ column 0 = 0 ∧ column 1 = 0 ∧ column 2 = 1 ∧ column 3 = 1 := by
  intro band line
  have hposition (k : Fin 4) : line.position 4 k = ⟨-1 / 2 + (k : ℕ), 1 / 2⟩ := by
    have hfour : ¬ 4 = 1 := by omega
    simp only [line, Line.position, if_neg hfour, Point.stepped, Line.vector, Point.mk.injEq]
    constructor
    · push_cast
      ring
    · ring
  have hband : band.extents = [2, 2] := rfl
  have hfour : 0 < 4 := by omega
  have hnear (k : Fin 4) : |(line.position 4 k).x| < 2 ^ 62 ∧ |(line.position 4 k).y| < 2 ^ 62 := by
    have hk : ((k : ℕ) : ℝ) ≤ 3 := by exact_mod_cast Nat.le_of_lt_succ k.isLt
    have hstart : (0 : ℝ) ≤ (k : ℕ) := Nat.cast_nonneg _
    rw [hposition, abs_lt, abs_lt]
    refine ⟨⟨?_, ?_⟩, ?_, ?_⟩ <;> norm_num <;> linarith
  obtain ⟨-, row, column, hsamples, hrow, hcolumn, -⟩ :=
    nearest_samples_of_projections hband two_pos two_pos hfour hnear
  simp only [hposition] at hrow hcolumn
  -- half a row beyond row 0, which is even
  have hhalf : ClosestPlace 2 (1 / 2) 0 := .of_abs_le two_pos (by norm_num) fun _ => Even.zero
  refine ⟨hband, two_pos, hfour, hnear, row, column, hsamples, fun k => ?_, ?_, ?_, ?_, ?_⟩
  · exact ((hrow k 0).mp hhalf).symm
  · exact ((hcolumn 0 0).mp (.first two_pos (by norm_num))).symm
  · exact ((hcolumn 1 0).mp (by norm_num; exact hhalf)).symm
  · exact ((hcolumn 2 1).mp (.last (by norm_num))).symm
  · exact ((hcolumn 3 1).mp (.last (by norm_num))).symm

end Transect
