import Transect.Sampler.Basic

/-!
# Profiles

The samples of all bands of an image along one line form a window. Written one band after the other
and divided by their sum they are a profile, in which a factor that all of them share cancels.
-/
namespace Transect

variable {α : Type} [Scalar α]

/-- The number by which samples are divided: their sum, which has to be finite and not zero. The
`length` is the one to report. -/
def divisor (samples : List α) (length : Nat) : Except (Failure α) α :=
  let total := Scalar.sum samples
  if total == 0 || !Scalar.isFinite total then .error (.degenerateProfile total length)
  else .ok total

def normalize (samples : List α) : Except (Failure α) (List α) := do
  let total ← divisor samples samples.length
  return samples.map (· / total)

theorem length_normalize {samples profile : List α} (h : normalize samples = .ok profile) :
    profile.length = samples.length := by
  cases hd : divisor samples samples.length with
  | error e => simp [normalize, hd, bind, Except.bind] at h
  | ok total =>
    simp [normalize, hd, bind, Except.bind, pure, Except.pure] at h
    simp [← h]

/-- An array divided by the sum of all its values. Its length is that of the first axis. -/
def Raster.normalize (r : Raster α) : Except (Failure α) (Raster α) := do
  let total ← divisor r.values (r.extents.headD 0)
  return r.map (· / total)

/-- Samples of several bands along one line, equally many of each. -/
structure Window (α : Type) where
  length : Nat
  bands : List (List α)
  length_eq : ∀ band ∈ bands, band.length = length

namespace Window

omit [Scalar α]

def stack : List (List α) → Except (Failure α) (Window α)
  | [] => .error .noBands
  | first :: rest =>
    if h : ∀ band ∈ rest, band.length = first.length then
      .ok ⟨first.length, first :: rest, by simpa using h⟩
    else .error .unevenBands

/-- An array of two axes, band and sample, as a window. -/
def ofRaster (r : Raster α) : Except (Failure α) (Window α) :=
  match r.plane? with
  | some p =>
    .ok ⟨p.width, (List.range p.height).map fun b => (List.range p.width).map (p.cell b), by simp⟩
  | none => .error (.windowNotPlanar r.extents)

def samples (w : Window α) : List α := w.bands.flatten

/-- The `n` samples of every band from offset `i` on, one band after the other. -/
def part (w : Window α) (n i : Nat) : List α := w.bands.flatMap fun band => (band.drop i).take n

theorem length_part (w : Window α) {n i : Nat} (h : i + n ≤ w.length) :
    (w.part n i).length = w.bands.length * n := by
  have hb : ∀ bands : List (List α), (∀ band ∈ bands, band.length = w.length) →
      (bands.flatMap fun band => (band.drop i).take n).length = bands.length * n := by
    intro bands
    induction bands with
    | nil => intro _; simp
    | cons band rest ih =>
      intro hl
      have hr := ih (fun b hm => hl b (by simp [hm]))
      have hband := hl band (by simp)
      simp only [List.flatMap_cons, List.length_append, hr, List.length_take, List.length_drop,
        hband, List.length_cons, Nat.add_mul]
      omega
  exact hb w.bands w.length_eq

end Window

namespace Sampler

def window (s : Sampler α) (image : Raster α) (line : Line α) (count : Int) :
    Except (Failure α) (Window α) := do
  let bands ← image.bands
  Window.stack (← bands.mapM fun band => s.samples line band count)

def profile (s : Sampler α) (image : Raster α) (line : Line α) (count : Int) :
    Except (Failure α) (List α) := do
  normalize (← s.window image line count).samples

end Sampler

end Transect
