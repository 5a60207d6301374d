import Transect.Failure

/-!
# Rasters

A raster is an array of any number of axes: its extents and the value at each index. Images and
bands arrive as rasters, since callers may hand in anything; `Plane` is the two-axis case that can
be looked up at positions.

An image has the axes row and column, and a third one that counts its bands unless it has a single
band only.
-/
namespace Transect

variable {α : Type}

/-- The value at an index is meaningful below the extents. -/
structure Raster (α : Type) where
  extents : List Nat
  cell : List Nat → α

structure Plane (α : Type) where
  height : Nat
  width : Nat
  cell : Nat → Nat → α

/-- The place on an axis of `n` that an index stands for: a negative one counts from the end. -/
def axisIndex? (n : Nat) (index : Int) : Option Nat :=
  let i := if index < 0 then index + n else index
  if 0 ≤ i ∧ i < n then some i.toNat else none

theorem axisIndex?_natCast {n i : Nat} (h : i < n) : axisIndex? n (i : Int) = some i := by
  have h0 : ¬ (i : Int) < 0 := by omega
  simp [axisIndex?, h0, h]

namespace Raster

/-- All indices below the extents, the last axis running fastest. -/
def indices : List Nat → List (List Nat)
  | [] => [[]]
  | n :: rest => (List.range n).flatMap fun i => (indices rest).map (i :: ·)

def size (extents : List Nat) : Nat := extents.foldr (· * ·) 1

/-- The place of an index in that order. -/
def place : List Nat → List Nat → Nat
  | _ :: rest, i :: index => i * size rest + place rest index
  | _, _ => 0

def values (r : Raster α) : List α := (indices r.extents).map r.cell

def ofValues [Inhabited α] (extents : List Nat) (values : Array α) : Raster α :=
  ⟨extents, fun index => values.getD (place extents index) default⟩

def map {β : Type} (f : α → β) (r : Raster α) : Raster β :=
  ⟨r.extents, fun index => f (r.cell index)⟩

def plane? (r : Raster α) : Option (Plane α) :=
  match r.extents with
  | [h, w] => some ⟨h, w, fun row column => r.cell [row, column]⟩
  | _ => none

def bandCount (r : Raster α) : Except (Failure α) Nat :=
  match r.extents with
  | [_, _] => .ok 1
  | [_, _, c] => .ok c
  | extents => .error (.imageNotPlanar extents)

/-- The part of a raster at one place of its third axis, without that axis. -/
def atThird (r : Raster α) (i : Nat) : Raster α where
  extents := r.extents.eraseIdx 2
  cell index := r.cell (index.insertIdx 2 i)

/-- One band of an image. An image of two axes is its own band 0; any other is cut along its third
axis, a negative index counting from the end. -/
def band (r : Raster α) (index : Int) : Except (Failure α) (Raster α) :=
  match r.extents with
  | [_, _] => if index = 0 then .ok r else .error (.notSingleBand index)
  | _ :: _ :: n :: _ =>
    match axisIndex? n index with
    | some i => .ok (r.atThird i)
    | none => .error (.bandOutOfRange index r.extents)
  | extents => .error (.bandOutOfRange index extents)

def bands (r : Raster α) : Except (Failure α) (List (Raster α)) := do
  let n ← r.bandCount
  (List.range n).mapM fun i : Nat => r.band (i : Int)

theorem bands_of_two {r : Raster α} {h w : Nat} (hr : r.extents = [h, w]) : r.bands = .ok [r] := by
  simp [bands, bandCount, band, hr, bind, Except.bind, List.range_succ, pure, Except.pure]

theorem band_of_three {r : Raster α} {h w c i : Nat} (hr : r.extents = [h, w, c]) (hi : i < c) :
    r.band (i : Int) = .ok (r.atThird i) := by
  simp [band, hr, axisIndex?_natCast hi]

theorem bands_of_three {r : Raster α} {h w c : Nat} (hr : r.extents = [h, w, c]) :
    r.bands = .ok ((List.range c).map r.atThird) := by
  have hb : ∀ is : List Nat, (∀ i ∈ is, i < c) →
      is.mapM (fun i : Nat => r.band (i : Int)) = .ok (is.map r.atThird) := by
    intro is
    induction is with
    | nil => intro _; rfl
    | cons i is ih =>
      intro his
      have hi := band_of_three hr (his i (by simp))
      have ht := ih (fun j hj => his j (by simp [hj]))
      simp [List.mapM_cons, hi, ht, bind, Except.bind, pure, Except.pure]
  simpa [bands, bandCount, hr, bind, Except.bind] using hb (List.range c) (by simp)

end Raster

end Transect
