import Transect.Text.Decimal

/-!
# Tables of numbers

Vectors and matrices are printed between brackets, all numbers in one common layout: positional with
aligned points, or with exponents when their sizes are too far apart. A number asks for its shortest
digits, cut to four places. Between aligned points it gets just these; before exponents all numbers
get as many places as the longest asks for, filled from their exact values. Long rows are broken,
and large tables are abridged.
-/
namespace Transect.Text

/-- How the numbers of one table are laid out: the characters before and after the point. -/
inductive NumberLayout where
  | positional (left right : Nat)
  | exponential (left fraction exponent : Nat)

/-- The places that a number is cut to. -/
def tablePlaces : Nat := 4

def dropZeros (digits : String) : String :=
  String.ofList (digits.toList.reverse.dropWhile (· = '0')).reverse

/-- The digits before and after the point, the sign before them. -/
def positionalParts (b : Binary) : String × String :=
  let (digits, exponent) := b.shortest
  let (whole, fraction) :=
    if 0 ≤ exponent then (toString (digits * pow10 exponent.toNat), "")
    else if -tablePlaces ≤ exponent then splitPlaces (-exponent).toNat digits
    else splitPlaces tablePlaces (b.roundAt tablePlaces)
  (minus b ++ whole, dropZeros fraction)

/-- What a number asks for before an exponent: the first digit with its sign, the digits after the
point, and the exponent. -/
def exponentialParts (b : Binary) : String × String × Int :=
  let (digits, exponent) := b.shortest
  let length := Binary.digitCount digits
  let (digits, exponent) :=
    if length ≤ tablePlaces + 1 then
      (digits * pow10 (tablePlaces + 1 - length), exponent + length - 1)
    else leading b tablePlaces
  let (whole, fraction) := splitPlaces tablePlaces digits
  (minus b ++ whole, dropZeros fraction, if b.significand = 0 then 0 else exponent)

/-- The digits of an exponent, of which there are at least two. -/
def exponentDigits (e : Int) : Nat := max 2 (Binary.digitCount e.natAbs)

def widest (sizes : List Nat) : Nat := sizes.foldl max 0

/-- Whether numbers differ so much in size that they are printed with exponents. -/
def needsExponents (xs : List Float) : Bool :=
  let sizes := (xs.filter fun x => x.isFinite && x != 0.0).map Float.abs
  match sizes with
  | [] => false
  | first :: rest =>
    let most := rest.foldl (fun m x => if m < x then x else m) first
    let least := rest.foldl (fun m x => if x < m then x else m) first
    most ≥ 1e8 || least < 0.0001 || most / least > 1000.0

namespace NumberLayout

def after : NumberLayout → Nat
  | positional _ right => right + 1
  | exponential _ fraction exponent => fraction + exponent + 3

def before : NumberLayout → Nat
  | positional left _ => left
  | exponential left _ _ => left

def withBefore (left : Nat) : NumberLayout → NumberLayout
  | positional _ right => positional left right
  | exponential _ fraction exponent => exponential left fraction exponent

def ofNumbers (xs : List Float) : NumberLayout :=
  let finite := xs.filterMap Binary.ofFloat?
  let base :=
    if needsExponents xs then
      let parts := finite.map exponentialParts
      exponential (widest (parts.map fun p => p.1.length))
        (widest (parts.map fun p => p.2.1.length))
        (widest (parts.map fun p => exponentDigits p.2.2))
    else
      let parts := finite.map positionalParts
      positional (widest (parts.map fun p => p.1.length)) (widest (parts.map fun p => p.2.length))
  let words := (xs.filter fun x => !x.isFinite).map fun x => (nonFinite x).length
  base.withBefore (max base.before (widest words - base.after))

/-- One number in a layout, filled with blanks to the common width. -/
def text (layout : NumberLayout) (x : Float) : String :=
  match Binary.ofFloat? x with
  | none =>
    let word := nonFinite x
    blanks (layout.before + layout.after - word.length) ++ word
  | some b =>
    match layout with
    | positional left right =>
      let (whole, fraction) := positionalParts b
      blanks (left - whole.length) ++ whole ++ "." ++ fraction ++ blanks (right - fraction.length)
    | exponential left places exponent =>
      let (digits, e) := leading b places
      let (whole, fraction) := splitPlaces places digits
      let whole := minus b ++ whole
      blanks (left - whole.length) ++ whole ++ "." ++ fraction ++ "e" ++ exponentText exponent e

end NumberLayout

/-- The longest line that a table is given, brackets aside. -/
def lineWidth : Nat := 75

/-- The items of a list, or the first and last three with a gap between them. -/
def abridged {β : Type} (xs : List β) : List (Option β) :=
  if xs.length ≤ 6 then xs.map some
  else (xs.take 3).map some ++ none :: (xs.drop (xs.length - 3)).map some

def orDots : Option String → String
  | some s => s
  | none => "..."

/-- Adds a word to the line in the making, or starts a new line if the word no longer fits. Lines
start with `indent` blanks. -/
def addWord (indent : Nat) (text : String × String) (word : String) : String × String :=
  let (done, line) := text
  if line.length + word.length > lineWidth - indent && line.length > indent then
    (done ++ line.trimAsciiEnd.toString ++ "\n", blanks indent ++ word)
  else (done, line ++ word)

def bracketed (axes : Nat) (words : List String) : String :=
  let (done, line) := match words with
    | [] => ("", blanks axes)
    | first :: rest =>
      rest.foldl (fun (done, line) word => addWord axes (done, line ++ " ") word)
        (addWord axes ("", blanks axes) first)
  "[" ++ ((done ++ line).drop axes).toString ++ "]"

/-- The size above which tables are abridged. -/
def fullSize : Nat := 1000

def vectorText (xs : List Float) : String :=
  if xs.isEmpty then "[]"
  else
    let shown := if xs.length > fullSize then abridged xs else xs.map some
    let layout := NumberLayout.ofNumbers (shown.filterMap id)
    bracketed 1 (shown.map fun x => orDots (x.map layout.text))

def matrixText (rows : List (List Float)) : String :=
  let size := rows.flatten.length
  if size = 0 then "[]"
  else
    let shorten {β : Type} (xs : List β) : List (Option β) :=
      if size > fullSize then abridged xs else xs.map some
    let shown := (shorten rows).map fun row => row.map shorten
    let layout := NumberLayout.ofNumbers ((shown.filterMap id).flatMap fun row => row.filterMap id)
    let lines := shown.map fun row =>
      orDots (row.map fun row => bracketed 2 (row.map fun x => orDots (x.map layout.text)))
    "[" ++ "\n ".intercalate lines ++ "]"

end Transect.Text
