import Tarcoin.Foundations.GuardedSum
import Tarcoin.Foundations.Polyline
import Tarcoin.Util.FeeFrac

/-! `CompareChunks` of `util/feefrac.cpp`, a sweep over two lists of chunks. -/
namespace Tarcoin.Util
open GuardedSum

namespace FeeFrac

/-- The fee is a word of 64 bits, the size one of 32. -/
def add (a b : FeeFrac) : FeeFrac := ⟨wrap 64 (a.fee + b.fee), wrap 32 (a.size + b.size)⟩

def sub (a b : FeeFrac) : FeeFrac := ⟨wrap 64 (a.fee - b.fee), wrap 32 (a.size - b.size)⟩

/-- `MulFallback`: the product by halves, its upper part signed and its lower part not. -/
def mulFallback (a b : ℤ) : ℤ × ℤ :=
  let low := wrap 64 (a % 2 ^ 32 * b)
  let high := wrap 64 (a / 2 ^ 32 * b)
  (wrap 64 (high + low / 2 ^ 32), low % 2 ^ 32)

/-- How the platform multiplies: with words of 128 bits, or by halves. -/
inductive Platform where
  | int128 | fallback
  deriving DecidableEq, Repr

def byRatio (platform : Platform) (a b : FeeFrac) : Ordering :=
  match platform with
  | .int128 => compare (a.fee * b.size) (b.fee * a.size)
  | .fallback =>
    compare (toLex (mulFallback a.fee b.size)) (toLex (mulFallback b.fee a.size))

end FeeFrac

inductive PartialOrdering where
  | less | equivalent | greater | unordered
  deriving DecidableEq, Repr

/-- One of the two diagrams during the sweep: the chunks not processed, the sum of the others, and
whether it is better somewhere. -/
structure Side where
  rest : List FeeFrac
  accum : FeeFrac
  better : Bool
  deriving DecidableEq, Repr

def Side.advance (s : Side) : Side :=
  match s.rest with
  | [] => s
  | c :: rest => { s with rest, accum := s.accum.add c }

section Sweep

variable (platform : FeeFrac.Platform)

/-- Whether a point lies above, on or below the line of the other side, by the slopes from the
last point of that side. After its end the line is level. -/
def comparePoint (pointP : FeeFrac) (other : Side) : Ordering :=
  let slopeAP := pointP.sub other.accum
  match other.rest with
  | [] => slopeAP.byRatio platform ⟨0, 1⟩
  | d :: _ => slopeAP.byRatio platform ((d.add other.accum).sub other.accum)

/-- A point of the other side at the same size has been compared too. -/
def catchUp (pointP : FeeFrac) (other : Side) : Side :=
  match other.rest with
  | [] => other
  | d :: _ => if (d.add other.accum).size = pointP.size then other.advance else other

/-- Process the next point of one side, which adds the chunk `c`. -/
def processPoint (unproc other : Side) (c : FeeFrac) : Side × Side :=
  let pointP := c.add unproc.accum
  let cmp := comparePoint platform pointP other
  ({ unproc.advance with better := unproc.better || cmp == .gt },
    { catchUp pointP other with better := other.better || cmp == .lt })

/-- One turn of the loop, unless both sides are done. -/
def compareStep (s₀ s₁ : Side) : Option (Side × Side) :=
  match s₀.rest, s₁.rest with
  | [], [] => none
  | [], c :: _ => some (processPoint platform s₁ s₀ c).swap
  | c :: _, [] => some (processPoint platform s₀ s₁ c)
  | c :: _, d :: _ =>
    if (d.add s₁.accum).size < (c.add s₀.accum).size then
      some (processPoint platform s₁ s₀ d).swap
    else some (processPoint platform s₀ s₁ c)

def compareBetter : Bool → Bool → PartialOrdering
  | true, false => .greater
  | false, true => .less
  | _, _ => .equivalent

/-- The loop. Every turn processes a point, so that as many turns as there are chunks are enough. -/
def compareLoop : ℕ → Side → Side → PartialOrdering
  | 0, s₀, s₁ => compareBetter s₀.better s₁.better
  | n + 1, s₀, s₁ =>
    match compareStep platform s₀ s₁ with
    | none => compareBetter s₀.better s₁.better
    | some (t₀, t₁) => if t₀.better && t₁.better then .unordered else compareLoop n t₀ t₁

def compareChunks (chunks₀ chunks₁ : List FeeFrac) : PartialOrdering :=
  compareLoop platform (chunks₀.length + chunks₁.length) ⟨chunks₀, ⟨0, 0⟩, false⟩
    ⟨chunks₁, ⟨0, 0⟩, false⟩

end Sweep

end Tarcoin.Util
