import Quickbloom.Source.Serialization
import Mathlib.Data.Rat.Floor

namespace Quickbloom.Source

/-! # `qb_util.c`

A finite `double` is its exact value and arithmetic on such values is exact.
-/

inductive Double where
  | nan
  | infinity (negative : Bool)
  | finite (value : ℚ)

/-- The comparison `<`, which is false if one side is not a number. -/
def Double.lt : Double → Double → Bool
  | .nan, _ => false
  | _, .nan => false
  | .infinity left, .infinity right => left && !right
  | .infinity left, .finite _ => left
  | .finite _, .infinity right => !right
  | .finite left, .finite right => left < right

inductive EstimateFault where
  | assertion
  | conversionRange
deriving DecidableEq, Repr

/-- `(size_t)x`: the fraction is discarded, and the conversion is undefined if
the rest is no value of the type. -/
def toSizeT (x : ℚ) : Except EstimateFault SizeT :=
  let whole := if x < 0 then ⌈x⌉ else ⌊x⌋
  if 0 ≤ whole ∧ whole < 2 ^ 64 then .ok (BitVec.ofInt 64 whole) else .error .conversionRange

def ln2Sq : ℚ := 0.4804530139182014

/-- `log` is that of the C library, which is finite on a valid `fp`. -/
def qbEstimateBits (build : Build) (log : Double → ℚ) (n : SizeT) (fp : Double) :
    Except EstimateFault SizeT := do
  if n = 0 then return 256
  if !build.ndebug && !(Double.lt (.finite 0) fp && Double.lt fp (.finite 1)) then
    .error .assertion
  if !Double.lt (.finite 0) fp || !Double.lt fp (.finite 1) then return n * 32
  let m := -(n.toNat : ℚ) * log fp / ln2Sq
  let m := if m < 256 then 256 else m
  toSizeT (m + 1 / 2)

end Quickbloom.Source
