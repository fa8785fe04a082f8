import GradientForest.Scalar.Basic
import GradientForest.Binary64.Arithmetic
import GradientForest.Binary64.Order
import GradientForest.Decimal.Layout

/-!
# Binary64 scalars

The binary floating-point numbers as scalars.  The total order goes by sign and
rank, and messages show the shortest digits that read back.
-/

namespace GradientForest

instance : Scalar Binary64 where
  add := Binary64.add
  sub := Binary64.sub
  mul := Binary64.mul
  div := Binary64.div
  neg := Binary64.neg
  ofNat := Binary64.ofNat
  nan := Binary64.undefined false
  infinity := Binary64.infinite false
  lt := Binary64.lt
  le := Binary64.le
  beq := Binary64.beq
  precedes := Binary64.precedes
  abs := Binary64.abs
  sqrt := Binary64.sqrt
  exp := Binary64.exp
  ln := Binary64.ln
  text := NumberStyle.plain.render

end GradientForest
