import Pulso.PromNumber

/-! Native histogram samples. Counts are doubles where samples are stored and compared, and
rationals where only exact counts matter. -/
namespace Pulso.PromQL
open Pulso.Binary64

inductive ResetHint
  | unknown | yes | no | gauge
  deriving DecidableEq

structure Span where
  offset : Int
  length : Nat
  deriving DecidableEq

structure NativeHistogram (C : Type) where
  schema : Int
  zeroThreshold : Finite
  zeroCount : C
  count : C
  sum : Value
  positiveSpans : List Span
  positiveBuckets : List C
  negativeSpans : List Span
  negativeBuckets : List C
  counterResetHint : ResetHint
  customValues : List Finite
  deriving DecidableEq

end Pulso.PromQL
