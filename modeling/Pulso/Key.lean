import Mathlib.Algebra.Ring.Int.Defs
import Mathlib.Algebra.Ring.Nat
import Mathlib.Data.List.Sort

/-! Object keys. Keys are byte strings; the time bounds of a segment, whether its key
is random and its storage tier are read from the last path component. -/
namespace Pulso

abbrev Bytes := List UInt8

instance lawfulBytes : LawfulBEq Bytes := inferInstance

def ascii (s : String) : Bytes := s.toList.map (fun c => c.toNat.toUInt8)

namespace Bytes

def contains (part : Bytes) : Bytes → Bool
  | [] => part.isEmpty
  | whole@(_::rest) => part.isPrefixOf whole || contains part rest

def slash : UInt8 := 47

def basename (path : Bytes) : Bytes :=
  ((path.reverse.dropWhile (· == slash)).takeWhile (· != slash)).reverse

def digit? (b : UInt8) : Option Nat := if 48 ≤ b ∧ b ≤ 57 then some (b.toNat - 48) else none

def digits (value : Nat) : Bytes → Option Nat
  | [] => some value
  | b::rest => (digit? b).bind (fun n => digits (10 * value + n) rest)

-- `Integer.parse/1` with nothing left over: an optional sign and at least one digit
def natural : Bytes → Option Nat
  | [] => none
  | text => digits 0 text

def integer : Bytes → Option Int
  | 45::text => (natural text).map (fun n => -(n : Int))
  | 43::text => (natural text).map (fun n => (n : Int))
  | text => (natural text).map (fun n => (n : Int))

def validUtf8 : Bytes → Bool
  | [] => true
  | a::rest =>
    if a < 0x80 then validUtf8 rest
    else match rest with
    | b::rest =>
      if 0xC2 ≤ a ∧ a ≤ 0xDF then continued b && validUtf8 rest
      else match rest with
      | c::rest =>
        if 0xE0 ≤ a ∧ a ≤ 0xEF then second3 a b && continued c && validUtf8 rest
        else match rest with
        | d::rest => 0xF0 ≤ a && a ≤ 0xF4 && second4 a b && continued c && continued d && validUtf8 rest
        | [] => false
      | [] => false
    | [] => false
where
  continued (b : UInt8) : Bool := 0x80 ≤ b && b ≤ 0xBF
  second3 (a b : UInt8) : Bool :=
    if a = 0xE0 then 0xA0 ≤ b && b ≤ 0xBF else if a = 0xED then 0x80 ≤ b && b ≤ 0x9F else continued b
  second4 (a b : UInt8) : Bool :=
    if a = 0xF0 then 0x90 ≤ b && b ≤ 0xBF else if a = 0xF4 then 0x80 ≤ b && b ≤ 0x8F else continued b

end Bytes

abbrev Key := Bytes

namespace Key

def sortKeyWidth : Nat := 20
def dash : UInt8 := 45

structure Bounds where
  minTs : Int
  maxTs : Int
  deriving DecidableEq, Repr

/- `parse_bounds/2`: `<20 bytes>-<20 bytes>-<anything>`. -/
def parseBounds (basename : Bytes) : Option Bounds :=
  match basename.drop sortKeyWidth with
  | 45::rest =>
    match rest.drop sortKeyWidth with
    | 45::_ => do
      let minTs ← Bytes.integer (basename.take sortKeyWidth)
      let maxTs ← Bytes.integer (rest.take sortKeyWidth)
      some ⟨minTs,maxTs⟩
    | _ => none
  | _ => none

def segmentFromKey (key : Key) : Option Bounds :=
  if (ascii ".parquet").isSuffixOf key then parseBounds (Bytes.basename key) else none

def maxTs? (key : Key) : Option Int := (segmentFromKey key).map Bounds.maxTs

-- deterministic keys can be retried after publication; random ones cannot
def random (key : Key) : Bool := Bytes.contains (ascii "-rand-") (Bytes.basename key)

inductive Tier where
  | rollup | final | grouped | raw
  deriving DecidableEq, Repr

def tier (key : Key) : Tier :=
  let base := Bytes.basename key
  if Bytes.contains (ascii "-rollup-") base then .rollup
  else if Bytes.contains (ascii "-final-") base then .final
  else if Bytes.contains (ascii "-group-") base then .grouped
  else .raw

end Key

inductive Signal where
  | logs | metrics | traces
  deriving DecidableEq, Repr

def Signal.name : Signal → Bytes
  | .logs => ascii "logs"
  | .metrics => ascii "metrics"
  | .traces => ascii "traces"

structure Scope where
  tenant : Bytes
  signal : Signal
  deriving DecidableEq, Repr

namespace Scope

def path (s : Scope) : Bytes := ascii "tenants/" ++ s.tenant ++ ascii "/v4/signal=" ++ s.signal.name ++ ascii "/"
def journal (s : Scope) : Bytes := s.path ++ ascii "journal/"

def keyLimit : Nat := 1024

/- `valid_key_scope?/3` -/
def Holds (s : Scope) (key : Key) : Prop :=
  key.length ≤ keyLimit ∧ s.path <+: key ∧ Bytes.contains (ascii "/../") key = false
instance (s : Scope) (key : Key) : Decidable (s.Holds key) := by unfold Holds; infer_instance

end Scope

example : Key.segmentFromKey (ascii "date=1/00000000000000000007-00000000000000000009-rand-a.parquet") = some ⟨7,9⟩ := by
  decide
example : Key.random (ascii "date=1/00000000000000000007-00000000000000000009-rand-a.parquet") = true := by decide

end Pulso
