/-
Module: Joshua.Model.Basic
Purpose: Identifiers that several parts of the engine share.
Trusted boundary: none
-/
import Mathlib.Algebra.GroupWithZero.Nat

namespace Joshua

/-- A token id. -/
abbrev Token := UInt32

/-- `affinity::Scope`: the digest that separates the tenants' states. -/
abbrev Scope := Vector UInt8 32

/-- A SHA-256 digest. -/
abbrev Digest := Vector UInt8 32

abbrev Uuid := Vector UInt8 16

/-- A single precision number by its bits. -/
abbrev Float32Bits := UInt32

abbrev Values := List Float32Bits

/-- `is_finite`: the exponent is not the largest one. -/
def Float32Bits.isFinite (value : Float32Bits) : Bool :=
  value.toNat / 2 ^ 23 % 2 ^ 8 ≠ 2 ^ 8 - 1

/-- `MAX_PARTICIPANTS`: the ranks a collective can have. -/
def maxParticipants : Nat := 64

/-- `MAX_TENSOR_ELEMENTS`. -/
def maxTensorElements : Nat := 262144

/-- `MAX_TOTAL_ELEMENTS`: over all ranks. -/
def maxTotalElements : Nat := 4194304

/-- The bytes of an ASCII literal. -/
def ascii (text : String) : List UInt8 :=
  text.toList.map fun c => UInt8.ofNat c.toNat

/-- A reading of the monotonic clock, in seconds. -/
abbrev Instant := Nat

/-- `affinity::TTL`: how long a scoped state is kept without being used. -/
def ttl : Nat := 300

end Joshua
