/-
Module: Joshua.Model.ClusterSession
Purpose: One inference job over several ranks (`distributed/session.rs`):
  agreement on a digest and exchanges of activations, both built from
  reductions of the transport.
Trusted boundary: single precision numbers are any type with the operations of
  `Float32Ops`, SHA-256 is the parameter `sha256`, and the transport reduces in
  ascending rank order if all ranks take part with vectors of one length and
  fails otherwise
-/
import Joshua.Foundation.Bytes
import Joshua.Foundation.Lockstep
import Joshua.Model.Basic

namespace Joshua
open Joshua.Foundation

/-- The operations on `f32` that the session uses. -/
class Float32Ops (V : Type) where
  /-- `as f32`, and the literals 0.0 and 1.0 -/
  ofNat : Nat → V
  add : V → V → V
  eq : V → V → Bool
  isFinite : V → Bool

namespace ClusterSession

/-- `MAX_CALL_ELEMENTS`. -/
def maxCallElements : Nat := 16 * 1024 * 1024

section Tasks
variable {V : Type} [Float32Ops V] (sha256 : List UInt8 → Digest) {ranks : Nat} (rank : Fin ranks)

/-- The number 0.0. -/
def zero : V := Float32Ops.ofNat 0

/-- `agree_locked`: rank zero's digest is summed with nothing, then every rank
tells whether it has the same. -/
def agreeLocked (bytes : List UInt8) : Task V Unit :=
  let digest := (sha256 bytes).toList
  let reference := digest.map fun byte =>
    if rank.val = 0 then Float32Ops.ofNat byte.toNat else zero
  .reduce reference fun reference =>
    let matches_ := (reference.zip digest).all fun pair =>
      Float32Ops.eq pair.1 (Float32Ops.ofNat pair.2.toNat : V)
    .reduce [Float32Ops.ofNat (if matches_ then 0 else 1)] fun mismatch =>
      if mismatch.length = 1 && mismatch.all fun count => Float32Ops.eq count zero then
        .ok ()
      else
        .fail "cluster ranks disagree on model, inputs, or collective operation"

/-- What the ranks of an exchange agree on. -/
def descriptor (broadcast : Bool) (size : Nat) : List UInt8 :=
  ascii "joshua-cluster-vector-v1" ++ [if broadcast then 1 else 0] ++ leBytes 8 size

/-- `chunks_mut`: consecutive chunks, the last one maybe shorter. -/
def chunksOf (size : Nat) (values : List V) : List (List V) :=
  (List.range ((values.length + size - 1) / size)).map fun chunk =>
    (values.drop (chunk * size)).take size

/-- The chunks of an exchange one after the other. -/
def reduceChunks : List (List V) → List V → Task V (List V)
  | [], result => .ok result
  | chunk :: rest, result =>
    .reduce chunk fun sums =>
      if sums.all Float32Ops.isFinite then
        reduceChunks rest (result ++ sums)
      else .fail "nonfinite reduced cluster activation"

/-- The elements of one reduction. -/
def chunkSize (ranks : Nat) : Nat :=
  min maxTensorElements (maxTotalElements / ranks)

/-- `exchange` behind `operation`: the values the caller gets. -/
def exchange (broadcast : Bool) (values : List V) : Task V (List V) :=
  if maxCallElements < values.length then
    .fail "cluster activation exceeds the per-call element limit"
  else if !values.all Float32Ops.isFinite then
    .fail "nonfinite cluster activation"
  else
    (agreeLocked sha256 rank (descriptor broadcast values.length)).bind
      fun _ =>
        let staged := if broadcast && rank.val ≠ 0 then
            List.replicate values.length zero
          else values
        reduceChunks (chunksOf (chunkSize ranks) staged) []

end Tasks

/-! ## All ranks -/

/-- What a rank calls: `agree`, or one of the two exchanges. -/
inductive Call (V : Type)
  | agree (bytes : List UInt8)
  | exchange (broadcast : Bool) (values : List V)
deriving Repr, DecidableEq

section Group
variable {V : Type} [Float32Ops V] (sha256 : List UInt8 → Digest) {ranks : Nat}

/-- A rank's part of a call; `agree` has no values. -/
def Call.task (rank : Fin ranks) : Call V → Task V (List V)
  | .agree bytes => (agreeLocked sha256 rank bytes).bind fun _ => .ok []
  | .exchange broadcast values => ClusterSession.exchange sha256 rank broadcast values

/-- `operation`: a session that has failed does not take part. -/
def operation (poisoned : Fin ranks → Bool) (calls : Fin ranks → Call V)
    (rank : Fin ranks) : Task V (List V) :=
  if poisoned rank then
    .fail "cluster session failed; restart every rank with a fresh session UUID"
  else (calls rank).task sha256 rank

/-- A failed operation invalidates the session. -/
def poisonedAfter (poisoned : Fin ranks → Bool)
    (results : Fin ranks → Except String (List V)) (rank : Fin ranks) : Bool :=
  poisoned rank || !(results rank).isOk

/-- The values a call is given. -/
def Call.values : Call V → List V
  | .agree _ => []
  | .exchange _ values => values

/-- The caller's values behind a call. -/
def callerValues (call : Call V) (result : Except String (List V)) : List V :=
  match result with
  | .ok changed => changed
  | .error _ => call.values

/-- The results of one call at every rank. -/
def Called (poisoned : Fin ranks → Bool) (calls : Fin ranks → Call V)
    (results : Fin ranks → Except String (List V)) : Prop :=
  Results zero Float32Ops.add (operation sha256 poisoned calls) results

/-- The results of calls one after the other. -/
inductive CalledAll : (Fin ranks → Bool) → List (Fin ranks → Call V) →
    List (Fin ranks → Except String (List V)) → Prop
  | nil (poisoned) : CalledAll poisoned [] []
  | cons {poisoned calls results later laterResults}
      (head : Called sha256 poisoned calls results)
      (tail : CalledAll (poisonedAfter poisoned results) later laterResults) :
      CalledAll poisoned (calls :: later) (results :: laterResults)

end Group

end ClusterSession

end Joshua
