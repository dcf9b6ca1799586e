import BtcAnchoring.Btc

/-!
# BtcAnchoring — host-chain primitives

The anchoring service runs inside an Exonum blockchain and reaches it through
a few types and traits: keys and hashes of `exonum::crypto`, `Height`, the
`BinaryValue` codec of `exonum_merkledb`, the error values of `failure` /
`anyhow`, and the `Caller` of a service call with the supervisor check of
`exonum::runtime::rust::interfaces`. None of these is among the sources; this
module gives them the meaning the service relies on.

Hashing (`exonum::crypto::hash`) is taken collision-free, so a digest is
represented by the bytes it digests.
-/

namespace BtcAnchoring

/-- A host-chain public key (`exonum::crypto::PublicKey`). -/
structure PublicKey where
  bytes : Nat
  deriving DecidableEq, Repr

/-- A digest (`exonum::crypto::Hash`), by its preimage. -/
structure Hash where
  preimage : List UInt8
  deriving DecidableEq, Repr

/-- `exonum::crypto::hash`. -/
def hash (bytes : List UInt8) : Hash :=
  ⟨bytes⟩

/-- A host-chain height (`Height(u64)`). -/
structure Height where
  val : UInt64
  deriving DecidableEq, Repr

/-- Protobuf decoding errors (`protobuf::error::WireError`). -/
inductive WireError
  | unexpectedEof
  | incorrectTag (tag : Nat)
  | unexpectedWireType (wireType : Nat)
  | incorrectVarint
  deriving DecidableEq, Repr

/-- The error values the crate produces (`failure::Error`, `anyhow::Error`): a
redeem-script builder error passed on by `?`, a protobuf decoding error, or a
formatted message. -/
inductive Error
  | redeemScript (e : Btc.RedeemScriptError)
  | wire (e : WireError)
  | message (text : String)
  deriving DecidableEq, Repr

/-- `exonum_merkledb::BinaryValue`: the byte codec of stored values. -/
class BinaryValue (α : Type) where
  toBytes : α → List UInt8
  fromBytes : List UInt8 → Except Error α

/-- The caller of a service call (`Caller`). -/
inductive Caller
  | transaction (author : PublicKey)
  | service (instanceId : Nat)
  | blockchain
  deriving DecidableEq, Repr

/-- Modelled from the spec: `SUPERVISOR_INSTANCE_ID`, the instance id of the
designated supervisor service. -/
def supervisorInstanceId : Nat :=
  0

/-- Modelled from the spec: `verify_caller_is_supervisor` — configuration
calls are accepted only from the supervisor service. -/
def verifyCallerIsSupervisor : Caller → Option Unit
  | .service instanceId => if instanceId = supervisorInstanceId then some () else none
  | _ => none

/-- The supervisor check passes exactly for the supervisor service. -/
theorem verifyCallerIsSupervisor_eq_some {caller : Caller} :
    verifyCallerIsSupervisor caller = some () ↔ caller = .service supervisorInstanceId := by
  cases caller <;> simp [verifyCallerIsSupervisor]

end BtcAnchoring
