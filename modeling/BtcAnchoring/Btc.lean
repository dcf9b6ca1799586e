import Mathlib.Data.List.Basic
import Mathlib.Algebra.Group.Nat.Basic
import Mathlib.Order.Lattice

/-!
# BtcAnchoring — Bitcoin primitives

The anchoring service consumes Bitcoin through `btc_transaction_utils` (the
multisig redeem-script builder and P2WSH addresses) and `rust-bitcoin`
(scripts, addresses, transactions). This module models the part of those
collaborators that `config.rs` and `service.rs` read:

* `RedeemScriptBuilder` — `with_public_keys(keys).quorum(q).to_script()`
  refuses a zero quorum, an empty key list and a quorum above the number of
  keys; otherwise the script is the standard `q`-of-`n` multisig over the keys
  in their given order. A redeem script is represented by its content
  (`RedeemScriptContent`: quorum and keys), which the script bytes encode
  one-to-one.
* P2WSH — the version-0 output script and the address commit to the SHA-256
  of the witness script. Hashing is taken collision-free, so the digest is
  represented by the witness script itself; the address adds the network.
* Transactions — only the outputs are read by the service; a transaction id
  is the (collision-free) double SHA-256 of the transaction.

Main results:

* `toScript_ok_iff` — the builder succeeds exactly on `0 < q ≤ n`.
* `address_eq_iff` — two P2WSH addresses agree exactly when the network and
  the witness script agree, so equal addresses have equal output scripts.
-/

namespace BtcAnchoring

/-- Bitcoin networks (`bitcoin::network::constants::Network`). -/
inductive Network
  | bitcoin
  | testnet
  | regtest
  deriving DecidableEq, Repr

namespace Btc

/-- A Bitcoin public key (`btc::PublicKey`), by its compressed point. -/
structure PublicKey where
  point : Nat
  deriving DecidableEq, Repr

/-- Errors of `RedeemScriptBuilder::to_script`. -/
inductive RedeemScriptError
  | incorrectQuorum
  | noQuorum
  | notEnoughPublicKeys
  deriving DecidableEq, Repr

/-- A standard multisig redeem script, by its content (`RedeemScriptContent`):
`quorum` signatures out of `publicKeys`, in order. -/
structure RedeemScript where
  publicKeys : List PublicKey
  quorum : Nat
  deriving DecidableEq, Repr

/-- `RedeemScriptBuilder` of `btc_transaction_utils::multisig`: the content
being assembled. -/
structure RedeemScriptBuilder where
  content : RedeemScript
  deriving Repr

/-- `RedeemScriptBuilder::with_public_keys`: the keys, with an all-keys quorum
until `quorum` is called. -/
def RedeemScriptBuilder.withPublicKeys (publicKeys : List PublicKey) : RedeemScriptBuilder :=
  ⟨⟨publicKeys, publicKeys.length⟩⟩

/-- `RedeemScriptBuilder::quorum`. -/
def RedeemScriptBuilder.quorum (b : RedeemScriptBuilder) (quorum : Nat) : RedeemScriptBuilder :=
  ⟨{ b.content with quorum }⟩

/-- `RedeemScriptBuilder::to_script`: the preconditions are checked in this
order, then the content is the script. -/
def RedeemScriptBuilder.toScript (b : RedeemScriptBuilder) :
    Except RedeemScriptError RedeemScript :=
  if b.content.quorum = 0 then .error .noQuorum
  else if b.content.publicKeys = [] then .error .notEnoughPublicKeys
  else if b.content.publicKeys.length < b.content.quorum then .error .incorrectQuorum
  else .ok b.content

/-- An output script (`bitcoin::Script`). A version-0 P2WSH script is given
by its witness script (standing for its SHA-256); any other script by its
bytes. -/
inductive Script
  | p2wsh (witnessScript : RedeemScript)
  | other (bytes : List UInt8)
  deriving DecidableEq, Repr

/-- `Script::to_v0_p2wsh` of a redeem script. -/
def RedeemScript.toV0P2wsh (s : RedeemScript) : Script :=
  .p2wsh s

/-- A P2WSH address (`btc::Address`): the network and the witness program. -/
structure Address where
  network : Network
  witnessScript : RedeemScript
  deriving DecidableEq, Repr

/-- `p2wsh::address`. -/
def p2wshAddress (s : RedeemScript) (network : Network) : Address :=
  ⟨network, s⟩

/-- The output script an address is paid by (`Address::script_pubkey`). -/
def Address.scriptPubkey (a : Address) : Script :=
  a.witnessScript.toV0P2wsh

/-- A transaction output. -/
structure TxOut where
  value : UInt64
  scriptPubkey : Script
  deriving DecidableEq, Repr

/-- A Bitcoin transaction (`btc::Transaction`), by its outputs. -/
structure Transaction where
  output : List TxOut
  deriving DecidableEq, Repr

/-- A transaction id (`Sha256d`), by the transaction it digests. -/
structure Sha256d where
  preimage : Transaction
  deriving DecidableEq, Repr

/-- `Transaction::id`. -/
def Transaction.id (tx : Transaction) : Sha256d :=
  ⟨tx⟩

/-- Modelled from the spec: `Transaction::find_out` (`btc/transaction.rs` is
not among the sources): the first output, with its index, that pays the given
script. -/
def Transaction.findOut (tx : Transaction) (script : Script) : Option (Nat × TxOut) :=
  tx.output.enum.find? fun (_, out) => out.scriptPubkey = script

-- ---------------------------------------------------------------------------
-- Builder and address lemmas
-- ---------------------------------------------------------------------------

@[simp] theorem withPublicKeys_quorum_content (keys : List PublicKey) (q : Nat) :
    ((RedeemScriptBuilder.withPublicKeys keys).quorum q).content = ⟨keys, q⟩ := rfl

/-- The builder succeeds exactly on a positive quorum not above the number of
keys, and then returns the content it was given. -/
theorem toScript_ok_iff {b : RedeemScriptBuilder} {s : RedeemScript} :
    b.toScript = .ok s ↔
      s = b.content ∧ 0 < b.content.quorum ∧ b.content.quorum ≤ b.content.publicKeys.length := by
  unfold RedeemScriptBuilder.toScript
  split_ifs with h0 h1 h2 <;> simp only [reduceCtorEq, false_iff, Except.ok.injEq, not_and]
  · omega
  · simp only [h1, List.length_nil]; omega
  · omega
  · constructor
    · rintro rfl; exact ⟨rfl, by omega, by omega⟩
    · exact fun h => h.1.symm

theorem address_eq_iff {s s' : RedeemScript} {n n' : Network} :
    p2wshAddress s n = p2wshAddress s' n' ↔ n = n' ∧ s = s' := by
  simp [p2wshAddress]

/-- An address pays exactly the `to_v0_p2wsh` script of its witness script. -/
@[simp] theorem p2wshAddress_scriptPubkey (s : RedeemScript) (n : Network) :
    (p2wshAddress s n).scriptPubkey = s.toV0P2wsh := rfl

/-- `find_out` succeeds exactly when some output pays the script. -/
theorem findOut_isSome_iff {tx : Transaction} {script : Script} :
    (tx.findOut script).isSome ↔ ∃ out ∈ tx.output, out.scriptPubkey = script := by
  simp only [Transaction.findOut, List.find?_isSome, decide_eq_true_eq, Prod.exists]
  constructor
  · rintro ⟨i, out, hmem, rfl⟩
    exact ⟨out, List.snd_mem_of_mem_enum hmem, rfl⟩
  · rintro ⟨out, hmem, rfl⟩
    obtain ⟨i, hi⟩ := List.mem_iff_getElem?.mp hmem
    exact ⟨i, out, List.mem_enum_iff_getElem?.mpr hi, rfl⟩

end Btc

end BtcAnchoring
