import BtcAnchoring.Config

/-!
# BtcAnchoring — the service

`service.rs`: `BtcAnchoringService` as a host-chain service. Its state is the
part of `BtcAnchoringSchema` the lifecycle reads and writes. Every call returns
the new state or an `ExecutionError`; the host discards the fork of a failed
call, so a failed call leaves the state as it was. A panic in service code is
caught by the dispatcher and reported as an error too.

* `initializeService` decodes and validates the config and installs it as the actual
  one, and (legacy special case) its funding transaction as the unspent one.
* `beforeCommit` pushes the hash of the latest committed block onto
  `anchored_blocks`.
* `verifyConfig` admits supervisor calls with a config that passes `validate`.
* `applyConfig`, on a supervisor call, installs the config's funding
  transaction (legacy special case) and then the config itself: as the actual
  one when its anchoring address equals the actual one's, as the following one
  otherwise.

Main results:

* `applyConfig_ok_iff` — what a successful `apply_config` did, and when it
  succeeds; every invariant of `Lifecycle` is derived from it.
* `initializeService_ok_iff` — the same for `initialize`.
* `withPublicKeys_accepted` — a config `with_public_keys` builds passes
  `verify_config` and is installed by `initialize`.
-/

namespace BtcAnchoring

/-- The service's storage as its lifecycle sees it (`BtcAnchoringSchema`): the
configuration slots, the funding slot and the spent set, and the hashes of
the anchored blocks. -/
structure BtcAnchoringSchema where
  actualConfig : Option Config
  followingConfig : Option Config
  unspentFundingTransaction : Option Btc.Transaction
  spentFundingTransactions : List Btc.Sha256d
  anchoredBlocks : List Hash
  deriving DecidableEq, Repr

/-- The storage of a freshly created instance: every index is empty. -/
def BtcAnchoringSchema.empty : BtcAnchoringSchema :=
  ⟨none, none, none, [], []⟩

/-- A panic in service code. -/
inductive Panic
  | unwrap (e : Btc.RedeemScriptError)
  | actualConfigAbsent
  | genesisBeforeCommit
  deriving DecidableEq, Repr

/-- Errors of service calls (`ExecutionError`). -/
inductive ExecutionError
  | unauthorizedCaller
  | malformedArguments (e : Error)
  | panic (p : Panic)
  deriving DecidableEq, Repr

/-- Modelled from the spec: `BtcAnchoringSchema::actual_configuration`
(`blockchain/schema.rs` is not among the sources): the config in the
`actual_config` slot, which is set from `initialize` on; reading the empty
slot panics. -/
def BtcAnchoringSchema.actualConfiguration (s : BtcAnchoringSchema) : Except ExecutionError Config :=
  match s.actualConfig with
  | some c => .ok c
  | none => .error (.panic .actualConfigAbsent)

/-- The legacy special case of `initialize` and `apply_config` ("TODO remove
this special case"): a config that carries a funding transaction sets it as
the unspent one. -/
def BtcAnchoringSchema.setFundingOf (s : BtcAnchoringSchema) (config : Config) :
    BtcAnchoringSchema :=
  match config.fundingTransaction with
  | some tx => { s with unspentFundingTransaction := some tx }
  | none => s

section Calls

variable [BinaryValue Config]

/-- `BtcAnchoringService::initialize` (the name `initialize` is a Lean keyword). -/
def initializeService (params : List UInt8) (s : BtcAnchoringSchema) :
    Except ExecutionError BtcAnchoringSchema := do
  let config ← (BinaryValue.fromBytes params >>= Config.intoValidated).mapError .malformedArguments
  pure { s.setFundingOf config with actualConfig := some config }

end Calls

/-- `BtcAnchoringService::before_commit`: the hash of the latest block of the
host chain (`block_hashes_by_height().last()`) is pushed onto
`anchored_blocks`; the host chain has no block yet only during genesis. -/
def beforeCommit (blockHashesByHeight : List Hash) (s : BtcAnchoringSchema) :
    Except ExecutionError BtcAnchoringSchema :=
  match blockHashesByHeight.getLast? with
  | some blockHeaderHash => .ok { s with anchoredBlocks := s.anchoredBlocks ++ [blockHeaderHash] }
  | none => .error (.panic .genesisBeforeCommit)

/-- `Configure::verify_config`. -/
def verifyConfig (caller : Caller) (params : Config) : Except ExecutionError Unit :=
  match verifyCallerIsSupervisor caller with
  | none => .error .unauthorizedCaller
  | some _ => params.validate.mapError .malformedArguments

/-- `Configure::apply_config`. -/
def applyConfig (caller : Caller) (params : Config) (s : BtcAnchoringSchema) :
    Except ExecutionError BtcAnchoringSchema :=
  match verifyCallerIsSupervisor caller with
  | none => .error .unauthorizedCaller
  | some _ => do
    let s := s.setFundingOf params
    let actual ← s.actualConfiguration
    if (← actual.anchoringAddress.mapError (.panic ∘ .unwrap)) =
        (← params.anchoringAddress.mapError (.panic ∘ .unwrap)) then
      pure { s with actualConfig := some params }
    else
      pure { s with followingConfig := some params }

-- ---------------------------------------------------------------------------
-- Frame lemmas of the funding special case
-- ---------------------------------------------------------------------------

section SetFunding

variable (s : BtcAnchoringSchema) (c : Config)

@[simp] theorem setFundingOf_actualConfig : (s.setFundingOf c).actualConfig = s.actualConfig := by
  unfold BtcAnchoringSchema.setFundingOf; split <;> rfl

@[simp] theorem setFundingOf_followingConfig :
    (s.setFundingOf c).followingConfig = s.followingConfig := by
  unfold BtcAnchoringSchema.setFundingOf; split <;> rfl

@[simp] theorem setFundingOf_spentFundingTransactions :
    (s.setFundingOf c).spentFundingTransactions = s.spentFundingTransactions := by
  unfold BtcAnchoringSchema.setFundingOf; split <;> rfl

@[simp] theorem setFundingOf_anchoredBlocks :
    (s.setFundingOf c).anchoredBlocks = s.anchoredBlocks := by
  unfold BtcAnchoringSchema.setFundingOf; split <;> rfl

/-- The config's funding transaction, if it has one, replaces the unspent one. -/
@[simp] theorem setFundingOf_unspentFundingTransaction :
    (s.setFundingOf c).unspentFundingTransaction =
      c.fundingTransaction.or s.unspentFundingTransaction := by
  unfold BtcAnchoringSchema.setFundingOf; split <;> simp [*]

/-- The funding special case commutes with writing `anchored_blocks`. -/
theorem setFundingOf_withAnchoredBlocks (l : List Hash) :
    ({ s with anchoredBlocks := l }).setFundingOf c = { s.setFundingOf c with anchoredBlocks := l } := by
  unfold BtcAnchoringSchema.setFundingOf; split <;> rfl

end SetFunding

-- ---------------------------------------------------------------------------
-- Spec lemmas of the calls
-- ---------------------------------------------------------------------------

/-- `verify_config` admits exactly supervisor calls with a valid config. -/
theorem verifyConfig_ok_iff {caller : Caller} {params : Config} :
    verifyConfig caller params = .ok () ↔
      caller = .service supervisorInstanceId ∧ params.validate = .ok () := by
  rw [← verifyCallerIsSupervisor_eq_some]
  unfold verifyConfig
  cases verifyCallerIsSupervisor caller with
  | none => simp
  | some u => cases params.validate <;> simp [Except.mapError]

/-- **What `apply_config` does.** It succeeds exactly on a supervisor call
while an actual config is installed and both anchoring addresses build; then
the funding special case runs and the config goes to the actual slot when the
addresses agree, to the following slot otherwise. -/
theorem applyConfig_ok_iff {caller : Caller} {params : Config} {s s' : BtcAnchoringSchema} :
    applyConfig caller params s = .ok s' ↔
      caller = .service supervisorInstanceId ∧
      ∃ actual, s.actualConfig = some actual ∧
      ∃ a, actual.anchoringAddress = .ok a ∧ ∃ b, params.anchoringAddress = .ok b ∧
        s' = if a = b then { s.setFundingOf params with actualConfig := some params }
          else { s.setFundingOf params with followingConfig := some params } := by
  rw [← verifyCallerIsSupervisor_eq_some]
  unfold applyConfig
  cases verifyCallerIsSupervisor caller with
  | none => simp only [reduceCtorEq, false_and]
  | some u =>
    simp only [BtcAnchoringSchema.actualConfiguration, setFundingOf_actualConfig, true_and]
    cases s.actualConfig with
    | none => simp only [bind, Except.bind, reduceCtorEq, false_and, exists_false]
    | some actual =>
      simp only [bind, Except.bind, Option.some.injEq, exists_eq_left']
      cases actual.anchoringAddress <;> cases params.anchoringAddress <;>
        simp only [Except.mapError, Function.comp_apply, reduceCtorEq, Except.ok.injEq,
          exists_eq_left', false_and, exists_false, and_false]
      split_ifs <;> simp only [pure, Except.pure, Except.ok.injEq, eq_comm]

/-- `apply_config` neither reads nor writes `anchored_blocks`. -/
theorem applyConfig_withAnchoredBlocks (caller : Caller) (params : Config) (s : BtcAnchoringSchema)
    (l : List Hash) :
    applyConfig caller params { s with anchoredBlocks := l } =
      (applyConfig caller params s).map fun s' => { s' with anchoredBlocks := l } := by
  unfold applyConfig
  cases verifyCallerIsSupervisor caller with
  | none => rfl
  | some u =>
    rw [setFundingOf_withAnchoredBlocks]
    simp only [BtcAnchoringSchema.actualConfiguration]
    cases (s.setFundingOf params).actualConfig with
    | none => rfl
    | some actual =>
      dsimp only [bind, Except.bind, Except.mapError]
      cases actual.anchoringAddress <;> cases params.anchoringAddress <;> try rfl
      dsimp only
      split_ifs <;> rfl

/-- A rejected call: any caller but the supervisor is refused. -/
theorem applyConfig_unauthorized {caller : Caller} (h : caller ≠ .service supervisorInstanceId)
    (params : Config) (s : BtcAnchoringSchema) :
    applyConfig caller params s = .error .unauthorizedCaller := by
  unfold applyConfig
  cases hv : verifyCallerIsSupervisor caller
  · rfl
  · exact absurd (verifyCallerIsSupervisor_eq_some.mp hv) h

section Initialize

variable [BinaryValue Config]

/-- **What `initialize` does.** It succeeds exactly on params that decode to a
valid config, which it installs together with its funding transaction. -/
theorem initializeService_ok_iff {params : List UInt8} {s s' : BtcAnchoringSchema} :
    initializeService params s = .ok s' ↔
      ∃ config, BinaryValue.fromBytes params = .ok config ∧ config.validate = .ok () ∧
        s' = { s.setFundingOf config with actualConfig := some config } := by
  unfold initializeService Config.intoValidated
  cases BinaryValue.fromBytes (α := Config) params with
  | error e => simp [bind, Except.bind, Except.mapError]
  | ok config =>
    cases hv : config.validate <;>
      simp [bind, Except.bind, Except.mapError, pure, Except.pure, hv, eq_comm]

/-- **`with_public_keys` configs are accepted by the service.** A config that
`with_public_keys` builds passes `verify_config` on a supervisor call, and
`initialize` installs it from any params that decode to it. -/
theorem withPublicKeys_accepted {network : Network} {keys : List AnchoringKeys} {c : Config}
    (h : Config.withPublicKeys network keys = .ok c) :
    verifyConfig (.service supervisorInstanceId) c = .ok () ∧
      ∀ params s, BinaryValue.fromBytes params = .ok c →
        initializeService params s = .ok { s.setFundingOf c with actualConfig := some c } :=
  ⟨verifyConfig_ok_iff.mpr ⟨rfl, withPublicKeys_validate h⟩,
    fun _ _ hdec => initializeService_ok_iff.mpr ⟨c, hdec, withPublicKeys_validate h, rfl⟩⟩

end Initialize

end BtcAnchoring
