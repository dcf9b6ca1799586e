import BtcAnchoring.Service
import Mathlib.Logic.Relation

/-!
# BtcAnchoring — invariants of the configuration lifecycle

A service instance is created by `initialize` on empty storage; from then on
the supervisor changes its configuration (`verify_config` admits the proposed
params, `apply_config` installs them) and every block runs `before_commit`.
`Reachable` collects the states this produces. Each invariant below is proved
for one step from the spec lemmas of `Service` and then, by induction, for every
run; `Reachable.invariant` packages that induction for the invariants that do
not read `anchored_blocks`.

Main results:

* `applyConfig_anchoringAddress` — `apply_config` never changes the anchoring
  address of the actual config, so the one `initialize` installed stays.
* `applyConfig_followingConfig` — `apply_config` overwrites a pending following
  config whenever the new address differs from the actual one.
* `fundingSpendable_lifecycle` — the unspent funding transaction pays the
  actual committee, except after a config change that carries a funding
  transaction to a new address: then it pays the following committee.
* `applyConfig_unspentFresh_iff` — `apply_config` keeps the funding slot clear
  of spent transactions exactly when the params' own funding transaction is
  unspent.
* `configsValid_reachable` — in every reachable state both config slots pass
  `validate`, so `redeem_script` and the address comparison never panic.
* `followingMovesAddress_of_reachable` — in every reachable state a pending
  following config has an anchoring address other than the actual one's.
* `applyConfig_idempotent` — applying the same params twice is applying them
  once.
* `runEvents_configure_first` — over any run of host calls, failed calls
  discarded, configuration changes and block commits can be run apart: the
  changes first, then the commits.
-/

namespace BtcAnchoring

/-- One successful `apply_config` call, by any caller and with any params. -/
def ApplyStep (s s' : BtcAnchoringSchema) : Prop :=
  ∃ caller params, applyConfig caller params s = .ok s'

/-- One configuration change of the supervisor: `verify_config` admitted the
params, then `apply_config` ran with them. -/
def ConfigStep (s s' : BtcAnchoringSchema) : Prop :=
  ∃ caller params, verifyConfig caller params = .ok () ∧ applyConfig caller params s = .ok s'

/-- The states of an instance: created by `initialize` on empty storage, then
changed by supervisor configuration changes and by the `before_commit` of each
block. -/
inductive Reachable [BinaryValue Config] : BtcAnchoringSchema → Prop
  | created {params : List UInt8} {s : BtcAnchoringSchema} :
      initializeService params .empty = .ok s → Reachable s
  | configure {s s' : BtcAnchoringSchema} : Reachable s → ConfigStep s s' → Reachable s'
  | commit {s s' : BtcAnchoringSchema} {blockHashesByHeight : List Hash} :
      Reachable s → beforeCommit blockHashesByHeight s = .ok s' → Reachable s'

/-- The unspent funding transaction, when set, has an output paying the P2WSH
script of the actual config. -/
def FundingSpendable (s : BtcAnchoringSchema) : Prop :=
  ∀ tx, s.unspentFundingTransaction = some tx →
    ∃ actual, s.actualConfig = some actual ∧
      ∃ script, actual.anchoringOutScript = .ok script ∧ ∃ out ∈ tx.output, out.scriptPubkey = script

/-- The funding slot holds no transaction of the spent set. -/
def UnspentFresh (s : BtcAnchoringSchema) : Prop :=
  ∀ tx, s.unspentFundingTransaction = some tx → tx.id ∉ s.spentFundingTransactions

/-- Both config slots hold configs that pass `validate`, and the actual one is set. -/
def ConfigsValid (s : BtcAnchoringSchema) : Prop :=
  (∃ actual, s.actualConfig = some actual ∧ actual.validate = .ok ()) ∧
    ∀ following, s.followingConfig = some following → following.validate = .ok ()

/-- A pending following config moves the anchoring address: its address
differs from the actual config's. -/
def FollowingMovesAddress (s : BtcAnchoringSchema) : Prop :=
  ∀ following, s.followingConfig = some following →
    ∃ actual, s.actualConfig = some actual ∧ following.anchoringAddress ≠ actual.anchoringAddress

/-- A codec that decodes every input to `c`; it stands in for the protobuf
codec of `Config` in the witnesses below. -/
def fixedConfigCodec (c : Config) : BinaryValue Config :=
  ⟨fun _ => [], fun _ => .ok c⟩

/-- A one-member committee whose keys are both `k`. -/
def committeeConfig (k : Nat) : Config :=
  { Config.default with anchoringKeys := [⟨⟨k⟩, ⟨k⟩⟩] }

/-- A transaction with one output paying the committee of `committeeConfig k`. -/
def fundingTransactionFor (k : Nat) : Btc.Transaction :=
  ⟨[⟨1000, .p2wsh ⟨[⟨k⟩], 1⟩⟩]⟩

/-- Committee 1 installed, with nothing pending and no funding. -/
def committeeOneState : BtcAnchoringSchema :=
  ⟨some (committeeConfig 1), none, none, [], []⟩

/-- Committee 1 installed, with a transition to committee 2 pending. -/
def pendingTransitionState : BtcAnchoringSchema :=
  { committeeOneState with followingConfig := some (committeeConfig 2) }

theorem committeeConfig_anchoringAddress (k : Nat) :
    (committeeConfig k).anchoringAddress = .ok (Btc.p2wshAddress ⟨[⟨k⟩], 1⟩ .testnet) := by
  simp [committeeConfig, Config.anchoringAddress, Config.redeemScript, Config.default,
    Btc.RedeemScriptBuilder.toScript, Except.map, byzantineQuorum, byzantineMajorityCount]

/-- Committee 1 is what `with_public_keys` builds from its one key, and the
service accepts it. -/
theorem withPublicKeys_accepted_committee :
    Config.withPublicKeys .testnet [⟨⟨1⟩, ⟨1⟩⟩] = .ok (committeeConfig 1) ∧
      verifyConfig (.service supervisorInstanceId) (committeeConfig 1) = .ok () ∧
      ∀ params s, @BinaryValue.fromBytes Config (fixedConfigCodec (committeeConfig 1)) params =
          .ok (committeeConfig 1) →
        @initializeService (fixedConfigCodec (committeeConfig 1)) params s =
          .ok { s.setFundingOf (committeeConfig 1) with actualConfig := some (committeeConfig 1) } :=
  ⟨rfl, @withPublicKeys_accepted (fixedConfigCodec (committeeConfig 1)) .testnet [⟨⟨1⟩, ⟨1⟩⟩] _ rfl⟩

-- ---------------------------------------------------------------------------
-- One step
-- ---------------------------------------------------------------------------

section Step

variable {caller : Caller} {params : Config} {s s' : BtcAnchoringSchema}

/-- `before_commit` only appends to `anchored_blocks`. -/
theorem beforeCommit_ok {blockHashesByHeight : List Hash} (h : beforeCommit blockHashesByHeight s = .ok s') :
    ∃ blockHash, s' = { s with anchoredBlocks := s.anchoredBlocks ++ [blockHash] } := by
  unfold beforeCommit at h
  split at h
  · exact ⟨_, (Except.ok.inj h).symm⟩
  · cases h

/-- The addresses `apply_config` compares agree exactly when the configs'
anchoring addresses do. -/
theorem applyConfig_address_eq {actual : Config} {a b : Btc.Address}
    (ha : actual.anchoringAddress = .ok a) (hb : params.anchoringAddress = .ok b) :
    a = b ↔ actual.anchoringAddress = params.anchoringAddress := by
  rw [ha, hb, Except.ok.injEq]

/-- The funding slot and the spent set after `apply_config`. -/
theorem applyConfig_funding (h : applyConfig caller params s = .ok s') :
    s'.unspentFundingTransaction = params.fundingTransaction.or s.unspentFundingTransaction ∧
      s'.spentFundingTransactions = s.spentFundingTransactions := by
  obtain ⟨-, -, -, a, -, b, -, rfl⟩ := applyConfig_ok_iff.mp h
  split_ifs <;> simp

/-- The actual slot keeps its anchoring address across `apply_config`. -/
theorem applyConfig_actualConfig_anchoringAddress (h : applyConfig caller params s = .ok s') :
    s'.actualConfig.map Config.anchoringAddress = s.actualConfig.map Config.anchoringAddress := by
  obtain ⟨-, actual, hA, a, ha, b, hb, rfl⟩ := applyConfig_ok_iff.mp h
  split_ifs with hab
  · simp [hA, ha, hb, hab]
  · simp

/-- **No guard on a pending transition.** After `apply_config` the following
slot holds the params whenever their address differs from the actual one,
whatever was pending there; otherwise it is left alone. -/
theorem applyConfig_followingConfig (h : applyConfig caller params s = .ok s') :
    ∃ actual, s.actualConfig = some actual ∧
      (actual.anchoringAddress = params.anchoringAddress → s'.followingConfig = s.followingConfig) ∧
      (actual.anchoringAddress ≠ params.anchoringAddress → s'.followingConfig = some params) := by
  obtain ⟨-, actual, hA, a, ha, b, hb, rfl⟩ := applyConfig_ok_iff.mp h
  refine ⟨actual, hA, fun heq => ?_, fun hne => ?_⟩
  · rw [if_pos ((applyConfig_address_eq ha hb).mpr heq)]; simp
  · rw [if_neg fun hab => hne ((applyConfig_address_eq ha hb).mp hab)]

/-- While a transition to committee 2 is pending, an admitted change to
committee 3 replaces it. -/
theorem applyConfig_replaces_pending :
    (committeeConfig 2).anchoringAddress ≠ (committeeConfig 1).anchoringAddress ∧
      verifyConfig (.service supervisorInstanceId) (committeeConfig 3) = .ok () ∧
      applyConfig (.service supervisorInstanceId) (committeeConfig 3) pendingTransitionState =
        .ok { pendingTransitionState with followingConfig := some (committeeConfig 3) } ∧
      (committeeConfig 3).anchoringAddress ≠ (committeeConfig 2).anchoringAddress := by
  refine ⟨?_, rfl, rfl, ?_⟩ <;> simp [committeeConfig_anchoringAddress, Btc.address_eq_iff]

theorem applyConfig_followingConfig_pending :
    ∃ actual, pendingTransitionState.actualConfig = some actual ∧
      (actual.anchoringAddress = (committeeConfig 3).anchoringAddress →
        ({ pendingTransitionState with followingConfig := some (committeeConfig 3) } :
          BtcAnchoringSchema).followingConfig = pendingTransitionState.followingConfig) ∧
      (actual.anchoringAddress ≠ (committeeConfig 3).anchoringAddress →
        ({ pendingTransitionState with followingConfig := some (committeeConfig 3) } :
          BtcAnchoringSchema).followingConfig = some (committeeConfig 3)) :=
  @applyConfig_followingConfig (.service supervisorInstanceId) (committeeConfig 3) _ _ rfl

/-- A validated config's funding transaction pays its own P2WSH script. -/
theorem fundingTransaction_pays {c : Config} {tx : Btc.Transaction} (hv : c.validate = .ok ())
    (htx : c.fundingTransaction = some tx) :
    ∃ script, c.anchoringOutScript = .ok script ∧ ∃ out ∈ tx.output, out.scriptPubkey = script := by
  obtain ⟨rs, hrs, hpays⟩ := validate_ok_iff.mp hv
  exact ⟨_, anchoringOutScript_of_redeemScript hrs, Btc.findOut_isSome_iff.mp (hpays tx htx)⟩

/-- `apply_config` with valid params keeps the funding slot spendable by the
actual committee, unless the params bring a funding transaction to a new
address. -/
theorem applyConfig_fundingSpendable (hs : FundingSpendable s) (hv : params.validate = .ok ())
    (h : applyConfig caller params s = .ok s')
    (hcase : params.fundingTransaction = none ∨
      ∃ actual, s.actualConfig = some actual ∧ actual.anchoringAddress = params.anchoringAddress) :
    FundingSpendable s' := by
  obtain ⟨-, actual, hA, a, ha, b, hb, rfl⟩ := applyConfig_ok_iff.mp h
  intro tx htx
  split_ifs at htx ⊢ with hab
  · refine ⟨params, rfl, ?_⟩
    cases hf : params.fundingTransaction with
    | some tx' =>
      simp only [setFundingOf_unspentFundingTransaction, hf, Option.or_some, Option.some.injEq] at htx
      exact htx ▸ fundingTransaction_pays hv hf
    | none =>
      simp only [setFundingOf_unspentFundingTransaction, hf, Option.none_or] at htx
      obtain ⟨actual', hA', script, hout, hpay⟩ := hs tx htx
      obtain rfl : actual' = actual := Option.some.inj (hA'.symm.trans hA)
      refine ⟨script, ?_, hpay⟩
      rw [← anchoringOutScript_eq_of_anchoringAddress_eq ((applyConfig_address_eq ha hb).mp hab), hout]
  · have hf : params.fundingTransaction = none := by
      rcases hcase with hf | ⟨actual', hA', heq⟩
      · exact hf
      · obtain rfl : actual' = actual := Option.some.inj (hA'.symm.trans hA)
        exact absurd ((applyConfig_address_eq ha hb).mpr heq) hab
    simp only [setFundingOf_unspentFundingTransaction, hf, Option.none_or] at htx
    simpa only [setFundingOf_actualConfig] using hs tx htx

/-- When valid params bring a funding transaction to a new address, the
funding slot holds it, and it pays the following committee. -/
theorem applyConfig_funding_following {tx : Btc.Transaction} (hv : params.validate = .ok ())
    (h : applyConfig caller params s = .ok s') (htx : params.fundingTransaction = some tx)
    (hne : ∀ actual, s.actualConfig = some actual → actual.anchoringAddress ≠ params.anchoringAddress) :
    s'.followingConfig = some params ∧ s'.unspentFundingTransaction = some tx ∧
      ∃ script, params.anchoringOutScript = .ok script ∧ ∃ out ∈ tx.output, out.scriptPubkey = script := by
  obtain ⟨-, actual, hA, a, ha, b, hb, rfl⟩ := applyConfig_ok_iff.mp h
  have hab : a ≠ b := fun hab => hne actual hA ((applyConfig_address_eq ha hb).mp hab)
  simp only [hab, if_false, setFundingOf_unspentFundingTransaction, htx, Option.or_some, true_and]
  exact fundingTransaction_pays hv htx

/-- **Re-arming the funding slot.** From a state whose funding slot holds no
spent transaction, `apply_config` keeps it so exactly when the params carry no
funding transaction or an unspent one. -/
theorem applyConfig_unspentFresh_iff (hs : UnspentFresh s) (h : applyConfig caller params s = .ok s') :
    UnspentFresh s' ↔ ∀ tx, params.fundingTransaction = some tx → tx.id ∉ s.spentFundingTransactions := by
  obtain ⟨hunspent, hspent⟩ := applyConfig_funding h
  unfold UnspentFresh
  rw [hunspent, hspent]
  cases params.fundingTransaction with
  | none => exact iff_of_true hs fun _ h => nomatch h
  | some tx => simp

/-- After committee 1's funding transaction was spent, a fee-only update that
copies the legacy funding field forward puts it back in the funding slot. -/
theorem applyConfig_rearms_spent_funding :
    UnspentFresh { committeeOneState with
        spentFundingTransactions := [(fundingTransactionFor 1).id] } ∧
      verifyConfig (.service supervisorInstanceId) { committeeConfig 1 with
        transactionFee := 20, fundingTransaction := some (fundingTransactionFor 1) } = .ok () ∧
      applyConfig (.service supervisorInstanceId) { committeeConfig 1 with
          transactionFee := 20, fundingTransaction := some (fundingTransactionFor 1) }
          { committeeOneState with spentFundingTransactions := [(fundingTransactionFor 1).id] } =
        .ok ⟨some { committeeConfig 1 with
            transactionFee := 20, fundingTransaction := some (fundingTransactionFor 1) },
          none, some (fundingTransactionFor 1), [(fundingTransactionFor 1).id], []⟩ ∧
      ¬ UnspentFresh ⟨some { committeeConfig 1 with
            transactionFee := 20, fundingTransaction := some (fundingTransactionFor 1) },
          none, some (fundingTransactionFor 1), [(fundingTransactionFor 1).id], []⟩ :=
  ⟨(fun _ h => nomatch h), rfl, rfl, fun h => h _ rfl (List.mem_singleton_self _)⟩

theorem applyConfig_unspentFresh_iff_fee_update :
    UnspentFresh { committeeOneState with
        spentFundingTransactions := [(fundingTransactionFor 1).id] } ∧
      (UnspentFresh ⟨some { committeeConfig 1 with
            transactionFee := 20, fundingTransaction := some (fundingTransactionFor 1) },
          none, some (fundingTransactionFor 1), [(fundingTransactionFor 1).id], []⟩ ↔
        ∀ tx, some (fundingTransactionFor 1) = some tx → tx.id ∉ [(fundingTransactionFor 1).id]) :=
  ⟨(fun _ h => nomatch h), @applyConfig_unspentFresh_iff (.service supervisorInstanceId)
    { committeeConfig 1 with transactionFee := 20, fundingTransaction := some (fundingTransactionFor 1) }
    { committeeOneState with spentFundingTransactions := [(fundingTransactionFor 1).id] } _
    (fun _ h => nomatch h) rfl⟩

/-- Valid params are installed by a supervisor call while the actual config is
valid: `apply_config` then succeeds, with no panic. -/
theorem applyConfig_ok_of_valid {actual : Config} (hA : s.actualConfig = some actual)
    (hvA : actual.validate = .ok ()) (hv : verifyConfig caller params = .ok ()) :
    ∃ s', applyConfig caller params s = .ok s' := by
  obtain ⟨hcaller, hvp⟩ := verifyConfig_ok_iff.mp hv
  obtain ⟨rsA, hrsA, -⟩ := validate_ok_iff.mp hvA
  obtain ⟨rsP, hrsP, -⟩ := validate_ok_iff.mp hvp
  exact ⟨_, applyConfig_ok_iff.mpr ⟨hcaller, actual, hA, _, anchoringAddress_of_redeemScript hrsA,
    _, anchoringAddress_of_redeemScript hrsP, rfl⟩⟩

/-- `apply_config` with admitted params keeps both slots valid. -/
theorem applyConfig_configsValid (hs : ConfigsValid s) (hv : verifyConfig caller params = .ok ())
    (h : applyConfig caller params s = .ok s') : ConfigsValid s' := by
  have hvp := (verifyConfig_ok_iff.mp hv).2
  obtain ⟨⟨actual, hA, hvA⟩, hfollowing⟩ := hs
  obtain ⟨-, actual', hA', a, -, b, -, rfl⟩ := applyConfig_ok_iff.mp h
  split_ifs
  · exact ⟨⟨params, rfl, hvp⟩, by simpa only [setFundingOf_followingConfig] using hfollowing⟩
  · refine ⟨⟨actual, by simpa using hA, hvA⟩, ?_⟩
    simpa using hvp

/-- `apply_config` leaves `anchored_blocks` alone. -/
theorem applyConfig_anchoredBlocks (h : applyConfig caller params s = .ok s') :
    s'.anchoredBlocks = s.anchoredBlocks := by
  obtain ⟨-, -, -, a, -, b, -, rfl⟩ := applyConfig_ok_iff.mp h
  split_ifs <;> simp

/-- `apply_config` keeps a pending following config at a new address. -/
theorem applyConfig_followingMovesAddress (hs : FollowingMovesAddress s)
    (h : applyConfig caller params s = .ok s') : FollowingMovesAddress s' := by
  obtain ⟨-, actual, hA, a, ha, b, hb, rfl⟩ := applyConfig_ok_iff.mp h
  intro following hf
  split_ifs at hf ⊢ with hab
  · -- same address: the params become actual, the pending config stays
    obtain ⟨actual', hA', hne⟩ := hs following (by simpa only [setFundingOf_followingConfig] using hf)
    obtain rfl : actual' = actual := Option.some.inj (hA'.symm.trans hA)
    exact ⟨params, rfl, (applyConfig_address_eq ha hb).mp hab ▸ hne⟩
  · -- new address: the params become the pending config
    obtain rfl : following = params := (Option.some.inj hf).symm
    exact ⟨actual, by simpa only [setFundingOf_actualConfig] using hA,
      fun heq => hab ((applyConfig_address_eq ha hb).mpr heq.symm)⟩

/-- **`apply_config` is idempotent.** Applying the same params again to the
state an `apply_config` call produced succeeds and changes nothing. -/
theorem applyConfig_idempotent (h : applyConfig caller params s = .ok s') :
    applyConfig caller params s' = .ok s' := by
  obtain ⟨hcaller, actual, hA, a, ha, b, hb, rfl⟩ := applyConfig_ok_iff.mp h
  refine applyConfig_ok_iff.mpr ⟨hcaller, ?_⟩
  split_ifs with hab
  · subst hab
    refine ⟨params, rfl, a, hb, a, hb, ?_⟩
    rw [if_pos rfl]
    cases hf : params.fundingTransaction <;> simp only [BtcAnchoringSchema.setFundingOf, hf]
  · refine ⟨actual, by simpa only [setFundingOf_actualConfig] using hA, a, ha, b, hb, ?_⟩
    rw [if_neg hab]
    cases hf : params.fundingTransaction <;> simp only [BtcAnchoringSchema.setFundingOf, hf]

/-- Re-applying the change to committee 2 to the state it produced changes
nothing. -/
theorem applyConfig_idempotent_pending :
    applyConfig (.service supervisorInstanceId) (committeeConfig 2) committeeOneState =
        .ok pendingTransitionState ∧
      applyConfig (.service supervisorInstanceId) (committeeConfig 2) pendingTransitionState =
        .ok pendingTransitionState :=
  ⟨rfl, applyConfig_idempotent (s := committeeOneState) rfl⟩

end Step

-- ---------------------------------------------------------------------------
-- Runs of host calls
-- ---------------------------------------------------------------------------

/-- What the host asks of the service: a supervisor configuration change
(`verify_config`, then `apply_config` with the same params), or the
`before_commit` of a block. -/
inductive ServiceEvent
  | configure (caller : Caller) (params : Config)
  | commit (blockHashesByHeight : List Hash)

namespace ServiceEvent

/-- The service calls an event makes. -/
def call : ServiceEvent → BtcAnchoringSchema → Except ExecutionError BtcAnchoringSchema
  | configure caller params, s => do
    verifyConfig caller params
    applyConfig caller params s
  | commit blockHashesByHeight, s => beforeCommit blockHashesByHeight s

/-- The host runs the calls of an event; the fork of a failed call is
discarded, so the state stays as it was. -/
def step (e : ServiceEvent) (s : BtcAnchoringSchema) : BtcAnchoringSchema :=
  match e.call s with
  | .ok s' => s'
  | .error _ => s

def isConfigure : ServiceEvent → Bool
  | configure .. => true
  | commit .. => false

theorem step_commit_of_getLast? {blockHashesByHeight : List Hash} {latest : Hash}
    (hl : blockHashesByHeight.getLast? = some latest) (s : BtcAnchoringSchema) :
    (commit blockHashesByHeight).step s = { s with anchoredBlocks := s.anchoredBlocks ++ [latest] } := by
  simp only [step, call, beforeCommit, hl]

/-- A configuration change and a block commit commute: the two write disjoint
parts of the storage, and neither reads what the other writes. -/
theorem step_configure_commit (caller : Caller) (params : Config) (blockHashesByHeight : List Hash)
    (s : BtcAnchoringSchema) :
    (commit blockHashesByHeight).step ((configure caller params).step s) =
      (configure caller params).step ((commit blockHashesByHeight).step s) := by
  cases hl : blockHashesByHeight.getLast? with
  | none => simp only [step, call, beforeCommit, hl]
  | some latest =>
    rw [step_commit_of_getLast? hl, step_commit_of_getLast? hl]
    simp only [step, call, bind, Except.bind]
    cases verifyConfig caller params with
    | error e => rfl
    | ok u =>
      simp only [applyConfig_withAnchoredBlocks]
      cases happly : applyConfig caller params s with
      | error e => rfl
      | ok s₁ => simp only [Except.map, applyConfig_anchoredBlocks happly]

end ServiceEvent

open ServiceEvent

/-- The state after the host ran the events in order. -/
def runEvents (es : List ServiceEvent) (s : BtcAnchoringSchema) : BtcAnchoringSchema :=
  es.foldl (fun s e => e.step s) s

@[simp] theorem runEvents_cons (e : ServiceEvent) (es : List ServiceEvent) (s : BtcAnchoringSchema) :
    runEvents (e :: es) s = runEvents es (e.step s) :=
  rfl

theorem runEvents_append (es es' : List ServiceEvent) (s : BtcAnchoringSchema) :
    runEvents (es ++ es') s = runEvents es' (runEvents es s) :=
  List.foldl_append _ _ _ _

/-- A commit moves past any run of configuration changes. -/
theorem runEvents_step_commit {cs : List ServiceEvent} (hcs : ∀ c ∈ cs, c.isConfigure)
    (blockHashesByHeight : List Hash) (s : BtcAnchoringSchema) :
    runEvents cs ((commit blockHashesByHeight).step s) =
      (commit blockHashesByHeight).step (runEvents cs s) := by
  induction cs generalizing s with
  | nil => rfl
  | cons c cs ih =>
    cases c with
    | configure caller params =>
      rw [runEvents_cons, runEvents_cons, ← step_configure_commit]
      exact ih (fun c hc => hcs c (.tail _ hc)) _
    | commit _ => exact absurd (hcs _ (.head _)) Bool.false_ne_true

/-- **Configuration changes and commits can be run apart.** Whatever the
interleaving of supervisor configuration changes and block commits the host
runs, failed calls discarded, the service ends in the state it reaches by
running the configuration changes first, in their order, and then the
commits. -/
theorem runEvents_configure_first (es : List ServiceEvent) (s : BtcAnchoringSchema) :
    runEvents es s = runEvents (es.filter (·.isConfigure) ++ es.filter (!·.isConfigure)) s := by
  induction es generalizing s with
  | nil => rfl
  | cons e es ih =>
    cases e with
    | configure caller params => exact ih _
    | commit blockHashesByHeight =>
      rw [runEvents_cons, ih, List.filter_cons_of_neg Bool.false_ne_true, List.filter_cons_of_pos rfl,
        runEvents_append, runEvents_append, runEvents_cons,
        runEvents_step_commit fun c hc => (List.mem_filter.mp hc).2]


-- ---------------------------------------------------------------------------
-- Anchoring address of the actual config
-- ---------------------------------------------------------------------------

section Initialized

variable [BinaryValue Config]

/-- **Anchoring-address stability.** No `apply_config` call, whoever makes it
and whatever its params, changes the anchoring address of the actual config;
so along any run of `apply_config` calls after `initialize` it stays the one
of the config `initialize` installed. -/
theorem applyConfig_anchoringAddress :
    (∀ caller params (s s' : BtcAnchoringSchema), applyConfig caller params s = .ok s' →
      s'.actualConfig.map Config.anchoringAddress = s.actualConfig.map Config.anchoringAddress) ∧
    ∀ params (s s₀ s' : BtcAnchoringSchema), initializeService params s = .ok s₀ →
      Relation.ReflTransGen ApplyStep s₀ s' →
      ∃ config : Config, BinaryValue.fromBytes params = .ok config ∧
        s'.actualConfig.map Config.anchoringAddress = some config.anchoringAddress := by
  refine ⟨fun _ _ _ _ => applyConfig_actualConfig_anchoringAddress, fun params s s₀ s' hinit hrun => ?_⟩
  obtain ⟨config, hdec, -, rfl⟩ := initializeService_ok_iff.mp hinit
  refine ⟨config, hdec, ?_⟩
  induction hrun with
  | refl => rfl
  | tail _ hstep ih =>
    obtain ⟨caller, params, happly⟩ := hstep
    rw [applyConfig_actualConfig_anchoringAddress happly, ih]

/-- `initialize` makes the funding slot spendable by the config it installs. -/
theorem initializeService_fundingSpendable {params : List UInt8} {s : BtcAnchoringSchema}
    (h : initializeService params .empty = .ok s) : FundingSpendable s := by
  obtain ⟨config, -, hv, rfl⟩ := initializeService_ok_iff.mp h
  intro tx htx
  refine ⟨config, rfl, fundingTransaction_pays hv ?_⟩
  cases hf : config.fundingTransaction <;>
    simp_all [BtcAnchoringSchema.empty]

/-- **The funding slot across config changes.** `initialize` makes the unspent
funding transaction spendable by the actual committee; an admitted
`apply_config` keeps it so unless its params carry a funding transaction and a
new anchoring address, and in that case the slot holds that transaction, which
pays the following committee the params became. -/
theorem fundingSpendable_lifecycle :
    (∀ params (s : BtcAnchoringSchema), initializeService params .empty = .ok s → FundingSpendable s) ∧
    (∀ caller params (s s' : BtcAnchoringSchema), FundingSpendable s →
      verifyConfig caller params = .ok () → applyConfig caller params s = .ok s' →
      (params.fundingTransaction = none ∨
        ∃ actual, s.actualConfig = some actual ∧ actual.anchoringAddress = params.anchoringAddress) →
      FundingSpendable s') ∧
    ∀ caller params (s s' : BtcAnchoringSchema) tx,
      verifyConfig caller params = .ok () → applyConfig caller params s = .ok s' →
      params.fundingTransaction = some tx →
      (∀ actual, s.actualConfig = some actual → actual.anchoringAddress ≠ params.anchoringAddress) →
      s'.followingConfig = some params ∧ s'.unspentFundingTransaction = some tx ∧
        ∃ script, params.anchoringOutScript = .ok script ∧ ∃ out ∈ tx.output, out.scriptPubkey = script :=
  ⟨fun _ _ => initializeService_fundingSpendable,
    fun _ _ _ _ hs hv h hcase =>
      applyConfig_fundingSpendable hs (verifyConfig_ok_iff.mp hv).2 h hcase,
    fun _ _ _ _ _ hv h htx hne => applyConfig_funding_following (verifyConfig_ok_iff.mp hv).2 h htx hne⟩

omit [BinaryValue Config] in
/-- An admitted change to committee 2 that carries committee 2's funding
transaction: committee 1 stays actual while the funding slot pays committee 2. -/
theorem applyConfig_funding_pays_following :
    FundingSpendable committeeOneState ∧
      verifyConfig (.service supervisorInstanceId)
        { committeeConfig 2 with fundingTransaction := some (fundingTransactionFor 2) } = .ok () ∧
      applyConfig (.service supervisorInstanceId)
          { committeeConfig 2 with fundingTransaction := some (fundingTransactionFor 2) }
          committeeOneState =
        .ok { committeeOneState with
          followingConfig := some { committeeConfig 2 with
            fundingTransaction := some (fundingTransactionFor 2) },
          unspentFundingTransaction := some (fundingTransactionFor 2) } ∧
      ¬ FundingSpendable { committeeOneState with
          followingConfig := some { committeeConfig 2 with
            fundingTransaction := some (fundingTransactionFor 2) },
          unspentFundingTransaction := some (fundingTransactionFor 2) } := by
  refine ⟨(fun _ h => nomatch h), rfl, rfl, fun h => ?_⟩
  obtain ⟨actual, hA, script, hout, out, hmem, hpay⟩ := h _ rfl
  simp only [committeeOneState, Option.some.injEq] at hA
  subst hA
  have hscript : script = .p2wsh ⟨[⟨1⟩], 1⟩ := (Except.ok.inj hout).symm
  simp [fundingTransactionFor, hscript] at hmem hpay
  simp [hmem] at hpay

/-- **Induction over reachable states.** A property that `initialize`
establishes, that every admitted configuration change keeps, and that does
not read `anchored_blocks`, the one field `before_commit` writes, holds in
every reachable state. -/
theorem Reachable.invariant {P : BtcAnchoringSchema → Prop}
    (hcreated : ∀ {params : List UInt8} {s : BtcAnchoringSchema}, initializeService params .empty = .ok s → P s)
    (hconfigure : ∀ {s s' : BtcAnchoringSchema}, P s → ConfigStep s s' → P s')
    (hcommit : ∀ {s : BtcAnchoringSchema} (anchoredBlocks : List Hash), P s →
      P { s with anchoredBlocks := anchoredBlocks })
    {s : BtcAnchoringSchema} (h : Reachable s) : P s := by
  induction h with
  | created hinit => exact hcreated hinit
  | configure _ hstep ih => exact hconfigure ih hstep
  | commit _ hc ih =>
    obtain ⟨_, rfl⟩ := beforeCommit_ok hc
    exact hcommit _ ih

theorem initializeService_configsValid {params : List UInt8} {s : BtcAnchoringSchema}
    (h : initializeService params .empty = .ok s) : ConfigsValid s := by
  obtain ⟨config, -, hv, rfl⟩ := initializeService_ok_iff.mp h
  exact ⟨⟨config, rfl, hv⟩, by simp [BtcAnchoringSchema.empty]⟩

theorem initializeService_followingMovesAddress {params : List UInt8} {s : BtcAnchoringSchema}
    (h : initializeService params .empty = .ok s) : FollowingMovesAddress s := by
  obtain ⟨config, -, -, rfl⟩ := initializeService_ok_iff.mp h
  intro following hf
  simp only [setFundingOf_followingConfig, BtcAnchoringSchema.empty, reduceCtorEq] at hf

/-- Every reachable state keeps both config slots valid. -/
theorem configsValid_of_reachable {s : BtcAnchoringSchema} (h : Reachable s) : ConfigsValid s :=
  h.invariant initializeService_configsValid
    (fun hs ⟨_, _, hv, happly⟩ => applyConfig_configsValid hs hv happly) fun _ => id

/-- **A pending transition always moves the address.** In every reachable
state, a following config has an anchoring address different from the actual
config's. -/
theorem followingMovesAddress_of_reachable {s : BtcAnchoringSchema} (h : Reachable s) :
    FollowingMovesAddress s :=
  h.invariant initializeService_followingMovesAddress
    (fun hs ⟨_, _, _, happly⟩ => applyConfig_followingMovesAddress hs happly) fun _ => id

omit [BinaryValue Config] in
/-- Committee 1 installed, then a change to committee 2 admitted: the pending
committee 2 has a new address. -/
theorem followingMovesAddress_pending :
    @Reachable (fixedConfigCodec (committeeConfig 1)) pendingTransitionState ∧
      FollowingMovesAddress pendingTransitionState :=
  have h := @Reachable.configure (fixedConfigCodec (committeeConfig 1)) _ _
    (@Reachable.created (fixedConfigCodec (committeeConfig 1)) [] committeeOneState rfl)
    ⟨.service supervisorInstanceId, committeeConfig 2, rfl, rfl⟩
  ⟨h, @followingMovesAddress_of_reachable (fixedConfigCodec (committeeConfig 1)) _ h⟩

/-- **`validate` and `redeem_script` agree.** A config that passes `validate`
builds its redeem script, address and output script without the `unwrap`
panic, and its funding transaction pays that output script. In every reachable
state both config slots pass `validate`, and `apply_config` with admitted
params succeeds, so its address comparison never panics. -/
theorem configsValid_reachable :
    (∀ c : Config, c.validate = .ok () →
      ∃ rs, c.redeemScript = .ok rs ∧ c.anchoringAddress = .ok (Btc.p2wshAddress rs c.network) ∧
        c.anchoringOutScript = .ok rs.toV0P2wsh ∧
        ∀ tx, c.fundingTransaction = some tx → ∃ out ∈ tx.output, out.scriptPubkey = rs.toV0P2wsh) ∧
    ∀ s : BtcAnchoringSchema, Reachable s →
      ConfigsValid s ∧
        ∀ caller params, verifyConfig caller params = .ok () → ∃ s', applyConfig caller params s = .ok s' := by
  refine ⟨fun c hv => ?_, fun s hs => ⟨configsValid_of_reachable hs, fun _ _ hv => ?_⟩⟩
  · obtain ⟨rs, hrs, hpays⟩ := validate_ok_iff.mp hv
    exact ⟨rs, hrs, anchoringAddress_of_redeemScript hrs, anchoringOutScript_of_redeemScript hrs,
      fun tx htx => Btc.findOut_isSome_iff.mp (hpays tx htx)⟩
  · obtain ⟨⟨actual, hA, hvA⟩, -⟩ := configsValid_of_reachable hs
    exact applyConfig_ok_of_valid hA hvA hv

end Initialized

end BtcAnchoring
