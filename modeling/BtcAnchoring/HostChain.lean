import BtcAnchoring.Lifecycle

/-!
# BtcAnchoring — anchored blocks along the host chain

Each block of the host chain executes its transactions (among them the
supervisor's configuration changes), then runs the `before_commit` of every
active service, then appends its own hash to `block_hashes_by_height`. A
service created by a transaction of the block at height `H` takes part in the
commits of the later blocks, so its first `before_commit` sees the blocks
`0..H`. `ServiceRun H` collects the host-chain states of such runs.

`before_commit` pushes the hash of the latest committed block, so the service
records the hashes of the blocks from height `H` on, one commit behind:

* `anchoredFrom_of_serviceRun` — `block_hashes_by_height` is `pre ++
  anchored_blocks ++ [latest]` with `H` hashes in `pre`, in every state of a run;
* `anchoredBlocks_eq_blockHashes` — so `anchored_blocks[i]` is the hash of the
  block at height `H + i`, which is the block at height `i` exactly for a
  service created in the genesis block;
* `anchoredBlocks_eq_dropLast_drop` — and `anchored_blocks` is exactly the
  hashes from height `H` up to the latest block, which it does not hold yet;
* `configsValid_followingMovesAddress_of_serviceRun` — in every state of a
  run both config slots pass `validate` and a pending following config moves
  the anchoring address: the service's storage stays among the reachable states
  of `Lifecycle` (`reachable_of_serviceRun`), where these invariants hold.
-/

namespace BtcAnchoring

/-- The host chain at a block boundary: the hashes of the committed blocks and
the service's storage. -/
structure HostChain where
  blockHashesByHeight : List Hash
  service : BtcAnchoringSchema
  deriving DecidableEq, Repr

/-- Committing a block with hash `blockHash`: the service's `before_commit`
runs, then the block's hash is appended. -/
def commitBlock (c : HostChain) (blockHash : Hash) : Except ExecutionError HostChain := do
  let service ← beforeCommit c.blockHashesByHeight c.service
  pure ⟨c.blockHashesByHeight ++ [blockHash], service⟩

/-- The host-chain states of a run in which the service was created in the
block at height `H`. -/
inductive ServiceRun [BinaryValue Config] (H : Nat) : HostChain → Prop
  | created {blockHashesByHeight : List Hash} {params : List UInt8} {s : BtcAnchoringSchema} :
      blockHashesByHeight.length = H + 1 → initializeService params .empty = .ok s →
      ServiceRun H ⟨blockHashesByHeight, s⟩
  | configure {c : HostChain} {s' : BtcAnchoringSchema} :
      ServiceRun H c → ConfigStep c.service s' → ServiceRun H ⟨c.blockHashesByHeight, s'⟩
  | commit {c c' : HostChain} {blockHash : Hash} :
      ServiceRun H c → commitBlock c blockHash = .ok c' → ServiceRun H c'

/-- The block hashes are `H` hashes, then the anchored ones, then the latest. -/
def AnchoredFrom (H : Nat) (c : HostChain) : Prop :=
  ∃ pre latest, pre.length = H ∧ c.blockHashesByHeight = pre ++ c.service.anchoredBlocks ++ [latest]

-- ---------------------------------------------------------------------------
-- One commit
-- ---------------------------------------------------------------------------

/-- A commit anchors the latest block and appends the new one. -/
theorem commitBlock_ok {c c' : HostChain} {blockHash : Hash} (h : commitBlock c blockHash = .ok c') :
    ∃ latest, c.blockHashesByHeight.getLast? = some latest ∧
      c' = ⟨c.blockHashesByHeight ++ [blockHash],
        { c.service with anchoredBlocks := c.service.anchoredBlocks ++ [latest] }⟩ := by
  unfold commitBlock beforeCommit at h
  split at h
  · exact ⟨_, ‹_›, (Except.ok.inj h).symm⟩
  · cases h

/-- A configuration change leaves `anchored_blocks` alone. -/
theorem configStep_anchoredBlocks {s s' : BtcAnchoringSchema} (h : ConfigStep s s') :
    s'.anchoredBlocks = s.anchoredBlocks := by
  obtain ⟨_, _, -, happly⟩ := h
  obtain ⟨-, -, -, a, -, b, -, rfl⟩ := applyConfig_ok_iff.mp happly
  split_ifs <;> simp

theorem anchoredFrom_commitBlock {H : Nat} {c c' : HostChain} {blockHash : Hash}
    (hc : AnchoredFrom H c) (h : commitBlock c blockHash = .ok c') : AnchoredFrom H c' := by
  obtain ⟨pre, latest, hpre, hhashes⟩ := hc
  obtain ⟨latest', hlast, rfl⟩ := commitBlock_ok h
  obtain rfl : latest' = latest := by simpa [hhashes] using hlast.symm
  exact ⟨pre, blockHash, hpre, by simp [hhashes]⟩

-- ---------------------------------------------------------------------------
-- Runs
-- ---------------------------------------------------------------------------

section Runs

variable [BinaryValue Config]

theorem anchoredFrom_of_serviceRun {H : Nat} {c : HostChain} (h : ServiceRun H c) :
    AnchoredFrom H c := by
  induction h with
  | @created hashes params s hlen hinit =>
    obtain ⟨config, -, -, rfl⟩ := initializeService_ok_iff.mp hinit
    refine ⟨hashes.dropLast, hashes.getLast (List.ne_nil_of_length_pos (by omega)), ?_, ?_⟩
    · simp [hlen]
    · simp [BtcAnchoringSchema.empty, List.dropLast_append_getLast]
  | configure _ hstep ih =>
    obtain ⟨pre, latest, hpre, hhashes⟩ := ih
    exact ⟨pre, latest, hpre, by rw [configStep_anchoredBlocks hstep]; exact hhashes⟩
  | commit _ hcommit ih => exact anchoredFrom_commitBlock ih hcommit

/-- **Anchored blocks are indexed from the creation height.** In every state of
a run of a service created in the block at height `H`, `anchored_blocks[i]` is
the hash of the host block at height `H + i`. -/
theorem anchoredBlocks_eq_blockHashes {H : Nat} {c : HostChain} (h : ServiceRun H c) :
    ∀ i (hi : i < c.service.anchoredBlocks.length),
      c.blockHashesByHeight[H + i]? = some c.service.anchoredBlocks[i] := by
  obtain ⟨pre, latest, rfl, hhashes⟩ := anchoredFrom_of_serviceRun h
  intro i hi
  rw [hhashes, List.append_assoc, List.getElem?_append_right (by omega)]
  simp [List.getElem?_append_left hi]

/-- **`anchored_blocks` is the host chain from the creation height, one commit
behind.** In every state of a run of a service created at height `H`,
`anchored_blocks` is exactly the list of the hashes of the blocks from height
`H` up to the latest one, which it does not hold yet. -/
theorem anchoredBlocks_eq_dropLast_drop {H : Nat} {c : HostChain} (h : ServiceRun H c) :
    c.service.anchoredBlocks = (c.blockHashesByHeight.drop H).dropLast ∧
      c.blockHashesByHeight.length = H + c.service.anchoredBlocks.length + 1 := by
  obtain ⟨pre, latest, rfl, hhashes⟩ := anchoredFrom_of_serviceRun h
  rw [hhashes, List.append_assoc, List.drop_left, List.dropLast_concat]
  simp only [List.length_append, List.length_singleton, Nat.add_assoc, and_self]

/-- Host-chain runs refine the lifecycle: in every state of a run, the
service's storage is a reachable state. -/
theorem reachable_of_serviceRun {H : Nat} {c : HostChain} (h : ServiceRun H c) : Reachable c.service := by
  induction h with
  | created _ hinit => exact .created hinit
  | configure _ hstep ih => exact .configure ih hstep
  | commit _ hcommit ih =>
    unfold commitBlock at hcommit
    cases hb : beforeCommit _ _ with
    | error e =>
      rw [hb] at hcommit
      cases hcommit
    | ok s' =>
      rw [hb] at hcommit
      cases hcommit
      exact .commit ih hb

/-- **The lifecycle invariants hold along the host chain.** In every state of
a run of a service created at height `H`, both config slots of the service's
storage pass `validate`, and a pending following config has an anchoring
address other than the actual config's. -/
theorem configsValid_followingMovesAddress_of_serviceRun {H : Nat} {c : HostChain} (h : ServiceRun H c) :
    ConfigsValid c.service ∧ FollowingMovesAddress c.service :=
  (reachable_of_serviceRun h).invariant (P := fun s => ConfigsValid s ∧ FollowingMovesAddress s)
    (fun hinit => ⟨initializeService_configsValid hinit, initializeService_followingMovesAddress hinit⟩)
    (fun ⟨hvalid, hmoves⟩ ⟨_, _, hv, happly⟩ =>
      ⟨applyConfig_configsValid hvalid hv happly, applyConfig_followingMovesAddress hmoves happly⟩)
    fun _ => id

end Runs

/-- A service created in the block at height 1, after one more commit. -/
theorem serviceRun_created_late :
    @ServiceRun (fixedConfigCodec (committeeConfig 1)) 1
      ⟨[⟨[0]⟩, ⟨[1]⟩, ⟨[2]⟩], { committeeOneState with anchoredBlocks := [⟨[1]⟩] }⟩ :=
  @ServiceRun.commit (fixedConfigCodec (committeeConfig 1)) 1 _ _ ⟨[2]⟩
    (@ServiceRun.created (fixedConfigCodec (committeeConfig 1)) 1 [⟨[0]⟩, ⟨[1]⟩] []
      committeeOneState rfl rfl) rfl

theorem anchoredBlocks_eq_blockHashes_created_late :
    @ServiceRun (fixedConfigCodec (committeeConfig 1)) 1
        ⟨[⟨[0]⟩, ⟨[1]⟩, ⟨[2]⟩], { committeeOneState with anchoredBlocks := [⟨[1]⟩] }⟩ ∧
      ([⟨[0]⟩, ⟨[1]⟩, ⟨[2]⟩] : List Hash)[1 + 0]? = some ⟨[1]⟩ :=
  ⟨serviceRun_created_late,
    @anchoredBlocks_eq_blockHashes (fixedConfigCodec (committeeConfig 1)) 1 _
      serviceRun_created_late 0 (by decide)⟩

/-- The service created in the block at height 1 anchors the hash of block 1,
not of block 0, at index 0. -/
theorem anchoredBlocks_offset_created_late :
    @ServiceRun (fixedConfigCodec (committeeConfig 1)) 1
        ⟨[⟨[0]⟩, ⟨[1]⟩, ⟨[2]⟩], { committeeOneState with anchoredBlocks := [⟨[1]⟩] }⟩ ∧
      ([⟨[0]⟩, ⟨[1]⟩, ⟨[2]⟩] : List Hash)[0]? ≠ some ⟨[1]⟩ :=
  ⟨serviceRun_created_late, by decide⟩

/-- The service created in the block at height 1 holds the hashes of blocks
`1 .. 1` after one commit. -/
theorem anchoredBlocks_eq_dropLast_drop_created_late :
    @ServiceRun (fixedConfigCodec (committeeConfig 1)) 1
        ⟨[⟨[0]⟩, ⟨[1]⟩, ⟨[2]⟩], { committeeOneState with anchoredBlocks := [⟨[1]⟩] }⟩ ∧
      ([⟨[1]⟩] : List Hash) = (([⟨[0]⟩, ⟨[1]⟩, ⟨[2]⟩] : List Hash).drop 1).dropLast ∧
      ([⟨[0]⟩, ⟨[1]⟩, ⟨[2]⟩] : List Hash).length = 1 + ([⟨[1]⟩] : List Hash).length + 1 :=
  ⟨serviceRun_created_late,
    @anchoredBlocks_eq_dropLast_drop (fixedConfigCodec (committeeConfig 1)) 1 _ serviceRun_created_late⟩

/-- Committee 1 installed in the genesis block, then a change to committee 2:
both slots pass `validate`, and the pending committee 2 has a new address. -/
theorem configsValid_followingMovesAddress_pending :
    @ServiceRun (fixedConfigCodec (committeeConfig 1)) 0 ⟨[⟨[0]⟩], pendingTransitionState⟩ ∧
      ConfigsValid pendingTransitionState ∧ FollowingMovesAddress pendingTransitionState :=
  have h := @ServiceRun.configure (fixedConfigCodec (committeeConfig 1)) 0 ⟨[⟨[0]⟩], committeeOneState⟩
    pendingTransitionState
    (@ServiceRun.created (fixedConfigCodec (committeeConfig 1)) 0 [⟨[0]⟩] [] committeeOneState rfl rfl)
    ⟨.service supervisorInstanceId, committeeConfig 2, rfl, rfl⟩
  ⟨h, @configsValid_followingMovesAddress_of_serviceRun (fixedConfigCodec (committeeConfig 1)) 0 _ h⟩

end BtcAnchoring
