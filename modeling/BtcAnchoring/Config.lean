import BtcAnchoring.Exonum

/-!
# BtcAnchoring — the anchoring configuration

`config.rs`: the committee configuration of the anchoring service and the
functions derived from it. The redeem script is built twice in the source,
once by `Config::redeem_script` (which `unwrap`s the builder's result) and once
by `Config::validate` (which returns its error); heights are `u64` and are
computed with Rust's panicking `%` and `+`.

A Rust panic is the `.error` (or `none`) outcome of the model: `redeem_script`
and the functions over it return `Except RedeemScriptError`, the height
functions return `Option Height`.

Main results:

* `redeemScript_ok_iff` — the redeem script is built exactly for a non-empty
  committee, with the byzantine quorum of its size.
* `validate_ok_iff` — `validate` accepts exactly the configs whose redeem
  script builds and whose funding transaction, if any, pays its P2WSH script.
* `findBitcoinKey_eq` — `find_bitcoin_key` returns the first entry with the
  service key, with its index.
* `previousAnchoringHeight_spec`, `followingAnchoringHeight_spec` — the
  scheduling arithmetic: a zero interval panics, otherwise the floor multiple;
  the following height overflows exactly past `u64::MAX`.
* `previousAnchoringHeight_mono` — anchoring heights never go back as the
  chain grows, and an anchoring height is its own previous one.
-/

namespace BtcAnchoring

/-- A committee member entry (`AnchoringKeys`). -/
structure AnchoringKeys where
  bitcoinKey : Btc.PublicKey
  serviceKey : PublicKey
  deriving DecidableEq, Repr

/-- The anchoring configuration (`Config`). -/
structure Config where
  network : Network
  anchoringKeys : List AnchoringKeys
  anchoringInterval : UInt64
  transactionFee : UInt64
  fundingTransaction : Option Btc.Transaction
  deriving DecidableEq, Repr

/-- Modelled from the spec: `State::byzantine_majority_count` of the host
chain (not among the sources), `⌊2N/3⌋ + 1` out of `N`. -/
def byzantineMajorityCount (total : Nat) : Nat :=
  total * 2 / 3 + 1

/-- `byzantine_quorum`. -/
def byzantineQuorum (total : Nat) : Nat :=
  byzantineMajorityCount total

/-- `Config::default`. -/
def Config.default : Config where
  network := .testnet
  anchoringKeys := []
  anchoringInterval := 5000
  transactionFee := 10
  fundingTransaction := none

/-- `Config::with_public_keys`. -/
def Config.withPublicKeys (network : Network) (keys : List AnchoringKeys) :
    Except Btc.RedeemScriptError Config :=
  if keys.isEmpty then .error .notEnoughPublicKeys
  else .ok { Config.default with network, anchoringKeys := keys }

/-- `Config::find_bitcoin_key`. -/
def Config.findBitcoinKey (c : Config) (serviceKey : PublicKey) : Option (Nat × Btc.PublicKey) :=
  c.anchoringKeys.enum.findSome? fun (n, x) =>
    if x.serviceKey = serviceKey then some (n, x.bitcoinKey) else none

/-- `Config::redeem_script`; an error is the `unwrap` panic. -/
def Config.redeemScript (c : Config) : Except Btc.RedeemScriptError Btc.RedeemScript :=
  let quorum := byzantineQuorum c.anchoringKeys.length
  ((Btc.RedeemScriptBuilder.withPublicKeys (c.anchoringKeys.map (·.bitcoinKey))).quorum quorum).toScript

/-- `Config::anchoring_address`. -/
def Config.anchoringAddress (c : Config) : Except Btc.RedeemScriptError Btc.Address :=
  c.redeemScript.map (Btc.p2wshAddress · c.network)

/-- `Config::anchoring_out_script`. -/
def Config.anchoringOutScript (c : Config) : Except Btc.RedeemScriptError Btc.Script :=
  c.redeemScript.map (·.toV0P2wsh)

/-- `u64` remainder, which panics on a zero divisor. -/
def u64Rem (a b : UInt64) : Option UInt64 :=
  if b.toNat = 0 then none else some (a % b)

/-- `u64` subtraction, which panics on underflow. -/
def u64Sub (a b : UInt64) : Option UInt64 :=
  if b.toNat ≤ a.toNat then some (a - b) else none

/-- `u64` addition, which panics on overflow. -/
def u64Add (a b : UInt64) : Option UInt64 :=
  if a.toNat + b.toNat < 2 ^ 64 then some (a + b) else none

/-- `Config::previous_anchoring_height`. -/
def Config.previousAnchoringHeight (c : Config) (currentHeight : Height) : Option Height := do
  let r ← u64Rem currentHeight.val c.anchoringInterval
  return ⟨← u64Sub currentHeight.val r⟩

/-- `Config::following_anchoring_height`. -/
def Config.followingAnchoringHeight (c : Config) (currentHeight : Height) : Option Height := do
  let p ← c.previousAnchoringHeight currentHeight
  return ⟨← u64Add p.val c.anchoringInterval⟩

/-- `Config::validate`: the redeem script is rebuilt, and a funding transaction
must pay its P2WSH script. -/
def Config.validate (c : Config) : Except Error Unit := do
  let quorum := byzantineQuorum c.anchoringKeys.length
  let redeemScript ← (((Btc.RedeemScriptBuilder.withPublicKeys
    (c.anchoringKeys.map (·.bitcoinKey))).quorum quorum).toScript).mapError .redeemScript
  match c.fundingTransaction with
  | some tx =>
    match tx.findOut redeemScript.toV0P2wsh with
    | some _ => pure ()
    | none => throw (.message "Funding transaction is unsuitable.")
  | none => pure ()

/-- `ValidateInput::into_validated`. -/
def Config.intoValidated (c : Config) : Except Error Config := do
  c.validate
  pure c

-- ---------------------------------------------------------------------------
-- Quorum and redeem script
-- ---------------------------------------------------------------------------

theorem byzantineQuorum_pos (n : Nat) : 0 < byzantineQuorum n := by
  unfold byzantineQuorum byzantineMajorityCount; omega

/-- A non-empty committee can reach its own quorum. -/
theorem byzantineQuorum_le {n : Nat} (hn : 0 < n) : byzantineQuorum n ≤ n := by
  unfold byzantineQuorum byzantineMajorityCount; omega

/-- The redeem script builds exactly for a non-empty committee: the
`byzantine_quorum` of its size over its Bitcoin keys, in order. -/
theorem redeemScript_ok_iff {c : Config} {s : Btc.RedeemScript} :
    c.redeemScript = .ok s ↔
      c.anchoringKeys ≠ [] ∧
        s = ⟨c.anchoringKeys.map (·.bitcoinKey), byzantineQuorum c.anchoringKeys.length⟩ := by
  rw [Config.redeemScript, Btc.toScript_ok_iff, Btc.withPublicKeys_quorum_content]
  have hq := byzantineQuorum_pos c.anchoringKeys.length
  cases hk : c.anchoringKeys with
  | nil => simp [byzantineQuorum, byzantineMajorityCount]
  | cons k ks =>
    simp only [List.length_map, List.length_cons, ne_eq, reduceCtorEq, not_false_eq_true,
      true_and, and_iff_left_iff_imp]
    exact fun _ => ⟨byzantineQuorum_pos _, byzantineQuorum_le (Nat.succ_pos _)⟩

/-- The only way the redeem script fails: an empty committee. -/
theorem redeemScript_of_nil {c : Config} (h : c.anchoringKeys = []) :
    c.redeemScript = .error .notEnoughPublicKeys := by
  simp [Config.redeemScript, Btc.RedeemScriptBuilder.toScript, h, byzantineQuorum,
    byzantineMajorityCount]

theorem anchoringAddress_of_redeemScript {c : Config} {s : Btc.RedeemScript}
    (h : c.redeemScript = .ok s) : c.anchoringAddress = .ok (Btc.p2wshAddress s c.network) := by
  simp [Config.anchoringAddress, h, Except.map]

theorem anchoringOutScript_of_redeemScript {c : Config} {s : Btc.RedeemScript}
    (h : c.redeemScript = .ok s) : c.anchoringOutScript = .ok s.toV0P2wsh := by
  simp [Config.anchoringOutScript, h, Except.map]

/-- Configs with the same anchoring address pay the same output script: the
address is the network together with the witness program. -/
theorem anchoringOutScript_eq_of_anchoringAddress_eq {c c' : Config}
    (h : c.anchoringAddress = c'.anchoringAddress) :
    c.anchoringOutScript = c'.anchoringOutScript := by
  revert h
  simp only [Config.anchoringAddress, Config.anchoringOutScript]
  cases c.redeemScript <;> cases c'.redeemScript <;>
    simp +contextual [Except.map, Btc.address_eq_iff, Btc.RedeemScript.toV0P2wsh]

-- ---------------------------------------------------------------------------
-- Validation
-- ---------------------------------------------------------------------------

/-- `validate` rebuilds exactly the script `redeem_script` builds. -/
theorem validate_script_eq (c : Config) :
    ((Btc.RedeemScriptBuilder.withPublicKeys (c.anchoringKeys.map (·.bitcoinKey))).quorum
      (byzantineQuorum c.anchoringKeys.length)).toScript = c.redeemScript := rfl

/-- `validate` accepts exactly the configs whose redeem script builds and whose
funding transaction, if any, has an output paying the script's P2WSH. -/
theorem validate_ok_iff {c : Config} :
    c.validate = .ok () ↔
      ∃ s, c.redeemScript = .ok s ∧
        ∀ tx, c.fundingTransaction = some tx → (tx.findOut s.toV0P2wsh).isSome := by
  simp only [Config.validate, validate_script_eq]
  cases c.redeemScript with
  | error e => simp only [Except.mapError, bind, Except.bind, reduceCtorEq, false_and, exists_false]
  | ok s =>
    simp only [Except.mapError, bind, Except.bind, Except.ok.injEq, exists_eq_left']
    cases c.fundingTransaction with
    | none => simp [pure, Except.pure]
    | some tx =>
      simp only [forall_eq']
      split <;> rename_i hf <;> simp [hf, pure, Except.pure, throw, throwThe, MonadExceptOf.throw]

/-- The default config has no committee, so it does not pass its own check. -/
theorem default_validate : Config.default.validate = .error (.redeemScript .notEnoughPublicKeys) :=
  rfl

/-- `with_public_keys` builds configs that pass `validate`. -/
theorem withPublicKeys_validate {network : Network} {keys : List AnchoringKeys} {c : Config}
    (h : Config.withPublicKeys network keys = .ok c) : c.validate = .ok () := by
  unfold Config.withPublicKeys at h
  split_ifs at h with hk
  cases h
  refine validate_ok_iff.mpr ⟨_, redeemScript_ok_iff.mpr ⟨?_, rfl⟩, by simp [Config.default]⟩
  simpa using hk

-- ---------------------------------------------------------------------------
-- Committee lookup
-- ---------------------------------------------------------------------------

/-- `find_map` over an enumeration from `s`: the first match, at its index. -/
private theorem findSome?_enumFrom {α β : Type} {P : α → Prop} [DecidablePred P] (g : α → β) :
    ∀ (l : List α) (s : Nat),
      (l.enumFrom s).findSome? (fun (n, x) => if P x then some (n, g x) else none) =
        (l.findIdx? (fun x => decide (P x))).bind fun i => l[i]?.map fun x => (s + i, g x)
  | [], _ => rfl
  | a :: l, s => by
    by_cases ha : P a
    · simp only [List.enumFrom_cons, ha, ↓reduceIte, Option.isSome_some, List.findSome?_cons_of_isSome,
        List.findIdx?_cons, decide_True, Option.some_bind, List.getElem?_cons_zero, Option.map_some',
        Nat.add_zero]
    · simp only [List.enumFrom_cons, List.findSome?_cons, ha, if_false, List.findIdx?_cons,
        decide_False, Bool.false_eq_true, List.findIdx?_succ, findSome?_enumFrom g l (s + 1)]
      cases l.findIdx? (fun x => decide (P x)) <;>
        simp only [Option.none_bind, Option.some_bind, Option.map_none', Option.map_some',
          List.getElem?_cons_succ, Nat.add_right_comm, Nat.add_assoc]

/-- `find_bitcoin_key` returns the first entry carrying the service key, with
its index. -/
theorem findBitcoinKey_eq (c : Config) (k : PublicKey) :
    c.findBitcoinKey k = (c.anchoringKeys.findIdx? (fun x => decide (x.serviceKey = k))).bind
      fun i => c.anchoringKeys[i]?.map fun x => (i, x.bitcoinKey) := by
  simpa using findSome?_enumFrom (P := (·.serviceKey = k)) (·.bitcoinKey) c.anchoringKeys 0

-- ---------------------------------------------------------------------------
-- Anchoring heights
-- ---------------------------------------------------------------------------

/-- `h - h % i` is the greatest multiple of `i` not above `h`, and `i` past it
the least multiple above `h`. -/
theorem sub_mod_add_le_of_dvd {h i m : Nat} (hm : i ∣ m) (hlt : h < m) :
    h - h % i + i ≤ m := by
  obtain ⟨k, rfl⟩ := hm
  have hdiv := Nat.mod_add_div h i
  have hq : h / i < k := Nat.lt_of_mul_lt_mul_left (by omega : i * (h / i) < i * k)
  calc h - h % i + i = i * (h / i + 1) := by rw [Nat.mul_add_one]; omega
    _ ≤ i * k := Nat.mul_le_mul_left i hq

/-- `h - h % i` is at most `h`, and `i` past it is above `h`. -/
theorem sub_mod_bounds (h : Nat) {i : Nat} (hi : 0 < i) : h - h % i ≤ h ∧ h < h - h % i + i := by
  have := Nat.mod_lt h hi
  have := Nat.mod_le h i
  omega

/-- A `u64` sum that does not overflow is the sum of the numbers. -/
theorem toNat_add_of_lt {a b : UInt64} (h : a.toNat + b.toNat < 2 ^ 64) :
    (a + b).toNat = a.toNat + b.toNat := by
  rw [show (a + b).toNat = (a.toNat + b.toNat) % 2 ^ 64 from BitVec.toNat_add _ _, Nat.mod_eq_of_lt h]

/-- `previous_anchoring_height` panics exactly on a zero interval. -/
theorem previousAnchoringHeight_eq_none_iff {c : Config} {h : Height} :
    c.previousAnchoringHeight h = none ↔ c.anchoringInterval.toNat = 0 := by
  by_cases hi : c.anchoringInterval.toNat = 0 <;>
    simp [Config.previousAnchoringHeight, u64Rem, u64Sub, hi, Nat.mod_le]

/-- Away from a zero interval, `previous_anchoring_height` is `h - h % i`. -/
theorem previousAnchoringHeight_spec {c : Config} (hi : c.anchoringInterval.toNat ≠ 0)
    (h : Height) : ∃ p, c.previousAnchoringHeight h = some p ∧
      p.val.toNat = h.val.toNat - h.val.toNat % c.anchoringInterval.toNat := by
  have hle : (h.val % c.anchoringInterval).toNat ≤ h.val.toNat := by
    rw [UInt64.toNat_mod]; exact Nat.mod_le _ _
  refine ⟨⟨h.val - h.val % c.anchoringInterval⟩, ?_, ?_⟩
  · simp [Config.previousAnchoringHeight, u64Rem, u64Sub, hi, Nat.mod_le]
  · rw [UInt64.toNat_sub_of_le _ _ hle, UInt64.toNat_mod]

/-- `following_anchoring_height` adds the interval to the previous height, and
panics when that passes `u64::MAX`. -/
theorem followingAnchoringHeight_eq {c : Config} {h p : Height}
    (hp : c.previousAnchoringHeight h = some p) :
    c.followingAnchoringHeight h =
      if p.val.toNat + c.anchoringInterval.toNat < 2 ^ 64 then
        some ⟨p.val + c.anchoringInterval⟩
      else none := by
  rw [Config.followingAnchoringHeight, hp]
  show (u64Add p.val c.anchoringInterval >>= fun x => (pure (Height.mk x) : Option Height)) = _
  unfold u64Add
  split_ifs <;> rfl

/-- `validate` does not read the interval (nor the fee): changing it keeps the
verdict. -/
theorem validate_anchoringInterval (c : Config) (i : UInt64) :
    { c with anchoringInterval := i }.validate = c.validate := rfl

/-- A config whose previous height panics has a following height that panics. -/
theorem followingAnchoringHeight_eq_none {c : Config} {h : Height}
    (hp : c.previousAnchoringHeight h = none) : c.followingAnchoringHeight h = none := by
  simp [Config.followingAnchoringHeight, hp]

/-- A validated single-member config with a zero interval: `validate` admits
it, and both scheduling functions then panic at every height. -/
theorem validate_admits_zero_interval :
    ({ Config.default with anchoringKeys := [⟨⟨1⟩, ⟨1⟩⟩], anchoringInterval := 0 } : Config).validate
        = .ok () ∧
      ∀ h, ({ Config.default with anchoringKeys := [⟨⟨1⟩, ⟨1⟩⟩], anchoringInterval := 0 } :
          Config).previousAnchoringHeight h = none ∧
        ({ Config.default with anchoringKeys := [⟨⟨1⟩, ⟨1⟩⟩], anchoringInterval := 0 } :
          Config).followingAnchoringHeight h = none := by
  refine ⟨rfl, fun h => ?_⟩
  have hp : ({ Config.default with anchoringKeys := [⟨⟨1⟩, ⟨1⟩⟩], anchoringInterval := 0 } :
      Config).previousAnchoringHeight h = none := previousAnchoringHeight_eq_none_iff.mpr rfl
  exact ⟨hp, followingAnchoringHeight_eq_none hp⟩

/-- A member resolves to its own index exactly when no earlier entry carries
the same service key. -/
theorem findBitcoinKey_self_iff (c : Config) {n : Nat} (hn : n < c.anchoringKeys.length) :
    c.findBitcoinKey c.anchoringKeys[n].serviceKey = some (n, c.anchoringKeys[n].bitcoinKey) ↔
      ∀ x ∈ c.anchoringKeys.take n, x.serviceKey ≠ c.anchoringKeys[n].serviceKey := by
  rw [findBitcoinKey_eq, Option.bind_eq_some]
  constructor
  · rintro ⟨i, hi, hx⟩ x hmem
    obtain ⟨y, -, hiy⟩ := Option.map_eq_some'.mp hx
    obtain rfl : i = n := (Prod.mk.inj hiy).1
    obtain ⟨_, _, hfirst⟩ := List.findIdx?_eq_some_iff_getElem.mp hi
    obtain ⟨j, hj, rfl⟩ := List.mem_take_iff_getElem.mp hmem
    simpa using hfirst j (by omega)
  · intro hearlier
    refine ⟨n, List.findIdx?_eq_some_iff_getElem.mpr ⟨hn, by simp, fun j hj => ?_⟩, ?_⟩
    · simpa using hearlier _ (List.mem_take_iff_getElem.mpr ⟨j, by omega, rfl⟩)
    · simp [List.getElem?_eq_getElem hn]

/-- Two members sharing a service key: the second does not resolve to itself. -/
theorem findBitcoinKey_self_iff_shared_key :
    1 < ({ Config.default with anchoringKeys := [⟨⟨1⟩, ⟨7⟩⟩, ⟨⟨2⟩, ⟨7⟩⟩] } : Config).anchoringKeys.length ∧
    (({ Config.default with anchoringKeys := [⟨⟨1⟩, ⟨7⟩⟩, ⟨⟨2⟩, ⟨7⟩⟩] } : Config).findBitcoinKey ⟨7⟩
        = some (1, ⟨2⟩) ↔
      ∀ x ∈ ([⟨⟨1⟩, ⟨7⟩⟩, ⟨⟨2⟩, ⟨7⟩⟩] : List AnchoringKeys).take 1, x.serviceKey ≠ ⟨7⟩) :=
  ⟨by decide, findBitcoinKey_self_iff
    ({ Config.default with anchoringKeys := [⟨⟨1⟩, ⟨7⟩⟩, ⟨⟨2⟩, ⟨7⟩⟩] } : Config) (n := 1) (by decide)⟩

/-- `validate` admits a committee whose two members share a service key; the
second member's key then resolves to the first entry. -/
theorem findBitcoinKey_shadowed :
    ({ Config.default with anchoringKeys := [⟨⟨1⟩, ⟨7⟩⟩, ⟨⟨2⟩, ⟨7⟩⟩] } : Config).validate = .ok () ∧
      ({ Config.default with anchoringKeys := [⟨⟨1⟩, ⟨7⟩⟩, ⟨⟨2⟩, ⟨7⟩⟩] } : Config).findBitcoinKey ⟨7⟩
        = some (0, ⟨1⟩) :=
  ⟨rfl, rfl⟩

/-- What the scheduling functions promise at `h`: the previous height `p` is
the greatest multiple of the interval not above `h`; the following height is
`p` plus the interval, the least multiple above `h`, and it panics exactly when
that passes `u64::MAX`. -/
def AnchoringSchedule (c : Config) (h : Height) : Prop :=
  ∃ p, c.previousAnchoringHeight h = some p ∧
    c.anchoringInterval.toNat ∣ p.val.toNat ∧ p.val.toNat ≤ h.val.toNat ∧
    h.val.toNat < p.val.toNat + c.anchoringInterval.toNat ∧
    (c.followingAnchoringHeight h = none ↔ 2 ^ 64 ≤ p.val.toNat + c.anchoringInterval.toNat) ∧
    ∀ f, c.followingAnchoringHeight h = some f →
      f.val.toNat = p.val.toNat + c.anchoringInterval.toNat ∧
      ∀ m, c.anchoringInterval.toNat ∣ m → h.val.toNat < m → f.val.toNat ≤ m

/-- **Anchoring heights.** With a positive interval the schedule holds at every
height. -/
theorem anchoringSchedule_of_pos (c : Config) (h : Height) (hi : 1 ≤ c.anchoringInterval.toNat) :
    AnchoringSchedule c h := by
  obtain ⟨p, hp, hpv⟩ := previousAnchoringHeight_spec (show c.anchoringInterval.toNat ≠ 0 by omega) h
  obtain ⟨hle, hlt⟩ := sub_mod_bounds h.val.toNat (show 0 < c.anchoringInterval.toNat by omega)
  refine ⟨p, hp, hpv ▸ Nat.dvd_sub_mod _, hpv ▸ hle, hpv ▸ hlt, ?_, ?_⟩
  · rw [followingAnchoringHeight_eq hp]
    split_ifs with hfit
    · simpa using hfit
    · simpa using hfit
  · intro f hf
    rw [followingAnchoringHeight_eq hp] at hf
    split_ifs at hf with hlt
    cases hf
    refine ⟨toNat_add_of_lt hlt, fun m hm hhm => ?_⟩
    rw [toNat_add_of_lt hlt, hpv]
    exact sub_mod_add_le_of_dvd hm hhm

theorem anchoringSchedule_of_pos_thousand :
    1 ≤ ({ Config.default with anchoringInterval := 1000 } : Config).anchoringInterval.toNat ∧
      AnchoringSchedule { Config.default with anchoringInterval := 1000 } ⟨1001⟩ :=
  ⟨by decide, anchoringSchedule_of_pos { Config.default with anchoringInterval := 1000 } ⟨1001⟩
    (by decide)⟩

/-- **Anchoring heights never go back.** With a positive interval,
`previous_anchoring_height` is monotone in the height, and an anchoring height
is its own previous anchoring height. -/
theorem previousAnchoringHeight_mono {c : Config} (hi : 1 ≤ c.anchoringInterval.toNat) {h h' : Height}
    (hle : h.val.toNat ≤ h'.val.toNat) :
    ∃ p p', c.previousAnchoringHeight h = some p ∧ c.previousAnchoringHeight h' = some p' ∧
      p.val.toNat ≤ p'.val.toNat ∧ c.previousAnchoringHeight p = some p := by
  have hi0 : c.anchoringInterval.toNat ≠ 0 := by omega
  obtain ⟨p, hp, hpv⟩ := previousAnchoringHeight_spec hi0 h
  obtain ⟨p', hp', hpv'⟩ := previousAnchoringHeight_spec hi0 h'
  obtain ⟨p'', hp'', hpv''⟩ := previousAnchoringHeight_spec hi0 p
  have hdiv := Nat.mod_add_div h.val.toNat c.anchoringInterval.toNat
  have hdiv' := Nat.mod_add_div h'.val.toNat c.anchoringInterval.toNat
  have hq : c.anchoringInterval.toNat * (h.val.toNat / c.anchoringInterval.toNat) ≤
      c.anchoringInterval.toNat * (h'.val.toNat / c.anchoringInterval.toNat) :=
    Nat.mul_le_mul_left _ (Nat.div_le_div_right hle)
  -- `p` is a multiple of the interval, so it is its own previous height
  have hpmod : p.val.toNat % c.anchoringInterval.toNat = 0 := by
    rw [hpv, show h.val.toNat - h.val.toNat % c.anchoringInterval.toNat =
      c.anchoringInterval.toNat * (h.val.toNat / c.anchoringInterval.toNat) by omega, Nat.mul_mod_right]
  obtain rfl : p'' = p := by
    obtain ⟨v''⟩ := p''
    obtain ⟨v⟩ := p
    exact congrArg Height.mk (UInt64.toNat.inj (by simp only at hpv'' hpmod; omega))
  exact ⟨p'', p', hp, hp', by omega, hp''⟩

theorem previousAnchoringHeight_mono_thousand :
    1 ≤ ({ Config.default with anchoringInterval := 1000 } : Config).anchoringInterval.toNat ∧
      (⟨1001⟩ : Height).val.toNat ≤ (⟨2500⟩ : Height).val.toNat ∧
      ∃ p p', ({ Config.default with anchoringInterval := 1000 } : Config).previousAnchoringHeight
          ⟨1001⟩ = some p ∧
        ({ Config.default with anchoringInterval := 1000 } : Config).previousAnchoringHeight ⟨2500⟩ =
          some p' ∧ p.val.toNat ≤ p'.val.toNat ∧
        ({ Config.default with anchoringInterval := 1000 } : Config).previousAnchoringHeight p = some p :=
  ⟨by decide, by decide, previousAnchoringHeight_mono (by decide) (by decide)⟩

/-- At the top of `u64` the next multiple does not fit: with interval 2 and
height `u64::MAX`, `following_anchoring_height` overflows. -/
theorem followingAnchoringHeight_overflow :
    ({ Config.default with anchoringInterval := 2 } : Config).previousAnchoringHeight
        ⟨18446744073709551615⟩ = some ⟨18446744073709551614⟩ ∧
      ({ Config.default with anchoringInterval := 2 } : Config).followingAnchoringHeight
        ⟨18446744073709551615⟩ = none := by
  decide

end BtcAnchoring
