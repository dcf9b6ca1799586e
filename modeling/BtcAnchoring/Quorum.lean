import BtcAnchoring.Config
import Mathlib.Data.Fintype.Card

/-!
# BtcAnchoring — the multisig quorum

`Config::redeem_script` (and `Config::validate`, which builds the same script)
puts `byzantine_quorum(N)` into the multisig over the `N` Bitcoin keys of the
committee: an anchoring transaction needs that many of the members'
signatures. A committee of `N` members tolerates `⌊(N − 1)/3⌋` faulty ones
(`N ≥ 3f + 1`). The threshold is sound for that bound:

* the honest members alone reach it, so faulty members cannot stall
  anchoring by withholding signatures;
* two sets of signers of that size always share an honest member, so no two
  conflicting transactions are both signed unless an honest member signs
  both.

Members are the positions `Fin N` of the keys in the script, which are the
validator indices of the committee.

Main results:

* `byzantineQuorum_add_maxFaulty` — `q + ⌊(N − 1)/3⌋ = N`: the quorum is
  exactly the number of honest members in the worst case.
* `maxFaulty_lt_two_quorum_sub` — `⌊(N − 1)/3⌋ < 2q − N`.
* `honest_reach_quorum`, `quorums_share_honest` — the two facts above over
  sets of members.
* `byzantineQuorum_sound` — all of it, for every committee size `N ≥ 1` and
  every config with `N` keys.
-/

namespace BtcAnchoring

/-- The number of faulty members a committee of `N` tolerates, `⌊(N − 1)/3⌋`. -/
def maxFaulty (total : Nat) : Nat :=
  (total - 1) / 3

-- ---------------------------------------------------------------------------
-- Arithmetic of the threshold
-- ---------------------------------------------------------------------------

theorem byzantineQuorum_eq (total : Nat) : byzantineQuorum total = 2 * total / 3 + 1 := by
  unfold byzantineQuorum byzantineMajorityCount; omega

/-- The quorum is the number of honest members when `⌊(N − 1)/3⌋` are
faulty. -/
theorem byzantineQuorum_add_maxFaulty {total : Nat} (h : 1 ≤ total) :
    byzantineQuorum total + maxFaulty total = total := by
  unfold byzantineQuorum byzantineMajorityCount maxFaulty; omega

/-- Two quorums overlap in more members than can be faulty. -/
theorem maxFaulty_lt_two_quorum_sub {total : Nat} (h : 1 ≤ total) :
    maxFaulty total < 2 * byzantineQuorum total - total := by
  unfold byzantineQuorum byzantineMajorityCount maxFaulty; omega

-- ---------------------------------------------------------------------------
-- Sets of members
-- ---------------------------------------------------------------------------

section Members

variable {total : Nat} (h : 1 ≤ total)

include h

/-- **The honest members reach the quorum.** -/
theorem honest_reach_quorum {faulty : Finset (Fin total)} (hf : faulty.card ≤ maxFaulty total) :
    byzantineQuorum total ≤ (Finset.univ \ faulty).card := by
  rw [Finset.card_univ_diff, Fintype.card_fin]
  have := byzantineQuorum_add_maxFaulty h
  omega

/-- **Two quorums share an honest member.** -/
theorem quorums_share_honest {s₁ s₂ faulty : Finset (Fin total)}
    (h₁ : byzantineQuorum total ≤ s₁.card) (h₂ : byzantineQuorum total ≤ s₂.card)
    (hf : faulty.card ≤ maxFaulty total) : ∃ i ∈ s₁, i ∈ s₂ ∧ i ∉ faulty := by
  have hunion := Finset.card_union_add_card_inter s₁ s₂
  have hall : (s₁ ∪ s₂).card ≤ total := (Finset.card_le_univ _).trans_eq (Fintype.card_fin total)
  have hlt := maxFaulty_lt_two_quorum_sub h
  obtain ⟨i, hi, hif⟩ := Finset.not_subset.mp fun hsub : s₁ ∩ s₂ ⊆ faulty =>
    absurd (Finset.card_le_card hsub) (by omega)
  exact ⟨i, (Finset.mem_inter.mp hi).1, (Finset.mem_inter.mp hi).2, hif⟩

end Members

/-- **The multisig threshold is a sound Byzantine quorum.** For every
committee size `N ≥ 1`, `q = byzantine_quorum(N)` is `⌊2N/3⌋ + 1`, at most
`N − ⌊(N − 1)/3⌋` (so the honest members alone reach it) and with
`2q − N > ⌊(N − 1)/3⌋` (so any two signer sets of size `q` share an honest
member); and it is the threshold `redeem_script` puts into the multisig of
every config with `N` keys. -/
theorem byzantineQuorum_sound {total : Nat} (h : 1 ≤ total) :
    byzantineQuorum total = 2 * total / 3 + 1 ∧
    byzantineQuorum total ≤ total - (total - 1) / 3 ∧
    (total - 1) / 3 < 2 * byzantineQuorum total - total ∧
    (∀ faulty : Finset (Fin total), faulty.card ≤ (total - 1) / 3 →
      byzantineQuorum total ≤ (Finset.univ \ faulty).card) ∧
    (∀ s₁ s₂ faulty : Finset (Fin total), byzantineQuorum total ≤ s₁.card →
      byzantineQuorum total ≤ s₂.card → faulty.card ≤ (total - 1) / 3 →
        ∃ i ∈ s₁, i ∈ s₂ ∧ i ∉ faulty) ∧
    ∀ c : Config, c.anchoringKeys.length = total →
      c.redeemScript = .ok ⟨c.anchoringKeys.map (·.bitcoinKey), byzantineQuorum total⟩ := by
  have hsum := byzantineQuorum_add_maxFaulty h
  refine ⟨byzantineQuorum_eq total, by unfold maxFaulty at hsum; omega,
    maxFaulty_lt_two_quorum_sub h, fun _ hf => honest_reach_quorum h hf,
    fun _ _ _ h₁ h₂ hf => quorums_share_honest h h₁ h₂ hf, fun c hc => ?_⟩
  subst hc
  exact redeemScript_ok_iff.mpr ⟨List.ne_nil_of_length_pos h, rfl⟩

/-- The committee of four of `test_config_serde`: quorum three. -/
theorem byzantineQuorum_sound_four :
    1 ≤ 4 ∧ byzantineQuorum 4 = 3 ∧
    (byzantineQuorum 4 = 2 * 4 / 3 + 1 ∧
    byzantineQuorum 4 ≤ 4 - (4 - 1) / 3 ∧
    (4 - 1) / 3 < 2 * byzantineQuorum 4 - 4 ∧
    (∀ faulty : Finset (Fin 4), faulty.card ≤ (4 - 1) / 3 →
      byzantineQuorum 4 ≤ (Finset.univ \ faulty).card) ∧
    (∀ s₁ s₂ faulty : Finset (Fin 4), byzantineQuorum 4 ≤ s₁.card →
      byzantineQuorum 4 ≤ s₂.card → faulty.card ≤ (4 - 1) / 3 →
        ∃ i ∈ s₁, i ∈ s₂ ∧ i ∉ faulty) ∧
    ∀ c : Config, c.anchoringKeys.length = 4 →
      c.redeemScript = .ok ⟨c.anchoringKeys.map (·.bitcoinKey), byzantineQuorum 4⟩) :=
  ⟨by decide, rfl, byzantineQuorum_sound (by decide)⟩

end BtcAnchoring
