/-
# What a stored aggregate proves

`setMaj23SignAggr` stores an aggregate after `blsVerifySignAggr`
(`chain/consensus/tendermint/consensus/state.go`).  That check is over the fields
`ChainID` and `BlockID` of the aggregate.  What `enterPrecommit`, `enterCommit` and
`finalizeCommit` later act on is `TwoThirdsMajority()`, which returns the field
`Maj23`; and nothing compares `ChainID` with the chain of the node.

So a stored aggregate proves that a quorum signed for the block it stands for exactly
when the two pairs of fields agree (`setMaj23SignAggr_backed_iff`), apart from the
aggregates that stand for no block or need no signer.  An aggregate of votes for one
block with `Maj23` set to another passes (`setMaj23SignAggr_accepts_forged_maj23`).

That a quorum signed is stated for an arbitrary record `Signed` of who signed what,
of which it is only known that the signature of this aggregate is genuine.
-/

import LigoChain.Consensus.PlainEnv
import LigoChain.Consensus.Moves

namespace LigoChain

open GoInt

/-- A signature verifies for one message under a key. -/
def Libs.OneMessage (L : Libs) : Prop :=
  ∀ pk m m' sig, L.verifyBytes pk m sig = true → L.verifyBytes pk m' sig = true → m = m'

theorem plainLibs_oneMessage : plainLibs.OneMessage := by
  intro pk m m' sig h h'
  simp only [plainLibs, beq_iff_eq] at h h'
  exact List.append_cancel_left (h.symm.trans h')

namespace ValidatorSet

variable (valSet : ValidatorSet)

theorem powerOf_eq_zero {bits : BitArray} (h : valSet.pubKeysOf bits = []) :
    valSet.powerOf bits = 0 := by
  rw [pubKeysOf, List.map_eq_nil_iff, List.filter_eq_nil_iff] at h
  refine List.sum_eq_zero fun x hx => ?_
  obtain ⟨p, hp, rfl⟩ := List.mem_map.1 hx
  simp [h p hp]

theorem pubKeysOf_replicate_false (n : ℕ) : valSet.pubKeysOf (List.replicate n false) = [] := by
  rw [pubKeysOf, List.map_eq_nil_iff, List.filter_eq_nil_iff]
  intro p hp
  simpa using List.eq_of_mem_replicate (List.of_mem_zip hp).2

/-- The signature of the aggregate is genuine: whatever message it verifies for under the
aggregated key, each of the keys signed that message. -/
def AggregateSound (L : Libs) (s : SignAggr) (Signed : PubKey → Bytes → Prop) : Prop :=
  ∀ bits signature apk msg, s.bitArray = some bits → s.signatureAggr = some signature →
    L.blsPubKeyAggregate (valSet.pubKeysOf bits) = some apk →
    L.verifyBytes apk msg signature = true → ∀ pk ∈ valSet.pubKeysOf bits, Signed pk msg

/-- Validators with the power of a quorum of the aggregate's round each signed the vote for
the block that the aggregate stands for. -/
def Backed (L : Libs) (chainID : String) (height : ℕ) (s : SignAggr) : Prop :=
  ∀ blockID, twoThirdsMajority (some s) = (blockID, true) →
    ∀ Signed, valSet.AggregateSound L s Signed →
    ∃ bits : BitArray, valSet.size = bits.length ∧
      loose23MajorThreshold valSet.totalPower s.round ≤ valSet.powerOf bits ∧
      ∀ pk ∈ valSet.pubKeysOf bits,
        Signed pk (L.signBytes chainID ⟨blockID, height, toUint64 s.round, s.type_⟩)

variable {valSet}

/-- **When a verified aggregate is backed.** -/
theorem backed_iff {L : Libs} (hinj : L.VoteJSONInjective) (hone : L.OneMessage) {s : SignAggr}
    (h : valSet.blsVerifySignAggr L s = .ok true) (chainID : String) :
    valSet.Backed L chainID s.height s ↔
      s.maj23.isZero = true ∨ loose23MajorThreshold valSet.totalPower s.round ≤ 0 ∨
        (s.chainID = chainID ∧ s.maj23 = s.blockID) := by
  obtain ⟨bits, signature, hbits, hsignature, hquorum⟩ := valSet.blsVerifySignAggr_eq_true h
  obtain ⟨apk, hagg, hver⟩ := hquorum.verified
  constructor
  · intro hbacked
    by_contra hcond
    push Not at hcond
    obtain ⟨hzero, hpos, hfields⟩ := hcond
    -- the record in which nobody signed anything but what this aggregate shows
    obtain ⟨bits', -, hpower, hsigned⟩ := hbacked s.maj23 (by simp [twoThirdsMajority, hzero])
      (fun _ msg => msg =
        L.signBytes s.chainID ⟨s.blockID, s.height, toUint64 s.round, s.type_⟩) (by
        intro bits₁ signature₁ apk₁ msg hbits₁ hsignature₁ hagg₁ hver₁ pk _
        obtain rfl := Option.some.inj (hbits.symm.trans hbits₁)
        obtain rfl := Option.some.inj (hsignature.symm.trans hsignature₁)
        obtain rfl := Option.some.inj (hagg.symm.trans hagg₁)
        exact hone _ _ _ _ hver₁ hver)
    have hsome : valSet.pubKeysOf bits' ≠ [] := fun hnil =>
      absurd hpower (not_le.2 (by rw [powerOf_eq_zero _ hnil]; exact hpos))
    obtain ⟨pk, hpk⟩ := List.exists_mem_of_ne_nil _ hsome
    obtain ⟨hchain, hvote⟩ := hinj (hsigned pk hpk)
    exact hfields hchain.symm (congrArg CanonicalJSONVote.blockID hvote)
  · rintro (hzero | hnonpos | ⟨hchain, hmaj⟩) blockID hblock Signed hsound
    · simp [twoThirdsMajority, hzero] at hblock
    · refine ⟨List.replicate valSet.size false, by simp, ?_, by simp [pubKeysOf_replicate_false]⟩
      rw [powerOf_eq_zero _ (valSet.pubKeysOf_replicate_false _)]
      exact hnonpos
    · obtain ⟨s', hs', hblockID, -⟩ := twoThirdsMajority_eq_true hblock
      cases hs'
      refine ⟨bits, hquorum.size_eq, hquorum.threshold_le, ?_⟩
      rw [← hblockID, ← hchain, hmaj]
      exact hsound bits signature apk _ hbits hsignature hagg hver

end ValidatorSet

namespace Consensus
namespace ConsensusState

variable {env : Env} {now : ℤ} {cs cs' : ConsensusState} {s : SignAggr}

/-- The aggregate is stored in the state. -/
def Holds (cs : ConsensusState) (s : SignAggr) : Prop :=
  cs.voteSignAggr.prevotes s.round = some s ∨ cs.voteSignAggr.precommits s.round = some s ∨
    cs.prevoteMaj23SignAggr = some s ∨ cs.precommitMaj23SignAggr = some s

instance (cs : ConsensusState) (s : SignAggr) : Decidable (cs.Holds s) :=
  inferInstanceAs (Decidable (_ ∨ _))

/-- An aggregate that `setMaj23SignAggr` stores has passed its checks. -/
theorem setMaj23SignAggr_verified {r : Option SignAggrError × Bool} (hnew : ¬ cs.Holds s)
    (hheld : cs'.Holds s) (h : cs.setMaj23SignAggr env now s = .ok (cs', r)) :
    Verified env.libs cs.height cs.validators s := by
  have hsame : ∀ {x : Option SignAggrError × Bool},
      (.ok (cs, x) : Go (ConsensusState × Option SignAggrError × Bool)) = .ok (cs', r) → False := by
    intro x hx
    cases hx
    exact hnew hheld
  unfold setMaj23SignAggr at h
  split at h
  · exact (hsame h).elim
  next hheight =>
  split at h
  · exact (hsame h).elim
  next hverify =>
  split at h
  · exact (hsame h).elim
  next htype => exact ⟨not_not.1 hheight, not_not.1 hverify, by simpa using htype⟩

/-- **What a stored aggregate proves.**  An aggregate that `setMaj23SignAggr` stores is
backed by votes of a quorum, for this chain and for the block it stands for, exactly if it
names this chain and its `Maj23` is the `BlockID` that was signed; or if it stands for no
block, or its round asks for no signer. -/
theorem setMaj23SignAggr_backed_iff (hinj : env.libs.VoteJSONInjective)
    (hone : env.libs.OneMessage) {r : Option SignAggrError × Bool} (hnew : ¬ cs.Holds s)
    (hheld : cs'.Holds s) (h : cs.setMaj23SignAggr env now s = .ok (cs', r)) (chainID : String) :
    cs.validators.Backed env.libs chainID cs.height s ↔
      s.maj23.isZero = true ∨ loose23MajorThreshold cs.validators.totalPower s.round ≤ 0 ∨
        (s.chainID = chainID ∧ s.maj23 = s.blockID) := by
  have hverified := setMaj23SignAggr_verified hnew hheld h
  rw [show cs.height = s.height from hverified.height.symm]
  exact ValidatorSet.backed_iff hinj hone hverified.verified chainID

end ConsensusState

open ConsensusState

theorem PlainEnv.libs_voteJSONInjective : PlainEnv.env.libs.VoteJSONInjective :=
  plainLibs_voteJSONInjective

theorem PlainEnv.libs_oneMessage : PlainEnv.env.libs.OneMessage := plainLibs_oneMessage

/-- The equivalence at an aggregate as the code makes it. -/
theorem setMaj23SignAggr_backed_iff_plainEnv : ∃ cs cs' r, PlainEnv.start 1 = .ok cs ∧
    cs.setMaj23SignAggr PlainEnv.env 7 (PlainEnv.signAggr 0 voteTypePrevote 7) = .ok (cs', r) ∧
    ¬ cs.Holds (PlainEnv.signAggr 0 voteTypePrevote 7) ∧
    cs'.Holds (PlainEnv.signAggr 0 voteTypePrevote 7) ∧
    (cs.validators.Backed PlainEnv.env.libs PlainEnv.chainID cs.height
        (PlainEnv.signAggr 0 voteTypePrevote 7) ↔
      (PlainEnv.signAggr 0 voteTypePrevote 7).maj23.isZero = true ∨
      loose23MajorThreshold cs.validators.totalPower 0 ≤ 0 ∨
      ((PlainEnv.signAggr 0 voteTypePrevote 7).chainID = PlainEnv.chainID ∧
        (PlainEnv.signAggr 0 voteTypePrevote 7).maj23 =
          (PlainEnv.signAggr 0 voteTypePrevote 7).blockID)) := by
  obtain ⟨cs, hstart, hnew, ⟨cs', r⟩, hset, hheld⟩ : ∃ cs, PlainEnv.start 1 = .ok cs ∧
      ¬ cs.Holds (PlainEnv.signAggr 0 voteTypePrevote 7) ∧
      ∃ r, cs.setMaj23SignAggr PlainEnv.env 7 (PlainEnv.signAggr 0 voteTypePrevote 7) = .ok r ∧
        r.1.Holds (PlainEnv.signAggr 0 voteTypePrevote 7) := by
    decide +kernel
  exact ⟨cs, cs', r, hstart, hset, hnew, hheld, setMaj23SignAggr_backed_iff
    PlainEnv.libs_voteJSONInjective PlainEnv.libs_oneMessage hnew hheld hset _⟩

/-- Votes of the first validator for one block, with `Maj23` set to another. -/
def PlainEnv.forged : SignAggr :=
  { PlainEnv.signAggr 0 voteTypePrevote 7 with maj23 := PlainEnv.blockID 8 }

/-- **A forged `Maj23` is stored**, and nobody signed for the block it names. -/
theorem setMaj23SignAggr_accepts_forged_maj23 : ∃ cs cs' r, PlainEnv.start 1 = .ok cs ∧
    cs.setMaj23SignAggr PlainEnv.env 7 PlainEnv.forged = .ok (cs', r) ∧
    ¬ cs.Holds PlainEnv.forged ∧ cs'.Holds PlainEnv.forged ∧
    ¬ cs.validators.Backed PlainEnv.env.libs PlainEnv.chainID cs.height PlainEnv.forged := by
  obtain ⟨cs, hstart, hheight, hvalidators, hnew, ⟨cs', r⟩, hset, hheld⟩ :
      ∃ cs, PlainEnv.start 1 = .ok cs ∧ cs.height = 1 ∧ cs.validators = PlainEnv.validators ∧
        ¬ cs.Holds PlainEnv.forged ∧
        ∃ r, cs.setMaj23SignAggr PlainEnv.env 7 PlainEnv.forged = .ok r ∧
          r.1.Holds PlainEnv.forged := by
    decide +kernel
  refine ⟨cs, cs', r, hstart, hset, hnew, hheld, fun hbacked => ?_⟩
  have hverified := setMaj23SignAggr_verified hnew hheld hset
  rw [hvalidators, hheight] at hbacked
  have hiff := @ValidatorSet.backed_iff PlainEnv.validators _ PlainEnv.libs_voteJSONInjective
    PlainEnv.libs_oneMessage PlainEnv.forged (hvalidators ▸ hverified.verified) PlainEnv.chainID
  exact absurd (hiff.1 hbacked) (by decide +kernel)

end Consensus
end LigoChain
