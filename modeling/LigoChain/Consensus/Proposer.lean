/-
# Who proposes

`proposerByRound` in `consensus/state.go`.  The proposer of round `0` is drawn by the hash of
the last header; the later rounds go on from there.  When the draw gives the validator that
was drawn for the last block as well, and the commit that the node has stored for that block
(`SeenCommit`) is without its signature, the next validator takes its place.

The hash of a header does not cover the stored commit, and a block has as many valid commits
as there are quorums, so two nodes with the same chain can differ in that one bit.
`proposerAt_agree_iff` says that this is all they can differ in: they agree on the proposers
of a height exactly when both pass over the validator that was drawn, or none of them does.
-/

import LigoChain.Consensus.PlainEnv
import LigoChain.Types.VoteSetInvariant

namespace LigoChain
namespace Consensus

open GoInt

namespace ConsensusState

/-- The proposer of a round of the height: the one of round `0` is drawn first. -/
def proposerAt (env : Env) (now : ℤ) (cs : ConsensusState) (round : ℤ) : Go VRFProposer := do
  let (cs, proposer) ← proposerByRound env now cs 0
  if round = 0 then .ok proposer
  else do
    let (_, proposer) ← proposerByRound env now cs round
    .ok proposer

/-- The validator drawn for this height was drawn for the last one too, and its bit is not set
in the commit that the node has stored. -/
def PassesOver (env : Env) (now : ℤ) (cs : ConsensusState) : Prop :=
  ∃ drawn, proposersByVRF env now cs = .ok (drawn, drawn) ∧ 0 ≤ drawn ∧
    cs.seenCommitBit drawn = some false

end ConsensusState

open ConsensusState

/-- Two nodes have the same headers and are in the same epoch. -/
structure SameChain (env : Env) (now : ℤ) (env' : Env) (now' : ℤ) : Prop where
  libs : env'.libs = env.libs
  currentHeader : env'.currentHeader now' = env.currentHeader now
  headerHashByNumber : env'.headerHashByNumber now' = env.headerHashByNumber now
  epochStartBlock : env'.epochStartBlock = env.epochStartBlock

theorem vrfIndex_lt (n : ℤ) (vals : List Validator) (i : ℕ) :
    vrfIndex n vals i < i + vals.length := by
  induction vals generalizing n i with
  | nil =>
    unfold vrfIndex
    simp
    omega
  | cons val vals ih =>
    have := ih (n - val.votingPower) (i + 1)
    unfold vrfIndex
    rw [List.length_cons]
    split_ifs <;> omega

variable {env env' : Env} {now now' : ℤ} {cs cs' : ConsensusState}

theorem proposersByVRF_congr (h : SameChain env now env' now')
    (hvals : cs'.validators = cs.validators) :
    proposersByVRF env' now' cs' = proposersByVRF env now cs := by
  unfold proposersByVRF
  rw [h.currentHeader, h.libs, hvals, h.epochStartBlock, h.headerHashByNumber]

/-- The draw is below the number of validators. -/
theorem proposersByVRF_lt {last cur : ℤ} (h : proposersByVRF env now cs = .ok (last, cur)) :
    cur < cs.validators.size := by
  have hdraw : ∀ {hash : Bytes} {idx : ℤ},
      proposerByVRF env.libs hash cs.validators.validators = .ok idx →
        idx < cs.validators.size := by
    intro hash idx hidx
    unfold proposerByVRF at hidx
    simp only at hidx
    split_ifs at hidx
    rw [← Except.ok.inj hidx]
    simpa [ValidatorSet.size] using vrfIndex_lt _ cs.validators.validators 0
  unfold proposersByVRF at h
  simp only at h
  obtain ⟨c, hc, h⟩ := Steps.bind_eq_ok.1 h
  split_ifs at h
  · cases h
    exact hdraw hc
  · split at h
    next => cases h
    next =>
      obtain ⟨l, -, h⟩ := Steps.bind_eq_ok.1 h
      cases h
      exact hdraw hc
  · cases h
    omega

/-- The index of round `0`, where none has been drawn. -/
theorem vrfProposerIndex_of_not_passesOver (hnew : cs.vrfValIndex < 0)
    (h : ¬ PassesOver env now cs) :
    vrfProposerIndex env now cs = Prod.snd <$> proposersByVRF env now cs := by
  unfold vrfProposerIndex
  rw [if_neg (by omega)]
  cases hvrf : proposersByVRF env now cs with
  | error e => rfl
  | ok r =>
    obtain ⟨last, cur⟩ := r
    show (if _ then _ else Except.ok cur) = Except.ok cur
    rw [if_neg]
    rintro ⟨hlast, rfl, hbit⟩
    exact h ⟨cur, hvrf, hlast, hbit⟩

theorem vrfProposerIndex_of_passesOver (hnew : cs.vrfValIndex < 0) (h : PassesOver env now cs) :
    ∃ drawn, proposersByVRF env now cs = .ok (drawn, drawn) ∧ 0 ≤ drawn ∧
      vrfProposerIndex env now cs = .ok ((drawn + 1).tmod cs.validators.size) := by
  obtain ⟨drawn, hvrf, hdrawn, hbit⟩ := h
  have hlt := proposersByVRF_lt hvrf
  refine ⟨drawn, hvrf, hdrawn, ?_⟩
  unfold vrfProposerIndex
  rw [if_neg (by omega), hvrf]
  show (if _ then _ else Except.ok drawn) = _
  rw [if_pos ⟨hdrawn, rfl, hbit⟩, if_neg (by omega)]

/-- The proposers of a height depend on the index of round `0`, and on the validators. -/
theorem proposerAt_congr (hvals : cs'.validators = cs.validators) (hheight : cs'.height = cs.height)
    (hidx : vrfProposerIndex env' now' cs' = vrfProposerIndex env now cs) (round : ℤ) :
    proposerAt env' now' cs' round = proposerAt env now cs round := by
  unfold proposerAt proposerByRound proposerIndex
  simp only [if_true]
  rw [hidx]
  cases vrfProposerIndex env now cs with
  | error e => rfl
  | ok idx =>
    simp only [bind, Except.bind, hvals, hheight]
    by_cases hneg : idx < 0
    · simp only [hneg, if_true]
    · simp only [hneg, if_false]
      cases cs.validators.validators[idx.toNat]? with
      | none => rfl
      | some val =>
        by_cases hround : round = 0
        · simp only [hround, if_true]
        · simp only [hround, if_false]
          split_ifs
          · rfl
          · simp only
            split_ifs
            · rfl
            · cases cs.validators.validators[((wrapInt (idx + round)).tmod
                cs.validators.size).toNat]? <;> rfl

/-- The index of the proposer of round `0`. -/
theorem proposerAt_zero {idx : ℤ} (hidx : vrfProposerIndex env now cs = .ok idx) (h0 : 0 ≤ idx)
    (hlt : idx < cs.validators.size) :
    ∃ proposer, proposerAt env now cs 0 = .ok proposer ∧ proposer.valIndex = idx := by
  have hnat : idx.toNat < cs.validators.validators.length := by
    have : (cs.validators.validators.length : ℤ) = cs.validators.size := rfl
    omega
  unfold proposerAt proposerByRound proposerIndex
  simp only [if_true, hidx, bind, Except.bind, not_lt.2 h0, if_false]
  rw [List.getElem?_eq_getElem hnat]
  exact ⟨_, rfl, rfl⟩

/-- The index of round `0` when one node passes over the validator that was drawn and the other
does not. -/
theorem vrfProposerIndex_of_differ
    (hvrf : proposersByVRF env' now' cs' = proposersByVRF env now cs) (hnew : cs.vrfValIndex < 0)
    (hnew' : cs'.vrfValIndex < 0) (h : PassesOver env now cs) (h' : ¬ PassesOver env' now' cs') :
    ∃ drawn : ℤ, 0 ≤ drawn ∧ drawn < cs.validators.size ∧
      vrfProposerIndex env' now' cs' = .ok drawn ∧
      vrfProposerIndex env now cs = .ok ((drawn + 1).tmod cs.validators.size) := by
  obtain ⟨drawn, hdrawn, h0, hidx⟩ := vrfProposerIndex_of_passesOver hnew h
  refine ⟨drawn, h0, proposersByVRF_lt hdrawn, ?_, hidx⟩
  rw [vrfProposerIndex_of_not_passesOver hnew' h', hvrf, hdrawn]
  rfl

/-- The two then agree only if there is no other validator. -/
theorem proposerAt_of_differ (hvals : cs'.validators = cs.validators)
    (hheight : cs'.height = cs.height)
    (hvrf : proposersByVRF env' now' cs' = proposersByVRF env now cs) (hnew : cs.vrfValIndex < 0)
    (hnew' : cs'.vrfValIndex < 0) (h : PassesOver env now cs) (h' : ¬ PassesOver env' now' cs') :
    (∀ round, 0 ≤ round → proposerAt env' now' cs' round = proposerAt env now cs round) ↔
      cs.validators.size ≤ 1 := by
  obtain ⟨drawn, h0, hlt, hidx', hidx⟩ := vrfProposerIndex_of_differ hvrf hnew hnew' h h'
  have hnext : (drawn + 1).tmod cs.validators.size =
      if drawn + 1 = cs.validators.size then 0 else drawn + 1 := by
    rw [Int.tmod_eq_emod_of_nonneg (by omega)]
    split_ifs with heq
    · rw [heq, Int.emod_self]
    · exact Int.emod_eq_of_lt (by omega) (by omega)
  constructor
  · intro hagree
    by_contra hmany
    obtain ⟨p', hp', hval'⟩ := proposerAt_zero hidx' h0 (hvals ▸ hlt)
    obtain ⟨p, hp, hval⟩ := proposerAt_zero hidx (by rw [hnext]; split_ifs <;> omega)
      (by rw [hnext]; split_ifs <;> omega)
    have hsame := hagree 0 le_rfl
    rw [hp', hp] at hsame
    rw [Except.ok.inj hsame, hval, hnext] at hval'
    split_ifs at hval' <;> omega
  · intro hone round _
    refine proposerAt_congr hvals hheight ?_ round
    rw [hidx', hidx, hnext, if_pos (by omega)]
    exact congrArg Except.ok (by omega)

theorem startNewHeight_fields {extra : TendermintExtra} {validators : ValidatorSet}
    {pv : Option PrivValidator} {block : Option LigoBlock}
    (h : startNewHeight env extra validators pv block = .ok cs) :
    cs.validators = validators ∧ cs.height = (extra.height + 1) % 2 ^ 64 ∧ cs.vrfValIndex < 0 := by
  obtain ⟨votes, -, h⟩ := Steps.bind_eq_ok.1 h
  cases h
  exact ⟨rfl, rfl, (by decide : (-1 : ℤ) < 0)⟩

/-- **Two nodes with the same chain agree on the proposers of a height exactly when both pass
over the validator that was drawn or none does**, or when there is no other validator. -/
theorem proposerAt_agree_iff {extra extra' : TendermintExtra} {validators : ValidatorSet}
    {pv pv' : Option PrivValidator} {block block' : Option LigoBlock}
    (hchain : SameChain env now env' now') (hheight : extra'.height = extra.height)
    (hstart : startNewHeight env extra validators pv block = .ok cs)
    (hstart' : startNewHeight env' extra' validators pv' block' = .ok cs') :
    (∀ round, 0 ≤ round → proposerAt env' now' cs' round = proposerAt env now cs round) ↔
      ((PassesOver env now cs ↔ PassesOver env' now' cs') ∨ validators.size ≤ 1) := by
  obtain ⟨rfl, hh, hnew⟩ := startNewHeight_fields hstart
  obtain ⟨hvals, hh', hnew'⟩ := startNewHeight_fields hstart'
  have hheight' : cs'.height = cs.height := by rw [hh', hh, hheight]
  have hvrf := proposersByVRF_congr hchain hvals
  by_cases h : PassesOver env now cs <;> by_cases h' : PassesOver env' now' cs'
  · refine iff_of_true (fun round _ => proposerAt_congr hvals hheight' ?_ round)
      (.inl (iff_of_true h h'))
    obtain ⟨drawn, hdrawn, -, hidx⟩ := vrfProposerIndex_of_passesOver hnew h
    obtain ⟨drawn', hdrawn', -, hidx'⟩ := vrfProposerIndex_of_passesOver hnew' h'
    obtain ⟨rfl, -⟩ := Prod.mk.inj (Except.ok.inj (hdrawn.symm.trans (hvrf.symm.trans hdrawn')))
    rw [hidx, hidx', hvals]
  · rw [proposerAt_of_differ hvals hheight' hvrf hnew hnew' h h']
    simp [h, h']
  · have hdiffer := proposerAt_of_differ hvals.symm hheight'.symm hvrf.symm hnew' hnew h' h
    simp only [@eq_comm _ (proposerAt env now cs _)] at hdiffer
    rw [hdiffer, hvals]
    simp [h, h']
  · refine iff_of_true (fun round _ => proposerAt_congr hvals hheight' ?_ round)
      (.inl (iff_of_false h h'))
    rw [vrfProposerIndex_of_not_passesOver hnew h, vrfProposerIndex_of_not_passesOver hnew' h',
      hvrf]

/-! ## Two commits of one block -/

/-- A node whose last two headers draw the first validator. -/
def drawsFirst : Env :=
  { PlainEnv.env with
    currentHeader := fun _ => ([0], 7)
    headerHashByNumber := fun _ _ => some [0] }

/-- The extra data of the block at height `7`, with the signers of the commit that is stored. -/
def extraWithCommit (bits : BitArray) : TendermintExtra :=
  { PlainEnv.lastExtra with
    height := 7
    seenCommit := some ⟨BlockID.zero, 7, 0, none, some bits⟩ }

/-- The node at height `8`. -/
def nodeWithCommit (bits : BitArray) : Go ConsensusState :=
  startNewHeight drawsFirst (extraWithCommit bits) VoteSet.fourValidators none none

/-- The proposer of round `0` of a node. -/
def proposerOf (bits : BitArray) : Go ℤ := do
  let cs ← nodeWithCommit bits
  let proposer ← proposerAt drawsFirst 0 cs 0
  .ok proposer.valIndex

/-- **Two quorums of three signers for one block, and two proposers for the next.** -/
theorem proposer_depends_on_commit :
    Steps.holds (proposerOf [true, true, true, false]) (fun index => index == 0) = true ∧
      Steps.holds (proposerOf [false, true, true, true]) (fun index => index == 1) = true := by
  decide +kernel

/-- The two nodes do not agree, and only one of them passes over the validator that was drawn. -/
theorem proposerAt_agree_iff_twoCommits :
    ∃ cs cs', nodeWithCommit [true, true, true, false] = .ok cs ∧
      nodeWithCommit [false, true, true, true] = .ok cs' ∧
      ((∀ round, 0 ≤ round →
          proposerAt drawsFirst 0 cs' round = proposerAt drawsFirst 0 cs round) ↔
        ((PassesOver drawsFirst 0 cs ↔ PassesOver drawsFirst 0 cs') ∨
          VoteSet.fourValidators.size ≤ 1)) := by
  obtain ⟨cs, hcs⟩ : ∃ cs, nodeWithCommit [true, true, true, false] = .ok cs := by
    decide +kernel
  obtain ⟨cs', hcs'⟩ : ∃ cs, nodeWithCommit [false, true, true, true] = .ok cs := by
    decide +kernel
  refine ⟨cs, cs', hcs, hcs', proposerAt_agree_iff ⟨rfl, rfl, rfl, rfl⟩ ?_ hcs hcs'⟩
  rfl

end Consensus
end LigoChain
