/-
# The votes and aggregates of a height

`HeightVoteSet` (`height_vote_set.go`) and `HeightVoteSignAggr`
(`height_sign_aggr.go`) in `chain/consensus/tendermint/consensus`: for each round
of one height, the vote sets the proposer collects and the signature aggregates
that every validator stores.

Both keep the rounds up to one above the current one.  `SetRound` adds the missing
ones, `ResetTop2Round` throws away the top of the range when the validator goes
back to a lower round, and `HeightVoteSet.AddVote` lets a peer open at most two
rounds outside the range.

A stored aggregate is never replaced: `addSignAggr_prevotes` and
`addSignAggr_precommits` say what a lookup can find afterwards.
-/

import LigoChain.Types.VoteSet

namespace LigoChain

namespace Consensus

open GoInt

/-- The values of a loop variable that counts from `lo` to `hi`. -/
def countUp (lo hi : ℤ) : List ℤ := (List.range (hi + 1 - lo).toNat).map fun k => lo + k

theorem mem_countUp {lo hi r : ℤ} : r ∈ countUp lo hi ↔ lo ≤ r ∧ r ≤ hi := by
  simp only [countUp, List.bind_eq_flatMap, List.pure_def, List.mem_map, List.mem_flatMap,
    List.mem_range, List.mem_singleton]
  constructor
  · rintro ⟨_, ⟨k, hk, rfl⟩, rfl⟩
    omega
  · rintro ⟨hlo, hhi⟩
    exact ⟨r - lo, ⟨(r - lo).toNat, by omega, by omega⟩, by omega⟩

theorem lookup_foldl_erase {β : Type} (rounds : List ℤ) (m : GoMap ℤ β) (r : ℤ) :
    (rounds.foldl (fun m q => m.erase q) m).lookup r = if r ∈ rounds then none else m.lookup r := by
  induction rounds generalizing m with
  | nil => simp
  | cons q rounds ih =>
    rw [List.foldl_cons, ih]
    by_cases hq : r = q
    · subst hq
      simp
    · simp [AList.lookup_erase_ne hq, hq]

/-- `RoundVoteSignAggr`. -/
structure RoundVoteSignAggr where
  prevotes : Option SignAggr
  precommits : Option SignAggr

/-- `HeightVoteSignAggr`. -/
structure HeightVoteSignAggr where
  chainID : String
  height : ℕ
  valSet : ValidatorSet
  round : ℤ
  roundVoteSignAggrs : GoMap ℤ RoundVoteSignAggr

namespace HeightVoteSignAggr

/-- `addRound`. -/
def addRound (hvs : HeightVoteSignAggr) (round : ℤ) : Go HeightVoteSignAggr :=
  if (hvs.roundVoteSignAggrs.lookup round).isSome then
    .error (.sanity "addRound() for an existing round")
  else .ok { hvs with roundVoteSignAggrs := hvs.roundVoteSignAggrs.insert round ⟨none, none⟩ }

/-- `NewHeightVoteSignAggr` with `Reset`. -/
def new (chainID : String) (height : ℕ) (valSet : ValidatorSet) : HeightVoteSignAggr where
  chainID := chainID
  height := height
  valSet := valSet
  round := 0
  roundVoteSignAggrs := AList.insert 0 ⟨none, none⟩ ∅

/-- `SetRound`. -/
def setRound (hvs : HeightVoteSignAggr) (round : ℤ) : Go HeightVoteSignAggr :=
  if hvs.round ≠ 0 ∧ round < hvs.round + 1 then
    .error (.sanity "SetRound() must increment hvs.round")
  else do
    let hvs' ← (countUp (hvs.round + 1) round).foldlM
      (fun h r => if (h.roundVoteSignAggrs.lookup r).isSome then .ok h else h.addRound r) hvs
    .ok { hvs' with round := round }

/-- `ResetTop2Round`. -/
def resetTop2Round (hvs : HeightVoteSignAggr) (round : ℤ) : Go HeightVoteSignAggr :=
  if hvs.round < round ∨ round < 1 then
    .error (.sanity "HeightVoteSignAggr.ResetTop2Round() must have enough round to reset")
  else do
    let erased := { hvs with
      roundVoteSignAggrs := (countUp (round - 1) hvs.round).foldl
        (fun m r => m.erase r) hvs.roundVoteSignAggrs }
    let below ← erased.addRound (round - 1)
    let top ← below.addRound round
    .ok { top with round := round }

/-- `Prevotes`. -/
def prevotes (hvs : HeightVoteSignAggr) (round : ℤ) : Option SignAggr :=
  (hvs.roundVoteSignAggrs.lookup round).bind RoundVoteSignAggr.prevotes

/-- `Precommits`. -/
def precommits (hvs : HeightVoteSignAggr) (round : ℤ) : Option SignAggr :=
  (hvs.roundVoteSignAggrs.lookup round).bind RoundVoteSignAggr.precommits

/-- `AddSignAggr`: the aggregate is stored if the round is open and holds none of its type. -/
def addSignAggr (hvs : HeightVoteSignAggr) (signAggr : SignAggr) : HeightVoteSignAggr :=
  match hvs.roundVoteSignAggrs.lookup signAggr.round with
  | none => hvs
  | some rvs =>
    if signAggr.type_ = voteTypePrevote ∧ rvs.prevotes = none then
      { hvs with
        roundVoteSignAggrs := hvs.roundVoteSignAggrs.insert signAggr.round
          { rvs with prevotes := some signAggr } }
    else if signAggr.type_ = voteTypePrecommit ∧ rvs.precommits = none then
      { hvs with
        roundVoteSignAggrs := hvs.roundVoteSignAggrs.insert signAggr.round
          { rvs with precommits := some signAggr } }
    else hvs

/-- `POLInfo`: the highest round with a prevote aggregate for a block, and the block. -/
def polInfo (hvs : HeightVoteSignAggr) : ℤ × BlockID :=
  ((countUp 0 hvs.round).reverse.findSome? fun r =>
    match twoThirdsMajority (hvs.prevotes r) with
    | (polBlockID, true) => some (r, polBlockID)
    | (_, false) => none).getD (-1, BlockID.zero)

variable {hvs hvs' : HeightVoteSignAggr} {r : ℤ} {s t : SignAggr}

theorem addRound_lookup {round : ℤ} (h : hvs.addRound round = .ok hvs') :
    hvs'.prevotes r = hvs.prevotes r ∧ hvs'.precommits r = hvs.precommits r := by
  unfold addRound at h
  split_ifs at h with hnone
  cases h
  unfold prevotes precommits
  by_cases hr : r = round
  · subst hr
    have hold : hvs.roundVoteSignAggrs.lookup r = none := by simpa using hnone
    rw [AList.lookup_insert, hold]
    exact ⟨rfl, rfl⟩
  · rw [AList.lookup_insert_ne hr]
    exact ⟨rfl, rfl⟩

/-- **`SetRound` keeps every stored aggregate and adds none.** -/
theorem setRound_lookup {round : ℤ} (h : hvs.setRound round = .ok hvs') :
    hvs'.prevotes r = hvs.prevotes r ∧ hvs'.precommits r = hvs.precommits r := by
  unfold setRound at h
  split_ifs at h
  obtain ⟨top, hfold, h⟩ := Steps.bind_eq_ok.1 h
  cases h
  have hinv : top.prevotes r = hvs.prevotes r ∧ top.precommits r = hvs.precommits r := by
    refine Steps.foldlM_invariant
      (P := fun x => x.prevotes r = hvs.prevotes r ∧ x.precommits r = hvs.precommits r)
      (fun x q x' hx hstep => ?_) ⟨rfl, rfl⟩ hfold
    split_ifs at hstep
    · exact Except.ok.inj hstep ▸ hx
    · obtain ⟨hpre, hcom⟩ := addRound_lookup (r := r) hstep
      exact ⟨hpre.trans hx.1, hcom.trans hx.2⟩
  exact hinv

/-- **What a lookup of prevotes finds after `AddSignAggr`:** what it found before, or the
added aggregate. -/
theorem addSignAggr_prevotes (h : (hvs.addSignAggr s).prevotes r = some t) :
    hvs.prevotes r = some t ∨ (t = s ∧ s.round = r ∧ s.type_ = voteTypePrevote) := by
  unfold addSignAggr at h
  split at h
  · exact Or.inl h
  next rvs hrvs =>
  by_cases hr : r = s.round
  · subst hr
    split_ifs at h with hpre hcom
    · simp only [prevotes, AList.lookup_insert, Option.bind_some] at h
      exact Or.inr ⟨(Option.some.inj h).symm, rfl, hpre.1⟩
    · simp only [prevotes, AList.lookup_insert, Option.bind_some] at h
      exact Or.inl (by simp [prevotes, hrvs, h])
    · exact Or.inl h
  · refine Or.inl ?_
    split_ifs at h <;> simpa [prevotes, AList.lookup_insert_ne hr] using h

/-- What a lookup of precommits finds after `AddSignAggr`. -/
theorem addSignAggr_precommits (h : (hvs.addSignAggr s).precommits r = some t) :
    hvs.precommits r = some t ∨ (t = s ∧ s.round = r ∧ s.type_ = voteTypePrecommit) := by
  unfold addSignAggr at h
  split at h
  · exact Or.inl h
  next rvs hrvs =>
  by_cases hr : r = s.round
  · subst hr
    split_ifs at h with hpre hcom
    · simp only [precommits, AList.lookup_insert, Option.bind_some] at h
      exact Or.inl (by simp [precommits, hrvs, h])
    · simp only [precommits, AList.lookup_insert, Option.bind_some] at h
      exact Or.inr ⟨(Option.some.inj h).symm, rfl, hcom.1⟩
    · exact Or.inl h
  · refine Or.inl ?_
    split_ifs at h <;> simpa [precommits, AList.lookup_insert_ne hr] using h

theorem prevotes_addSignAggr (h : hvs.prevotes r = some t) :
    (hvs.addSignAggr s).prevotes r = some t := by
  unfold addSignAggr
  split
  · exact h
  next rvs hrvs =>
  by_cases hr : r = s.round
  · subst hr
    have hold : rvs.prevotes = some t := by simpa [prevotes, hrvs] using h
    split_ifs with hpre hcom
    · simp [hold] at hpre
    · simp [prevotes, hold]
    · exact h
  · split_ifs <;> simpa [prevotes, AList.lookup_insert_ne hr] using h

@[simp] theorem prevotes_new (chainID : String) (height : ℕ) (valSet : ValidatorSet) (r : ℤ) :
    (new chainID height valSet).prevotes r = none := by
  unfold prevotes new
  rw [GoMap.lookup_insert_ite]
  split_ifs <;> rfl

@[simp] theorem precommits_new (chainID : String) (height : ℕ) (valSet : ValidatorSet) (r : ℤ) :
    (new chainID height valSet).precommits r = none := by
  unfold precommits new
  rw [GoMap.lookup_insert_ite]
  split_ifs <;> rfl

end HeightVoteSignAggr

/-- `RoundVoteSet`. -/
structure RoundVoteSet where
  prevotes : VoteSet
  precommits : VoteSet

/-- The vote set of a type. -/
def RoundVoteSet.ofType (rvs : RoundVoteSet) (type_ : ℕ) : VoteSet :=
  if type_ = voteTypePrevote then rvs.prevotes else rvs.precommits

/-- The vote set of a type is replaced. -/
def RoundVoteSet.replace (rvs : RoundVoteSet) (type_ : ℕ) (voteSet : VoteSet) : RoundVoteSet :=
  if type_ = voteTypePrevote then { rvs with prevotes := voteSet }
  else { rvs with precommits := voteSet }

/-- `HeightVoteSet`. -/
structure HeightVoteSet where
  chainID : String
  height : ℕ
  valSet : ValidatorSet
  round : ℤ
  roundVoteSets : GoMap ℤ RoundVoteSet
  peerCatchupRounds : GoMap String (List ℤ)

namespace HeightVoteSet

variable {round : ℤ}

/-- `addRound`. -/
def addRound (hvs : HeightVoteSet) (round : ℤ) : Go HeightVoteSet :=
  if (hvs.roundVoteSets.lookup round).isSome then
    .error (.sanity "addRound() for an existing round")
  else do
    let prevotes ← newVoteSet hvs.chainID hvs.height round voteTypePrevote hvs.valSet
    let precommits ← newVoteSet hvs.chainID hvs.height round voteTypePrecommit hvs.valSet
    .ok { hvs with roundVoteSets := hvs.roundVoteSets.insert round ⟨prevotes, precommits⟩ }

/-- `NewHeightVoteSet` with `Reset`. -/
def new (chainID : String) (height : ℕ) (valSet : ValidatorSet) : Go HeightVoteSet :=
  addRound
    { chainID := chainID
      height := height
      valSet := valSet
      round := 0
      roundVoteSets := ∅
      peerCatchupRounds := ∅ } 0

/-- `SetRound`. -/
def setRound (hvs : HeightVoteSet) (round : ℤ) : Go HeightVoteSet :=
  if hvs.round ≠ 0 ∧ round < hvs.round + 1 then
    .error (.sanity "SetRound() must increment hvs.round")
  else do
    let hvs' ← (countUp (hvs.round + 1) round).foldlM
      (fun h r => if (h.roundVoteSets.lookup r).isSome then .ok h else h.addRound r) hvs
    .ok { hvs' with round := round }

/-- `ResetTop2Round`. -/
def resetTop2Round (hvs : HeightVoteSet) (round : ℤ) : Go HeightVoteSet :=
  if hvs.round < round ∨ round < 1 then
    .error (.sanity "hvs.ResetTop2Round() must have enough round to reset")
  else do
    let erased := { hvs with
      roundVoteSets := (countUp (round - 1) hvs.round).foldl
        (fun m r => m.erase r) hvs.roundVoteSets }
    let below ← erased.addRound (round - 1)
    let top ← below.addRound round
    .ok { top with round := round }

/-- `Prevotes`. -/
def prevotes (hvs : HeightVoteSet) (round : ℤ) : Option VoteSet :=
  (hvs.roundVoteSets.lookup round).map RoundVoteSet.prevotes

/-- `Precommits`. -/
def precommits (hvs : HeightVoteSet) (round : ℤ) : Option VoteSet :=
  (hvs.roundVoteSets.lookup round).map RoundVoteSet.precommits

/-- The errors of `HeightVoteSet.AddVote`. -/
inductive AddVoteError
  | unwantedRounds
  | vote (err : VoteError)
  deriving DecidableEq, Repr

/-- A peer's vote for a round that is not open opens it, twice for each peer. -/
def catchup (hvs : HeightVoteSet) (round : ℤ) (peerKey : String) : Go (Option HeightVoteSet) :=
  if (hvs.roundVoteSets.lookup round).isSome then .ok (some hvs)
  else
    let rndz := (hvs.peerCatchupRounds.lookup peerKey).getD []
    if rndz.length < 2 then do
      let hvs' ← hvs.addRound round
      .ok (some { hvs' with
        peerCatchupRounds := hvs'.peerCatchupRounds.insert peerKey (rndz ++ [round]) })
    else .ok none

/-- `AddVote`. -/
def addVote (L : Libs) (hvs : HeightVoteSet) (vote : Vote) (peerKey : String) :
    Go (HeightVoteSet × Bool × Option AddVoteError) :=
  if !isVoteTypeValid vote.type_ then .ok (hvs, false, none)
  else do
    let round := ofUint64 vote.round
    match ← hvs.catchup round peerKey with
    | none => .ok (hvs, false, some .unwantedRounds)
    | some opened =>
      match opened.roundVoteSets.lookup round with
      | none => .error (.sanity "AddVote() on nil VoteSet")
      | some rvs =>
        if vote.type_ = voteTypePrevote then do
          let (voteSet, added, err) ← rvs.prevotes.addVote L vote
          .ok ({ opened with
            roundVoteSets := opened.roundVoteSets.insert round { rvs with prevotes := voteSet } },
            added, err.map .vote)
        else do
          let (voteSet, added, err) ← rvs.precommits.addVote L vote
          .ok ({ opened with
            roundVoteSets := opened.roundVoteSets.insert round { rvs with precommits := voteSet } },
            added, err.map .vote)

variable {hvs hvs' : HeightVoteSet} {L : Libs} {vote : Vote} {peerKey : String} {rvs : RoundVoteSet}

/-! ### What the functions do -/

/-- A round of empty vote sets. -/
def Blank (hvs : HeightVoteSet) (round : ℤ) (rvs : RoundVoteSet) : Prop :=
  newVoteSet hvs.chainID hvs.height round voteTypePrevote hvs.valSet = .ok rvs.prevotes ∧
  newVoteSet hvs.chainID hvs.height round voteTypePrecommit hvs.valSet = .ok rvs.precommits

theorem addRound_blank (h : hvs.addRound round = .ok hvs') :
    ∃ rvs, hvs.Blank round rvs ∧
      hvs' = { hvs with roundVoteSets := hvs.roundVoteSets.insert round rvs } := by
  unfold addRound at h
  split_ifs at h
  obtain ⟨pre, hpre, h⟩ := Steps.bind_eq_ok.1 h
  obtain ⟨com, hcom, h⟩ := Steps.bind_eq_ok.1 h
  exact ⟨⟨pre, com⟩, ⟨hpre, hcom⟩, (Except.ok.inj h).symm⟩

/-- `SetRound` adds the rounds that are missing, one after the other. -/
theorem setRound_invariant {I : HeightVoteSet → Prop}
    (hadd : ∀ {x r x'}, I x → x.addRound r = .ok x' → I x') (hI : I hvs)
    (h : hvs.setRound round = .ok hvs') : ∃ top, I top ∧ hvs' = { top with round := round } := by
  unfold setRound at h
  split_ifs at h
  obtain ⟨top, hfold, h⟩ := Steps.bind_eq_ok.1 h
  cases h
  refine ⟨top, Steps.foldlM_invariant (fun x r x' hx hstep => ?_) hI hfold, rfl⟩
  split_ifs at hstep
  · exact Except.ok.inj hstep ▸ hx
  · exact hadd hx hstep

/-- The height set without the rounds from one on. -/
def erasedFrom (hvs : HeightVoteSet) (round : ℤ) : HeightVoteSet :=
  { hvs with
    roundVoteSets := (countUp round hvs.round).foldl (fun m r => m.erase r) hvs.roundVoteSets }

/-- `ResetTop2Round` erases the rounds from the one below on, and adds two. -/
theorem resetTop2Round_eq_ok (h : hvs.resetTop2Round round = .ok hvs') :
    (1 ≤ round ∧ round ≤ hvs.round) ∧ ∃ below top,
      (hvs.erasedFrom (round - 1)).addRound (round - 1) = .ok below ∧
      below.addRound round = .ok top ∧ hvs' = { top with round := round } := by
  unfold resetTop2Round at h
  split_ifs at h with hguard
  obtain ⟨below, hbelow, h⟩ := Steps.bind_eq_ok.1 h
  obtain ⟨top, htop, h⟩ := Steps.bind_eq_ok.1 h
  exact ⟨by omega, below, top, hbelow, htop, (Except.ok.inj h).symm⟩

/-- A round is open already, or the peer opens it. -/
theorem catchup_cases (h : hvs.catchup round peerKey = .ok (some hvs')) :
    (hvs.roundVoteSets.lookup round).isSome = true ∧ hvs' = hvs ∨
      ((hvs.peerCatchupRounds.lookup peerKey).getD []).length < 2 ∧
      ∃ added, hvs.addRound round = .ok added ∧ hvs' = { added with
        peerCatchupRounds := added.peerCatchupRounds.insert peerKey
          ((hvs.peerCatchupRounds.lookup peerKey).getD [] ++ [round]) } := by
  unfold catchup at h
  simp only at h
  split_ifs at h with hopen hfew
  · exact .inl ⟨hopen, (Option.some.inj (Except.ok.inj h)).symm⟩
  · obtain ⟨added, hadd, h⟩ := Steps.bind_eq_ok.1 h
    exact .inr ⟨hfew, added, hadd, (Option.some.inj (Except.ok.inj h)).symm⟩
  · cases h

theorem catchup_of_open (h : hvs.roundVoteSets.lookup round = some rvs) :
    hvs.catchup round peerKey = .ok (some hvs) := by
  rw [catchup, h]
  rfl

theorem addVote_eq (htype : isVoteTypeValid vote.type_ = true) {opened : HeightVoteSet}
    (hcatch : hvs.catchup (ofUint64 vote.round) peerKey = .ok (some opened))
    (hrvs : opened.roundVoteSets.lookup (ofUint64 vote.round) = some rvs) :
    hvs.addVote L vote peerKey = (rvs.ofType vote.type_).addVote L vote >>= fun r =>
      .ok ({ opened with
        roundVoteSets := opened.roundVoteSets.insert (ofUint64 vote.round)
          (rvs.replace vote.type_ r.1) }, r.2.1, r.2.2.map .vote) := by
  rw [addVote, if_neg (by simp [htype])]
  simp only [hcatch, hrvs, RoundVoteSet.ofType, RoundVoteSet.replace, bind, Except.bind]
  split_ifs <;> rfl

theorem addVote_cases {added : Bool} {err : Option AddVoteError}
    (h : hvs.addVote L vote peerKey = .ok (hvs', added, err)) :
    hvs' = hvs ∧ added = false ∨ isVoteTypeValid vote.type_ = true ∧ ∃ opened rvs voteSet err',
      hvs.catchup (ofUint64 vote.round) peerKey = .ok (some opened) ∧
      opened.roundVoteSets.lookup (ofUint64 vote.round) = some rvs ∧
      (rvs.ofType vote.type_).addVote L vote = .ok (voteSet, added, err') ∧
      hvs' = { opened with
        roundVoteSets := opened.roundVoteSets.insert (ofUint64 vote.round)
          (rvs.replace vote.type_ voteSet) } := by
  by_cases htype : isVoteTypeValid vote.type_ = true
  swap
  · rw [addVote, if_pos (by simpa using htype)] at h
    cases h
    exact .inl ⟨rfl, rfl⟩
  have hadd := h
  rw [addVote, if_neg (by simp [htype])] at hadd
  obtain ⟨opened?, hcatch, hadd⟩ := Steps.bind_eq_ok.1 hadd
  split at hadd
  · cases hadd
    exact .inl ⟨rfl, rfl⟩
  next opened =>
  split at hadd
  · cases hadd
  next rvs hrvs =>
  rw [addVote_eq htype hcatch hrvs] at h
  obtain ⟨⟨voteSet, added', err'⟩, hset, h⟩ := Steps.bind_eq_ok.1 h
  cases h
  exact .inr ⟨htype, opened, rvs, voteSet, err', hcatch, hrvs, hset, rfl⟩

/-! ### What every vote set satisfies -/

/-- What identifies the height set does not change. -/
def Alike (hvs hvs' : HeightVoteSet) : Prop :=
  hvs'.chainID = hvs.chainID ∧ hvs'.height = hvs.height ∧ hvs'.valSet = hvs.valSet

theorem Alike.trans {hvs'' : HeightVoteSet} (h : hvs.Alike hvs') (h' : hvs'.Alike hvs'') :
    hvs.Alike hvs'' :=
  ⟨h'.1.trans h.1, h'.2.1.trans h.2.1, h'.2.2.trans h.2.2⟩

/-- Every vote set of the height has the property, which may depend on its round and type. -/
def Each (P : ℤ → ℕ → VoteSet → Prop) (hvs : HeightVoteSet) : Prop :=
  ∀ round rvs, hvs.roundVoteSets.lookup round = some rvs →
    P round voteTypePrevote rvs.prevotes ∧ P round voteTypePrecommit rvs.precommits

/-- The empty vote sets of the height have the property. -/
def EachNew (P : ℤ → ℕ → VoteSet → Prop) (hvs : HeightVoteSet) : Prop :=
  ∀ {round type_ voteSet}, newVoteSet hvs.chainID hvs.height round type_ hvs.valSet = .ok voteSet →
    P round type_ voteSet

variable {P : ℤ → ℕ → VoteSet → Prop}

theorem Alike.eachNew (h : hvs.Alike hvs') (hnew : hvs.EachNew P) : hvs'.EachNew P := by
  unfold EachNew
  rw [h.1, h.2.1, h.2.2]
  exact hnew

theorem Each.mono {P' : ℤ → ℕ → VoteSet → Prop} (h : hvs.Each P)
    (hP : ∀ {round type_ voteSet}, P round type_ voteSet → P' round type_ voteSet) : hvs.Each P' :=
  fun round rvs hrvs => ⟨hP (h round rvs hrvs).1, hP (h round rvs hrvs).2⟩

theorem Each.insert (h : hvs.Each P) (hpre : P round voteTypePrevote rvs.prevotes)
    (hcom : P round voteTypePrecommit rvs.precommits) :
    Each P { hvs with roundVoteSets := hvs.roundVoteSets.insert round rvs } := by
  intro r rvs' hr
  rw [GoMap.lookup_insert_ite] at hr
  split at hr
  next heq =>
    cases hr
    exact heq ▸ ⟨hpre, hcom⟩
  · exact h r rvs' hr

theorem type_eq_precommit {type_ : ℕ} (h : isVoteTypeValid type_ = true)
    (hne : type_ ≠ voteTypePrevote) : type_ = voteTypePrecommit := by
  simpa [isVoteTypeValid, hne] using h

theorem Each.ofType (h : hvs.Each P) (hrvs : hvs.roundVoteSets.lookup round = some rvs) {type_ : ℕ}
    (htype : isVoteTypeValid type_ = true) : P round type_ (rvs.ofType type_) := by
  unfold RoundVoteSet.ofType
  split_ifs with hpre
  · exact hpre ▸ (h round rvs hrvs).1
  · exact type_eq_precommit htype hpre ▸ (h round rvs hrvs).2

theorem Each.replace (h : hvs.Each P) (hrvs : hvs.roundVoteSets.lookup round = some rvs) {type_ : ℕ}
    (htype : isVoteTypeValid type_ = true) {voteSet : VoteSet} (hset : P round type_ voteSet) :
    Each P { hvs with
      roundVoteSets := hvs.roundVoteSets.insert round (rvs.replace type_ voteSet) } := by
  unfold RoundVoteSet.replace
  obtain ⟨hpre, hcom⟩ := h round rvs hrvs
  split_ifs with htype'
  · exact h.insert (htype' ▸ hset) hcom
  · exact h.insert hpre (type_eq_precommit htype htype' ▸ hset)

section Kept

variable (h : hvs.Each P) (hnew : hvs.EachNew P)

include h hnew

theorem Each.addRound (hadd : hvs.addRound round = .ok hvs') : hvs'.Each P ∧ hvs.Alike hvs' := by
  obtain ⟨rvs, ⟨hpre, hcom⟩, rfl⟩ := addRound_blank hadd
  exact ⟨h.insert (hnew hpre) (hnew hcom), rfl, rfl, rfl⟩

theorem Each.setRound (hset : hvs.setRound round = .ok hvs') : hvs'.Each P ∧ hvs.Alike hvs' := by
  obtain ⟨top, htop, rfl⟩ := setRound_invariant (I := fun x => x.Each P ∧ hvs.Alike x)
    (fun ⟨hx, hsame⟩ hadd => (hx.addRound (hsame.eachNew hnew) hadd).imp_right hsame.trans)
    ⟨h, rfl, rfl, rfl⟩ hset
  exact htop

theorem Each.resetTop2Round (hreset : hvs.resetTop2Round round = .ok hvs') :
    hvs'.Each P ∧ hvs.Alike hvs' := by
  obtain ⟨-, below, top, hbelow, htop, rfl⟩ := resetTop2Round_eq_ok hreset
  have herased : (hvs.erasedFrom (round - 1)).Each P := fun r rvs hr => by
    unfold erasedFrom at hr
    dsimp only at hr
    rw [lookup_foldl_erase] at hr
    split_ifs at hr
    exact h r rvs hr
  obtain ⟨hbelow, hsame⟩ := herased.addRound hnew hbelow
  obtain ⟨htop, hsame'⟩ := hbelow.addRound (hsame.eachNew hnew) htop
  exact ⟨htop, hsame.trans hsame'⟩

theorem Each.catchup (hcatch : hvs.catchup round peerKey = .ok (some hvs')) :
    hvs'.Each P ∧ hvs.Alike hvs' := by
  rcases catchup_cases hcatch with ⟨-, rfl⟩ | ⟨-, added, hadd, rfl⟩
  · exact ⟨h, rfl, rfl, rfl⟩
  · obtain ⟨hadded, hsame⟩ := h.addRound hnew hadd
    exact ⟨hadded, hsame⟩

/-- **What every vote set satisfies**, and keeps when the vote is added to it, every vote set
satisfies after the vote. -/
theorem Each.addVote (hstep : ∀ {voteSet voteSet' added err},
      P (ofUint64 vote.round) vote.type_ voteSet →
      voteSet.addVote L vote = .ok (voteSet', added, err) →
      P (ofUint64 vote.round) vote.type_ voteSet') {added : Bool} {err : Option AddVoteError}
    (hadd : hvs.addVote L vote peerKey = .ok (hvs', added, err)) :
    hvs'.Each P ∧ hvs.Alike hvs' := by
  rcases addVote_cases hadd with ⟨rfl, -⟩ | ⟨htype, opened, rvs, voteSet, err', hcatch, hrvs, hset, rfl⟩
  · exact ⟨h, rfl, rfl, rfl⟩
  · obtain ⟨hopened, hsame⟩ := h.catchup hnew hcatch
    exact ⟨hopened.replace hrvs htype (hstep (hopened.ofType hrvs htype) hset), hsame⟩

end Kept

/-! ### The votes of a height -/

/-- What a vote set of a height can hold: votes with the property `Q`, of the set's own
height, round and type. -/
structure SetHolds (Q : Vote → Prop) (hvs : HeightVoteSet) (round : ℤ) (type_ : ℕ)
    (voteSet : VoteSet) : Prop where
  chainID_eq : voteSet.chainID = hvs.chainID
  height_eq : voteSet.height = hvs.height
  round_eq : voteSet.round = round
  type_eq : voteSet.type_ = type_
  votes : voteSet.AllVotes fun v =>
    Q v ∧ v.height = hvs.height ∧ ofUint64 v.round = round ∧ v.type_ = type_

/-- Every vote set of the height holds only votes with the property `Q`. -/
def Holds (Q : Vote → Prop) (hvs : HeightVoteSet) : Prop :=
  ∀ round rvs, hvs.roundVoteSets.lookup round = some rvs →
    SetHolds Q hvs round voteTypePrevote rvs.prevotes ∧
    SetHolds Q hvs round voteTypePrecommit rvs.precommits

variable {Q : Vote → Prop} {type_ : ℕ} {voteSet : VoteSet}

theorem Holds.mono {Q' : Vote → Prop} (h : hvs.Holds Q) (hQ : ∀ vote, Q vote → Q' vote) :
    hvs.Holds Q' :=
  Each.mono h fun hset => ⟨hset.chainID_eq, hset.height_eq, hset.round_eq, hset.type_eq,
    hset.votes.mono fun vote hvote => ⟨hQ vote hvote.1, hvote.2⟩⟩

theorem setHolds_newVoteSet : hvs.EachNew (SetHolds Q hvs) := by
  intro round type_ voteSet h
  unfold newVoteSet at h
  split_ifs at h
  cases h
  exact ⟨rfl, rfl, rfl, rfl, ⟨by simp [List.mem_replicate], by simp⟩⟩

theorem Alike.holds (h : hvs'.Each (SetHolds Q hvs) ∧ hvs.Alike hvs') : hvs'.Holds Q := by
  obtain ⟨hsets, hchain, hheight, -⟩ := h
  exact hsets.mono fun hset => ⟨hset.chainID_eq.trans hchain.symm, hset.height_eq.trans hheight.symm,
    hset.round_eq, hset.type_eq, by rw [hheight]; exact hset.votes⟩

theorem new_holds {chainID : String} {height : ℕ} {valSet : ValidatorSet}
    (h : new chainID height valSet = .ok hvs') : hvs'.Holds Q :=
  Alike.holds (Each.addRound (fun r rvs hr => by simp at hr) setHolds_newVoteSet h)

theorem setRound_holds (h : hvs.setRound round = .ok hvs') (hholds : hvs.Holds Q) : hvs'.Holds Q :=
  Alike.holds (Each.setRound hholds setHolds_newVoteSet h)

/-- **The votes of a height are the votes that were added:** `AddVote` keeps `Holds Q` when
the added vote has the property. -/
theorem addVote_holds {added : Bool} {err : Option AddVoteError}
    (h : hvs.addVote L vote peerKey = .ok (hvs', added, err)) (hholds : hvs.Holds Q) (hQ : Q vote) :
    hvs'.Holds Q := by
  refine Alike.holds (Each.addVote hholds setHolds_newVoteSet (fun hset hadd => ?_) h)
  obtain ⟨hall, hsame⟩ := VoteSet.addVote_spec hadd hset.votes fun hh hr ht =>
    ⟨hQ, hh.trans hset.height_eq, hr.trans hset.round_eq, ht.trans hset.type_eq⟩
  exact ⟨hsame.chainID.trans hset.chainID_eq, hsame.height.trans hset.height_eq,
    hsame.round.trans hset.round_eq, hsame.type_.trans hset.type_eq, hall⟩

end HeightVoteSet

end Consensus

end LigoChain
