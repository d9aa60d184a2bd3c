/-
# The memory of votes

`VoteSet` (`types/vote_set.go`) has to keep conflicting votes and must not keep all that are sent to
it; `HeightVoteSet` (`consensus/height_vote_set.go`) lets peers open rounds that are not the current
one.  Both bound what they keep by charging it.

An entry of `votesByBlock` is opened by the first vote of a validator, which stays in `votes`, or by
the only claim of a peer, which stays in `peerMaj23s` (`VoteSet.Charged`).  A round is one of those
up to the current round, or one that a peer opened, which stays in `peerCatchupRounds` with at most
one other round of this peer, also when the round is reset (`HeightVoteSet.Charged`).

**`vote_memory_bounded`** has both bounds, after every sequence of calls.  `SetRound` has to be called
with a round that is not negative: it accepts every `int` in round `0`, and a negative one leaves
more rounds than it counts (`setRound_negative`).
-/

import LigoChain.Consensus.VoteSafety
import LigoChain.Types.VoteGathering
import Mathlib.Data.List.Dedup

namespace LigoChain

open GoInt

theorem GoMap.length_keys_insert {κ ν : Type} [DecidableEq κ] (m : GoMap κ ν) (key : κ)
    (value : ν) : (m.insert key value).keys.length =
      if (m.lookup key).isSome = true then m.keys.length else m.keys.length + 1 := by
  rw [AList.keys_insert, List.length_cons, List.length_erase]
  by_cases hkey : key ∈ m.keys
  · have hpos := List.length_pos_of_mem hkey
    rw [if_pos hkey, if_pos (AList.lookup_isSome.2 (AList.mem_keys.2 hkey))]
    omega
  · rw [if_neg hkey, if_neg fun h => hkey (AList.mem_keys.1 (AList.lookup_isSome.1 h))]

theorem GoMap.length_keys_le {κ ν : Type} [DecidableEq κ] {m : GoMap κ ν} {l : List κ}
    (h : m.keys ⊆ l) : m.keys.length ≤ l.dedup.length :=
  (List.subperm_of_subset m.keys_nodup fun _ hk => List.mem_dedup.2 (h hk)).length_le

/-! ## One vote set -/

namespace VoteSet

variable {L : Libs} {voteSet voteSet' : VoteSet} {vote : Vote}

theorem countP_set_some {votes : List (Option Vote)} {i : ℕ} {o : Option Vote}
    (h : votes[i]? = some o) (v : Vote) :
    (votes.set i (some v)).countP Option.isSome =
      votes.countP Option.isSome + if o.isSome = true then 0 else 1 := by
  induction votes generalizing i with
  | nil => simp at h
  | cons w votes ih =>
    cases i with
    | zero =>
      obtain rfl : w = o := by simpa using h
      cases w <;> simp
    | succ i =>
      rw [List.set_cons_succ, List.countP_cons, List.countP_cons, ih (by simpa using h)]
      omega

theorem countP_le_copyVotes {votes blockVotes : List (Option Vote)}
    (h : votes.length = blockVotes.length) :
    votes.countP Option.isSome ≤ (copyVotes votes blockVotes).countP Option.isSome := by
  induction votes generalizing blockVotes with
  | nil => simp
  | cons v votes ih =>
    cases blockVotes with
    | nil => simp at h
    | cons w blockVotes =>
      have hrest : votes.countP Option.isSome ≤ (copyVotes votes blockVotes).countP Option.isSome :=
        ih (by simpa using h)
      rw [copyVotes, List.zipWith_cons_cons, List.countP_cons, List.countP_cons]
      refine Nat.add_le_add hrest ?_
      cases w with
      | none => exact le_rfl
      | some w => cases v <;> simp

/-- The entries are charged to the validators that have voted, and to the peers that have made a
claim. -/
structure Charged (voteSet : VoteSet) : Prop where
  sized : voteSet.Sized
  entries : voteSet.votesByBlock.keys.length ≤
    voteSet.votes.countP Option.isSome + voteSet.peerMaj23s.keys.length

/-- **A verified vote opens an entry only if it is the first of its validator.** -/
theorem Charged.addVerifiedVote (h : voteSet.Charged) {key : Bytes} {power : ℤ} {added : Bool}
    {conflicting : Option Vote}
    (hadd : voteSet.addVerifiedVote vote key power = .ok (voteSet', added, conflicting)) :
    voteSet'.Charged ∧ voteSet'.peerMaj23s = voteSet.peerMaj23s := by
  have hsized := ((addVerifiedVote_sized (E := fun _ => True) (by simp) h.sized (by simp)).of_eq_ok
    hadd).1.1
  obtain ⟨placed, hplace, hcases⟩ := addVerifiedVote_cases hadd
  have hplaced : placed.Sized :=
    ((placeVote_sized (E := fun _ => True) (by simp) h.sized (by simp)).of_eq_ok hplace).1
  obtain ⟨hblocks, hpeers, hvoters⟩ : placed.votesByBlock = voteSet.votesByBlock ∧
      placed.peerMaj23s = voteSet.peerMaj23s ∧
      voteSet.votes.countP Option.isSome + (if conflicting.isSome = true then 0 else 1) ≤
        placed.votes.countP Option.isSome := by
    rcases placeVote_cases hplace with ⟨hnone, rfl, rfl⟩ |
      ⟨existing, hexisting, -, rfl, rfl | ⟨-, rfl⟩⟩
    · exact ⟨rfl, rfl, (countP_set_some hnone vote).ge⟩
    · exact ⟨rfl, rfl, le_rfl⟩
    · exact ⟨rfl, rfl, (countP_set_some hexisting vote).ge⟩
  have hentries := h.entries
  rw [← hblocks, ← hpeers] at hentries
  rcases hcases with ⟨rfl, -⟩ | ⟨bv, hcount, hbv⟩
  · exact ⟨⟨hsized, by omega⟩, hpeers⟩
  -- the entry is there already, or the vote is the first of its validator
  have hkeys : ∀ bv', (placed.votesByBlock.insert key bv').keys.length ≤
      placed.votes.countP Option.isSome + placed.peerMaj23s.keys.length := fun bv' => by
    rw [GoMap.length_keys_insert]
    rcases hbv with hbv | ⟨hnone, rfl, -⟩
    · rw [hbv]
      simp only [Option.isSome_some, if_true]
      omega
    · rw [hnone]
      simp only [Option.isSome_none, Bool.false_eq_true, if_false] at hvoters ⊢
      omega
  rcases countVote_cases hcount with rfl | ⟨bv', maj23, votes, hbv', rfl, hvotes⟩
  · exact ⟨⟨hsized, hkeys bv⟩, hpeers⟩
  · refine ⟨⟨hsized, (hkeys bv').trans (Nat.add_le_add_right ?_ _)⟩, hpeers⟩
    rcases hvotes with ⟨-, rfl⟩ | ⟨-, rfl⟩
    · exact le_rfl
    · exact countP_le_copyVotes (hplaced.votes.trans (hsized.byBlock key bv' (by simp)).2.symm)

/-- **A claim opens an entry only if it is the first of its peer.** -/
theorem Charged.setPeerMaj23 (h : voteSet.Charged) (peerID : String) (blockID : BlockID) :
    (voteSet.setPeerMaj23 peerID blockID).Charged ∧
      (voteSet.setPeerMaj23 peerID blockID).peerMaj23s.keys ⊆ peerID :: voteSet.peerMaj23s.keys := by
  unfold VoteSet.setPeerMaj23
  split
  · exact ⟨h, List.subset_cons_self _ _⟩
  next hnone =>
  have hentries := h.entries
  refine ⟨⟨?_, ?_⟩, ?_⟩
  · refine ⟨h.sized.votes, fun key bv' hkey => ?_⟩
    simp only [GoMap.lookup_insert_ite] at hkey
    split_ifs at hkey
    · cases hkey
      split
      next bv hbv => exact h.sized.byBlock _ bv hbv
      next => simp [newBlockVotes]
    · exact h.sized.byBlock key bv' hkey
  · simp only [GoMap.length_keys_insert, hnone]
    simp only [Option.isSome_none, Bool.false_eq_true, if_false]
    split <;> omega
  · simp only [AList.keys_insert]
    exact List.cons_subset_cons _ List.erase_subset

/-- The peer that a call is a claim of. -/
def Call.peer : Call → Option String
  | .addVote _ => none
  | .setPeerMaj23 peerID _ => some peerID

theorem Charged.call (h : voteSet.Charged) {c : Call} (hcall : voteSet.call L c = .ok voteSet') :
    voteSet'.Charged ∧ voteSet'.peerMaj23s.keys ⊆ c.peer.toList ++ voteSet.peerMaj23s.keys := by
  cases c with
  | addVote vote =>
    obtain ⟨⟨vs, added, err⟩, hadd, rfl⟩ := Steps.map_eq_ok.1 hcall
    rcases addVote_eq_ok hadd with ⟨rfl, -⟩ | ⟨addr, val, conflicting, -, -, -, -, hverified⟩
    · exact ⟨h, List.Subset.refl _⟩
    · obtain ⟨hcharged, hpeers⟩ := h.addVerifiedVote hverified
      exact ⟨hcharged, by rw [hpeers]; exact List.Subset.refl _⟩
  | setPeerMaj23 peerID blockID =>
    cases hcall
    exact h.setPeerMaj23 peerID blockID

/-- **The entries of a vote set**: at most one for each validator and one for each peer that made a
claim. -/
theorem Charged.length_le {chainID : String} {height : ℕ} {round : ℤ} {type_ : ℕ}
    {valSet : ValidatorSet} {start : VoteSet}
    (hnew : newVoteSet chainID height round type_ valSet = .ok start) {calls : List Call}
    (hrun : calls.foldlM (VoteSet.call L) start = .ok voteSet) :
    voteSet.votesByBlock.keys.length ≤
      valSet.size + (calls.filterMap Call.peer).dedup.length := by
  have hvalSet : voteSet.valSet = valSet :=
    (sameHeader_of_run hrun).valSet.trans (newVoteSet_header hnew).2.2.2.2
  have hempty : start.votesByBlock = ∅ ∧ start.peerMaj23s = ∅ := by
    unfold newVoteSet at hnew
    split_ifs at hnew
    cases hnew
    exact ⟨rfl, rfl⟩
  have hstart : start.Charged := ⟨newVoteSet_sized hnew, by simp [hempty.1]⟩
  obtain ⟨hcharged, hpeers⟩ := Steps.foldlM_names (P := Charged) (C := fun _ => True)
    (fun _ _ _ h _ hcall => h.call hcall) hstart (fun _ _ => trivial) hrun
  rw [hempty.2, AList.keys_empty, List.append_nil] at hpeers
  have hvoters : voteSet.votes.countP Option.isSome ≤ valSet.size := by
    rw [← hvalSet, ← hcharged.sized.votes]
    exact List.countP_le_length
  exact hcharged.entries.trans (Nat.add_le_add hvoters (GoMap.length_keys_le hpeers))

end VoteSet

/-! ## The vote sets of a height -/

namespace Consensus
namespace HeightVoteSet

variable {L : Libs} {hvs hvs' : HeightVoteSet} {round : ℤ}

/-- The rounds are charged to the current round and those below it, and to the peers that opened
others. -/
structure Charged (hvs : HeightVoteSet) : Prop where
  nonneg : 0 ≤ hvs.round
  rounds : ∀ r ∈ hvs.roundVoteSets.keys, 0 ≤ r ∧ r ≤ hvs.round ∨
    ∃ peerKey rounds, hvs.peerCatchupRounds.lookup peerKey = some rounds ∧ r ∈ rounds
  catchup : ∀ peerKey rounds, hvs.peerCatchupRounds.lookup peerKey = some rounds →
    rounds.length ≤ 2

/-- `addRound` opens its round and no other. -/
theorem addRound_keys (h : hvs.addRound round = .ok hvs') :
    hvs'.peerCatchupRounds = hvs.peerCatchupRounds ∧ hvs'.round = hvs.round ∧
      hvs'.roundVoteSets.keys ⊆ round :: hvs.roundVoteSets.keys := by
  obtain ⟨rvs, -, rfl⟩ := addRound_blank h
  refine ⟨rfl, rfl, ?_⟩
  rw [AList.keys_insert]
  exact List.cons_subset_cons _ List.erase_subset

theorem Charged.setRound (h : hvs.Charged) (hround : 0 ≤ round)
    (hset : hvs.setRound round = .ok hvs') :
    hvs'.Charged ∧ hvs'.peerCatchupRounds = hvs.peerCatchupRounds := by
  unfold HeightVoteSet.setRound at hset
  split_ifs at hset with hguard
  obtain ⟨top, hfold, hset⟩ := Steps.bind_eq_ok.1 hset
  cases hset
  obtain ⟨hpeers, hkeys⟩ := Steps.foldlM_names (n := some) (C := fun _ => True)
    (P := fun x => x.peerCatchupRounds = hvs.peerCatchupRounds)
    (N := fun x => x.roundVoteSets.keys) (fun x r x' hx _ hstep => by
      split_ifs at hstep
      · cases hstep
        exact ⟨hx, List.subset_append_right _ _⟩
      · obtain ⟨hpeers, -, hkeys⟩ := addRound_keys hstep
        exact ⟨hpeers.trans hx, hkeys⟩) rfl (fun _ _ => trivial) hfold
  rw [List.filterMap_some] at hkeys
  refine ⟨⟨hround, fun r hr => ?_, fun p rs hp => h.catchup p rs (hpeers ▸ hp)⟩, hpeers⟩
  have hnonneg := h.nonneg
  rcases List.mem_append.1 (hkeys hr) with hr | hr
  · have hbounds := mem_countUp.1 hr
    exact .inl ⟨by omega, hbounds.2⟩
  · exact (h.rounds r hr).imp (fun hr => ⟨hr.1, by show r ≤ round; omega⟩) fun hr => hpeers ▸ hr

/-- `ResetTop2Round` erases the rounds from the one below on, also those of peers. -/
theorem Charged.resetTop2Round (h : hvs.Charged) (hreset : hvs.resetTop2Round round = .ok hvs') :
    hvs'.Charged ∧ hvs'.peerCatchupRounds = hvs.peerCatchupRounds := by
  obtain ⟨hguard, below, top, hbelow, htop, rfl⟩ := resetTop2Round_eq_ok hreset
  obtain ⟨hpeers, -, hkeys⟩ := addRound_keys hbelow
  obtain ⟨hpeers', -, hkeys'⟩ := addRound_keys htop
  have hpeers'' : top.peerCatchupRounds = hvs.peerCatchupRounds := hpeers'.trans hpeers
  refine ⟨⟨by show 0 ≤ round; omega, fun r hr => ?_,
    fun p rs hp => h.catchup p rs (hpeers'' ▸ hp)⟩, hpeers''⟩
  show 0 ≤ r ∧ r ≤ round ∨ _
  rcases List.mem_cons.1 (hkeys' hr) with rfl | hr
  · exact .inl (by omega)
  rcases List.mem_cons.1 (hkeys hr) with rfl | hr
  · exact .inl (by omega)
  -- a round that was there is below the erased ones, or above the current round
  rw [erasedFrom, ← AList.mem_keys, ← AList.lookup_isSome, lookup_foldl_erase] at hr
  split_ifs at hr with herased
  · cases hr
  rw [mem_countUp] at herased
  rcases h.rounds r (AList.mem_keys.1 (AList.lookup_isSome.1 hr)) with hr | hr
  · exact .inl (by omega)
  · exact .inr (hpeers'' ▸ hr)

theorem Charged.insert (h : hvs.Charged) {rvs₀ : RoundVoteSet}
    (hround : hvs.roundVoteSets.lookup round = some rvs₀) (rvs : RoundVoteSet) :
    Charged { hvs with roundVoteSets := hvs.roundVoteSets.insert round rvs } := by
  refine ⟨h.nonneg, fun r hr => h.rounds r ?_, h.catchup⟩
  rw [AList.keys_insert] at hr
  rcases List.mem_cons.1 hr with rfl | hr
  · exact AList.mem_keys.1 (AList.lookup_isSome.1 (by rw [hround]; rfl))
  · exact List.mem_of_mem_erase hr

/-- **A vote opens a round only if its peer has opened less than two.** -/
theorem Charged.openRound (h : hvs.Charged) {peerKey : String}
    (hcatchup : hvs.catchup round peerKey = .ok (some hvs')) :
    hvs'.Charged ∧ hvs'.peerCatchupRounds.keys ⊆ peerKey :: hvs.peerCatchupRounds.keys := by
  rcases catchup_cases hcatchup with ⟨-, rfl⟩ | ⟨hfew, added, hadd, rfl⟩
  · exact ⟨h, List.subset_cons_self _ _⟩
  obtain ⟨hpeers, hround, hkeys⟩ := addRound_keys hadd
  refine ⟨⟨by rw [hround]; exact h.nonneg, fun r hr => ?_, fun p rs hp => ?_⟩, ?_⟩
  · simp only [GoMap.lookup_insert_ite]
    rcases List.mem_cons.1 (hkeys hr) with rfl | hold
    · exact .inr ⟨peerKey, _, if_pos rfl, by simp⟩
    rcases h.rounds r hold with hbelow | ⟨p, rs, hp, hmem⟩
    · exact .inl ⟨hbelow.1, by rw [hround]; exact hbelow.2⟩
    by_cases hpeer : p = peerKey
    · subst hpeer
      exact .inr ⟨p, _, if_pos rfl, by simp [hp, hmem]⟩
    · exact .inr ⟨p, rs, by rw [if_neg hpeer, hpeers, hp], hmem⟩
  · simp only [GoMap.lookup_insert_ite] at hp
    split_ifs at hp
    · cases hp
      rw [List.length_append, List.length_singleton]
      omega
    · exact h.catchup p rs (hpeers ▸ hp)
  · rw [AList.keys_insert, hpeers]
    exact List.cons_subset_cons _ List.erase_subset

theorem Charged.addVote (h : hvs.Charged) {vote : Vote} {peerKey : String} {added : Bool}
    {err : Option AddVoteError} (hadd : hvs.addVote L vote peerKey = .ok (hvs', added, err)) :
    hvs'.Charged ∧ hvs'.peerCatchupRounds.keys ⊆ peerKey :: hvs.peerCatchupRounds.keys := by
  rcases addVote_cases hadd with ⟨rfl, -⟩ | ⟨-, opened, rvs, voteSet, err', hcatchup, hrvs, -, rfl⟩
  · exact ⟨h, List.subset_cons_self _ _⟩
  · obtain ⟨hopened, hpeers⟩ := h.openRound hcatchup
    exact ⟨hopened.insert hrvs _, hpeers⟩

/-- A call on the vote sets of a height. -/
inductive Call
  | addVote (vote : Vote) (peerKey : String)
  | setRound (round : ℤ)
  | resetTop2Round (round : ℤ)

/-- The vote sets after a call. -/
def call (L : Libs) (hvs : HeightVoteSet) : Call → Go HeightVoteSet
  | .addVote vote peerKey => Prod.fst <$> hvs.addVote L vote peerKey
  | .setRound round => hvs.setRound round
  | .resetTop2Round round => hvs.resetTop2Round round

/-- The peer that a call is made for. -/
def Call.peer : Call → Option String
  | .addVote _ peerKey => some peerKey
  | _ => none

/-- `SetRound` is not called with a negative round. -/
def Call.Nonneg : Call → Prop
  | .setRound round => 0 ≤ round
  | _ => True

theorem Charged.call (h : hvs.Charged) {c : Call} (hc : c.Nonneg)
    (hcall : hvs.call L c = .ok hvs') :
    hvs'.Charged ∧
      hvs'.peerCatchupRounds.keys ⊆ c.peer.toList ++ hvs.peerCatchupRounds.keys := by
  cases c with
  | addVote vote peerKey =>
    obtain ⟨⟨vs, added, err⟩, hadd, rfl⟩ := Steps.map_eq_ok.1 hcall
    exact h.addVote hadd
  | setRound round =>
    obtain ⟨hcharged, hpeers⟩ := h.setRound hc hcall
    exact ⟨hcharged, by rw [hpeers]; exact List.Subset.refl _⟩
  | resetTop2Round round =>
    obtain ⟨hcharged, hpeers⟩ := h.resetTop2Round hcall
    exact ⟨hcharged, by rw [hpeers]; exact List.Subset.refl _⟩

/-- The rounds up to the current one, and two for each peer. -/
theorem Charged.length_keys_le (h : hvs.Charged) :
    (hvs.roundVoteSets.keys.length : ℤ) ≤
      hvs.round + 1 + 2 * hvs.peerCatchupRounds.keys.length := by
  have hnonneg := h.nonneg
  have hcover : hvs.roundVoteSets.keys ⊆ countUp 0 hvs.round ++
      hvs.peerCatchupRounds.keys.flatMap fun p => (hvs.peerCatchupRounds.lookup p).getD [] := by
    intro r hr
    rw [List.mem_append, mem_countUp, List.mem_flatMap]
    refine (h.rounds r hr).imp_right fun ⟨p, rs, hp, hr⟩ => ⟨p, ?_, by rw [hp]; exact hr⟩
    exact AList.mem_keys.1 (AList.lookup_isSome.1 (by rw [hp]; rfl))
  have hlength := (List.subperm_of_subset hvs.roundVoteSets.keys_nodup hcover).length_le
  have hpeers : (hvs.peerCatchupRounds.keys.flatMap fun p =>
      (hvs.peerCatchupRounds.lookup p).getD []).length ≤
        hvs.peerCatchupRounds.keys.length * 2 := by
    rw [List.length_flatMap]
    refine (List.sum_le_card_nsmul _ 2 fun n hn => ?_).trans (by simp)
    obtain ⟨p, -, rfl⟩ := List.mem_map.1 hn
    cases hp : hvs.peerCatchupRounds.lookup p with
    | none => simp
    | some rs => exact h.catchup p rs hp
  have hcount : (countUp 0 hvs.round).length = (hvs.round + 1).toNat := by simp [countUp]
  rw [List.length_append, hcount] at hlength
  omega

/-- **The rounds of a height**: those up to the current one, and two for each peer. -/
theorem length_rounds_le {chainID : String} {height : ℕ} {valSet : ValidatorSet}
    {start : HeightVoteSet} (hnew : new chainID height valSet = .ok start) {calls : List Call}
    (hcalls : ∀ c ∈ calls, c.Nonneg) (hrun : calls.foldlM (HeightVoteSet.call L) start = .ok hvs) :
    (hvs.roundVoteSets.keys.length : ℤ) ≤
      hvs.round + 1 + 2 * (calls.filterMap Call.peer).dedup.length := by
  obtain ⟨hpeers, hround, hkeys⟩ := addRound_keys hnew
  have hstart : start.Charged := by
    refine ⟨hround.ge, fun r hr => ?_, fun p rs hp => ?_⟩
    · obtain rfl : r = 0 := by simpa using hkeys hr
      exact .inl ⟨le_rfl, hround.ge⟩
    · rw [hpeers] at hp
      simp at hp
  obtain ⟨hcharged, hnames⟩ := Steps.foldlM_names (P := Charged) (C := Call.Nonneg)
    (fun _ _ _ h hc hcall => h.call hc hcall) hstart hcalls hrun
  rw [hpeers, AList.keys_empty, List.append_nil] at hnames
  have hlength := hcharged.length_keys_le
  have hpeers' : hvs.peerCatchupRounds.keys.length ≤ (calls.filterMap Call.peer).dedup.length :=
    GoMap.length_keys_le hnames
  omega

end HeightVoteSet

/-- **The memory of votes is bounded**, whatever votes are sent: a vote set has at most one entry
for each validator and for each peer that makes a claim, and a height has at most the rounds up to
the current one and two for each peer that sends votes. -/
theorem vote_memory_bounded (L : Libs) (chainID : String) (height : ℕ) (valSet : ValidatorSet) :
    (∀ (round : ℤ) (type_ : ℕ) (start voteSet : VoteSet) (calls : List VoteSet.Call),
      newVoteSet chainID height round type_ valSet = .ok start →
      calls.foldlM (VoteSet.call L) start = .ok voteSet →
      voteSet.votesByBlock.keys.length ≤
        valSet.size + (calls.filterMap VoteSet.Call.peer).dedup.length) ∧
    ∀ (start hvs : HeightVoteSet) (calls : List HeightVoteSet.Call),
      HeightVoteSet.new chainID height valSet = .ok start → (∀ c ∈ calls, c.Nonneg) →
      calls.foldlM (HeightVoteSet.call L) start = .ok hvs →
      (hvs.roundVoteSets.keys.length : ℤ) ≤
        hvs.round + 1 + 2 * (calls.filterMap HeightVoteSet.Call.peer).dedup.length :=
  ⟨fun _ _ _ _ _ hnew hrun => VoteSet.Charged.length_le hnew hrun,
    fun _ _ _ hnew hcalls hrun => HeightVoteSet.length_rounds_le hnew hcalls hrun⟩

open VoteSet HeightVoteSet in
/-- Two blocks of one validator, of which a peer claims the second; and a vote that opens a round
ahead, which the current round then passes. -/
theorem vote_memory_bounded_flood :
    (∃ start voteSet, newVoteSet "" 1 0 voteTypePrevote fourValidators = .ok start ∧
      [VoteSet.Call.addVote (prevoteOf 0 1), .setPeerMaj23 "p" (prevoteOf 0 2).blockID,
        .addVote (prevoteOf 0 2)].foldlM (VoteSet.call plainLibs) start = .ok voteSet ∧
      voteSet.votesByBlock.keys.length ≤ 4 + 1) ∧
    ∃ start hvs, HeightVoteSet.new "" 1 fourValidators = .ok start ∧
      [HeightVoteSet.Call.addVote { prevoteOf 0 1 with round := 5 } "p", .setRound 7,
        .resetTop2Round 2].foldlM (HeightVoteSet.call plainLibs) start = .ok hvs ∧
      (hvs.roundVoteSets.keys.length : ℤ) ≤ hvs.round + 1 + 2 * 1 := by
  obtain ⟨start, hnew, voteSet, hrun⟩ :
      ∃ start, newVoteSet "" 1 0 voteTypePrevote fourValidators = .ok start ∧
        ∃ voteSet, [VoteSet.Call.addVote (prevoteOf 0 1), .setPeerMaj23 "p" (prevoteOf 0 2).blockID,
          .addVote (prevoteOf 0 2)].foldlM (VoteSet.call plainLibs) start = .ok voteSet := by
    decide +kernel
  obtain ⟨start', hnew', hvs, hrun'⟩ :
      ∃ start, HeightVoteSet.new "" 1 fourValidators = .ok start ∧
        ∃ hvs, [HeightVoteSet.Call.addVote { prevoteOf 0 1 with round := 5 } "p", .setRound 7,
          .resetTop2Round 2].foldlM (HeightVoteSet.call plainLibs) start = .ok hvs := by
    decide +kernel
  refine ⟨⟨start, voteSet, hnew, hrun, ?_⟩, start', hvs, hnew', hrun', ?_⟩
  · exact (vote_memory_bounded plainLibs "" 1 fourValidators).1 _ _ _ _ _ hnew hrun
  · exact (vote_memory_bounded plainLibs "" 1 fourValidators).2 _ _ _ hnew'
      (by simp [HeightVoteSet.Call.Nonneg]) hrun'

open HeightVoteSet in
/-- **A negative round**: `SetRound` takes it in round `0` and keeps the vote sets of that round. -/
theorem setRound_negative :
    ∃ start hvs, HeightVoteSet.new "" 1 VoteSet.fourValidators = .ok start ∧
      [Call.setRound (-1)].foldlM (HeightVoteSet.call plainLibs) start = .ok hvs ∧
      ¬ (hvs.roundVoteSets.keys.length : ℤ) ≤
        hvs.round + 1 + 2 * ([Call.setRound (-1)].filterMap Call.peer).dedup.length := by
  obtain ⟨start, hnew, hvs, hleft⟩ :
      ∃ start, HeightVoteSet.new "" 1 VoteSet.fourValidators = .ok start ∧
        ∃ hvs, [Call.setRound (-1)].foldlM (HeightVoteSet.call plainLibs) start = .ok hvs ∧
          ¬ (hvs.roundVoteSets.keys.length : ℤ) ≤
            hvs.round + 1 + 2 * ([Call.setRound (-1)].filterMap Call.peer).dedup.length := by
    decide +kernel
  exact ⟨start, hvs, hnew, hleft⟩

end Consensus

end LigoChain
