/-
# The votes for the next epoch

A candidate that registers, or is delegated to, gets a vote in the next epoch: `UpdateNextEpoch`
(`ligochain/cross_chain.go`) puts it into the vote set of the next epoch and saves the set.
`ShouldEnterNewEpoch` (`epoch/epoch.go`) applies the set that is in memory at the end of the epoch.

The set that is saved has one vote for each address that was updated, with the amount of its last
update and the key of its **first** (`getVoteByAddress_recorded`).  A set that was not there before
is saved but not kept in memory; it gets there with the next update, with the callback of the block
before the last, or when the node starts again.  So **the votes that are applied are those of the
last updates exactly if the set is in memory, or there was no update, and no address was updated
with another key than its first** (`votes_follow_updates`).
-/

import LigoChain.Staking.Clock
import LigoChain.Staking.NextEpoch
import LigoChain.Staking.VoteStore

namespace LigoChain
namespace Staking

open State

/-! ## The votes after a list of updates -/

namespace EpochValidatorVoteSet

/-- `GetVoteByAddress`. -/
def getVoteByAddress (voteSet : EpochValidatorVoteSet) (address : Address) :
    Option EpochValidatorVote :=
  voteSet.votes.find? fun v => v.address == address

/-- The set after these updates. -/
def recorded (updates : List UpdateNextEpochOp) : EpochValidatorVoteSet := updates.foldl record new

end EpochValidatorVoteSet

/-- The first update of an address. -/
def firstUpdate (updates : List UpdateNextEpochOp) (address : Address) : Option UpdateNextEpochOp :=
  updates.find? fun op => op.from_ == address

/-- The last update of an address. -/
def lastUpdate (updates : List UpdateNextEpochOp) (address : Address) : Option UpdateNextEpochOp :=
  updates.reverse.find? fun op => op.from_ == address

theorem firstUpdate_isSome (updates : List UpdateNextEpochOp) (address : Address) :
    (firstUpdate updates address).isSome = (lastUpdate updates address).isSome := by
  unfold firstUpdate lastUpdate
  rw [Bool.eq_iff_iff, List.find?_isSome, List.find?_isSome]
  simp only [List.mem_reverse]

namespace EpochValidatorVoteSet

theorem address_of_find {votes : List EpochValidatorVote} {address : Address}
    {v : EpochValidatorVote} (h : votes.find? (fun v => v.address == address) = some v) :
    v.address = address :=
  beq_iff_eq.1 (List.find?_some (p := fun v : EpochValidatorVote => v.address == address) h)

theorem getVoteByAddress_record (voteSet : EpochValidatorVoteSet) (op : UpdateNextEpochOp)
    (address : Address) :
    (voteSet.record op).getVoteByAddress address =
      if op.from_ = address then
        some ((voteSet.getVoteByAddress address).elim
          ⟨op.from_, some op.pubKey, some op.amount, "ligochain", op.txHash⟩
          fun v => { v with amount := some op.amount, txHash := op.txHash })
      else voteSet.getVoteByAddress address := by
  obtain ⟨votes, -⟩ := voteSet
  unfold getVoteByAddress record recordVotes
  simp only
  split_ifs with hany haddr haddr
  · -- the vote of the address is written to
    subst haddr
    rw [List.find?_map]
    obtain ⟨v, hv⟩ : ∃ v, votes.find? (fun v => v.address == op.from_) = some v := by
      rw [← Option.isSome_iff_exists, List.find?_isSome]
      exact List.any_eq_true.1 hany
    have hfind : votes.find? ((fun v => v.address == op.from_) ∘ fun v =>
        if v.address = op.from_ then { v with amount := some op.amount, txHash := op.txHash }
        else v) = some v := by
      rw [← hv]
      congr 1
      funext w
      simp only [Function.comp]
      split_ifs with hw
      · rfl
      · rfl
    rw [hfind, hv, Option.map_some, Option.elim_some, if_pos (address_of_find hv)]
  · -- another vote is written to
    rw [List.find?_map]
    have hsame : ((fun v : EpochValidatorVote => v.address == address) ∘ fun v =>
        if v.address = op.from_ then { v with amount := some op.amount, txHash := op.txHash }
        else v) = fun v => v.address == address := by
      funext w
      simp only [Function.comp]
      split_ifs <;> rfl
    rw [hsame]
    cases hv : votes.find? (fun v => v.address == address) with
    | none => rfl
    | some v =>
      have hne : v.address ≠ op.from_ := fun heq =>
        haddr (heq.symm.trans (address_of_find hv))
      rw [Option.map_some, if_neg hne]
  · -- a vote is added
    subst haddr
    have hnone : votes.find? (fun v => v.address == op.from_) = none := by
      rw [List.find?_eq_none]
      exact fun v hv hbeq => hany (List.any_eq_true.2 ⟨v, hv, hbeq⟩)
    rw [List.find?_append, hnone]
    simp
  · rw [List.find?_append]
    simp [haddr]

theorem recorded_append (updates : List UpdateNextEpochOp) (op : UpdateNextEpochOp) :
    recorded (updates ++ [op]) = (recorded updates).record op := by
  unfold recorded
  rw [List.foldl_append]
  rfl

/-- **The vote of an address has the key of its first update, and the amount of its last.** -/
theorem getVoteByAddress_recorded (updates : List UpdateNextEpochOp) (address : Address) :
    (recorded updates).getVoteByAddress address =
      (firstUpdate updates address).bind fun first =>
        (lastUpdate updates address).map fun last =>
          ⟨address, some first.pubKey, some last.amount, "ligochain", last.txHash⟩ := by
  induction updates using List.reverseRecOn with
  | nil => rfl
  | append_singleton updates op ih =>
    have hfirst : firstUpdate (updates ++ [op]) address =
        (firstUpdate updates address).or (if op.from_ = address then some op else none) := by
      unfold firstUpdate
      rw [List.find?_append, List.find?_singleton]
      simp only [beq_iff_eq]
    have hlast : lastUpdate (updates ++ [op]) address =
        if op.from_ = address then some op else lastUpdate updates address := by
      unfold lastUpdate
      rw [List.reverse_append, List.reverse_singleton, List.singleton_append, List.find?_cons]
      by_cases haddr : op.from_ = address
      · rw [if_pos haddr, beq_iff_eq.2 haddr]
      · rw [if_neg haddr, beq_eq_false_iff_ne.2 haddr]
    rw [recorded_append, getVoteByAddress_record, ih, hfirst, hlast]
    have hsome := firstUpdate_isSome updates address
    split_ifs with haddr
    · subst haddr
      cases hf : firstUpdate updates op.from_ with
      | none => rfl
      | some first =>
        rw [hf] at hsome
        obtain ⟨last, hl⟩ := Option.isSome_iff_exists.1 hsome.symm
        rw [hl]
        rfl
    · rw [Option.or_none]

end EpochValidatorVoteSet

/-! ## Runs -/

/-- What happens to the votes within an epoch. -/
inductive VoteStep
  | update (op : UpdateNextEpochOp)
  | callbacks (updateFirst : Bool) (b : Block)
  | save
  | reload

/-- The epoch of a node; the vote set of its next epoch as it lies in memory; and the updates that
were made. -/
structure VoteRun where
  epoch : Epoch
  store : Option VoteStore
  updates : List UpdateNextEpochOp

namespace VoteRun

variable (x : VoteRun)

/-- The set in the database, loaded. -/
def inDB : Option VoteStore :=
  (x.epoch.db.loadEpochVoteSet (x.epoch.number + 1)).map fun voteSet => .load voteSet.votes

/-- The set that `GetNextEpoch().GetEpochValidatorVoteSet()` returns: the one in memory if there is
one, else that of the database. -/
def getEpochValidatorVoteSet : Option VoteStore :=
  (if x.epoch.nextEpoch.isSome then x.store else none).or x.inDB

/-- A step of a run.  The callbacks and `Save` read the set, keep it or drop it. -/
def step (L : EpochLibs) (x : VoteRun) : VoteStep → Go VoteRun
  | .update op => do
    let ep ← x.epoch.updateNextEpoch op
    let s ← (x.getEpochValidatorVoteSet.getD .new).updateVote op
    .ok ⟨ep, x.getEpochValidatorVoteSet.map fun _ => s, x.updates ++ [op]⟩
  | .callbacks updateFirst b => do
    let ep ← x.epoch.insertCallbacks L updateFirst b
    .ok ⟨ep, (ep.nextEpoch.bind NextEpoch.validatorVoteSet).bind fun _ =>
      x.getEpochValidatorVoteSet, x.updates⟩
  | .save => .ok { x with epoch := x.epoch.save }
  | .reload =>
    match Epoch.loadEpoch x.epoch.rs x.epoch.db x.epoch.number with
    | none => .error .nilDeref
    | some ep => .ok ⟨ep, ep.nextEpoch.bind fun _ => x.inDB, x.updates⟩

end VoteRun

namespace Epoch

/-- **The invariant of the votes**: the database has the set of all updates, and what is in memory
is what the database has. -/
structure Keeps (ep : Epoch) (updates : List UpdateNextEpochOp) : Prop where
  numbered : ep.Numbered
  stored : ep.db.loadEpochVoteSet (ep.number + 1) =
    if updates = [] then none else some (.recorded updates)
  memory : ∀ next voteSet, ep.nextEpoch = some next → next.validatorVoteSet = some voteSet →
    ep.db.loadEpochVoteSet (ep.number + 1) = some voteSet
  later : ∀ n, ep.number + 1 < n → ep.db.loadEpochVoteSet n = none

variable {L : EpochLibs} {ep ep' : Epoch} {updates : List UpdateNextEpochOp} {b : Block}
  {next : NextEpoch}

theorem Keeps.setNextEpoch (h : ep.Keeps updates) (hnumber : next.number = ep.number + 1)
    (hmemory : ∀ voteSet, next.validatorVoteSet = some voteSet →
      ep.db.loadEpochVoteSet (ep.number + 1) = some voteSet) :
    (ep.setNextEpoch (some next)).Keeps updates where
  numbered := ⟨fun _ hn => (Option.some.inj hn) ▸ hnumber, h.numbered.stored,
    h.numbered.previousEpoch⟩
  stored := h.stored
  memory := fun _ voteSet hn hset => hmemory voteSet (Option.some.inj hn ▸ hset)
  later := h.later

/-- The next epoch after `GetNextEpoch`: its votes are those of the database, if they are in memory
at all. -/
theorem Keeps.getNextEpoch (h : ep.Keeps updates) (hnext : ep.getNextEpoch.nextEpoch = some next) :
    next.number = ep.number + 1 ∧ ∀ voteSet, next.validatorVoteSet = some voteSet →
      ep.db.loadEpochVoteSet (ep.number + 1) = some voteSet := by
  refine ⟨h.numbered.getNextEpoch hnext, fun voteSet hset => ?_⟩
  rcases Option.or_eq_some_iff.1 hnext with hmem | ⟨-, hstored⟩
  · exact h.memory next voteSet hmem hset
  · obtain ⟨d, -, rfl⟩ := Option.map_eq_some_iff.1 hstored
    exact hset

theorem Keeps.loadEpochVoteSet_save (h : ep.Keeps updates) (n : ℕ) :
    ep.save.db.loadEpochVoteSet n = ep.db.loadEpochVoteSet n := by
  show ep.savedVoteSets[n]? = ep.db.voteSets[n]?
  unfold savedVoteSets
  cases hnext : ep.nextEpoch with
  | none => rfl
  | some next =>
    cases hset : next.validatorVoteSet with
    | none => simp only [hset, Option.elim_none]
    | some voteSet =>
      simp only [hset, Option.elim_some]
      rw [FinMap.getElem?_insert_ite]
      split_ifs with hn
      · have hstored := h.memory next voteSet hnext hset
        rw [← h.numbered.nextEpoch next hnext, ← hn] at hstored
        exact hstored.symm
      · rfl

theorem Keeps.save (h : ep.Keeps updates) : ep.save.Keeps updates where
  numbered := h.numbered.saved
  stored := (h.loadEpochVoteSet_save _).trans h.stored
  memory := fun next voteSet hnext hset => by
    obtain ⟨next', hnext', rfl⟩ := Option.map_eq_some_iff.1 hnext
    refine (h.loadEpochVoteSet_save _).trans (h.memory next' voteSet hnext' ?_)
    unfold NextEpoch.markSaved at hset
    split_ifs at hset <;> exact hset
  later := fun n hn => (h.loadEpochVoteSet_save n).trans (h.later n hn)

theorem Keeps.announce (h : ep.Keeps updates) (startTime : ℤ) :
    (ep.announce startTime).Keeps updates := by
  have hset : Keeps { ep with startTime := startTime } updates :=
    ⟨⟨h.numbered.nextEpoch, h.numbered.stored, h.numbered.previousEpoch⟩, h.stored, h.memory, h.later⟩
  have hvotes : ∀ n, (ep.announce startTime).db.loadEpochVoteSet n =
      (Epoch.save { ep with startTime := startTime }).db.loadEpochVoteSet n := by
    intro n
    unfold Epoch.announce Epoch.endPrevious EpochDB.updateEpochEndTime
    simp only
    split_ifs
    · split <;> rfl
    · rfl
  exact ⟨hset.save.numbered.endPrevious startTime, (hvotes _).trans hset.save.stored,
    fun next voteSet hnext hvs => (hvotes _).trans (hset.save.memory next voteSet hnext hvs),
    fun n hn => (hvotes n).trans (hset.save.later n hn)⟩

theorem Keeps.updateLocalEpoch (h : ep.Keeps updates) (hrun : ep.updateLocalEpoch L b = .ok ep') :
    ep'.Keeps updates := by
  cases he : L.fromBytes b.epochBytes with
  | none =>
    unfold Epoch.updateLocalEpoch at hrun
    rw [he] at hrun
    cases hrun
    exact h
  | some e =>
    by_cases hown : 0 < b.number ∧ e.number = ep.number
    · obtain rfl := h.numbered.updateLocalEpoch_own hown.1 he hown.2 hrun
      exact h.announce e.startTime
    · unfold Epoch.updateLocalEpoch at hrun
      simp only [he] at hrun
      split_ifs at hrun with hzero hnext hat hend heq
      · cases hrun
        exact h
      · -- the next epoch is recorded, without votes
        cases hrun
        exact Keeps.save (h.setNextEpoch hnext fun _ hset => nomatch hset)
      · split at hrun
        · cases hrun
        next next hknown =>
        cases hrun
        obtain ⟨hnumber, hmemory⟩ := h.getNextEpoch hknown
        refine Keeps.save (h.setNextEpoch ?_ ?_)
        · exact hnumber
        · exact hmemory
      · cases hrun
        exact h.save
      · exact absurd ⟨Nat.pos_of_ne_zero hzero, heq⟩ hown
      · exact absurd ⟨Nat.pos_of_ne_zero hzero, heq⟩ hown
      · cases hrun
        exact h

theorem Keeps.autoStartMining (h : ep.Keeps updates) (hrun : ep.autoStartMining L b = .ok ep') :
    ep'.Keeps updates := by
  unfold Epoch.autoStartMining at hrun
  split_ifs at hrun
  · split at hrun
    · cases hrun
    next next hknown =>
    cases hrun
    obtain ⟨hnumber, hmemory⟩ := h.getNextEpoch hknown
    refine h.setNextEpoch hnumber fun voteSet hset => ?_
    rcases Option.or_eq_some_iff.1 hset with hset | ⟨-, hset⟩
    · exact hmemory voteSet hset
    · rw [← hnumber]
      exact hset
  · cases hrun
    exact h

theorem Keeps.insertCallbacks (h : ep.Keeps updates) {updateFirst : Bool}
    (hrun : ep.insertCallbacks L updateFirst b = .ok ep') : ep'.Keeps updates := by
  unfold Epoch.insertCallbacks at hrun
  split_ifs at hrun
  · obtain ⟨ep₁, h₁, h₂⟩ := Steps.bind_eq_ok.1 hrun
    exact (h.updateLocalEpoch h₁).autoStartMining h₂
  · obtain ⟨ep₁, h₁, h₂⟩ := Steps.bind_eq_ok.1 hrun
    exact (h.autoStartMining h₁).updateLocalEpoch h₂

theorem Keeps.loaded (h : ep.Keeps updates) (hnext : ep.getNextEpoch.nextEpoch = some next) :
    next.validatorVoteSet.or (ep.db.loadEpochVoteSet next.number) =
      if updates = [] then none else some (.recorded updates) := by
  obtain ⟨hnumber, hmemory⟩ := h.getNextEpoch hnext
  rw [hnumber, ← h.stored]
  cases hset : next.validatorVoteSet with
  | none => rfl
  | some voteSet => exact (hmemory voteSet hset).symm

theorem Keeps.updateNextEpoch (h : ep.Keeps updates) {op : UpdateNextEpochOp}
    (hrun : ep.updateNextEpoch op = .ok ep') :
    ep'.Keeps (updates ++ [op]) ∧
      ∃ next, ep'.nextEpoch = some next ∧
        next.validatorVoteSet = if updates = [] then none else some (.recorded (updates ++ [op])) := by
  unfold Epoch.updateNextEpoch at hrun
  split at hrun
  · cases hrun
  next next hknown =>
  obtain ⟨hnumber, hmemory⟩ := h.getNextEpoch hknown
  have hloaded := h.loaded hknown
  have hrecord : ((next.validatorVoteSet.or (ep.db.loadEpochVoteSet next.number)).getD .new).record
      op = .recorded (updates ++ [op]) := by
    rw [hloaded, EpochValidatorVoteSet.recorded_append]
    split_ifs with hnone
    · rw [hnone]
      rfl
    · rfl
  simp only [hrecord] at hrun
  cases hrun
  have hsaved : ∀ n, (ep.db.saveEpochVoteSet next.number (.recorded (updates ++ [op]))).loadEpochVoteSet
      n = if n = next.number then some (.recorded (updates ++ [op]))
        else ep.db.loadEpochVoteSet n := fun n => FinMap.getElem?_insert_ite _ _ _ _
  refine ⟨⟨⟨fun _ hn => (Option.some.inj hn) ▸ hnumber, h.numbered.stored,
    h.numbered.previousEpoch⟩, ?_, fun _ voteSet hn hset => ?_, fun n hn => ?_⟩, _, rfl, ?_⟩
  · rw [if_neg (List.append_ne_nil_of_right_ne_nil _ (List.cons_ne_nil _ _))]
    exact (hsaved _).trans (if_pos hnumber.symm)
  · cases hn
    obtain ⟨-, -, rfl⟩ := Option.map_eq_some_iff.1 hset
    exact (hsaved _).trans (if_pos hnumber.symm)
  · have hn : ep.number + 1 < n := hn
    exact (hsaved n).trans ((if_neg (by omega)).trans (h.later n hn))
  · simp only
    rw [hloaded]
    split_ifs <;> rfl

theorem Keeps.loadEpoch (h : ep.Keeps updates) {rs : RewardScheme}
    (hrun : loadEpoch rs ep.db ep.number = some ep') :
    ep'.Keeps updates ∧
      ∀ next, ep'.nextEpoch = some next →
        next.validatorVoteSet = ep.db.loadEpochVoteSet (ep.number + 1) := by
  obtain ⟨data, hdata, rfl⟩ := Option.map_eq_some_iff.1 hrun
  have hnumber : data.number = ep.number := h.numbered.stored _ data hdata
  have hnext : ∀ next, ((ep.db.loadOneEpoch (ep.number + 1)).map fun next => (⟨next,
      ep.db.loadEpochVoteSet (ep.number + 1)⟩ : NextEpoch)) = some next →
      next.number = ep.number + 1 ∧
        next.validatorVoteSet = ep.db.loadEpochVoteSet (ep.number + 1) := by
    intro next hn
    obtain ⟨d, hd, rfl⟩ := Option.map_eq_some_iff.1 hn
    exact ⟨h.numbered.stored _ d hd, rfl⟩
  refine ⟨⟨⟨fun next hn => ?_, h.numbered.stored, fun hzero => ?_⟩, ?_, fun next voteSet hn hset => ?_,
    fun n hn => ?_⟩, fun next hn => (hnext next hn).2⟩
  · show next.number = data.number + 1
    rw [hnumber]
    exact (hnext next hn).1
  · have hzero : data.number = 0 := hzero
    exact if_neg (by omega)
  · show ep.db.loadEpochVoteSet (data.number + 1) = _
    rw [hnumber]
    exact h.stored
  · show ep.db.loadEpochVoteSet (data.number + 1) = _
    rw [hnumber, ← (hnext next hn).2]
    exact hset
  · have hn : data.number + 1 < n := hn
    exact h.later n (by omega)

end Epoch

namespace VoteRun

variable {L : EpochLibs} {x y : VoteRun}

/-- The votes for the next epoch that are in memory. -/
def memory (ep : Epoch) : Option EpochValidatorVoteSet := ep.nextEpoch.bind NextEpoch.validatorVoteSet

/-- The invariant of a run: the set in memory is coherent and has the votes that the epoch has. -/
structure Good (x : VoteRun) : Prop where
  keeps : x.epoch.Keeps x.updates
  store : x.store.map VoteStore.contents = (memory x.epoch).map EpochValidatorVoteSet.votes
  coherent : ∀ s, x.store = some s → s.Coherent

theorem inDB_contents (x : VoteRun) : x.inDB.map VoteStore.contents =
    (x.epoch.db.loadEpochVoteSet (x.epoch.number + 1)).map EpochValidatorVoteSet.votes := by
  unfold inDB
  rw [Option.map_map]
  exact Option.map_congr fun voteSet _ => VoteStore.contents_load voteSet.votes

theorem inDB_coherent {s : VoteStore} (h : x.inDB = some s) : s.Coherent := by
  obtain ⟨voteSet, -, rfl⟩ := Option.map_eq_some_iff.1 h
  exact VoteStore.coherent_load voteSet

theorem Good.inDB (h : x.Good) :
    x.updates = [] ∧ x.inDB = none ∨ x.updates ≠ [] ∧ ∃ s, x.inDB = some s ∧ s.Coherent ∧
      s.contents = (EpochValidatorVoteSet.recorded x.updates).votes := by
  have hstored := h.keeps.stored
  unfold VoteRun.inDB
  rw [hstored]
  split_ifs with hnone
  · exact .inl ⟨hnone, rfl⟩
  · exact .inr ⟨hnone, _, rfl, VoteStore.coherent_load _, VoteStore.contents_load _⟩

theorem Good.getEpochValidatorVoteSet (h : x.Good) :
    x.updates = [] ∧ x.getEpochValidatorVoteSet = none ∨
      x.updates ≠ [] ∧ ∃ s, x.getEpochValidatorVoteSet = some s ∧ s.Coherent ∧
        s.contents = (EpochValidatorVoteSet.recorded x.updates).votes := by
  unfold VoteRun.getEpochValidatorVoteSet
  cases hnext : x.epoch.nextEpoch with
  | none => exact h.inDB
  | some next =>
    cases hs : x.store with
    | none => exact h.inDB
    | some s =>
      have hcontents := h.store
      unfold memory at hcontents
      rw [hs, hnext] at hcontents
      obtain ⟨voteSet, hset, hvotes⟩ := Option.map_eq_some_iff.1 hcontents.symm
      have hdb := h.keeps.stored.symm.trans (h.keeps.memory next voteSet hnext hset)
      split_ifs at hdb with hnone
      refine .inr ⟨hnone, s, rfl, h.coherent s hs, ?_⟩
      rw [Option.some.inj hdb]
      exact hvotes.symm

theorem Good.base (h : x.Good) :
    (x.getEpochValidatorVoteSet.getD .new).Coherent ∧
      (x.getEpochValidatorVoteSet.getD .new).contents =
        (EpochValidatorVoteSet.recorded x.updates).votes := by
  rcases h.getEpochValidatorVoteSet with ⟨hnone, hget⟩ | ⟨-, s, hget, hcoherent, hcontents⟩
  · rw [hget, hnone]
    exact ⟨VoteStore.coherent_new, rfl⟩
  · rw [hget]
    exact ⟨hcoherent, hcontents⟩

theorem Good.update (h : x.Good) {op : UpdateNextEpochOp} (hrun : x.step L (.update op) = .ok y) :
    y.Good := by
  obtain ⟨ep, hep, hrun⟩ := Steps.bind_eq_ok.1 hrun
  obtain ⟨s, hs, hlast⟩ := Steps.bind_eq_ok.1 hrun
  cases hlast
  obtain ⟨hkeeps, next, hnext, hset⟩ := h.keeps.updateNextEpoch hep
  obtain ⟨hbase, hvotes⟩ := h.base
  obtain ⟨s', hs', hcoherent, hcontents⟩ := hbase.updateVote op
  obtain rfl := Except.ok.inj (hs'.symm.trans hs)
  refine ⟨hkeeps, ?_, fun s'' hs'' => ?_⟩
  · have hmemory : memory ep = if x.updates = [] then none
        else some (.recorded (x.updates ++ [op])) := by
      rw [← hset]
      unfold memory
      rw [hnext]
      rfl
    show (x.getEpochValidatorVoteSet.map fun _ => s').map VoteStore.contents = _
    rw [hmemory]
    rcases h.getEpochValidatorVoteSet with ⟨hnone, hget⟩ | ⟨hnone, s, hget, -⟩
    · rw [hget, if_pos hnone]
      rfl
    · rw [hget, if_neg hnone, Option.map_some, Option.map_some, hcontents, hvotes,
        EpochValidatorVoteSet.recorded_append]
      rfl
  · obtain ⟨-, -, rfl⟩ := Option.map_eq_some_iff.1 hs''
    exact hcoherent

theorem Good.callbacks (h : x.Good) {updateFirst : Bool} {b : Block}
    (hrun : x.step L (.callbacks updateFirst b) = .ok y) : y.Good := by
  obtain ⟨ep, hep, hlast⟩ := Steps.bind_eq_ok.1 hrun
  cases hlast
  have hkeeps := h.keeps.insertCallbacks hep
  refine ⟨hkeeps, ?_, fun s hs => ?_⟩
  · show ((memory ep).bind fun _ => x.getEpochValidatorVoteSet).map _ = (memory ep).map _
    cases hmem : memory ep with
    | none => rfl
    | some voteSet =>
      -- there is a set in memory, so there was an update
      obtain ⟨next, hnext, hset⟩ := Option.bind_eq_some_iff.1 hmem
      have hstored := hkeeps.stored.symm.trans (hkeeps.memory next voteSet hnext hset)
      rcases h.getEpochValidatorVoteSet with ⟨hnone, -⟩ | ⟨hnone, s, hget, -, hcontents⟩
      · rw [if_pos hnone] at hstored
        cases hstored
      · rw [if_neg hnone] at hstored
        rw [Option.bind_some, hget, Option.map_some, Option.map_some, hcontents,
          Option.some.inj hstored]
  · obtain ⟨-, -, hs⟩ := Option.bind_eq_some_iff.1 hs
    rcases h.getEpochValidatorVoteSet with ⟨-, hget⟩ | ⟨-, s', hget, hcoherent, -⟩
    · cases hget.symm.trans hs
    · exact Option.some.inj (hget.symm.trans hs) ▸ hcoherent

/-- **A step keeps the invariant.** -/
theorem Good.step (h : x.Good) {a : VoteStep} (hrun : x.step L a = .ok y) : y.Good := by
  cases a with
  | update op => exact h.update hrun
  | callbacks updateFirst b => exact h.callbacks hrun
  | save =>
    cases hrun
    refine ⟨h.keeps.save, h.store.trans ?_, h.coherent⟩
    unfold memory Epoch.save
    simp only
    cases x.epoch.nextEpoch with
    | none => rfl
    | some next =>
      simp only [Option.map_some, Option.bind_some, NextEpoch.markSaved]
      split_ifs <;> rfl
  | reload =>
    simp only [VoteRun.step] at hrun
    split at hrun
    · cases hrun
    next ep hload =>
    cases hrun
    obtain ⟨hkeeps, hnext⟩ := h.keeps.loadEpoch hload
    refine ⟨hkeeps, ?_, fun s hs => ?_⟩
    · show (ep.nextEpoch.bind fun _ => x.inDB).map _ = (memory ep).map _
      unfold memory
      cases hn : ep.nextEpoch with
      | none => rfl
      | some next =>
        rw [Option.bind_some, Option.bind_some, inDB_contents, hnext next hn]
    · obtain ⟨-, -, hs⟩ := Option.bind_eq_some_iff.1 hs
      exact inDB_coherent hs

/-! ## Epochs of a node -/

/-- A node enters an epoch, in which there is no vote for the next one. -/
def start (ep : Epoch) : VoteRun := ⟨ep, none, []⟩

/-- The epochs that a node enters: the first one, and after a run within an epoch the next one. -/
inductive Entered (L : EpochLibs) (rs : RewardScheme) (doc : OneEpochDoc) : Epoch → Prop
  | init (now : ℤ) : Entered L rs doc (.initEpoch rs doc now)
  | enter {ep ep' : Epoch} {steps : List VoteStep} {x : VoteRun} {now : ℤ}
      {newValidators : ValidatorSet} (h : Entered L rs doc ep)
      (hrun : steps.foldlM (step L) (start ep) = .ok x)
      (henter : x.epoch.enterNewEpoch now newValidators = some ep') : Entered L rs doc ep'

theorem keeps_initEpoch (rs : RewardScheme) (doc : OneEpochDoc) (now : ℤ) :
    (Epoch.initEpoch rs doc now).Keeps [] := by
  refine Epoch.Keeps.save ⟨⟨fun _ hn => (nomatch hn), fun n d hd => ?_, fun _ => rfl⟩, rfl,
    fun _ _ hn => (nomatch hn), fun _ _ => rfl⟩
  have hd : (∅ : FinMap ℕ EpochData)[n]? = some d := hd
  simp at hd

theorem keeps_enter {ep ep' : Epoch} {updates : List UpdateNextEpochOp} {now : ℤ}
    {newValidators : ValidatorSet} (h : ep.Keeps updates)
    (henter : ep.enterNewEpoch now newValidators = some ep') : ep'.Keeps [] := by
  obtain ⟨next, hnext, rfl⟩ := Option.map_eq_some_iff.1 henter
  have hnumber : next.markSaved.number = ep.number + 1 :=
    next.sameTerms_markSaved.number.trans (h.numbered.nextEpoch next hnext)
  have hended : Epoch.Keeps { ep with endTime := now } updates :=
    ⟨⟨h.numbered.nextEpoch, h.numbered.stored, h.numbered.previousEpoch⟩, h.stored, h.memory, h.later⟩
  refine Epoch.Keeps.save ⟨⟨fun _ hn => (nomatch hn), hended.save.numbered.stored, fun hzero => ?_⟩,
    hended.save.later _ ?_, fun _ _ hn => (nomatch hn), fun n hn => hended.save.later n ?_⟩
  · have hzero : next.markSaved.number = 0 := hzero
    omega
  · show ep.number + 1 < next.markSaved.number + 1
    omega
  · have hn : next.markSaved.number + 1 < n := hn
    show ep.number + 1 < n
    omega

theorem nextEpoch_enter {ep ep' : Epoch} {now : ℤ} {newValidators : ValidatorSet}
    (henter : ep.enterNewEpoch now newValidators = some ep') : ep'.nextEpoch = none := by
  obtain ⟨next, -, rfl⟩ := Option.map_eq_some_iff.1 henter
  rfl

theorem good_run {ep : Epoch} (h : (start ep).Good) {steps : List VoteStep}
    (hrun : steps.foldlM (step L) (start ep) = .ok x) : x.Good :=
  Steps.foldlM_invariant (fun _ _ _ hgood hstep => hgood.step hstep) h hrun

theorem Entered.good {rs : RewardScheme} {doc : OneEpochDoc} {ep : Epoch} (h : Entered L rs doc ep) :
    (start ep).Good := by
  induction h with
  | init now => exact ⟨keeps_initEpoch rs doc now, rfl, fun _ hs => (nomatch hs)⟩
  | enter _ hrun henter ih =>
    refine ⟨keeps_enter (good_run ih hrun).keeps henter, ?_, fun _ hs => (nomatch hs)⟩
    unfold memory
    rw [show (start _).epoch.nextEpoch = none from nextEpoch_enter henter]
    rfl

/-! ## The votes that are applied -/

/-- The votes that `ShouldEnterNewEpoch` applies, if there is a next epoch. -/
def appliedVotes (ep : Epoch) : Option EpochValidatorVoteSet :=
  ep.getNextEpoch.nextEpoch.map fun next => next.validatorVoteSet.getD .new

/-- The set has exactly one vote for each address that was updated, with the key and the amount of
its last update; that no address has two is part of every set. -/
def Follows (updates : List UpdateNextEpochOp) (voteSet : EpochValidatorVoteSet) : Prop :=
  ∀ address, (voteSet.getVoteByAddress address).map (fun v => (v.pubKey, v.amount)) =
    (lastUpdate updates address).map fun op => (some op.pubKey, some op.amount)

/-- No address was updated with another key than its first. -/
def SameKeys (updates : List UpdateNextEpochOp) : Prop :=
  ∀ address, (firstUpdate updates address).map UpdateNextEpochOp.pubKey =
    (lastUpdate updates address).map UpdateNextEpochOp.pubKey

theorem follows_recorded (updates : List UpdateNextEpochOp) :
    Follows updates (.recorded updates) ↔ SameKeys updates := by
  refine forall_congr' fun address => ?_
  rw [EpochValidatorVoteSet.getVoteByAddress_recorded]
  have hsome := firstUpdate_isSome updates address
  cases hf : firstUpdate updates address with
  | none =>
    rw [hf] at hsome
    rw [Option.not_isSome_iff_eq_none.1 (Bool.eq_false_iff.1 hsome.symm)]
    exact iff_of_true rfl rfl
  | some first =>
    rw [hf] at hsome
    obtain ⟨last, hl⟩ := Option.isSome_iff_exists.1 hsome.symm
    rw [hl]
    simp

theorem follows_new (updates : List UpdateNextEpochOp) :
    Follows updates .new ↔ updates = [] := by
  constructor
  · intro h
    by_contra hne
    obtain ⟨op, hop⟩ := List.exists_mem_of_ne_nil _ hne
    have hnone := h op.from_
    rw [show EpochValidatorVoteSet.new.getVoteByAddress op.from_ = none from rfl, Option.map_none,
      eq_comm, Option.map_eq_none_iff] at hnone
    unfold lastUpdate at hnone
    exact List.find?_eq_none.1 hnone op (List.mem_reverse.2 hop) (beq_self_eq_true _)
  · rintro rfl address
    rfl

/-- **The votes for the next epoch.**  In every run within an epoch, the list and the index of the
set in memory agree and `StoreVote` does not cut out of range; and the votes that are applied at the
end of the epoch are those of the last updates exactly if they are in memory, or there was no update,
and no address was updated with another key than its first. -/
theorem votes_follow_updates {L : EpochLibs} {rs : RewardScheme} {doc : OneEpochDoc} {ep : Epoch}
    (hep : Entered L rs doc ep) {steps : List VoteStep} {x : VoteRun}
    (hrun : steps.foldlM (step L) (start ep) = .ok x) :
    (∀ s, x.store = some s → s.Coherent) ∧
    x.store.map VoteStore.contents = (memory x.epoch).map EpochValidatorVoteSet.votes ∧
    (∀ op, ∃ s, (x.getEpochValidatorVoteSet.getD .new).updateVote op = .ok s) ∧
    ∀ voteSet, appliedVotes x.epoch = some voteSet →
      (Follows x.updates voteSet ↔
        (x.updates ≠ [] → (memory x.epoch.getNextEpoch).isSome) ∧ SameKeys x.updates) := by
  have hgood := good_run hep.good hrun
  refine ⟨hgood.coherent, hgood.store, fun op => ?_, fun voteSet hvotes => ?_⟩
  · obtain ⟨s, hs, -⟩ := hgood.base.1.updateVote op
    exact ⟨s, hs⟩
  · obtain ⟨next, hnext, rfl⟩ := Option.map_eq_some_iff.1 hvotes
    have hmemory : memory x.epoch.getNextEpoch = next.validatorVoteSet := by
      unfold memory
      rw [hnext]
      rfl
    rw [hmemory]
    cases hset : next.validatorVoteSet with
    | none =>
      rw [Option.getD_none, follows_new]
      refine ⟨fun hnone => ⟨fun hne => absurd hnone hne, fun address => ?_⟩, fun h => ?_⟩
      · rw [hnone]
        rfl
      · by_contra hne
        exact absurd (h.1 hne) Bool.false_ne_true
    | some voteSet =>
      have hstored := hgood.keeps.stored.symm.trans ((hgood.keeps.getNextEpoch hnext).2 voteSet hset)
      split_ifs at hstored
      rw [Option.getD_some, ← Option.some.inj hstored, follows_recorded]
      exact (and_iff_right fun _ => rfl).symm

/-- An update of an address. -/
def update (address : Address) (pubKey : PubKey) (amount : ℤ) : UpdateNextEpochOp :=
  ⟨address, pubKey, amount, "ligochain", []⟩

/-- The next epoch is recorded with the second block, and an address is updated twice. -/
theorem votes_follow_updates_twice :
    ∃ x, [.callbacks true (PlainEpoch.block 2 [2]), .update (update [7] [7] 3),
        .update (update [7] [7] 4)].foldlM (step PlainEpoch.libs) (start PlainEpoch.genesis) = .ok x ∧
      ∀ voteSet, appliedVotes x.epoch = some voteSet →
        (Follows x.updates voteSet ↔
          (x.updates ≠ [] → (memory x.epoch.getNextEpoch).isSome) ∧ SameKeys x.updates) := by
  obtain ⟨x, hrun⟩ : ∃ x, [.callbacks true (PlainEpoch.block 2 [2]), .update (update [7] [7] 3),
      .update (update [7] [7] 4)].foldlM (step PlainEpoch.libs) (start PlainEpoch.genesis) = .ok x := by
    decide +kernel
  exact ⟨x, hrun, (votes_follow_updates (.init 0) hrun).2.2.2⟩

/-- **A first update in the block before the last is not applied; and an address that is updated
with another key keeps the first.** -/
theorem votes_lost_and_stale :
    Steps.holds ([.callbacks true (PlainEpoch.block 2 [2]), .callbacks true (PlainEpoch.block 4 []),
        .update (update [7] [7] 3)].foldlM (step PlainEpoch.libs) (start PlainEpoch.genesis)) (fun x =>
      (appliedVotes x.epoch).any fun voteSet => (voteSet.getVoteByAddress [7]).isNone) = true ∧
    Steps.holds ([.callbacks true (PlainEpoch.block 2 [2]), .update (update [7] [7] 3),
        .update (update [7] [8] 4), .callbacks true (PlainEpoch.block 4 [])].foldlM
        (step PlainEpoch.libs) (start PlainEpoch.genesis)) (fun x =>
      (appliedVotes x.epoch).any fun voteSet => (voteSet.getVoteByAddress [7]).any fun v =>
        v.amount == some 4 && v.pubKey == some [7]) = true := by
  decide +kernel

end VoteRun

end Staking
end LigoChain
