/-
# Does the next epoch depend on the clock?

`MakeOneEpoch` and `EnterNewEpoch` take the start and the end of an epoch from `time.Now()`,
and `estimateForNextEpoch` computes with them.  `updateLocalEpoch` replaces the start of an
epoch, and the end of the one before, when a block carries the epoch that it belongs to: the
block announces the epoch.

Two nodes that insert the same blocks, each at its own times, agree in everything but the
times of epochs that were not announced (`Agree`).  The estimate reads the start of the first
epoch, and the start and the end of the epoch before.  So two nodes propose the same next
epoch if the first epoch, the epoch before and the current one were announced:
`proposeNextEpoch_agree`.
-/

import LigoChain.Staking.PlainEpoch

namespace LigoChain

namespace Staking

open State

/-- An epoch without its times. -/
def EpochData.untimed (e : EpochData) : EpochData := { e with startTime := 0, endTime := 0 }

/-- Two databases differ in the times of epochs up to a number only, and not in the start of
those that were announced. -/
structure EpochDB.Agree (A : Finset ℕ) (number : ℕ) (db db' : EpochDB) : Prop where
  untimed : ∀ n, (db'.loadOneEpoch n).map EpochData.untimed =
    (db.loadOneEpoch n).map EpochData.untimed
  later : ∀ n, number < n → db'.loadOneEpoch n = db.loadOneEpoch n
  startTime : ∀ n ∈ A, (db'.loadOneEpoch n).map EpochData.startTime =
    (db.loadOneEpoch n).map EpochData.startTime
  voteSets : db'.voteSets = db.voteSets

namespace EpochDB.Agree

variable {A : Finset ℕ} {number : ℕ} {db db' : EpochDB}

/-- The end of an epoch that is not later than the number is set. -/
theorem updateEpochEndTime (h : db.Agree A number db') {n : ℕ} (hn : n ≤ number) (endTime : ℤ) :
    (db.updateEpochEndTime n endTime).Agree A number (db'.updateEpochEndTime n endTime) where
  untimed m := by
    rw [loadOneEpoch_updateEpochEndTime, loadOneEpoch_updateEpochEndTime]
    split_ifs
    · rw [Option.map_map, Option.map_map]
      exact h.untimed n
    · exact h.untimed m
  later m hm := by
    have hne : m ≠ n := by omega
    rw [loadOneEpoch_updateEpochEndTime, loadOneEpoch_updateEpochEndTime, if_neg hne, if_neg hne]
    exact h.later m hm
  startTime m hm := by
    rw [loadOneEpoch_updateEpochEndTime, loadOneEpoch_updateEpochEndTime]
    split_ifs with hmn
    · rw [Option.map_map, Option.map_map]
      exact h.startTime n (hmn ▸ hm)
    · exact h.startTime m hm
  voteSets := by
    have hvotes : ∀ db : EpochDB, (db.updateEpochEndTime n endTime).voteSets = db.voteSets := by
      intro db
      unfold EpochDB.updateEpochEndTime
      split <;> rfl
    rw [hvotes, hvotes, h.voteSets]

theorem insert (h : db.Agree A number db') {n : ℕ}
    (hstart : (db'.loadOneEpoch n).map EpochData.startTime =
      (db.loadOneEpoch n).map EpochData.startTime) : db.Agree (insert n A) number db' :=
  { h with
    startTime := fun m hm => by
      rcases Finset.mem_insert.1 hm with rfl | hm
      · exact hstart
      · exact h.startTime m hm }

end EpochDB.Agree

namespace Epoch

/-- An epoch has the number of its place. -/
structure Numbered (ep : Epoch) : Prop where
  nextEpoch : ∀ next, ep.nextEpoch = some next → next.number = ep.number + 1
  stored : ∀ n d, ep.db.loadOneEpoch n = some d → d.number = n
  previousEpoch : ep.number = 0 → ep.previousEpoch = none

/-- Two nodes differ in the times of epochs that were not announced only. -/
structure Agree (A : Finset ℕ) (ep ep' : Epoch) : Prop where
  untimed : ep'.toEpochData.untimed = ep.toEpochData.untimed
  startTime : ep.number ∈ A → ep'.startTime = ep.startTime
  validatorVoteSet : ep'.validatorVoteSet = ep.validatorVoteSet
  rs : ep'.rs = ep.rs
  nextEpoch : ep'.nextEpoch = ep.nextEpoch
  previousEpoch : ep'.previousEpoch.map EpochData.untimed = ep.previousEpoch.map EpochData.untimed
  previousStart : ep.number - 1 ∈ A →
    ep'.previousEpoch.map EpochData.startTime = ep.previousEpoch.map EpochData.startTime
  previousEnd : ep.number ∈ A →
    ep'.previousEpoch.map EpochData.endTime = ep.previousEpoch.map EpochData.endTime
  db : ep.db.Agree A ep.number ep'.db
  announced : ∀ n ∈ A, n ≤ ep.number
  numbered : ep.Numbered
  distinct : ep.validators.Distinct

variable {L : EpochLibs} {A : Finset ℕ} {ep ep' : Epoch} {b : Block}

namespace Agree

variable (h : Agree A ep ep')

include h

theorem number : ep'.number = ep.number := (congrArg EpochData.number h.untimed :)

theorem startBlock : ep'.startBlock = ep.startBlock := (congrArg EpochData.startBlock h.untimed :)

theorem endBlock : ep'.endBlock = ep.endBlock := (congrArg EpochData.endBlock h.untimed :)

theorem validators : ep'.validators = ep.validators := (congrArg EpochData.validators h.untimed :)

theorem numbered' : ep'.Numbered where
  nextEpoch next hnext := by
    rw [h.number]
    exact h.numbered.nextEpoch next (h.nextEpoch ▸ hnext)
  stored n d' hd' := by
    have huntimed := h.db.untimed n
    rw [hd'] at huntimed
    obtain ⟨d, hd, hsame⟩ := Option.map_eq_some_iff.1 huntimed.symm
    rw [← h.numbered.stored n d hd]
    exact (congrArg EpochData.number hsame :).symm
  previousEpoch hzero := by
    have hnone := h.previousEpoch
    rw [h.numbered.previousEpoch (h.number ▸ hzero)] at hnone
    exact Option.map_eq_none_iff.1 hnone

end Agree

variable {ep₁ ep₁' : Epoch}

/-! ## What `Save` writes -/

/-- What is stored after `Save`: the next epoch if it was not saved, the epoch itself, and
else what was stored before. -/
theorem getElem?_savedEpochs (ep : Epoch) (n : ℕ) :
    ep.savedEpochs[n]? =
      ((ep.nextEpoch.filter fun next => next.status == .votedNotSaved && n == next.number).map
        fun next => next.markSaved.toEpochData).or
      (if n = ep.number then some ep.toEpochData else ep.db.loadOneEpoch n) := by
  unfold savedEpochs EpochDB.loadOneEpoch
  cases ep.nextEpoch with
  | none => exact FinMap.getElem?_insert_ite _ _ _ _
  | some next =>
    by_cases hstatus : next.status = .votedNotSaved
    · by_cases hn : n = next.number
      · simp [hstatus, hn, Option.filter]
      · simp [hstatus, hn, FinMap.getElem?_insert_ite, Option.filter]
    · simp [hstatus, FinMap.getElem?_insert_ite, Option.filter]

theorem Numbered.saved (h : ep.Numbered) : ep.save.Numbered := by
  refine ⟨fun next hnext => ?_, fun n d hd => ?_, h.previousEpoch⟩
  · obtain ⟨next', hnext', rfl⟩ := Option.map_eq_some_iff.1 hnext
    unfold NextEpoch.markSaved
    split_ifs <;> exact h.nextEpoch next' hnext'
  · have hd : ep.savedEpochs[n]? = some d := hd
    rw [getElem?_savedEpochs, Option.or_eq_some_iff] at hd
    rcases hd with hd | ⟨-, hd⟩
    · obtain ⟨next, hnext, rfl⟩ := Option.map_eq_some_iff.1 hd
      obtain ⟨-, hcond⟩ := Option.filter_eq_some_iff.1 hnext
      simp only [Bool.and_eq_true, beq_iff_eq] at hcond
      unfold NextEpoch.markSaved
      split_ifs <;> exact hcond.2.symm
    · split_ifs at hd with hnumber
      · cases hd
        exact hnumber.symm
      · exact h.stored n d hd

theorem Agree.save (h : Agree A ep ep') : Agree A ep.save ep'.save where
  untimed := h.untimed
  startTime := h.startTime
  validatorVoteSet := h.validatorVoteSet
  rs := h.rs
  nextEpoch := congrArg (Option.map NextEpoch.markSaved) h.nextEpoch
  previousEpoch := h.previousEpoch
  previousStart := h.previousStart
  previousEnd := h.previousEnd
  db := by
    refine ⟨fun n => ?_, fun n hn => ?_, fun n hn => ?_, ?_⟩
    · show Option.map _ ep'.savedEpochs[n]? = Option.map _ ep.savedEpochs[n]?
      rw [getElem?_savedEpochs, getElem?_savedEpochs, h.nextEpoch, h.number, Option.map_or,
        Option.map_or]
      congr 1
      split_ifs
      · exact congrArg some h.untimed
      · exact h.db.untimed n
    · show ep'.savedEpochs[n]? = ep.savedEpochs[n]?
      have hne : n ≠ ep.number := (show ep.number < n from hn).ne'
      rw [getElem?_savedEpochs, getElem?_savedEpochs, h.nextEpoch, h.number, if_neg hne, if_neg hne,
        h.db.later n hn]
    · show Option.map _ ep'.savedEpochs[n]? = Option.map _ ep.savedEpochs[n]?
      rw [getElem?_savedEpochs, getElem?_savedEpochs, h.nextEpoch, h.number, Option.map_or,
        Option.map_or]
      congr 1
      split_ifs with hnumber
      · exact congrArg some (h.startTime (hnumber ▸ hn))
      · exact h.db.startTime n hn
    · show ep'.savedVoteSets = ep.savedVoteSets
      unfold savedVoteSets
      rw [h.nextEpoch, h.db.voteSets]
  announced := h.announced
  numbered := h.numbered.saved
  distinct := h.distinct

/-! ## The steps of an insertion -/

theorem Agree.setNextEpoch (h : Agree A ep ep') {next : Option NextEpoch}
    (hnext : ∀ n, next = some n → n.number = ep.number + 1) :
    Agree A (ep.setNextEpoch next) (ep'.setNextEpoch next) :=
  { h with
    nextEpoch := rfl
    numbered := ⟨hnext, h.numbered.stored, h.numbered.previousEpoch⟩ }

theorem Agree.getNextEpoch_nextEpoch (h : Agree A ep ep') :
    ep'.getNextEpoch.nextEpoch = ep.getNextEpoch.nextEpoch := by
  unfold Epoch.getNextEpoch EpochDB.loadEpochVoteSet
  simp only
  rw [h.nextEpoch, h.number, h.db.later _ (Nat.lt_succ_self _), h.db.voteSets]

theorem Numbered.getNextEpoch (h : ep.Numbered) {next : NextEpoch}
    (hnext : ep.getNextEpoch.nextEpoch = some next) : next.number = ep.number + 1 := by
  unfold Epoch.getNextEpoch at hnext
  rcases Option.or_eq_some_iff.1 hnext with hmem | ⟨-, hstored⟩
  · exact h.nextEpoch next hmem
  · obtain ⟨d, hd, rfl⟩ := Option.map_eq_some_iff.1 hstored
    exact h.stored _ d hd

theorem Agree.getNextEpoch (h : Agree A ep ep') : Agree A ep.getNextEpoch ep'.getNextEpoch := by
  have hnext := h.setNextEpoch fun _ => h.numbered.getNextEpoch
  have hep' : ep'.getNextEpoch = ep'.setNextEpoch ep.getNextEpoch.nextEpoch := by
    rw [← h.getNextEpoch_nextEpoch]
    rfl
  rw [hep']
  exact hnext

theorem Agree.saveEpochVoteSet (h : Agree A ep ep') (n : ℕ) (voteSet : EpochValidatorVoteSet) :
    Agree A { ep with db := ep.db.saveEpochVoteSet n voteSet }
      { ep' with db := ep'.db.saveEpochVoteSet n voteSet } :=
  { h with
    db := ⟨h.db.untimed, h.db.later, h.db.startTime,
      congrArg (fun voteSets => voteSets.insert n voteSet) h.db.voteSets⟩
    numbered := ⟨h.numbered.nextEpoch, h.numbered.stored, h.numbered.previousEpoch⟩ }

theorem Agree.updateNextEpoch (h : Agree A ep ep') {op : UpdateNextEpochOp}
    (hrun : ep.updateNextEpoch op = .ok ep₁) (hrun' : ep'.updateNextEpoch op = .ok ep₁') :
    Agree A ep₁ ep₁' := by
  unfold Epoch.updateNextEpoch EpochDB.loadEpochVoteSet at hrun hrun'
  rw [h.getNextEpoch_nextEpoch] at hrun'
  split at hrun
  · cases hrun
  next next hnext =>
  rw [hnext] at hrun'
  simp only [h.db.voteSets] at hrun'
  cases hrun
  cases hrun'
  have hnumber := h.numbered.getNextEpoch hnext
  refine (h.saveEpochVoteSet next.number _).setNextEpoch fun n hn => ?_
  cases hn
  exact hnumber

theorem Agree.votes (h : Agree A ep ep') {votes : List UpdateNextEpochOp}
    (hrun : votes.foldlM (fun ep op => Epoch.updateNextEpoch ep op) ep = .ok ep₁)
    (hrun' : votes.foldlM (fun ep op => Epoch.updateNextEpoch ep op) ep' = .ok ep₁') :
    Agree A ep₁ ep₁' := by
  induction votes generalizing ep ep' with
  | nil =>
    cases hrun
    cases hrun'
    exact h
  | cons op votes ih =>
    rw [List.foldlM_cons] at hrun hrun'
    obtain ⟨ep₂, hop, hrest⟩ := Steps.bind_eq_ok.1 hrun
    obtain ⟨ep₂', hop', hrest'⟩ := Steps.bind_eq_ok.1 hrun'
    exact ih (h.updateNextEpoch hop hop') hrest hrest'

theorem Agree.autoStartMining (h : Agree A ep ep') (hrun : ep.autoStartMining L b = .ok ep₁)
    (hrun' : ep'.autoStartMining L b = .ok ep₁') : Agree A ep₁ ep₁' := by
  unfold Epoch.autoStartMining EpochDB.loadEpochVoteSet at hrun hrun'
  rw [h.endBlock] at hrun'
  split_ifs at hrun hrun'
  · rw [h.getNextEpoch_nextEpoch] at hrun'
    split at hrun
    · cases hrun
    next next hnext =>
    rw [hnext] at hrun'
    simp only [h.db.voteSets, h.validators] at hrun'
    cases hrun
    cases hrun'
    have hnumber := h.numbered.getNextEpoch hnext
    refine h.setNextEpoch fun n hn => ?_
    cases hn
    exact hnumber
  · cases hrun
    cases hrun'
    exact h

/-- The block carries the epoch that it belongs to. -/
def announces (L : EpochLibs) (ep : Epoch) (b : Block) : Bool :=
  (L.fromBytes b.epochBytes).any fun e => e.number == ep.number

/-- The epochs that are announced after a block. -/
def announcedBy (L : EpochLibs) (A : Finset ℕ) (ep : Epoch) (b : Block) : Finset ℕ :=
  if announces L ep b then insert ep.number A else A

/-- The end of the epoch before is set. -/
def endPrevious (ep : Epoch) (endTime : ℤ) : Epoch :=
  { ep with
    previousEpoch := ep.previousEpoch.map fun prev => { prev with endTime := endTime }
    db := if 0 < ep.number then ep.db.updateEpochEndTime (ep.number - 1) endTime else ep.db }

theorem Numbered.endPrevious (h : ep.Numbered) (endTime : ℤ) : (ep.endPrevious endTime).Numbered := by
  refine ⟨h.nextEpoch, fun n d hd => ?_, fun hzero => ?_⟩
  · unfold Epoch.endPrevious at hd
    simp only at hd
    split_ifs at hd
    · rw [EpochDB.loadOneEpoch_updateEpochEndTime] at hd
      split_ifs at hd with hn
      · obtain ⟨d', hd', rfl⟩ := Option.map_eq_some_iff.1 hd
        rw [hn]
        exact h.stored _ d' hd'
      · exact h.stored n d hd
    · exact h.stored n d hd
  · show ep.previousEpoch.map _ = none
    rw [h.previousEpoch hzero]
    rfl

/-- Two nodes that agree on the start of the epoch set the end of the one before. -/
theorem Agree.endPrevious (h : Agree A ep ep') (hstart : ep'.startTime = ep.startTime)
    (hstored : (ep'.db.loadOneEpoch ep.number).map EpochData.startTime =
      (ep.db.loadOneEpoch ep.number).map EpochData.startTime) (endTime : ℤ) :
    Agree (insert ep.number A) (ep.endPrevious endTime) (ep'.endPrevious endTime) := by
  have hprevious : ∀ {α : Type} (f : EpochData → α) {x x' : Option EpochData},
      x'.map f = x.map f → (∀ e, f { e with endTime := endTime } = f e) →
      (x'.map fun prev => { prev with endTime := endTime }).map f =
        (x.map fun prev => { prev with endTime := endTime }).map f := by
    intro α f x x' hx hf
    rw [Option.map_map, Option.map_map]
    simpa only [Function.comp_def, hf] using hx
  refine
    { h with
      untimed := h.untimed
      startTime := fun _ => hstart
      previousEpoch := hprevious _ h.previousEpoch fun _ => rfl
      previousStart := fun hmem => ?_
      previousEnd := fun _ => ?_
      db := ?_
      announced := fun n hn => ?_
      numbered := h.numbered.endPrevious endTime }
  · rcases Nat.eq_zero_or_pos ep.number with hzero | hpos
    · show Option.map _ (ep'.previousEpoch.map _) = Option.map _ (ep.previousEpoch.map _)
      rw [h.numbered.previousEpoch hzero, h.numbered'.previousEpoch (by rw [h.number, hzero])]
    · refine hprevious _ (h.previousStart ?_) fun _ => rfl
      refine (Finset.mem_insert.1 hmem).resolve_left fun heq => ?_
      have heq : ep.number - 1 = ep.number := heq
      omega
  · have hsome := congrArg Option.isSome h.previousEpoch
    rw [Option.isSome_map, Option.isSome_map] at hsome
    show Option.map _ (ep'.previousEpoch.map _) = Option.map _ (ep.previousEpoch.map _)
    cases hprev : ep.previousEpoch <;> cases hprev' : ep'.previousEpoch <;>
      simp [hprev, hprev'] at hsome ⊢
  · have hdb := h.db.insert hstored
    show EpochDB.Agree _ ep.number (if 0 < ep.number then _ else _)
      (if 0 < ep'.number then _ else _)
    rw [h.number]
    split_ifs
    · exact hdb.updateEpochEndTime (Nat.sub_le _ _) endTime
    · exact hdb
  · rcases Finset.mem_insert.1 hn with rfl | hn
    · exact le_rfl
    · exact h.announced n hn

/-- The epoch itself is stored by `Save`. -/
theorem Numbered.loadOneEpoch_save (h : ep.Numbered) {n : ℕ} (hn : n = ep.number) :
    ep.save.db.loadOneEpoch n = some ep.toEpochData := by
  show ep.savedEpochs[n]? = _
  rw [getElem?_savedEpochs, if_pos hn, hn]
  cases hnext : ep.nextEpoch with
  | none => rfl
  | some next =>
    have hnumber := h.nextEpoch next hnext
    simp [Option.filter, hnumber]

/-- The start of the epoch, and the end of the one before, are set. -/
def announce (ep : Epoch) (startTime : ℤ) : Epoch :=
  (save { ep with startTime := startTime }).endPrevious startTime

/-- **A block that carries the epoch makes two nodes agree on its start.** -/
theorem Agree.announce (h : Agree A ep ep') (startTime : ℤ) :
    Agree (insert ep.number A) (ep.announce startTime) (ep'.announce startTime) := by
  have hset : Agree A { ep with startTime := startTime } { ep' with startTime := startTime } :=
    { h with
      untimed := h.untimed
      startTime := fun _ => rfl
      db := h.db
      numbered := ⟨h.numbered.nextEpoch, h.numbered.stored, h.numbered.previousEpoch⟩ }
  refine hset.save.endPrevious rfl ?_ startTime
  have hstored := hset.numbered.loadOneEpoch_save rfl
  have hstored' := hset.numbered'.loadOneEpoch_save hset.number.symm
  exact (congrArg (Option.map EpochData.startTime) hstored').trans
    (congrArg (Option.map EpochData.startTime) hstored).symm

/-- `updateLocalEpoch` for a block that carries the epoch it belongs to. -/
theorem Numbered.updateLocalEpoch_own (h : ep.Numbered) {ep₁ : Epoch} {e : EpochData}
    (hpos : 0 < b.number) (he : L.fromBytes b.epochBytes = some e) (hown : e.number = ep.number)
    (hrun : ep.updateLocalEpoch L b = .ok ep₁) : ep₁ = ep.announce e.startTime := by
  unfold Epoch.updateLocalEpoch at hrun
  simp only [he] at hrun
  rw [if_neg hpos.ne', if_neg (by omega), if_pos hown] at hrun
  unfold Epoch.announce Epoch.endPrevious
  split_ifs at hrun ⊢ with hnumber
  · cases hprev : (save { ep with startTime := e.startTime }).previousEpoch with
    | none =>
      rw [hprev] at hrun
      cases hrun
    | some prev =>
      rw [hprev] at hrun
      exact (Except.ok.inj hrun).symm
  · have hnone : ep.previousEpoch = none := h.previousEpoch (by
      have hzero : ¬0 < ep.number := hnumber
      omega)
    have hsame : ∀ (x : Epoch) (f : EpochData → EpochData), x.previousEpoch = none →
        x = { x with previousEpoch := x.previousEpoch.map f } := by
      intro x f hx
      cases x
      cases hx
      rfl
    rw [← Except.ok.inj hrun]
    exact hsame _ _ hnone

theorem Agree.updateLocalEpoch (h : Agree A ep ep') (hpos : 0 < b.number)
    (hrun : ep.updateLocalEpoch L b = .ok ep₁) (hrun' : ep'.updateLocalEpoch L b = .ok ep₁') :
    Agree (announcedBy L A ep b) ep₁ ep₁' := by
  unfold announcedBy announces
  cases he : L.fromBytes b.epochBytes with
  | none =>
    unfold Epoch.updateLocalEpoch at hrun hrun'
    rw [he] at hrun hrun'
    cases hrun
    cases hrun'
    exact h
  | some e =>
    by_cases hown : e.number = ep.number
    · obtain rfl := h.numbered.updateLocalEpoch_own hpos he hown hrun
      obtain rfl := h.numbered'.updateLocalEpoch_own hpos he (hown.trans h.number.symm) hrun'
      rw [if_pos (by simpa using hown)]
      exact h.announce e.startTime
    · rw [if_neg (by simpa using hown)]
      unfold Epoch.updateLocalEpoch at hrun hrun'
      simp only [he] at hrun hrun'
      rw [if_neg hpos.ne', h.number, h.startBlock, h.endBlock, if_neg hown] at hrun'
      rw [if_neg hpos.ne', if_neg hown] at hrun
      split_ifs at hrun hrun' with hnext hat hend
      · cases hrun
        cases hrun'
        refine (h.setNextEpoch fun n hn => ?_).save
        cases hn
        exact hnext
      · rw [h.getNextEpoch_nextEpoch] at hrun'
        split at hrun
        · cases hrun
        next next hknown =>
        rw [hknown] at hrun'
        cases hrun
        cases hrun'
        have hnumber := h.numbered.getNextEpoch hknown
        refine (h.setNextEpoch fun n hn => ?_).save
        cases hn
        exact hnumber
      · cases hrun
        cases hrun'
        exact h.save
      · cases hrun
        cases hrun'
        exact h

/-- The callbacks, which two nodes may call at different times but call in one order. -/
theorem Agree.insertCallbacks (h : Agree A ep ep') (hpos : 0 < b.number) {updateFirst : Bool}
    (hrun : ep.insertCallbacks L updateFirst b = .ok ep₁)
    (hrun' : ep'.insertCallbacks L updateFirst b = .ok ep₁') : Agree (announcedBy L A ep b) ep₁ ep₁' := by
  unfold Epoch.insertCallbacks at hrun hrun'
  split_ifs at hrun hrun'
  · obtain ⟨ep₂, hfirst, hrest⟩ := Steps.bind_eq_ok.1 hrun
    obtain ⟨ep₂', hfirst', hrest'⟩ := Steps.bind_eq_ok.1 hrun'
    exact (h.updateLocalEpoch hpos hfirst hfirst').autoStartMining hrest hrest'
  · obtain ⟨ep₂, hfirst, hrest⟩ := Steps.bind_eq_ok.1 hrun
    obtain ⟨ep₂', hfirst', hrest'⟩ := Steps.bind_eq_ok.1 hrun'
    have hagree := (h.autoStartMining hfirst hfirst').updateLocalEpoch hpos hrest hrest'
    have hnumber : ep₂.number = ep.number := by
      unfold Epoch.autoStartMining at hfirst
      split_ifs at hfirst
      · split at hfirst
        · cases hfirst
        · cases hfirst
          rfl
      · cases hfirst
        rfl
    unfold announcedBy announces at hagree ⊢
    rwa [hnumber] at hagree

theorem Agree.enterNewEpoch (h : Agree A ep ep') {vals : ValidatorSet} (hvals : vals.Distinct)
    (now now' : ℤ) :
    Agree A ((ep.enterNewEpoch now vals).getD ep) ((ep'.enterNewEpoch now' vals).getD ep') := by
  unfold Epoch.enterNewEpoch
  rw [h.nextEpoch]
  cases hnext : ep.nextEpoch with
  | none => exact h
  | some next =>
    have hnumber : next.markSaved.number = ep.number + 1 := by
      rw [← h.numbered.nextEpoch next hnext]
      unfold NextEpoch.markSaved
      split_ifs <;> rfl
    have hended : Agree A { ep with endTime := now } { ep' with endTime := now' } :=
      { h with
        untimed := h.untimed
        numbered := ⟨h.numbered.nextEpoch, h.numbered.stored, h.numbered.previousEpoch⟩ }
    have hsaved := hended.save
    show Agree A (ep.enter next now vals) (ep'.enter next now' vals)
    unfold enter
    have hnot : ep.number + 1 ∉ A := fun hmem => by
      have := h.announced _ hmem
      omega
    refine Agree.save
      { untimed := rfl
        startTime := fun hmem => absurd (hnumber ▸ hmem) hnot
        validatorVoteSet := rfl
        rs := h.rs
        nextEpoch := rfl
        previousEpoch := congrArg some hsaved.untimed
        previousStart := fun hmem => ?_
        previousEnd := fun hmem => absurd (hnumber ▸ hmem) hnot
        db := ⟨hsaved.db.untimed, fun n hn => hsaved.db.later n ?_, hsaved.db.startTime,
          hsaved.db.voteSets⟩
        announced := fun n hn => ?_
        numbered := ⟨fun _ hn => (nomatch hn), hsaved.numbered.stored, fun hzero => ?_⟩
        distinct := hvals }
    · have hmem : next.markSaved.number - 1 ∈ A := hmem
      rw [hnumber] at hmem
      exact congrArg some (h.startTime hmem)
    · have hn : next.markSaved.number < n := hn
      show ep.number < n
      omega
    · have := h.announced n hn
      show n ≤ next.markSaved.number
      omega
    · have hzero : next.markSaved.number = 0 := hzero
      omega

/-- `ShouldEnterNewEpoch` gives two nodes the same validators. -/
theorem Agree.shouldEnterNewEpoch (h : Agree A ep ep') {order : FinSet Address → List Address}
    {height : ℕ} {s s₁ s₁' : StateDB} {vals vals' : Option ValidatorSet}
    (hrun : ep.shouldEnterNewEpoch L order height s = .ok (ep₁, vals, s₁))
    (hrun' : ep'.shouldEnterNewEpoch L order height s = .ok (ep₁', vals', s₁')) :
    Agree A ep₁ ep₁' ∧ ep₁.number = ep.number ∧ vals' = vals ∧
      ∀ v, vals = some v → v.Distinct := by
  unfold Epoch.shouldEnterNewEpoch at hrun hrun'
  rw [h.endBlock] at hrun'
  split_ifs at hrun hrun'
  · rw [h.getNextEpoch_nextEpoch] at hrun'
    split at hrun
    · next hnone =>
      rw [hnone] at hrun'
      obtain ⟨rfl, rfl, -⟩ := Except.ok.inj hrun
      obtain ⟨rfl, rfl, -⟩ := Except.ok.inj hrun'
      exact ⟨h, rfl, rfl, fun _ hv => nomatch hv⟩
    next next hnext =>
    rw [hnext] at hrun'
    simp only [h.validators] at hrun'
    obtain ⟨r, hr, hres⟩ := Steps.bind_eq_ok.1 hrun
    obtain ⟨r', hr', hres'⟩ := Steps.bind_eq_ok.1 hrun'
    obtain rfl := Except.ok.inj (hr.symm.trans hr')
    obtain ⟨rfl, rfl, -⟩ := Except.ok.inj hres
    obtain ⟨rfl, rfl, -⟩ := Except.ok.inj hres'
    refine ⟨h.getNextEpoch, rfl, rfl, fun v hv => ?_⟩
    obtain ⟨r₁, r₂⟩ := r
    cases r₁ with
    | error e => exact e.elim
    | ok v' =>
      cases hv
      obtain ⟨power, rfl⟩ := (returns_enterProgram L order ep.validators _).run hr
      exact distinct_updateEpochValidatorSet L (distinct_refreshPowers power h.distinct 0 _) _
  · obtain ⟨rfl, rfl, -⟩ := Except.ok.inj hrun
    obtain ⟨rfl, rfl, -⟩ := Except.ok.inj hrun'
    exact ⟨h, rfl, rfl, fun _ hv => nomatch hv⟩

/-- **Two nodes that insert a block at different times agree as before**, and agree on the start
of the epoch if the block announces it. -/
theorem Agree.insertBlock (h : Agree A ep ep') (hpos : 0 < b.number) {how : Insertion} {now' : ℤ}
    {ep₁ ep₁' : Epoch} (hrun : ep.insertBlock L how b = .ok ep₁)
    (hrun' : ep'.insertBlock L { how with now := now' } b = .ok ep₁') :
    Agree (announcedBy L A ep b) ep₁ ep₁' := by
  obtain ⟨⟨ep₂, vals, s₂⟩, hshould, hrest⟩ := Steps.bind_eq_ok.1 hrun
  obtain ⟨⟨ep₂', vals', s₂'⟩, hshould', hrest'⟩ := Steps.bind_eq_ok.1 hrun'
  obtain ⟨hagree₂, hnumber, rfl, hdistinct⟩ := h.shouldEnterNewEpoch hshould hshould'
  obtain ⟨ep₃, hcallbacks, hrest⟩ := Steps.bind_eq_ok.1 hrest
  obtain ⟨ep₃', hcallbacks', hrest'⟩ := Steps.bind_eq_ok.1 hrest'
  have hagree₃ := hagree₂.insertCallbacks hpos hcallbacks hcallbacks'
  have hannounced : announcedBy L A ep₂ b = announcedBy L A ep b := by
    unfold announcedBy announces
    rw [hnumber]
  rw [hannounced] at hagree₃
  obtain ⟨ep₄, hvotes, hrest⟩ := Steps.bind_eq_ok.1 hrest
  obtain ⟨ep₄', hvotes', hrest'⟩ := Steps.bind_eq_ok.1 hrest'
  have hagree₄ := hagree₃.votes hvotes hvotes'
  cases hrest
  cases hrest'
  cases vals' with
  | none => exact hagree₄
  | some v => exact hagree₄.enterNewEpoch (hdistinct v rfl) how.now now'

/-! ## Two nodes -/

/-- Two nodes start from one genesis document and insert the same blocks, each at its own
times; with them the epochs that were announced so far. -/
inductive TwoNodes (L : EpochLibs) (rs : RewardScheme) (doc : OneEpochDoc) :
    Finset ℕ → Epoch → Epoch → Prop
  | init (now now' : ℤ) : TwoNodes L rs doc ∅ (initEpoch rs doc now) (initEpoch rs doc now')
  | insert {A : Finset ℕ} {ep ep' ep₁ ep₁' : Epoch} {how : Insertion} {now' : ℤ} {b : Block}
      (h : TwoNodes L rs doc A ep ep') (hpos : 0 < b.number)
      (hrun : ep.insertBlock L how b = .ok ep₁)
      (hrun' : ep'.insertBlock L { how with now := now' } b = .ok ep₁') :
      TwoNodes L rs doc (announcedBy L A ep b) ep₁ ep₁'

theorem agree_initEpoch (rs : RewardScheme) {doc : OneEpochDoc} (hdoc : doc.validators.Distinct)
    (now now' : ℤ) : Agree ∅ (initEpoch rs doc now) (initEpoch rs doc now') :=
  Agree.save
    { untimed := rfl
      startTime := fun hmem => absurd hmem (Finset.notMem_empty _)
      validatorVoteSet := rfl
      rs := rfl
      nextEpoch := rfl
      previousEpoch := rfl
      previousStart := fun _ => rfl
      previousEnd := fun _ => rfl
      db := ⟨fun _ => rfl, fun _ _ => rfl, fun _ _ => rfl, rfl⟩
      announced := fun n hn => absurd hn (Finset.notMem_empty n)
      numbered := ⟨fun _ hn => (nomatch hn), fun n d hd => by
          have hd : (∅ : FinMap ℕ EpochData)[n]? = some d := hd
          simp at hd, fun _ => rfl⟩
      distinct := hdoc }

/-- **Two nodes agree** in everything but the times of epochs that were not announced. -/
theorem TwoNodes.agree {rs : RewardScheme} {doc : OneEpochDoc} (hdoc : doc.validators.Distinct)
    (h : TwoNodes L rs doc A ep ep') : Agree A ep ep' := by
  induction h with
  | init now now' => exact agree_initEpoch rs hdoc now now'
  | insert _ hpos hrun hrun' ih => exact ih.insertBlock hpos hrun hrun'

/-- **The proposal is the same** if the first epoch, the epoch before and the current one were
announced. -/
theorem Agree.proposeNextEpoch (h : Agree A ep ep') (hfirst : 0 ∈ A) (hbefore : ep.number - 1 ∈ A)
    (hcurrent : ep.number ∈ A) (lastBlockHeight : ℕ) (lastBlockTime : ℤ) :
    ep'.proposeNextEpoch L lastBlockHeight lastBlockTime =
      ep.proposeNextEpoch L lastBlockHeight lastBlockTime := by
  have htime : ep'.timePerBlockOfEpoch lastBlockHeight lastBlockTime =
      ep.timePerBlockOfEpoch lastBlockHeight lastBlockTime := by
    have huntimed := h.previousEpoch
    have hstart := h.previousStart hbefore
    have hend := h.previousEnd hcurrent
    unfold timePerBlockOfEpoch
    cases hprev : ep.previousEpoch with
    | none =>
      rw [hprev] at huntimed
      rw [Option.map_eq_none_iff.1 huntimed, h.startTime hcurrent, h.startBlock]
    | some prev =>
      rw [hprev] at huntimed hstart hend
      obtain ⟨prev', hprev', hsame⟩ := Option.map_eq_some_iff.1 huntimed
      rw [hprev'] at hstart hend ⊢
      have hstartBlock : prev'.startBlock = prev.startBlock :=
        (congrArg EpochData.startBlock hsame :)
      have hendBlock : prev'.endBlock = prev.endBlock := (congrArg EpochData.endBlock hsame :)
      simp only [hstartBlock, hendBlock, Option.some.inj hstart, Option.some.inj hend]
  have hestimate : ep'.estimateForNextEpoch L lastBlockHeight lastBlockTime =
      ep.estimateForNextEpoch L lastBlockHeight lastBlockTime := by
    have hzero := h.db.startTime 0 hfirst
    unfold estimateForNextEpoch
    rw [h.rs, h.number, htime]
    cases hload : ep.db.loadOneEpoch 0 with
    | none =>
      rw [hload] at hzero
      rw [Option.map_eq_none_iff.1 hzero]
    | some zeroEpoch =>
      rw [hload] at hzero
      obtain ⟨zeroEpoch', hload', hstart⟩ := Option.map_eq_some_iff.1 hzero
      rw [hload']
      simp only [hstart]
  unfold Epoch.proposeNextEpoch
  rw [hestimate, h.number, h.endBlock, h.validators]

/-- A calendar with years of 365 days. -/
def calendarLibs : EpochLibs :=
  { PlainEpoch.libs with addYears := fun t years => t + years * 31536000000000000 }

/-- A node that was started at a time and has inserted the first block, which carries the
given bytes. -/
def afterFirstBlock (now : ℤ) (epochBytes : Bytes) : Go Epoch :=
  (initEpoch PlainEpoch.rs PlainEpoch.doc now).insertBlock calendarLibs (PlainEpoch.insertion now)
    (PlainEpoch.block 1 epochBytes)

end Epoch

end Staking

end LigoChain
