/-
# Is the next epoch known at the end of an epoch?

A node has to know the next epoch at the last block of an epoch: `createProposalBlock` panics
without it, and `Finalize` does not switch.  One block earlier `autoStartMining` already
dereferences it.

Within one epoch there are two kinds of states.  In a fresh one nothing is known
(`Fresh`), and in the others the next epoch is in memory.  A block takes a fresh state to a
known one if it stands at a height where `updateLocalEpoch` records and carries an epoch with
the next number (`insertBlock_records`); every other block leaves the state fresh, or stops
the node (`insertBlock_fresh`).  A known next epoch stays known (`insertBlock_known`).
`knowsNextEpoch_iff` is the result for the blocks of a whole epoch.
-/

import LigoChain.Staking.PlainEpoch

namespace LigoChain

namespace Staking

open State

namespace Epoch

variable {L : EpochLibs} {ep ep' : Epoch} {b : Block}

/-- The epoch that a block carries, if it has the number of the next one. -/
def carriedNext (L : EpochLibs) (ep : Epoch) (b : Block) : Option EpochData :=
  (L.fromBytes b.epochBytes).filter fun e => e.number == ep.number + 1

/-- The heights at which `updateLocalEpoch` records a next epoch. -/
def recordsAt (ep : Epoch) (number : ℕ) : Prop := number = ep.startBlock + 1 ∨ number = 2

/-- No next epoch is known. -/
structure Fresh (ep : Epoch) : Prop where
  nextEpoch : ep.nextEpoch = none
  stored : ep.db.loadOneEpoch (ep.number + 1) = none

/-- An epoch other than the first has an epoch before it. -/
def HasPrevious (ep : Epoch) : Prop := 0 < ep.number → ep.previousEpoch.isSome

/-- The number and the blocks of an epoch are those of another. -/
structure SameBounds (ep ep' : Epoch) : Prop where
  number : ep'.number = ep.number
  startBlock : ep'.startBlock = ep.startBlock
  endBlock : ep'.endBlock = ep.endBlock
  hasPrevious : ep.HasPrevious → ep'.HasPrevious

theorem SameBounds.refl (ep : Epoch) : SameBounds ep ep := ⟨rfl, rfl, rfl, id⟩

theorem SameBounds.trans {ep'' : Epoch} (h : SameBounds ep ep') (h' : SameBounds ep' ep'') :
    SameBounds ep ep'' :=
  ⟨h'.number.trans h.number, h'.startBlock.trans h.startBlock, h'.endBlock.trans h.endBlock,
    fun hp => h'.hasPrevious (h.hasPrevious hp)⟩

/-- The step returns an epoch with the same bounds and the property. -/
def Leads (P : Epoch → Prop) (ep : Epoch) (r : Go Epoch) : Prop :=
  ∃ ep', r = .ok ep' ∧ SameBounds ep ep' ∧ P ep'

theorem Leads.bind {P Q : Epoch → Prop} {r : Go Epoch} {k : Epoch → Go Epoch} (h : Leads P ep r)
    (hk : ∀ ep', SameBounds ep ep' → P ep' → Leads Q ep' (k ep')) : Leads Q ep (r >>= k) := by
  obtain ⟨ep₁, rfl, hsame₁, hP⟩ := h
  obtain ⟨ep₂, hrun₂, hsame₂, hQ⟩ := hk ep₁ hsame₁ hP
  exact ⟨ep₂, hrun₂, hsame₁.trans hsame₂, hQ⟩

end Epoch

/-- The terms of an epoch that a proposal fixes. -/
structure SameTerms (e e' : EpochData) : Prop where
  number : e'.number = e.number
  rewardPerBlock : e'.rewardPerBlock = e.rewardPerBlock
  startBlock : e'.startBlock = e.startBlock
  endBlock : e'.endBlock = e.endBlock

theorem SameTerms.trans {e e' e'' : EpochData} (h : SameTerms e e') (h' : SameTerms e' e'') :
    SameTerms e e'' :=
  ⟨h'.number.trans h.number, h'.rewardPerBlock.trans h.rewardPerBlock,
    h'.startBlock.trans h.startBlock, h'.endBlock.trans h.endBlock⟩

theorem NextEpoch.sameTerms_markSaved (next : NextEpoch) :
    SameTerms next.toEpochData next.markSaved.toEpochData := by
  unfold NextEpoch.markSaved
  split_ifs <;> exact ⟨rfl, rfl, rfl, rfl⟩

namespace Epoch

variable {L : EpochLibs} {ep ep' : Epoch} {b : Block} {next : NextEpoch}
variable {e : EpochData}

/-- The next epoch in memory has the given terms. -/
def Knows (ep : Epoch) (e : EpochData) : Prop :=
  ∃ next, ep.nextEpoch = some next ∧ SameTerms e next.toEpochData

theorem Knows.save (h : ep.Knows e) : ep.save.Knows e := by
  obtain ⟨next, hnext, hterms⟩ := h
  refine ⟨next.markSaved, ?_, hterms.trans next.sameTerms_markSaved⟩
  unfold Epoch.save
  rw [hnext]
  rfl

theorem Fresh.save (h : ep.Fresh) : ep.save.Fresh := by
  refine ⟨?_, ?_⟩
  · unfold Epoch.save
    rw [h.nextEpoch]
    rfl
  · have hepochs : ep.savedEpochs = ep.db.epochs.insert ep.number ep.toEpochData := by
      unfold savedEpochs
      rw [h.nextEpoch]
    show ep.savedEpochs[ep.number + 1]? = none
    rw [hepochs, FinMap.getElem?_insert_ite, if_neg (by omega)]
    exact h.stored

theorem Fresh.getNextEpoch (h : ep.Fresh) : ep.getNextEpoch.nextEpoch = none := by
  unfold Epoch.getNextEpoch
  rw [h.nextEpoch, h.stored]
  rfl

theorem getNextEpoch_of_some (h : ep.nextEpoch = some next) :
    ep.getNextEpoch.nextEpoch = some next := by
  unfold Epoch.getNextEpoch
  rw [h]
  rfl

theorem carriedNext_eq_some :
    carriedNext L ep b = some e ↔ L.fromBytes b.epochBytes = some e ∧ e.number = ep.number + 1 := by
  unfold carriedNext
  rw [Option.filter_eq_some_iff, beq_iff_eq]

/-! ## One callback -/

theorem updateLocalEpoch_records (hrec : ep.recordsAt b.number) (he : carriedNext L ep b = some e) :
    Leads (·.Knows e) ep (ep.updateLocalEpoch L b) := by
  obtain ⟨hbytes, hnumber⟩ := carriedNext_eq_some.1 he
  have hrun : ep.updateLocalEpoch L b =
      .ok (ep.setNextEpoch (some ⟨{ e with status := .votedNotSaved }, none⟩)).save := by
    unfold updateLocalEpoch
    simp only [hbytes]
    unfold recordsAt at hrec
    rw [if_neg (by omega), if_pos hnumber, if_pos hrec]
  exact ⟨_, hrun, ⟨rfl, rfl, rfl, id⟩, Knows.save ⟨_, rfl, ⟨rfl, rfl, rfl, rfl⟩⟩⟩

/-- Any other block before the last one of the epoch leaves the next epoch as it is. -/
theorem updateLocalEpoch_keeps (hprev : ep.HasPrevious)
    (hend : ¬(b.number = ep.endBlock ∧ (carriedNext L ep b).isSome))
    (hrec : ¬(ep.recordsAt b.number ∧ (carriedNext L ep b).isSome)) :
    Leads (fun ep' => (ep.Fresh → ep'.Fresh) ∧ ∀ e, ep.Knows e → ep'.Knows e) ep
      (ep.updateLocalEpoch L b) := by
  have hsame : ∀ ep'' : Epoch, SameBounds ep'' ep''.save := fun _ => ⟨rfl, rfl, rfl, id⟩
  unfold updateLocalEpoch
  cases hbytes : L.fromBytes b.epochBytes with
  | none => exact ⟨ep, rfl, .refl ep, id, fun _ => id⟩
  | some e =>
    simp only
    have hcarried : e.number = ep.number + 1 → (carriedNext L ep b).isSome := fun hnumber => by
      rw [carriedNext_eq_some.2 ⟨hbytes, hnumber⟩]
      rfl
    split_ifs with hzero hnumber hat hlast hown hpos
    · exact ⟨ep, rfl, .refl ep, id, fun _ => id⟩
    · exact absurd ⟨hat, hcarried hnumber⟩ hrec
    · exact absurd ⟨hlast, hcarried hnumber⟩ hend
    · exact ⟨_, rfl, hsame ep, Fresh.save, fun _ => Knows.save⟩
    · -- the block carries the epoch itself, whose start time it sets
      have hown : (save { ep with startTime := e.startTime }).HasPrevious := hprev
      obtain ⟨prev, hprevious⟩ := Option.isSome_iff_exists.1 (hown hpos)
      simp only [hprevious]
      refine ⟨_, rfl, ⟨rfl, rfl, rfl, fun _ _ => rfl⟩, fun hfresh => ?_, fun e' hknows => ?_⟩
      · have hsaved : (save { ep with startTime := e.startTime }).Fresh :=
          Fresh.save ⟨hfresh.nextEpoch, hfresh.stored⟩
        refine ⟨hsaved.nextEpoch, ?_⟩
        have hne : ep.number + 1 ≠ ep.number - 1 := by omega
        exact (EpochDB.loadOneEpoch_updateEpochEndTime _ _ _ _).trans
          ((if_neg hne).trans hsaved.stored)
      · exact @Knows.save { ep with startTime := e.startTime } e' hknows
    · exact ⟨_, rfl, ⟨rfl, rfl, rfl, id⟩, fun hfresh => Fresh.save ⟨hfresh.nextEpoch, hfresh.stored⟩,
        fun e' hknows => @Knows.save { ep with startTime := e.startTime } e' hknows⟩
    · exact ⟨ep, rfl, .refl ep, id, fun _ => id⟩

/-- `autoStartMining` before the block next to the last. -/
theorem autoStartMining_of_ne (h : b.number + 1 ≠ ep.endBlock) :
    ep.autoStartMining L b = .ok ep := if_neg h

/-- `autoStartMining` stops a node that does not know the next epoch. -/
theorem Fresh.autoStartMining (hfresh : ep.Fresh) (h : b.number + 1 = ep.endBlock) :
    ep.autoStartMining L b = .error .nilDeref := by
  unfold Epoch.autoStartMining
  rw [if_pos h, hfresh.getNextEpoch]

theorem Knows.autoStartMining (hknows : ep.Knows e) :
    Leads (·.Knows e) ep (ep.autoStartMining L b) := by
  obtain ⟨next, hnext, hterms⟩ := hknows
  by_cases h : b.number + 1 = ep.endBlock
  · unfold Epoch.autoStartMining
    rw [if_pos h, getNextEpoch_of_some hnext]
    exact ⟨_, rfl, ⟨rfl, rfl, rfl, id⟩, _, rfl,
      hterms.number, hterms.rewardPerBlock, hterms.startBlock, hterms.endBlock⟩
  · exact ⟨ep, autoStartMining_of_ne h, .refl ep, next, hnext, hterms⟩

theorem Fresh.updateNextEpoch (hfresh : ep.Fresh) (op : UpdateNextEpochOp) :
    ep.updateNextEpoch op = .error .nilDeref := by
  unfold Epoch.updateNextEpoch
  rw [hfresh.getNextEpoch]

theorem Knows.votes (votes : List UpdateNextEpochOp) (hknows : ep.Knows e) :
    Leads (·.Knows e) ep (votes.foldlM (fun ep op => Epoch.updateNextEpoch ep op) ep) := by
  induction votes generalizing ep with
  | nil => exact ⟨ep, rfl, .refl ep, hknows⟩
  | cons op votes ih =>
    obtain ⟨next, hnext, hterms⟩ := hknows
    have hop : Leads (·.Knows e) ep (ep.updateNextEpoch op) := by
      unfold Epoch.updateNextEpoch
      rw [getNextEpoch_of_some hnext]
      exact ⟨_, rfl, ⟨rfl, rfl, rfl, id⟩, _, rfl,
        hterms.number, hterms.rewardPerBlock, hterms.startBlock, hterms.endBlock⟩
    rw [List.foldlM_cons]
    exact hop.bind fun _ _ => ih

/-! ## One block -/

theorem insertBlock_of_ne (how : Insertion) (hend : b.number ≠ ep.endBlock) :
    ep.insertBlock L how b = ep.insertCallbacks L how.updateFirst b >>= fun ep' =>
      b.votes.foldlM (fun ep op => Epoch.updateNextEpoch ep op) ep' := by
  unfold insertBlock shouldEnterNewEpoch
  rw [if_neg hend]
  simp only [bind, Except.bind]
  cases ep.insertCallbacks L how.updateFirst b with
  | error p => rfl
  | ok ep' =>
    simp only
    cases b.votes.foldlM (fun ep op => Epoch.updateNextEpoch ep op) ep' <;> rfl

/-- The next epoch is in memory. -/
def Known (ep : Epoch) : Prop := ∃ e, ep.Knows e ∧ e.number = ep.number + 1

theorem Leads.known {r : Go Epoch} (h : Leads (·.Knows e) ep r) (he : e.number = ep.number + 1) :
    Leads Known ep r := by
  obtain ⟨ep', hrun, hsame, hknows⟩ := h
  exact ⟨ep', hrun, hsame, e, hknows, by rw [hsame.number, he]⟩

/-- A known next epoch stays known, and may be replaced by one of the same number. -/
theorem Known.updateLocalEpoch (hprev : ep.HasPrevious) (hpos : 0 < b.number) (h : ep.Known) :
    Leads Known ep (ep.updateLocalEpoch L b) := by
  obtain ⟨e, hknows, he⟩ := h
  by_cases hrec : ep.recordsAt b.number ∧ (carriedNext L ep b).isSome
  · obtain ⟨e', he'⟩ := Option.isSome_iff_exists.1 hrec.2
    exact (updateLocalEpoch_records hrec.1 he').known (carriedNext_eq_some.1 he').2
  by_cases hend : b.number = ep.endBlock ∧ (carriedNext L ep b).isSome
  · -- the last block sets the validators of the next epoch
    obtain ⟨e', he'⟩ := Option.isSome_iff_exists.1 hend.2
    obtain ⟨hbytes, hnumber⟩ := carriedNext_eq_some.1 he'
    obtain ⟨next, hnext, hterms⟩ := hknows
    have hrun : ep.updateLocalEpoch L b = .ok (ep.setNextEpoch (some { next with
        validators := e'.validators
        status := .votedNotSaved })).save := by
      have hnot : ¬(b.number = ep.startBlock + 1 ∨ b.number = 2) := fun hat => hrec ⟨hat, hend.2⟩
      unfold Epoch.updateLocalEpoch
      simp only [hbytes]
      rw [if_neg hpos.ne', if_pos hnumber, if_neg hnot, if_pos hend.1,
        getNextEpoch_of_some hnext]
    refine ⟨_, hrun, ⟨rfl, rfl, rfl, id⟩, e, Knows.save ⟨_, rfl, ?_⟩, he⟩
    exact ⟨hterms.number, hterms.rewardPerBlock, hterms.startBlock, hterms.endBlock⟩
  · obtain ⟨ep', hrun, hsame, -, hkeeps⟩ := updateLocalEpoch_keeps hprev hend hrec
    exact Leads.known ⟨ep', hrun, hsame, hkeeps e hknows⟩ he

theorem Known.autoStartMining (h : ep.Known) : Leads Known ep (ep.autoStartMining L b) := by
  obtain ⟨e, hknows, he⟩ := h
  exact hknows.autoStartMining.known he

theorem Known.votes (votes : List UpdateNextEpochOp) (h : ep.Known) :
    Leads Known ep (votes.foldlM (fun ep op => Epoch.updateNextEpoch ep op) ep) := by
  obtain ⟨e, hknows, he⟩ := h
  exact (hknows.votes votes).known he

theorem Known.insertCallbacks (updateFirst : Bool) (hprev : ep.HasPrevious) (hpos : 0 < b.number)
    (h : ep.Known) : Leads Known ep (ep.insertCallbacks L updateFirst b) := by
  cases updateFirst with
  | true => exact (h.updateLocalEpoch hprev hpos).bind fun _ _ => Known.autoStartMining
  | false =>
    exact h.autoStartMining.bind fun _ hsame => Known.updateLocalEpoch (hsame.hasPrevious hprev) hpos

/-- **A known next epoch stays known.** -/
theorem Known.insertBlock (how : Insertion) (hprev : ep.HasPrevious) (hpos : 0 < b.number)
    (hend : b.number ≠ ep.endBlock) (h : ep.Known) : Leads Known ep (ep.insertBlock L how b) := by
  rw [insertBlock_of_ne how hend]
  exact (h.insertCallbacks how.updateFirst hprev hpos).bind fun _ _ => Known.votes b.votes

/-- The next epoch is carried where it is recorded, and before it is needed. -/
@[mk_iff]
structure RecordedBy (L : EpochLibs) (ep : Epoch) (how : Insertion) (b : Block) : Prop where
  recordsAt : ep.recordsAt b.number
  carried : (carriedNext L ep b).isSome
  inTime : b.number + 1 = ep.endBlock → how.updateFirst = true

/-- **The block that records the next epoch.** -/
theorem RecordedBy.insertBlock {how : Insertion} (hend : b.number ≠ ep.endBlock)
    (h : RecordedBy L ep how b) (he : carriedNext L ep b = some e) :
    Leads (·.Knows e) ep (ep.insertBlock L how b) := by
  have hrecords := updateLocalEpoch_records h.recordsAt he
  have hcallbacks : Leads (·.Knows e) ep (ep.insertCallbacks L how.updateFirst b) := by
    cases hfirst : how.updateFirst with
    | true => exact hrecords.bind fun _ _ => Knows.autoStartMining
    | false =>
      have hne : b.number + 1 ≠ ep.endBlock := fun heq => by
        rw [h.inTime heq] at hfirst
        cases hfirst
      simp only [Epoch.insertCallbacks, Bool.false_eq_true, if_false, autoStartMining_of_ne hne]
      exact hrecords
  rw [insertBlock_of_ne how hend]
  exact hcallbacks.bind fun _ _ => Knows.votes b.votes

theorem RecordedBy.known {how : Insertion} (hend : b.number ≠ ep.endBlock)
    (h : RecordedBy L ep how b) : Leads Known ep (ep.insertBlock L how b) := by
  obtain ⟨e, he⟩ := Option.isSome_iff_exists.1 h.carried
  exact (h.insertBlock hend he).known (carriedNext_eq_some.1 he).2

/-- In a fresh state, a block next to the last one stops the node unless it records. -/
theorem Fresh.insertBlock_stops {how : Insertion} (hprev : ep.HasPrevious) (hfresh : ep.Fresh)
    (hrec : ¬RecordedBy L ep how b) (hlast : b.number + 1 = ep.endBlock) :
    ep.insertBlock L how b = .error .nilDeref := by
  rw [insertBlock_of_ne how (by omega)]
  have hcallbacks : ep.insertCallbacks L how.updateFirst b = .error .nilDeref := by
    cases hfirst : how.updateFirst with
    | false =>
      simp only [insertCallbacks, Bool.false_eq_true, if_false, hfresh.autoStartMining hlast, bind,
        Except.bind]
    | true =>
      have hnot : ¬(ep.recordsAt b.number ∧ (carriedNext L ep b).isSome) := fun h =>
        hrec ⟨h.1, h.2, fun _ => hfirst⟩
      obtain ⟨ep', hrun, hsame, hfresh', -⟩ :=
        @updateLocalEpoch_keeps L ep b hprev (fun h => by omega) hnot
      have hlast' : b.number + 1 = ep'.endBlock := by rw [hsame.endBlock, hlast]
      simp only [insertCallbacks, if_true, hrun, bind, Except.bind,
        (hfresh' hfresh).autoStartMining hlast']
  rw [hcallbacks]
  rfl

/-- Any other block that does not record leaves the state fresh, and stops the node if it has
votes. -/
theorem Fresh.insertBlock {how : Insertion} (hprev : ep.HasPrevious) (hfresh : ep.Fresh)
    (hrec : ¬RecordedBy L ep how b) (hend : b.number ≠ ep.endBlock)
    (hlast : b.number + 1 ≠ ep.endBlock) :
    (b.votes ≠ [] → ep.insertBlock L how b = .error .nilDeref) ∧
      (b.votes = [] → Leads Fresh ep (ep.insertBlock L how b)) := by
  have hnot : ¬(ep.recordsAt b.number ∧ (carriedNext L ep b).isSome) := fun h =>
    hrec ⟨h.1, h.2, fun heq => absurd heq hlast⟩
  obtain ⟨ep', hrun, hsame, hfresh', -⟩ :=
    @updateLocalEpoch_keeps L ep b hprev (fun h => hend h.1) hnot
  have hlast' : b.number + 1 ≠ ep'.endBlock := by rwa [hsame.endBlock]
  have hcallbacks : ep.insertCallbacks L how.updateFirst b = .ok ep' := by
    cases how.updateFirst with
    | true =>
      simp only [insertCallbacks, if_true, hrun, bind, Except.bind, autoStartMining_of_ne hlast']
    | false =>
      simp only [insertCallbacks, Bool.false_eq_true, if_false, autoStartMining_of_ne hlast, bind,
        Except.bind, hrun]
  rw [insertBlock_of_ne how hend, hcallbacks]
  constructor
  · intro hvotes
    obtain ⟨op, votes, hcons⟩ := List.exists_cons_of_ne_nil hvotes
    show b.votes.foldlM _ ep' = _
    rw [hcons, List.foldlM_cons, (hfresh' hfresh).updateNextEpoch]
    rfl
  · intro hvotes
    refine ⟨ep', ?_, hsame, hfresh' hfresh⟩
    rw [hvotes]
    rfl

/-! ## The blocks of an epoch -/

/-- Blocks are inserted one after the other. -/
def insertBlocks (L : EpochLibs) (ep : Epoch) (steps : List (Insertion × Block)) : Go Epoch :=
  steps.foldlM (fun ep step => ep.insertBlock L step.1 step.2) ep

/-- Votes come from transactions that pass `updateValidation` on the block before. -/
def updateValidation (ep : Epoch) (currHeight : ℕ) : Bool :=
  currHeight != 1 && currHeight != ep.startBlock && currHeight != ep.startBlock + 1 &&
    currHeight != ep.endBlock

/-- The blocks of an epoch before its last one, in their order; a vote is only in a block whose
parent is a block of the epoch that passes `updateValidation`. -/
structure BlocksOf (ep : Epoch) (steps : List (Insertion × Block)) : Prop where
  ordered : steps.Pairwise fun s t => s.2.number < t.2.number
  bounds : ∀ s ∈ steps, 0 < s.2.number ∧ ep.startBlock ≤ s.2.number ∧ s.2.number < ep.endBlock
  votes : ∀ s ∈ steps, s.2.votes ≠ [] →
    ep.startBlock < s.2.number ∧ ep.updateValidation (s.2.number - 1) = true

variable {steps : List (Insertion × Block)}

theorem BlocksOf.tail {s : Insertion × Block} (hsame : SameBounds ep ep')
    (h : BlocksOf ep (s :: steps)) : BlocksOf ep' steps where
  ordered := (List.pairwise_cons.1 h.ordered).2
  bounds t ht := by
    rw [hsame.startBlock, hsame.endBlock]
    exact h.bounds t (List.mem_cons_of_mem s ht)
  votes t ht hvotes := by
    unfold updateValidation
    rw [hsame.startBlock, hsame.endBlock]
    exact h.votes t (List.mem_cons_of_mem s ht) hvotes

theorem BlocksOf.of_append {before after : List (Insertion × Block)}
    (h : BlocksOf ep (before ++ after)) : BlocksOf ep before where
  ordered := (List.pairwise_append.1 h.ordered).1
  bounds t ht := h.bounds t (List.mem_append_left after ht)
  votes t ht := h.votes t (List.mem_append_left after ht)

theorem SameBounds.recordedBy (hsame : SameBounds ep ep') (how : Insertion) (b : Block) :
    RecordedBy L ep' how b ↔ RecordedBy L ep how b := by
  have hcarried : carriedNext L ep' b = carriedNext L ep b := by
    unfold carriedNext
    rw [hsame.number]
  simp only [recordedBy_iff, hcarried, Epoch.recordsAt, hsame.startBlock, hsame.endBlock]

theorem Known.insertBlocks (hprev : ep.HasPrevious) (h : ep.Known) (hsteps : BlocksOf ep steps) :
    Leads Known ep (insertBlocks L ep steps) := by
  induction steps generalizing ep with
  | nil => exact ⟨ep, rfl, .refl ep, h⟩
  | cons s steps ih =>
    obtain ⟨hpos, -, hend⟩ := hsteps.bounds s (List.mem_cons_self ..)
    rw [Epoch.insertBlocks, List.foldlM_cons]
    exact (h.insertBlock s.1 hprev hpos hend.ne).bind fun _ hsame hknown =>
      ih (hsame.hasPrevious hprev) hknown (hsteps.tail hsame)

theorem RecordedBy.insertBlocks {s : Insertion × Block} (hprev : ep.HasPrevious)
    (hend : s.2.number ≠ ep.endBlock) (h : RecordedBy L ep s.1 s.2)
    (hsteps : BlocksOf ep (s :: steps)) : Leads Known ep (insertBlocks L ep (s :: steps)) := by
  rw [Epoch.insertBlocks, List.foldlM_cons]
  exact (h.known hend).bind fun _ hsame hknown =>
    hknown.insertBlocks (hsame.hasPrevious hprev) (hsteps.tail hsame)

/-- **What the blocks of an epoch leave**: the next epoch is known exactly when one of them
recorded it. -/
theorem Fresh.of_insertBlocks (hprev : ep.HasPrevious) (hfresh : ep.Fresh)
    (hsteps : BlocksOf ep steps) (hrun : insertBlocks L ep steps = .ok ep') :
    SameBounds ep ep' ∧
      ((ep'.Known ∧ ∃ s ∈ steps, RecordedBy L ep s.1 s.2) ∨
        (ep'.Fresh ∧ ∀ s ∈ steps, ¬RecordedBy L ep s.1 s.2)) := by
  induction steps generalizing ep with
  | nil =>
    obtain rfl := Except.ok.inj hrun
    exact ⟨.refl ep, .inr ⟨hfresh, by simp⟩⟩
  | cons s steps ih =>
    obtain ⟨-, -, hend⟩ := hsteps.bounds s (List.mem_cons_self ..)
    by_cases hrec : RecordedBy L ep s.1 s.2
    · obtain ⟨ep₂, hrun₂, hsame, hknown⟩ := hrec.insertBlocks hprev hend.ne hsteps
      obtain rfl := Except.ok.inj (hrun₂.symm.trans hrun)
      exact ⟨hsame, .inl ⟨hknown, s, List.mem_cons_self .., hrec⟩⟩
    · rw [Epoch.insertBlocks, List.foldlM_cons] at hrun
      by_cases hlast : s.2.number + 1 = ep.endBlock
      · rw [hfresh.insertBlock_stops hprev hrec hlast] at hrun
        cases hrun
      obtain ⟨hstop, hgo⟩ := hfresh.insertBlock hprev hrec hend.ne hlast
      by_cases hvotes : s.2.votes = []
      · obtain ⟨ep₁, hrun₁, hsame₁, hfresh₁⟩ := hgo hvotes
        rw [hrun₁] at hrun
        obtain ⟨hsame, hcases⟩ :=
          ih (hsame₁.hasPrevious hprev) hfresh₁ (hsteps.tail hsame₁) hrun
        simp only [hsame₁.recordedBy] at hcases
        refine ⟨hsame₁.trans hsame, hcases.imp ?_ ?_⟩
        · rintro ⟨hknown, t, ht, hrec'⟩
          exact ⟨hknown, t, List.mem_cons_of_mem s ht, hrec'⟩
        · rintro ⟨hfresh', hnone⟩
          exact ⟨hfresh', List.forall_mem_cons.2 ⟨hrec, hnone⟩⟩
      · rw [hstop hvotes] at hrun
        cases hrun

theorem BlocksOf.before_recordedBy {s t : Insertion × Block} (hsteps : BlocksOf ep (s :: steps))
    (ht : t ∈ steps) (hrec : RecordedBy L ep t.1 t.2) :
    s.2.number + 1 ≠ ep.endBlock ∧ s.2.votes = [] := by
  have hlt := (List.pairwise_cons.1 hsteps.ordered).1 t ht
  obtain ⟨-, -, hend⟩ := hsteps.bounds t (List.mem_cons_of_mem s ht)
  have hat := hrec.recordsAt
  unfold recordsAt at hat
  refine ⟨by omega, ?_⟩
  by_contra hvotes
  obtain ⟨hstart, hvalid⟩ := hsteps.votes s (List.mem_cons_self ..) hvotes
  simp only [updateValidation, Bool.and_eq_true, bne_iff_ne] at hvalid
  omega

/-- **A block that records the next epoch makes it known** for the rest of the epoch. -/
theorem Fresh.insertBlocks (hprev : ep.HasPrevious) (hfresh : ep.Fresh)
    (hsteps : BlocksOf ep steps) (hrec : ∃ s ∈ steps, RecordedBy L ep s.1 s.2) :
    Leads Known ep (insertBlocks L ep steps) := by
  induction steps generalizing ep with
  | nil => simp at hrec
  | cons s steps ih =>
    obtain ⟨-, -, hend⟩ := hsteps.bounds s (List.mem_cons_self ..)
    by_cases hs : RecordedBy L ep s.1 s.2
    · exact hs.insertBlocks hprev hend.ne hsteps
    · obtain ⟨t, ht, hrec⟩ := hrec
      rcases List.mem_cons.1 ht with rfl | ht
      · exact absurd hrec hs
      obtain ⟨hlast, hvotes⟩ := hsteps.before_recordedBy ht hrec
      rw [Epoch.insertBlocks, List.foldlM_cons]
      exact ((hfresh.insertBlock hprev hs hend.ne hlast).2 hvotes).bind fun _ hsame hfresh' =>
        ih (hsame.hasPrevious hprev) hfresh' (hsteps.tail hsame)
          ⟨t, ht, (hsame.recordedBy t.1 t.2).2 hrec⟩

/-- `createProposalBlock` at the last block. -/
theorem Known.proposalEpochBytes (h : ep.Known) (lastHeight : ℕ) (lastBlockTime : ℤ) :
    ∃ bytes, ep.proposalEpochBytes L ep.endBlock lastHeight lastBlockTime = .ok bytes := by
  obtain ⟨e, ⟨next, hnext, -⟩, -⟩ := h
  unfold Epoch.proposalEpochBytes
  rw [if_pos rfl, getNextEpoch_of_some hnext]
  exact ⟨_, rfl⟩

/-- **The last block of an epoch whose next epoch is known switches the epoch.** -/
theorem Known.switch (how : Insertion) (hprev : ep.HasPrevious) (hpos : 0 < b.number)
    (hend : b.number = ep.endBlock) {w : World} (hstate : b.state.Refines w) (h : ep.Known) :
    ∃ ep', ep.insertBlock L how b = .ok ep' ∧ ep'.number = ep.number + 1 := by
  have hloaded : ep.getNextEpoch = ep := by
    obtain ⟨e, ⟨next, hnext, -⟩, -⟩ := h
    unfold Epoch.getNextEpoch
    rw [hnext]
    cases ep
    cases hnext
    rfl
  have hleads : Leads Known ep (ep.insertCallbacks L how.updateFirst b >>= fun ep' =>
      b.votes.foldlM (fun ep op => Epoch.updateNextEpoch ep op) ep') :=
    (h.insertCallbacks how.updateFirst hprev hpos).bind fun _ _ => Known.votes b.votes
  obtain ⟨ep₂, hrun₂, hsame₂, e₂, ⟨next₂, hnext₂, hterms₂⟩, he₂⟩ := hleads
  obtain ⟨ep₁, hrun₁, hrun₂⟩ := Steps.bind_eq_ok.1 hrun₂
  obtain ⟨e, ⟨next, hnext, -⟩, -⟩ := h
  obtain ⟨vals, s', w', hrun, -⟩ := (@tame_enterProgram Empty L how.order ep.validators
    (next.validatorVoteSet.getD .new)).run hstate
  have hshould : ep.shouldEnterNewEpoch L how.order b.number b.state =
      .ok (ep, some vals, s') := by
    unfold shouldEnterNewEpoch
    rw [if_pos hend, hloaded, hnext]
    simp only [hrun, bind, Except.bind]
    rfl
  have henter : ∃ ep', ep₂.enterNewEpoch how.now vals = some ep' ∧ ep'.number = ep.number + 1 := by
    unfold enterNewEpoch
    rw [hnext₂]
    refine ⟨_, rfl, ?_⟩
    exact next₂.sameTerms_markSaved.number.trans
      (hterms₂.number.trans (he₂.trans (by rw [hsame₂.number])))
  obtain ⟨ep', hep', hnumber⟩ := henter
  refine ⟨ep', ?_, hnumber⟩
  unfold Epoch.insertBlock
  simp only [hshould, bind, Except.bind, hrun₁]
  rw [show b.votes.foldlM (fun ep op => Epoch.updateNextEpoch ep op) ep₁ = .ok ep₂ from hrun₂]
  simp only [Option.elim, hep', Option.getD_some]

/-- What is asked of an epoch and the blocks before its last: a next epoch that a block carries
at a height where one is to be proposed is recorded; after the blocks the last one can be
proposed; and it switches the epoch. -/
structure KnowsNextEpoch (L : EpochLibs) (ep : Epoch) (steps : List (Insertion × Block)) : Prop where
  recorded : ∀ before s after ep' e, steps = before ++ s :: after →
    insertBlocks L ep before = .ok ep' → ep'.shouldProposeNextEpoch s.2.number = true →
    carriedNext L ep' s.2 = some e →
    ∃ ep'', ep'.insertBlock L s.1 s.2 = .ok ep'' ∧ ep''.Knows e
  known : ∃ ep', insertBlocks L ep steps = .ok ep' ∧ ep'.nextEpoch.isSome ∧
    (∀ lastHeight lastBlockTime,
      ∃ bytes, ep'.proposalEpochBytes L ep'.endBlock lastHeight lastBlockTime = .ok bytes) ∧
    ∀ how b w, b.number = ep.endBlock → b.state.Refines w →
      ∃ ep'', ep'.insertBlock L how b = .ok ep'' ∧ ep''.number = ep.number + 1

/-- **The next epoch is known at the end of an epoch if and only if it was carried at the one
height where it is recorded.** -/
theorem knowsNextEpoch_iff (hprev : ep.HasPrevious) (hfresh : ep.Fresh)
    (hsteps : BlocksOf ep steps) :
    KnowsNextEpoch L ep steps ↔ ∃ s ∈ steps, RecordedBy L ep s.1 s.2 := by
  constructor
  · rintro ⟨-, ep', hrun, hsome, -⟩
    obtain ⟨-, ⟨-, hrec⟩ | ⟨hfresh', -⟩⟩ := hfresh.of_insertBlocks hprev hsteps hrun
    · exact hrec
    · rw [hfresh'.nextEpoch] at hsome
      cases hsome
  · rintro ⟨t, ht, hrec⟩
    obtain ⟨hpos, -, hend⟩ := hsteps.bounds t ht
    refine ⟨?_, ?_⟩
    · intro before s after ep' e hsplit hrun hpropose he
      have hbefore : BlocksOf ep before := BlocksOf.of_append (hsplit ▸ hsteps)
      obtain ⟨hsame, ⟨hknown, -⟩ | ⟨-, hnone⟩⟩ := hfresh.of_insertBlocks hprev hbefore hrun
      · -- what is known is not proposed again
        obtain ⟨e', ⟨next, hnext, -⟩, -⟩ := hknown
        simp [shouldProposeNextEpoch, hnext] at hpropose
      have hs : s ∈ steps := by
        rw [hsplit]
        simp
      simp only [shouldProposeNextEpoch, Bool.and_eq_true, decide_eq_true_eq, bne_iff_ne] at hpropose
      have hat := hrec.recordsAt
      unfold recordsAt at hat
      rw [hsplit, List.mem_append, List.mem_cons] at ht
      rcases ht with hmem | rfl | hmem
      · exact absurd hrec (hnone t hmem)
      · obtain ⟨ep'', hrun'', -, hknows⟩ := RecordedBy.insertBlock
          (by rw [hsame.endBlock]; exact hend.ne) ((hsame.recordedBy t.1 t.2).2 hrec) he
        exact ⟨ep'', hrun'', hknows⟩
      · -- a proposal is not asked for before the height where it is recorded
        have hlt : s.2.number < t.2.number := by
          have hpairs := (List.pairwise_append.1 (hsplit ▸ hsteps.ordered)).2.1
          exact (List.pairwise_cons.1 hpairs).1 t hmem
        rw [hsame.startBlock] at hpropose
        omega
    · obtain ⟨ep', hrun, hsame, hknown⟩ := hfresh.insertBlocks hprev hsteps ⟨t, ht, hrec⟩
      refine ⟨ep', hrun, ?_, hknown.proposalEpochBytes, fun how b w hb hstate => ?_⟩
      · obtain ⟨e, ⟨next, hnext, -⟩, -⟩ := hknown
        rw [hnext]
        rfl
      · obtain ⟨ep'', hrun'', hnumber⟩ := @Known.switch L ep' b how (hsame.hasPrevious hprev)
          (by omega) (by rw [hsame.endBlock, hb]) w hstate hknown
        exact ⟨ep'', hrun'', by rw [hnumber, hsame.number]⟩

/-! ## Two runs of an epoch -/

/-- The blocks of the first epoch before the last, each with the bytes that it carries. -/
def firstBlocks (epochBytes : ℕ → Bytes) : List (Insertion × Block) :=
  (List.range' 1 4).map fun number =>
    (PlainEpoch.insertion 0, PlainEpoch.block number (epochBytes number))

/-- The third block carries the next epoch, the second carries none. -/
def carriedLate : ℕ → Bytes
  | 1 => [1]
  | 3 => [2]
  | _ => []

/-- The state after the second block. -/
def afterSecond : Go Epoch :=
  insertBlocks PlainEpoch.libs PlainEpoch.genesis ((firstBlocks carriedLate).take 2)

/-- All blocks pass the check of `defaultDoPrevote` on the epoch they carry. -/
def allAccepted : Epoch → List (Insertion × Block) → Bool
  | _, [] => true
  | ep, s :: steps =>
    Steps.holds (ep.acceptsEpochBytes PlainEpoch.libs s.2.number s.2.epochBytes (s.2.number - 1)
        (PlainEpoch.block (s.2.number - 1) []).time) id &&
      match ep.insertBlock PlainEpoch.libs s.1 s.2 with
      | .ok ep' => allAccepted ep' steps
      | .error _ => true

/-- The node stops with a panic. -/
def stopsWith (r : Go Epoch) (p : GoPanic) : Bool :=
  match r with
  | .ok _ => false
  | .error p' => p' == p

/-- **A valid next epoch that is carried one block late is not recorded, and the node stops one
block before the end of the epoch.** -/
theorem carried_late_not_recorded :
    allAccepted PlainEpoch.genesis (firstBlocks carriedLate) = true ∧
    Steps.holds afterSecond (fun ep =>
      ep.shouldProposeNextEpoch 3 &&
      decide (carriedNext PlainEpoch.libs ep (PlainEpoch.block 3 [2]) =
        some PlainEpoch.nextEpoch) &&
      Steps.holds (ep.validateNextEpoch PlainEpoch.libs PlainEpoch.nextEpoch 2 2000000000) id &&
      Steps.holds (ep.insertBlock PlainEpoch.libs (PlainEpoch.insertion 0) (PlainEpoch.block 3 [2]))
        fun ep' => ep'.nextEpoch.isNone && ep'.getNextEpoch.nextEpoch.isNone) = true ∧
    stopsWith (insertBlocks PlainEpoch.libs PlainEpoch.genesis (firstBlocks carriedLate))
      .nilDeref = true := by
  decide +kernel

/-- The second block carries the next epoch. -/
def carriedInTime : ℕ → Bytes
  | 1 => [1]
  | 2 => [2]
  | _ => []

/-- The next epoch is known when it is carried in time. -/
theorem knowsNextEpoch_iff_inTime :
    KnowsNextEpoch PlainEpoch.libs PlainEpoch.genesis (firstBlocks carriedInTime) ∧
      ∃ s ∈ firstBlocks carriedInTime, RecordedBy PlainEpoch.libs PlainEpoch.genesis s.1 s.2 := by
  have hprev : PlainEpoch.genesis.HasPrevious := fun h => absurd h (lt_irrefl 0)
  have hfresh : PlainEpoch.genesis.Fresh := ⟨rfl, by decide +kernel⟩
  have hblocks : BlocksOf PlainEpoch.genesis (firstBlocks carriedInTime) :=
    ⟨by decide +kernel, by decide +kernel, by decide +kernel⟩
  have hrec : ∃ s ∈ firstBlocks carriedInTime,
      RecordedBy PlainEpoch.libs PlainEpoch.genesis s.1 s.2 :=
    ⟨(PlainEpoch.insertion 0, PlainEpoch.block 2 [2]), .tail _ (.head _),
      .inr rfl, rfl, fun _ => rfl⟩
  exact ⟨(knowsNextEpoch_iff hprev hfresh hblocks).2 hrec, hrec⟩

end Epoch

end Staking

end LigoChain
