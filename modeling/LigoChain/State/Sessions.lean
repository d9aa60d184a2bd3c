/-
# A state in use

What a holder of a `StateDB` can ask of it (`chain/core/state/statedb.go`): the functions on
accounts and sets, `CreateAccount`, `Snapshot` and `RevertToSnapshot`, `Finalise`,
`IntermediateRoot` and `Commit`.  The ids of snapshots are handed out and handed back, so a request names a snapshot
by how many were taken since.

Reads leave something behind here: the object they open stays open, the entry they read is
cached, also when there is none, and the reward of side chains is kept in memory once it was
read from the trie (`Op.leaves`).

The accounts do not depend on the sets, on the reward of side chains or on the ids of
snapshots: a request on accounts does the same under any of them (`Op.ask_withFrame`,
`foldlM_withFrame`).
-/

import LigoChain.State.Revert

namespace LigoChain
namespace State

namespace StateDB

/-- One round of the loop of `Commit`. -/
def commitObject (s : StateDB) (addr : Address) : Go StateDB :=
  if s.stateObjectsDirty.contains addr then do
    let s ← s.finaliseObject addr
    .ok { s with stateObjectsDirty := s.stateObjectsDirty.erase addr }
  else .ok s

/-- `Commit(true)`: what is dirty is written, and is not dirty afterwards. -/
def commit (s : StateDB) : Go (Root × StateDB) := do
  let s ← s.stateObjects.keys.foldlM commitObject s
  let s ← s.commitSets
  .ok (s.root, { s with
    sets := fun kind => { s.sets kind with dirty := false }
    sideChainRewardPerBlock := { s.sideChainRewardPerBlock with dirty := false }
    journal := []
    validRevisions := [] })

/-- `Reset`: the sets and the reward are taken from memory, and are as dirty as they were. -/
def reset (s : StateDB) (root : Root) : StateDB where
  trie := root.accounts
  stateObjects := ∅
  stateObjectsDirty := ∅
  sets := fun kind => ⟨root.sets kind, ∅, (s.sets kind).dirty⟩
  sideChainRewardPerBlock := ⟨root.sideChainReward, none, s.sideChainRewardPerBlock.dirty⟩
  journal := []
  validRevisions := []
  nextRevisionId := s.nextRevisionId

/-! ## What reads leave behind -/

/-- `getStateObject` keeps the object that it has opened; `read` is what a read of one of its
tries does to it. -/
def leave (s : StateDB) (addr : Address) (read : StateObject → StateObject) : StateDB :=
  match s.getStateObject addr with
  | none => s
  | some o => { s with stateObjects := s.stateObjects.insert addr (read o) }

end StateDB

/-- `GetAccountProxiedBalance` caches what it has read. -/
def StateObject.readProxied (user : Address) (o : StateObject) : StateObject :=
  { o with proxied := o.proxied.load o.data.proxiedTrie user }

/-- `GetDelegateRewardBalance` caches what it has read. -/
def StateObject.readReward (deleAddress : Address) (o : StateObject) : StateObject :=
  { o with reward := o.reward.load o.data.rewardTrie deleAddress }

/-- The state that a read leaves. -/
def Op.leaves : ⦃β : Type⦄ → Op β → StateDB → StateDB
  | _, .exist addr, s | _, .empty addr, s | _, .getAmount _ addr, s
  | _, .getSideChainDepositBalance _ addr, s | _, .getNonce addr, s | _, .proxiedKeys addr, s
  | _, .proxiedValue addr _, s | _, .isCandidate addr, s | _, .isCleanAddress addr, s
  | _, .getPubkey addr, s | _, .getCommission addr, s | _, .hasTX _ addr _, s => s.leave addr id
  | _, .getByUser _ addr user, s => s.leave addr (.readProxied user)
  | _, .getRewardBalanceByDelegateAddress addr deleAddress, s =>
    s.leave addr (.readReward deleAddress)
  | _, .getSideChainRewardPerBlock, s =>
    let reward := s.sideChainRewardPerBlock
    { s with sideChainRewardPerBlock := { reward with memory := reward.memory.or reward.stored } }
  | _, _, s => s

/-- A function of the state is called. -/
def Op.ask ⦃β : Type⦄ (o : Op β) (s : StateDB) : Go (β × StateDB) :=
  (o.run s).map fun r => (r.1, o.leaves r.2)

/-! ## Requests -/

/-- What can be asked of a state; a snapshot is named by the number of those taken after it. -/
inductive Request : Type → Type 1
  | op {β : Type} (o : Op β) : Request β
  | createAccount (addr : Address) : Request Unit
  | snapshot : Request Unit
  | revert (n : ℕ) : Request Unit
  | finalise : Request Unit
  | intermediateRoot : Request Root
  | commit : Request Root

/-- A state, and the ids of the snapshots taken of it, the newest first. -/
structure Session where
  state : StateDB
  ids : List ℕ

/-- A request is answered. -/
def Request.run : ⦃β : Type⦄ → Request β → Session → Go (β × Session)
  | _, .op o, x => (o.ask x.state).map fun r => (r.1, ⟨r.2, x.ids⟩)
  | _, .createAccount addr, x => .ok ((), ⟨x.state.createAccount addr, x.ids⟩)
  | _, .snapshot, x => .ok ((), ⟨x.state.snapshot.2, x.state.snapshot.1 :: x.ids⟩)
  | _, .revert n, x =>
    match x.ids[n]? with
    | none => .ok ((), x)
    | some id => (x.state.revertToSnapshot id).map fun s => ((), ⟨s, x.ids⟩)
  | _, .finalise, x => x.state.finalise.map fun s => ((), ⟨s, x.ids⟩)
  | _, .intermediateRoot, x => x.state.intermediateRoot.map fun r => (r.1, ⟨r.2, x.ids⟩)
  | _, .commit, x => x.state.commit.map fun r => (r.1, ⟨r.2, x.ids⟩)

/-! ## What the accounts do not depend on -/

/-- The part of a state that is not about accounts. -/
structure Frame where
  sets : SetKind → AddressSet
  sideChainRewardPerBlock : SideChainReward
  validRevisions : List (ℕ × ℕ)
  nextRevisionId : ℕ

namespace StateDB

/-- The part of the state that is not about accounts. -/
def frame (s : StateDB) : Frame :=
  ⟨s.sets, s.sideChainRewardPerBlock, s.validRevisions, s.nextRevisionId⟩

/-- The accounts with another frame. -/
def withFrame (f : Frame) (s : StateDB) : StateDB :=
  { s with
    sets := f.sets
    sideChainRewardPerBlock := f.sideChainRewardPerBlock
    validRevisions := f.validRevisions
    nextRevisionId := f.nextRevisionId }

variable (f g : Frame) (s : StateDB) (addr : Address) (p : StateObject × StateDB)

@[simp] theorem withFrame_frame : s.withFrame s.frame = s := rfl

@[simp] theorem frame_withFrame : (s.withFrame f).frame = f := rfl

@[simp] theorem getStateObject_withFrame :
    (s.withFrame f).getStateObject addr = s.getStateObject addr := rfl

/-- An object, and its state with another frame. -/
def reframe : StateObject × StateDB := (p.1, p.2.withFrame f)

@[simp] theorem reframe_fst : (reframe f p).1 = p.1 := rfl

@[simp] theorem reframe_snd : (reframe f p).2 = p.2.withFrame f := rfl

theorem setField_withFrame (o : StateObject) (w : FieldWrite) :
    (s.withFrame f).setField addr o w = reframe f (s.setField addr o w) := by
  unfold setField
  simp only
  split <;> rfl

@[simp] theorem writeField_reframe (w : FieldWrite) :
    writeField addr (reframe f p) w = reframe f (writeField addr p w) :=
  setField_withFrame f { p.2 with journal := .field addr (p.1.prev w) :: p.2.journal } addr
    (p.1.loaded w) w

@[simp] theorem touch_reframe : touch addr (reframe f p) = reframe f (touch addr p) := rfl

@[simp] theorem getOrNewStateObject_withFrame :
    (s.withFrame f).getOrNewStateObject addr = reframe f (s.getOrNewStateObject addr) := by
  unfold getOrNewStateObject
  rw [getStateObject_withFrame]
  cases s.getStateObject addr <;> rfl

@[simp] theorem addObjectAmount_reframe (field : AmountField) (amount : ℤ) :
    addObjectAmount field addr (reframe f p) amount =
      reframe f (addObjectAmount field addr p amount) := by
  unfold addObjectAmount
  rw [touch_reframe, writeField_reframe, reframe_fst]
  split
  · split <;> rfl
  · rfl

@[simp] theorem subObjectAmount_reframe (field : AmountField) (amount : ℤ) :
    subObjectAmount field addr (reframe f p) amount =
      reframe f (subObjectAmount field addr p amount) := by
  unfold subObjectAmount
  rw [writeField_reframe, reframe_fst]
  split <;> rfl

@[simp] theorem leave_withFrame (read : StateObject → StateObject) :
    (s.withFrame f).leave addr read = (s.leave addr read).withFrame f := by
  unfold leave
  rw [getStateObject_withFrame]
  cases s.getStateObject addr <;> rfl

theorem createAccount_withFrame :
    (s.withFrame f).createAccount addr = (s.createAccount addr).withFrame f := by
  unfold createAccount
  rw [getStateObject_withFrame]
  cases s.getStateObject addr <;> rfl

theorem undo_withFrame (e : JournalEntry) :
    (s.withFrame f).undo e = (s.undo e).map (withFrame f) := by
  cases e with
  | createObject addr | resetObject addr prev => rfl
  | touch addr prev prevDirty =>
    simp only [undo, getStateObject_withFrame]
    split
    · cases s.getStateObject addr <;> rfl
    · rfl
  | field addr w =>
    simp only [undo, getStateObject_withFrame]
    cases s.getStateObject addr with
    | none => rfl
    | some o => exact congrArg Except.ok (congrArg Prod.snd (setField_withFrame f s addr o w))

theorem finaliseObject_withFrame :
    (s.withFrame f).finaliseObject addr = (s.finaliseObject addr).map (withFrame f) := by
  unfold finaliseObject
  simp only [withFrame]
  cases s.stateObjects[addr]? with
  | none => rfl
  | some o =>
    simp only
    split
    · rfl
    · cases o.updateRoots with
      | none => rfl
      | some o =>
        simp only
        split <;> rfl

theorem commitObject_withFrame :
    (s.withFrame f).commitObject addr = (s.commitObject addr).map (withFrame f) := by
  have hdirty : (s.withFrame f).stateObjectsDirty = s.stateObjectsDirty := rfl
  unfold commitObject
  rw [finaliseObject_withFrame, hdirty]
  split
  · cases s.finaliseObject addr <;> rfl
  · rfl

variable {f} in
/-- **A loop over accounts** does the same with another frame. -/
theorem foldlM_withFrame {β : Type} {step : StateDB → β → Go StateDB}
    (hstep : ∀ s b, step (s.withFrame f) b = (step s b).map (withFrame f)) (l : List β)
    (s : StateDB) : l.foldlM step (s.withFrame f) = (l.foldlM step s).map (withFrame f) := by
  induction l generalizing s with
  | nil => rfl
  | cons b l ih =>
    rw [List.foldlM_cons, List.foldlM_cons, hstep]
    cases step s b with
    | error e => rfl
    | ok t => exact ih t

end StateDB

/-- The functions on accounts. -/
def Op.onAccounts : ⦃β : Type⦄ → Op β → Bool
  | _, .getSet _ | _, .markSet _ _ | _, .clearSetByAddress _ _ | _, .clearDelegateRefundSet
  | _, .getSideChainRewardPerBlock | _, .setSideChainRewardPerBlock _ => false
  | _, _ => true

open StateDB in
/-- **A function on accounts** does the same with another frame. -/
theorem Op.run_withFrame ⦃β : Type⦄ {o : Op β} (h : o.onAccounts = true) (f : Frame)
    (s : StateDB) : o.run (s.withFrame f) = (o.run s).map fun r => (r.1, r.2.withFrame f) := by
  cases o with
  | addAvailableRewardBalance addr amount
  | subAvailableRewardBalance addr amount =>
    simp only [Op.run, StateDB.addAvailableRewardBalance, StateDB.subAvailableRewardBalance,
      getStateObject_withFrame, StateDB.addAmount, StateDB.subAmount,
      getOrNewStateObject_withFrame, addObjectAmount_reframe, subObjectAmount_reframe, reframe_snd]
    cases s.getStateObject addr <;> rfl
  | addSideChainDepositBalance addr chainId amount
  | subSideChainDepositBalance addr chainId amount =>
    simp only [Op.run, StateDB.addSideChainDepositBalance, StateDB.subSideChainDepositBalance,
      getOrNewStateObject_withFrame, touch_reframe, writeField_reframe, reframe_fst, reframe_snd]
    split
    · first | (split <;> rfl) | rfl
    · rfl
  | proxiedValue addr key =>
    have hvalue : (s.withFrame f).proxiedValue addr key = s.proxiedValue addr key := rfl
    simp only [Op.run, hvalue]
    cases s.proxiedValue addr key <;> rfl
  | subRewardBalanceByDelegateAddress addr deleAddress amount =>
    simp only [Op.run, StateDB.subRewardBalanceByDelegateAddress, getOrNewStateObject_withFrame,
      writeField_reframe, subObjectAmount_reframe, reframe_fst, reframe_snd]
    cases (s.getOrNewStateObject addr).1.getDelegateRewardBalance deleAddress <;> rfl
  | cancelCandidate addr allRefund =>
    simp only [Op.run, StateDB.cancelCandidate, getOrNewStateObject_withFrame, writeField_reframe,
      reframe_snd]
    cases allRefund <;> rfl
  | getSet kind | markSet kind addr | clearSetByAddress kind addr | clearDelegateRefundSet
  | getSideChainRewardPerBlock | setSideChainRewardPerBlock rewardPerBlock =>
    exact absurd h Bool.false_ne_true
  | _ =>
    simp only [Op.run, StateDB.addAmount, StateDB.subAmount, StateDB.setAmount,
      StateDB.setSideChainDepositBalance, StateDB.setNonce, StateDB.addByUser, StateDB.subByUser,
      StateDB.changeEntry, StateDB.addRewardBalanceByDelegateAddress, StateDB.getBanned,
      StateDB.setBanned, StateDB.setCommission, StateDB.applyForCandidate, StateDB.addTX,
      getOrNewStateObject_withFrame, addObjectAmount_reframe, subObjectAmount_reframe,
      writeField_reframe, reframe_fst, reframe_snd]
    rfl

open StateDB in
theorem Op.ask_withFrame ⦃β : Type⦄ {o : Op β} (h : o.onAccounts = true) (f : Frame)
    (s : StateDB) : o.ask (s.withFrame f) = (o.ask s).map fun r => (r.1, r.2.withFrame f) := by
  have hleaves : ∀ t : StateDB, o.leaves (t.withFrame f) = (o.leaves t).withFrame f := by
    intro t
    cases o with
    | getSideChainRewardPerBlock => exact absurd h Bool.false_ne_true
    | _ =>
      simp only [Op.leaves, leave_withFrame]
  unfold Op.ask
  rw [Op.run_withFrame h]
  cases o.run s with
  | error e => rfl
  | ok r => exact congrArg (fun t => Except.ok (r.1, t)) (hleaves r.2)

/-! ## What `Commit` writes -/

namespace StateDB

/-- The state with other marks. -/
def withMarks (dirty : FinSet Address) (s : StateDB) : StateDB := { s with stateObjectsDirty := dirty }

theorem finaliseObject_withMarks (dirty : FinSet Address) (s : StateDB) (addr : Address) :
    (s.withMarks dirty).finaliseObject addr = (s.finaliseObject addr).map (withMarks dirty) := by
  unfold finaliseObject
  simp only [withMarks]
  cases s.stateObjects[addr]? with
  | none => rfl
  | some o =>
    simp only
    split
    · rfl
    · cases o.updateRoots with
      | none => rfl
      | some o =>
        simp only
        split <;> rfl

theorem foldlM_finaliseObject_withMarks (dirty : FinSet Address) (l : List Address) (s : StateDB) :
    l.foldlM finaliseObject (s.withMarks dirty) =
      (l.foldlM finaliseObject s).map (withMarks dirty) := by
  induction l generalizing s with
  | nil => rfl
  | cons addr l ih =>
    rw [List.foldlM_cons, List.foldlM_cons, finaliseObject_withMarks]
    cases s.finaliseObject addr with
    | error e => rfl
    | ok t => exact ih t

/-- The loop of `Finalise` keeps the marks. -/
theorem finaliseObject_marks {s t : StateDB} {addr : Address} (h : s.finaliseObject addr = .ok t) :
    t.stateObjectsDirty = s.stateObjectsDirty := by
  have hsame : s.finaliseObject addr = .ok (t.withMarks s.stateObjectsDirty) := by
    have := finaliseObject_withMarks s.stateObjectsDirty s addr
    rw [h] at this
    exact this
  have ht : t = t.withMarks s.stateObjectsDirty := Except.ok.inj (h.symm.trans hsame)
  rw [ht]
  rfl

/-- **The loop of `Commit`** is that of `Finalise` over the marked objects; it takes their marks. -/
theorem foldlM_commitObject {l : List Address} (hnodup : l.Nodup) (s : StateDB) :
    ∃ marks : StateDB → FinSet Address, l.foldlM commitObject s =
      ((l.filter fun addr => s.stateObjectsDirty.contains addr).foldlM finaliseObject s).map
        fun t => t.withMarks (marks t) := by
  induction l generalizing s with
  | nil => exact ⟨stateObjectsDirty, rfl⟩
  | cons addr l ih =>
    obtain ⟨hnew, hnodup⟩ := List.nodup_cons.1 hnodup
    rw [List.foldlM_cons, List.filter_cons]
    unfold commitObject
    cases hdirty : s.stateObjectsDirty.contains addr with
    | false =>
      obtain ⟨marks, hrest⟩ := ih hnodup s
      exact ⟨marks, hrest⟩
    | true =>
      simp only [if_true]
      cases hobject : s.finaliseObject addr with
      | error e =>
        refine ⟨stateObjectsDirty, ?_⟩
        rw [List.foldlM_cons, hobject]
        rfl
      | ok t =>
        obtain ⟨marks, hrest⟩ := ih hnodup (t.withMarks (t.stateObjectsDirty.erase addr))
        have hfilter : (l.filter fun a => (t.stateObjectsDirty.erase addr).contains a) =
            l.filter fun a => s.stateObjectsDirty.contains a := by
          refine List.filter_congr fun a ha => ?_
          have hne : addr ≠ a := fun heq => hnew (heq ▸ ha)
          rw [finaliseObject_marks hobject, Bool.eq_iff_iff, Std.ExtTreeSet.contains_iff_mem,
            Std.ExtTreeSet.contains_iff_mem, Std.ExtTreeSet.mem_erase, ne_eq,
            Std.compare_eq_iff_eq]
          exact and_iff_right hne
        refine ⟨fun u => marks (u.withMarks (t.stateObjectsDirty.erase addr)), ?_⟩
        rw [List.foldlM_cons, hobject]
        refine hrest.trans ?_
        rw [show (t.withMarks (t.stateObjectsDirty.erase addr)).stateObjectsDirty =
          t.stateObjectsDirty.erase addr from rfl, hfilter, foldlM_finaliseObject_withMarks]
        show _ = Except.map _ (List.foldlM finaliseObject t _)
        cases List.foldlM finaliseObject t _ <;> rfl

theorem commitSets_withMarks (dirty : FinSet Address) (s : StateDB) :
    (s.withMarks dirty).commitSets = s.commitSets.map (withMarks dirty) := by
  have hreward : (s.withMarks dirty).sideChainRewardPerBlock = s.sideChainRewardPerBlock := rfl
  rw [commitSets_eq, commitSets_eq, hreward]
  split <;> rfl

/-- **`Commit` writes what `Finalise` writes**, and its objects say the same, if every marked account
has an object. -/
theorem commit_eq {s : StateDB} (h : ∀ addr ∈ s.stateObjectsDirty, addr ∈ s.stateObjects) :
    (fun r => (r.1, r.2.view.accounts)) <$> s.commit =
      (fun t => (t.root, t.view.accounts)) <$> s.finalise := by
  obtain ⟨marks, hloop⟩ := foldlM_commitObject Std.ExtTreeMap.nodup_keys s
    (l := s.stateObjects.keys)
  unfold commit finalise
  rw [hloop, ← FinSet.toList_eq_filter_keys _ _ h]
  cases s.stateObjectsDirty.toList.foldlM finaliseObject s with
  | error e => rfl
  | ok t =>
    show (fun r : Root × StateDB => (r.1, r.2.view.accounts)) <$>
      ((t.withMarks (marks t)).commitSets >>= _) =
        (fun t : StateDB => (t.root, t.view.accounts)) <$> (t.commitSets >>= _)
    rw [commitSets_withMarks]
    cases t.commitSets <;> rfl

theorem Wf.dirty_subset {s : StateDB} (h : s.Wf) :
    ∀ addr ∈ s.stateObjectsDirty, addr ∈ s.stateObjects := fun addr haddr => by
  obtain ⟨o, ho, -⟩ := (h.dirty addr).1 haddr
  rw [Std.ExtTreeMap.mem_iff_isSome_getElem?, ho]
  rfl

theorem Wf.commit_root {s : StateDB} (h : s.Wf) : Prod.fst <$> s.commit = root <$> s.finalise := by
  have heq := congrArg (Functor.map Prod.fst) (commit_eq h.dirty_subset)
  cases hcommit : s.commit <;> cases hfinalise : s.finalise <;> rw [hcommit, hfinalise] at heq <;>
    first
      | exact heq
      | cases heq

end StateDB

end State
end LigoChain
