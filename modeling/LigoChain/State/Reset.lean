/-
# A state that was reset

`Reset` and `New` (`chain/core/state/statedb.go`).  `Reset` keeps the flags that say which of
the sets of addresses, and whether the reward of side chains, are to be written by the next
`Finalise`; what that writes then is what it finds in memory, which is nothing.

**A state that was reset answers every sequence of requests as a new one does exactly if
nothing was to be written, or the trie has just what is written instead** (`reset_eq_new_iff`).
The two states differ in such flags, and in the ids of snapshots (`Session.Alike`).
-/

import LigoChain.State.Sessions

namespace LigoChain
namespace State

/-- The sets are the same, or differ in that one would write an empty set where the trie has
one. -/
inductive AddressSet.Alike : AddressSet → AddressSet → Prop
  | same (set : AddressSet) : Alike set set
  | stale : Alike ⟨some ∅, ∅, true⟩ ⟨some ∅, ∅, false⟩

/-- The same of the reward of side chains. -/
inductive SideChainReward.Alike : SideChainReward → SideChainReward → Prop
  | same (reward : SideChainReward) : Alike reward reward
  | stale {memory : Option ℤ} (h : memory.getD 0 = 0) :
      Alike ⟨some 0, memory, true⟩ ⟨some 0, memory, false⟩

namespace AddressSet

variable {x y : AddressSet}

theorem Alike.entry (h : x.Alike y) : x.entry = y.entry := by
  cases h <;> rfl

theorem Alike.load (h : x.Alike y) : x.load.Alike y.load ∧ x.load.memory = y.load.memory := by
  cases h with
  | same => exact ⟨.same _, rfl⟩
  | stale => exact ⟨.stale, rfl⟩

theorem Alike.mark (h : x.Alike y) (addr : Address) : (x.mark addr).Alike (y.mark addr) := by
  cases h with
  | same => exact .same _
  | stale =>
    have hmark : ∀ dirty, (⟨some ∅, ∅, dirty⟩ : AddressSet).mark addr =
        ⟨some ∅, (∅ : FinSet Address).insert addr, true⟩ := by
      intro dirty
      have hload : (⟨some ∅, ∅, dirty⟩ : AddressSet).load = ⟨some ∅, ∅, dirty⟩ := rfl
      rw [AddressSet.mark, hload, if_neg (by simp)]
    rw [hmark, hmark]
    exact .same _

theorem Alike.clear (h : x.Alike y) (addr : Address) : (x.clear addr).Alike (y.clear addr) := by
  cases h <;> exact .same _

theorem Alike.committed (h : x.Alike y) : x.committed.Alike y.committed := by
  cases h with
  | same => exact .same _
  | stale => exact .stale

theorem entry_committed (set : AddressSet) :
    set.committed.entry = if set.dirty then some set.memory else set.entry := by
  obtain ⟨entry, memory, dirty⟩ := set
  cases dirty <;> rfl

theorem Alike.clean (h : x.Alike y) : { x with dirty := false } = { y with dirty := false } := by
  cases h <;> rfl

end AddressSet

namespace SideChainReward

variable {x y : SideChainReward}

theorem Alike.value (h : x.Alike y) : x.memory.or x.stored = y.memory.or y.stored := by
  cases h <;> rfl

theorem Alike.read (h : x.Alike y) :
    Alike { x with memory := x.memory.or x.stored } { y with memory := y.memory.or y.stored } := by
  cases h with
  | same => exact .same _
  | @stale memory h =>
    refine .stale ?_
    cases memory with
    | none => rfl
    | some value => exact h

theorem Alike.write (h : x.Alike y) (value : ℤ) :
    Alike { x with memory := some value, dirty := true }
      { y with memory := some value, dirty := true } := by
  cases h <;> exact .same _

theorem Alike.committed (h : x.Alike y) : x.committed.Alike y.committed := by
  cases h with
  | same => exact .same _
  | @stale memory h =>
    have hcommitted : (⟨some 0, memory, true⟩ : SideChainReward).committed = ⟨some 0, memory, true⟩ :=
      congrArg (fun value => (⟨some value, memory, true⟩ : SideChainReward)) h
    rw [hcommitted]
    exact .stale h

theorem stored_committed (reward : SideChainReward) :
    reward.committed.stored = if reward.dirty then some (reward.memory.getD 0) else reward.stored := by
  obtain ⟨stored, memory, dirty⟩ := reward
  cases dirty <;> rfl

theorem Alike.clean (h : x.Alike y) : { x with dirty := false } = { y with dirty := false } := by
  cases h <;> rfl

end SideChainReward

/-- The frames are the same but for what is stale, and for the ids of snapshots. -/
structure Frame.Alike (d : ℕ) (f g : Frame) : Prop where
  sets : ∀ kind, (f.sets kind).Alike (g.sets kind)
  reward : f.sideChainRewardPerBlock.Alike g.sideChainRewardPerBlock
  validRevisions : f.validRevisions = g.validRevisions.map fun r => (r.1 + d, r.2)
  nextRevisionId : f.nextRevisionId = g.nextRevisionId + d

/-- The states are the same but for their frames. -/
structure StateDB.Alike (d : ℕ) (s t : StateDB) : Prop where
  trie : s.trie = t.trie
  stateObjects : s.stateObjects = t.stateObjects
  stateObjectsDirty : s.stateObjectsDirty = t.stateObjectsDirty
  journal : s.journal = t.journal
  frame : s.frame.Alike d t.frame

/-- The sessions are the same but for what is stale, and for the ids of snapshots. -/
structure Session.Alike (d : ℕ) (x y : Session) : Prop where
  state : x.state.Alike d y.state
  ids : x.ids = y.ids.map (· + d)

namespace StateDB

variable {d : ℕ} {s t : StateDB}

theorem Alike.accounts (h : s.Alike d t) : s = t.withFrame s.frame := by
  cases s
  cases t
  obtain ⟨rfl, rfl, rfl, rfl, -⟩ := h
  rfl

theorem alike_withFrame {f : Frame} (h : f.Alike d t.frame) : (t.withFrame f).Alike d t :=
  ⟨rfl, rfl, rfl, rfl, h⟩

theorem Alike.update (h : s.Alike d t) (kind : SetKind) {x y : AddressSet} (hxy : x.Alike y) :
    Alike d { s with sets := Function.update s.sets kind x }
      { t with sets := Function.update t.sets kind y } := by
  refine ⟨h.trie, h.stateObjects, h.stateObjectsDirty, h.journal,
    ⟨fun k => ?_, h.frame.reward, h.frame.validRevisions, h.frame.nextRevisionId⟩⟩
  simp only [StateDB.frame, Function.update_apply]
  split_ifs
  · exact hxy
  · exact h.frame.sets k

theorem Alike.updateReward (h : s.Alike d t) {x y : SideChainReward} (hxy : x.Alike y) :
    Alike d { s with sideChainRewardPerBlock := x } { t with sideChainRewardPerBlock := y } :=
  ⟨h.trie, h.stateObjects, h.stateObjectsDirty, h.journal,
    ⟨h.frame.sets, hxy, h.frame.validRevisions, h.frame.nextRevisionId⟩⟩

/-- **A step on accounts** that does the same with any frame. -/
theorem Alike.map {α : Type} (h : s.Alike d t) {step : StateDB → Go (α × StateDB)}
    (hstep : ∀ f u, step (withFrame f u) = (step u).map fun r => (r.1, r.2.withFrame f)) :
    Prog.Agree (Alike d) (step s) (step t) := by
  have hs := hstep s.frame t
  have ht := hstep t.frame t
  rw [← h.accounts] at hs
  rw [withFrame_frame] at ht
  rw [hs]
  cases hr : step t with
  | error e => exact .error e
  | ok r =>
    rw [hr] at ht
    have hframe : r.2.frame = t.frame := congrArg (fun r => r.2.frame) (Except.ok.inj ht)
    refine .ok r.1 (alike_withFrame ?_)
    rw [hframe]
    exact h.frame

theorem Alike.foldlM {β : Type} (h : s.Alike d t) {step : StateDB → β → Go StateDB}
    (hstep : ∀ f u b, step (withFrame f u) b = (step u b).map (withFrame f)) (l : List β) :
    Prog.Same (Alike d) (l.foldlM step s) (l.foldlM step t) := by
  have hs := foldlM_withFrame (hstep s.frame) l t
  have ht := foldlM_withFrame (hstep t.frame) l t
  rw [← h.accounts] at hs
  rw [withFrame_frame] at ht
  rw [hs]
  cases hr : l.foldlM step t with
  | error e => exact .error e
  | ok u =>
    rw [hr] at ht
    have hsame : u = u.withFrame t.frame := Except.ok.inj ht
    have hframe : u.frame = t.frame := by
      rw [hsame]
      rfl
    refine .ok (alike_withFrame ?_)
    rw [hframe]
    exact h.frame

theorem Alike.ask (h : s.Alike d t) ⦃β : Type⦄ (o : Op β) :
    Prog.Agree (Alike d) (o.ask s) (o.ask t) := by
  cases o with
  | getSet kind =>
    have hload := (h.frame.sets kind).load
    have hanswer : s.getSet kind = t.getSet kind := hload.2
    simp only [Op.ask, Op.run, hanswer]
    exact .ok _ (h.update kind hload.1)
  | markSet kind addr =>
    simp only [Op.ask, Op.run, markSet_eq]
    exact .ok _ (h.update kind ((h.frame.sets kind).mark addr))
  | clearSetByAddress kind addr => exact .ok _ (h.update kind ((h.frame.sets kind).clear addr))
  | clearDelegateRefundSet => exact .ok _ (h.update .delegateRefund (.same _))
  | getSideChainRewardPerBlock =>
    have hanswer : s.getSideChainRewardPerBlock = t.getSideChainRewardPerBlock :=
      congrArg (fun value => Option.getD value 0) h.frame.reward.value
    simp only [Op.ask, Op.run, hanswer]
    exact .ok _ (h.updateReward h.frame.reward.read)
  | setSideChainRewardPerBlock rewardPerBlock =>
    exact .ok _ (h.updateReward (h.frame.reward.write rewardPerBlock))
  | _ => exact h.map (Op.ask_withFrame rfl)

theorem Alike.createAccount (h : s.Alike d t) (addr : Address) :
    (s.createAccount addr).Alike d (t.createAccount addr) := by
  have hs := createAccount_withFrame s.frame t addr
  have hframe : (t.createAccount addr).frame = t.frame := by
    unfold StateDB.createAccount
    split <;> rfl
  rw [← h.accounts] at hs
  rw [hs]
  refine alike_withFrame ?_
  rw [hframe]
  exact h.frame

theorem Alike.snapshot (h : s.Alike d t) : s.snapshot.2.Alike d t.snapshot.2 := by
  refine ⟨h.trie, h.stateObjects, h.stateObjectsDirty, h.journal,
    ⟨h.frame.sets, h.frame.reward, ?_, ?_⟩⟩
  · have hrevisions := h.frame.validRevisions
    have hnext := h.frame.nextRevisionId
    simp only [StateDB.frame, StateDB.snapshot] at hrevisions hnext ⊢
    rw [hrevisions, hnext, h.journal, List.map_append]
    rfl
  · have hnext := h.frame.nextRevisionId
    simp only [StateDB.frame, StateDB.snapshot] at hnext ⊢
    omega

theorem Alike.revertToSnapshot (h : s.Alike d t) (revid : ℕ) :
    Prog.Same (Alike d) (s.revertToSnapshot (revid + d)) (t.revertToSnapshot revid) := by
  have hrevisions : s.validRevisions = t.validRevisions.map fun r => (r.1 + d, r.2) :=
    h.frame.validRevisions
  unfold StateDB.revertToSnapshot
  rw [hrevisions, h.journal, List.findIdx?_map]
  have hfind : (fun r : ℕ × ℕ => decide (revid + d ≤ r.1)) ∘ (fun r : ℕ × ℕ => (r.1 + d, r.2)) =
      fun r => decide (revid ≤ r.1) := by
    funext r
    simp
  rw [hfind]
  cases t.validRevisions.findIdx? fun r => decide (revid ≤ r.1) with
  | none => exact .error _
  | some idx =>
    simp only [List.getElem?_map]
    cases t.validRevisions[idx]? with
    | none => exact .error _
    | some r =>
      simp only [Option.map_some]
      by_cases hid : r.1 = revid
      · rw [if_neg (by omega), if_neg (by omega)]
        refine (h.foldlM (fun f u => undo_withFrame f u) _).bind fun u v huv => .ok ?_
        exact ⟨huv.trie, huv.stateObjects, huv.stateObjectsDirty,
          congrArg (List.drop (t.journal.length - r.2)) huv.journal,
          ⟨huv.frame.sets, huv.frame.reward,
            (congrArg (List.take idx) huv.frame.validRevisions).trans (List.map_take ..).symm,
            huv.frame.nextRevisionId⟩⟩
      · rw [if_pos (by omega), if_pos (by omega)]
        exact .error _

theorem Alike.commitSets (h : s.Alike d t) :
    Prog.Same (Alike d) s.commitSets t.commitSets := by
  rw [commitSets_eq, commitSets_eq]
  have hreward := h.frame.reward
  have hencodable : (s.sideChainRewardPerBlock.dirty = true →
        0 ≤ s.sideChainRewardPerBlock.memory.getD 0) ↔
      (t.sideChainRewardPerBlock.dirty = true →
        0 ≤ t.sideChainRewardPerBlock.memory.getD 0) := by
    simp only [StateDB.frame] at hreward
    generalize s.sideChainRewardPerBlock = x at hreward
    generalize t.sideChainRewardPerBlock = y at hreward
    cases hreward with
    | same => exact Iff.rfl
    | stale hzero => exact iff_of_true (fun _ => hzero.ge) fun hd => absurd hd Bool.false_ne_true
  by_cases hs : s.sideChainRewardPerBlock.dirty = true →
      0 ≤ s.sideChainRewardPerBlock.memory.getD 0
  · rw [if_pos hs, if_pos (hencodable.1 hs)]
    exact .ok ⟨h.trie, h.stateObjects, h.stateObjectsDirty, h.journal,
      ⟨fun kind => (h.frame.sets kind).committed, hreward.committed, h.frame.validRevisions,
        h.frame.nextRevisionId⟩⟩
  · rw [if_neg hs, if_neg (mt hencodable.2 hs)]
    exact .error _

theorem Alike.clearJournal (h : s.Alike d t) :
    Alike d { s with journal := [], validRevisions := [] }
      { t with journal := [], validRevisions := [] } :=
  ⟨h.trie, h.stateObjects, h.stateObjectsDirty, rfl,
    ⟨h.frame.sets, h.frame.reward, rfl, h.frame.nextRevisionId⟩⟩

theorem Alike.finalise (h : s.Alike d t) : Prog.Same (Alike d) s.finalise t.finalise := by
  unfold StateDB.finalise
  rw [h.stateObjectsDirty]
  refine (h.foldlM (fun f u => finaliseObject_withFrame f u) _).bind fun u v huv => ?_
  exact huv.commitSets.bind fun x y hxy => .ok hxy.clearJournal

theorem Alike.root (h : s.Alike d t) : s.root = t.root := by
  have hreward : s.sideChainRewardPerBlock.stored = t.sideChainRewardPerBlock.stored := by
    have hreward := h.frame.reward
    simp only [StateDB.frame] at hreward
    generalize s.sideChainRewardPerBlock = x at hreward ⊢
    generalize t.sideChainRewardPerBlock = y at hreward ⊢
    cases hreward <;> rfl
  unfold StateDB.root
  rw [h.trie, hreward, show (fun kind => (s.sets kind).entry) = fun kind => (t.sets kind).entry from
    funext fun kind => (h.frame.sets kind).entry]

theorem Alike.commit (h : s.Alike d t) :
    Prog.Agree (Alike d) s.commit t.commit := by
  unfold StateDB.commit
  rw [h.stateObjects]
  refine (h.foldlM (fun f u => commitObject_withFrame f u) _).bindAgree fun u v huv => ?_
  refine huv.commitSets.bindAgree fun x y hxy => ?_
  have hsets : (fun kind => { x.sets kind with dirty := false }) =
      fun kind => { y.sets kind with dirty := false } :=
    funext fun kind => (hxy.frame.sets kind).clean
  have hreward : { x.sideChainRewardPerBlock with dirty := false } =
      { y.sideChainRewardPerBlock with dirty := false } := hxy.frame.reward.clean
  rw [hxy.root, hsets, hreward]
  exact .ok _ ⟨hxy.trie, hxy.stateObjects, hxy.stateObjectsDirty, rfl,
    ⟨fun kind => .same _, .same _, rfl, hxy.frame.nextRevisionId⟩⟩

end StateDB

theorem Session.Alike.answer {d : ℕ} {x y : Session} (h : x.Alike d y) {β : Type}
    {r r' : Go (β × StateDB)} (hr : Prog.Agree (StateDB.Alike d) r r') :
    Prog.Agree (Session.Alike d) (r.map fun r => (r.1, ⟨r.2, x.ids⟩))
      (r'.map fun r => (r.1, ⟨r.2, y.ids⟩)) := by
  cases hr with
  | error p => exact .error p
  | ok b hst => exact .ok b ⟨hst, h.ids⟩

/-- **Sessions that are alike answer every request alike.** -/
theorem Request.agree ⦃β : Type⦄ (r : Request β) {d : ℕ} (x y : Session) (h : x.Alike d y) :
    Prog.Agree (Session.Alike d) (r.run x) (r.run y) := by
  cases r with
  | op o => exact h.answer (h.state.ask o)
  | createAccount addr => exact .ok () ⟨h.state.createAccount addr, h.ids⟩
  | snapshot =>
    refine .ok () ⟨h.state.snapshot, ?_⟩
    show x.state.nextRevisionId :: x.ids = (y.state.nextRevisionId :: y.ids).map (· + d)
    rw [List.map_cons, h.ids, show x.state.nextRevisionId = y.state.nextRevisionId + d from
      h.state.frame.nextRevisionId]
  | revert n =>
    simp only [Request.run, h.ids, List.getElem?_map]
    cases y.ids[n]? with
    | none => exact .ok () h
    | some id => exact (h.state.revertToSnapshot id).agree fun s t hst => ⟨rfl, hst, rfl⟩
  | finalise => exact h.state.finalise.agree fun s t hst => ⟨rfl, hst, h.ids⟩
  | intermediateRoot =>
    refine h.answer (h.state.finalise.bindAgree fun s t hst => ?_)
    rw [hst.root]
    exact .ok _ hst
  | commit => exact h.answer h.state.commit

/-! ## Reset and new -/

/-- What the next `Finalise` writes after a reset is what the trie has. -/
structure ResetHarmless (s : StateDB) (root : Root) : Prop where
  sets : ∀ kind, (s.sets kind).dirty = true → root.sets kind = some ∅
  reward : s.sideChainRewardPerBlock.dirty = true → root.sideChainReward = some 0

theorem ResetHarmless.alike {s : StateDB} {root : Root} (h : ResetHarmless s root) :
    Session.Alike s.nextRevisionId ⟨s.reset root, []⟩ ⟨.new root, []⟩ := by
  refine ⟨⟨rfl, rfl, rfl, rfl, ⟨fun kind => ?_, ?_, rfl, (Nat.zero_add _).symm⟩⟩, rfl⟩
  · show AddressSet.Alike ⟨root.sets kind, ∅, (s.sets kind).dirty⟩ ⟨root.sets kind, ∅, false⟩
    cases hdirty : (s.sets kind).dirty with
    | false => exact .same _
    | true =>
      rw [h.sets kind hdirty]
      exact .stale
  · show SideChainReward.Alike ⟨root.sideChainReward, none, s.sideChainRewardPerBlock.dirty⟩
      ⟨root.sideChainReward, none, false⟩
    cases hdirty : s.sideChainRewardPerBlock.dirty with
    | false => exact .same _
    | true =>
      rw [h.reward hdirty]
      exact .stale rfl

theorem intermediateRoot_reset (s : StateDB) (root : Root) :
    Prod.fst <$> (s.reset root).intermediateRoot = .ok
      ⟨root.accounts, fun kind => if (s.sets kind).dirty then some ∅ else root.sets kind,
        if s.sideChainRewardPerBlock.dirty then some 0 else root.sideChainReward⟩ := by
  have hfinalise : (s.reset root).finalise = (s.reset root).commitSets >>= fun s =>
      .ok { s with journal := [], validRevisions := [] } := rfl
  have hpos : (s.reset root).sideChainRewardPerBlock.dirty = true →
      0 ≤ (s.reset root).sideChainRewardPerBlock.memory.getD 0 := fun _ => le_rfl
  unfold StateDB.intermediateRoot
  rw [hfinalise, StateDB.commitSets_eq, if_pos hpos]
  refine congrArg Except.ok ?_
  show Root.mk root.accounts _ _ = _
  congr 1
  · exact funext fun kind => AddressSet.entry_committed _
  · exact SideChainReward.stored_committed _

/-- **A state that was reset and a new one answer every program alike** exactly if what the next
`Finalise` writes to the sets and to the reward of side chains is what the trie has. -/
theorem reset_eq_new_iff (s : StateDB) (root : Root) :
    (∀ (ε α : Type) (p : Prog Request ε α),
      Prod.fst <$> p.run Request.run ⟨s.reset root, []⟩ =
        Prod.fst <$> p.run Request.run ⟨.new root, []⟩) ↔ ResetHarmless s root := by
  constructor
  · intro h
    have hroot := h Unit Root (.perform .intermediateRoot)
    have hreset := intermediateRoot_reset s root
    have hnew := intermediateRoot_reset (.new root) root
    obtain ⟨⟨r, t⟩, ht, hr⟩ := Steps.map_eq_ok.1 hreset
    obtain ⟨⟨r', t'⟩, ht', hr'⟩ := Steps.map_eq_ok.1 hnew
    have hsame : r = r' := by
      have ht'' : (StateDB.new root).intermediateRoot = .ok (r', t') := ht'
      simp only [Prog.run_perform, Request.run, ht, ht''] at hroot
      exact Except.ok.inj (Except.ok.inj hroot)
    obtain rfl : r = _ := hr
    obtain rfl : r' = _ := hr'
    obtain ⟨-, hsets, hreward⟩ := Root.mk.inj hsame
    refine ⟨fun kind hdirty => ?_, fun hdirty => ?_⟩
    · have := congrFun hsets kind
      rw [if_pos hdirty] at this
      exact this.symm
    · rw [if_pos hdirty] at hreward
      exact hreward.symm
  · intro h ε α p
    exact (Prog.run_agree (A := fun _ _ _ => True) (fun β r x y hxy _ => r.agree x y hxy) p h.alike
      (Prog.safe_of_forall _ (fun _ _ _ => trivial) p _)).fst_eq

/-- The candidates after the next `Finalise`. -/
def candidatesAfter : Prog Request Unit (List Address) := do
  .perform .finalise
  let set ← .perform (.op (.getSet .candidate))
  pure set.toList

/-- **A reset forgets the candidates**: one candidate is marked, the state is reset to a root that
has another one, and the next `Finalise` deletes that one. -/
theorem reset_forgets_candidates :
    let root : Root := ⟨∅, fun kind => if kind = .candidate then some {[2]} else none, none⟩
    let pending := (StateDB.new .empty).markSet .candidate [1]
    Steps.holds (candidatesAfter.run Request.run ⟨.new root, []⟩)
        (fun r => Steps.holds r.1 (· == [[2]])) = true ∧
      Steps.holds (candidatesAfter.run Request.run ⟨pending.reset root, []⟩)
        (fun r => Steps.holds r.1 (· == [])) = true := by
  decide +kernel

end State
end LigoChain
