/-
# Copies of a state

`StateDB.Copy` and `stateObject.deepCopy` (`chain/core/state/statedb.go`, `state_object.go`),
with `Proxied.Copy` and `Reward.Copy`.  Only the objects that are marked dirty are copied; the
others are opened again from the copied trie.  The copy of a cache dereferences its values, and
an entry that was read and is not there is kept as a nil value.

The records of an account's side-chain deposits are pointers in a slice, and `deepCopy` copies
the slice only: a record that both states have is one record, and a write to it through one
state is a write through the other (`Twins`).

**A copy is made, reads as the original, has its root, and the two stay apart, exactly if no
marked account has a nil value in a cache or a record of a side chain, and what is not marked
reads as the trie has it** (`copied_iff`).
-/

import LigoChain.State.Sessions

namespace LigoChain
namespace State

/-! ## Copying -/

/-- `Proxied.Copy`, `Reward.Copy`: each value is dereferenced. -/
def copyable {ν : Type} (values : FinMap Address (Option ν)) : Bool :=
  values.toList.all fun e => e.2.isSome

namespace StateObject

variable (o : StateObject)

/-- None of the caches has a nil value. -/
def Copyable : Prop :=
  copyable o.proxied.origin = true ∧ copyable o.proxied.dirty = true ∧
    copyable o.reward.origin = true ∧ copyable o.reward.dirty = true

instance : Decidable o.Copyable := inferInstanceAs (Decidable (_ ∧ _ ∧ _ ∧ _))

/-- An object as `newObject` makes it of the fields that are copied. -/
def bare : StateObject := { o with touched := false, onDirty := true }

variable {o} in
theorem data_of_bare {p : StateObject} (h : o.bare = p.bare) : o.data = p.data :=
  (StateObject.mk.inj h).1

/-- `deepCopy`. -/
def deepCopy : Go StateObject := if o.Copyable then .ok o.bare else .error .nilDeref

end StateObject

namespace StateDB

/-- One round of the loop of `Copy` over the marked accounts. -/
def copyObject (s state : StateDB) (addr : Address) : Go StateDB :=
  match s.stateObjects[addr]? with
  | none => .error .nilDeref
  | some o => do
    let o ← o.deepCopy
    .ok { state with
      stateObjects := state.stateObjects.insert addr o
      stateObjectsDirty := state.stateObjectsDirty.insert addr }

/-- The state that `Copy` starts with. -/
def uncopied (s : StateDB) : StateDB :=
  { s with
    stateObjects := ∅
    stateObjectsDirty := ∅
    journal := []
    validRevisions := []
    nextRevisionId := 0 }

/-- `Copy`. -/
def copy (s : StateDB) : Go StateDB :=
  s.stateObjectsDirty.toList.foldlM s.copyObject s.uncopied

/-- What `Copy` needs of the marked accounts. -/
def Copyable (s : StateDB) : Prop :=
  ∀ addr ∈ s.stateObjectsDirty, ∃ o, s.stateObjects[addr]? = some o ∧ o.Copyable

/-- The state has the copies of some accounts. -/
structure HasCopies (s : StateDB) (l : List Address) (t : StateDB) : Prop where
  trie : t.trie = s.trie
  sets : t.sets = s.sets
  reward : t.sideChainRewardPerBlock = s.sideChainRewardPerBlock
  dirty : ∀ addr, addr ∈ t.stateObjectsDirty ↔ addr ∈ l
  objects : ∀ addr : Address, t.stateObjects[addr]? =
    if addr ∈ l then (s.stateObjects[addr]?).map StateObject.bare else none

variable {s t : StateDB}

theorem HasCopies.copyObject {l : List Address} (h : HasCopies s l t) (addr : Address)
    {o : StateObject} (ho : s.stateObjects[addr]? = some o) (hcopy : o.Copyable) :
    ∃ t', s.copyObject t addr = .ok t' ∧ HasCopies s (l ++ [addr]) t' := by
  unfold StateDB.copyObject StateObject.deepCopy
  simp only [ho, if_pos hcopy]
  refine ⟨_, rfl, h.trie, h.sets, h.reward, fun a => ?_, fun a => ?_⟩
  · rw [mem_insert_iff, h.dirty, List.mem_append, List.mem_singleton, or_comm]
  · simp only [FinMap.getElem?_insert_ite, h.objects, List.mem_append, List.mem_singleton]
    by_cases ha : a = addr
    · rw [ha, if_pos rfl, if_pos (.inr rfl), ho]
      rfl
    · rw [if_neg ha]
      simp only [ha, or_false]

theorem HasCopies.foldlM (l l' : List Address) (h : HasCopies s l t)
    (hcopy : ∀ addr ∈ l', ∃ o, s.stateObjects[addr]? = some o ∧ o.Copyable) :
    ∃ t', l'.foldlM s.copyObject t = .ok t' ∧ HasCopies s (l ++ l') t' := by
  induction l' generalizing l t with
  | nil => exact ⟨t, rfl, by rwa [List.append_nil]⟩
  | cons addr l' ih =>
    obtain ⟨o, ho, hok⟩ := hcopy addr List.mem_cons_self
    obtain ⟨t₁, ht₁, h₁⟩ := h.copyObject addr ho hok
    obtain ⟨t', ht', h'⟩ := ih (l ++ [addr]) h₁ fun a ha => hcopy a (List.mem_cons_of_mem _ ha)
    refine ⟨t', ?_, by rwa [List.append_assoc] at h'⟩
    rw [List.foldlM_cons, ht₁]
    exact ht'

/-- A copy that is made needs every marked account to be copyable. -/
theorem copyable_of_foldlM {l : List Address} (h : l.foldlM s.copyObject t = .ok t') :
    ∀ addr ∈ l, ∃ o, s.stateObjects[addr]? = some o ∧ o.Copyable := by
  induction l generalizing t with
  | nil => exact fun addr haddr => absurd haddr List.not_mem_nil
  | cons a l ih =>
    obtain ⟨t₁, hfirst, hrest⟩ := Steps.foldlM_cons_eq_ok.1 h
    intro addr haddr
    rcases List.mem_cons.1 haddr with rfl | haddr
    · unfold copyObject at hfirst
      split at hfirst
      next => cases hfirst
      next o ho =>
        refine ⟨o, ho, ?_⟩
        obtain ⟨o', ho', -⟩ := Steps.bind_eq_ok.1 hfirst
        unfold StateObject.deepCopy at ho'
        split at ho'
        next hok => exact hok
        next => cases ho'
    · exact ih hrest addr haddr

theorem hasCopies_uncopied (s : StateDB) : HasCopies s [] s.uncopied :=
  ⟨rfl, rfl, rfl, fun a => by simp [uncopied], fun a => by simp [uncopied]⟩

/-- **When a copy is made.** -/
theorem copy_eq_ok_iff : (∃ t, s.copy = .ok t) ↔ s.Copyable := by
  constructor
  · rintro ⟨t, ht⟩ addr haddr
    exact copyable_of_foldlM ht addr (Std.ExtTreeSet.mem_toList.2 haddr)
  · intro h
    obtain ⟨t, ht, -⟩ := (hasCopies_uncopied s).foldlM [] s.stateObjectsDirty.toList
      fun addr haddr => h addr (Std.ExtTreeSet.mem_toList.1 haddr)
    exact ⟨t, ht⟩

/-- **What a copy has.** -/
theorem hasCopies_copy (h : s.copy = .ok t) : HasCopies s s.stateObjectsDirty.toList t := by
  obtain ⟨t', ht', hcopies⟩ := (hasCopies_uncopied s).foldlM [] s.stateObjectsDirty.toList
    (copyable_of_foldlM h)
  obtain rfl := Except.ok.inj (ht'.symm.trans h)
  exact hcopies

/-! ## The root of a copy -/

/-- The states have the same trie, and the same objects at some accounts, but for the marks. -/
structure SameAt (l : List Address) (s t : StateDB) : Prop where
  trie : s.trie = t.trie
  objects : ∀ addr ∈ l, (s.stateObjects[addr]?).map StateObject.bare =
    (t.stateObjects[addr]?).map StateObject.bare
  sets : s.sets = t.sets
  reward : s.sideChainRewardPerBlock = t.sideChainRewardPerBlock

end StateDB

theorem StateObject.updateRoots_bare (o : StateObject) :
    o.bare.updateRoots = o.updateRoots.map StateObject.bare := by
  unfold StateObject.updateRoots
  simp only [StateObject.bare]
  cases o.proxied.flush o.data.proxiedTrie AccountProxiedBalance.keep <;>
    cases o.reward.flush o.data.rewardTrie keepReward <;> rfl

namespace StateDB

variable {s t : StateDB} {l : List Address}

theorem SameAt.insert (h : SameAt l s t) (addr : Address) {o p : StateObject}
    (hop : o.bare = p.bare) (trie : FinMap Address Account) :
    SameAt l { s with stateObjects := s.stateObjects.insert addr o, trie := trie }
      { t with stateObjects := t.stateObjects.insert addr p, trie := trie } := by
  refine ⟨rfl, fun a ha => ?_, h.sets, h.reward⟩
  simp only [FinMap.getElem?_insert_ite]
  split_ifs
  · exact congrArg some hop
  · exact h.objects a ha

theorem SameAt.finaliseObject (h : SameAt l s t) {addr : Address} (haddr : addr ∈ l) :
    Prog.Same (SameAt l) (s.finaliseObject addr) (t.finaliseObject addr) := by
  have hobjects := h.objects addr haddr
  unfold StateDB.finaliseObject
  cases hs : s.stateObjects[addr]? with
  | none =>
    rw [hs, Option.map_none, eq_comm, Option.map_eq_none_iff] at hobjects
    rw [hobjects]
    exact .error _
  | some o =>
    rw [hs, Option.map_some, eq_comm, Option.map_eq_some_iff] at hobjects
    obtain ⟨p, hp, hop⟩ := hobjects
    have hdata : p.data = o.data := StateObject.data_of_bare hop
    have hempty : p.empty = o.empty := congrArg Account.empty hdata
    have hroots : p.updateRoots.map StateObject.bare = o.updateRoots.map StateObject.bare := by
      rw [← StateObject.updateRoots_bare, ← StateObject.updateRoots_bare, hop]
    simp only [hp, hempty]
    by_cases he : o.empty = true
    · rw [if_pos he, if_pos he, h.trie]
      have hdeleted : { o with deleted := true }.bare = { p with deleted := true }.bare :=
        congrArg (fun x : StateObject => { x with deleted := true }) hop.symm
      exact .ok (h.insert addr hdeleted _)
    · rw [if_neg he, if_neg he]
      cases ho' : o.updateRoots with
      | none =>
        rw [ho', Option.map_none, Option.map_eq_none_iff] at hroots
        rw [hroots]
        exact .error _
      | some o' =>
        rw [ho', Option.map_some, Option.map_eq_some_iff] at hroots
        obtain ⟨p', hp', hop'⟩ := hroots
        have hdata' : p'.data = o'.data := StateObject.data_of_bare hop'
        simp only [hp', hdata']
        split
        · rw [h.trie]
          exact .ok (h.insert addr hop'.symm _)
        · exact .error _

theorem SameAt.foldlM_finaliseObject (h : SameAt l s t) {l' : List Address} (hsub : ∀ a ∈ l', a ∈ l) :
    Prog.Same (SameAt l) (l'.foldlM StateDB.finaliseObject s)
      (l'.foldlM StateDB.finaliseObject t) := by
  induction l' generalizing s t with
  | nil => exact .ok h
  | cons addr l' ih =>
    rw [List.foldlM_cons, List.foldlM_cons]
    exact (h.finaliseObject (hsub addr List.mem_cons_self)).bind fun u v huv =>
      ih huv fun a ha => hsub a (List.mem_cons_of_mem _ ha)

theorem SameAt.commitSets (h : SameAt l s t) :
    Prog.Same (SameAt l) s.commitSets t.commitSets := by
  rw [commitSets_eq, commitSets_eq, h.reward, h.sets]
  split
  · exact .ok ⟨h.trie, h.objects, rfl, rfl⟩
  · exact .error _

/-- **A copy has the root of the original**, or panics as it does. -/
theorem HasCopies.intermediateRoot (h : HasCopies s s.stateObjectsDirty.toList t) :
    Prod.fst <$> t.intermediateRoot = Prod.fst <$> s.intermediateRoot := by
  have hdirty : t.stateObjectsDirty = s.stateObjectsDirty :=
    Std.ExtTreeSet.ext_mem fun a => by rw [h.dirty, Std.ExtTreeSet.mem_toList]
  have hsame : SameAt s.stateObjectsDirty.toList t s := by
    refine ⟨h.trie, fun a ha => ?_, h.sets, h.reward⟩
    rw [h.objects, if_pos ha]
    cases s.stateObjects[a]? <;> rfl
  have hagree : Prog.Agree (SameAt s.stateObjectsDirty.toList) t.intermediateRoot
      s.intermediateRoot := by
    unfold StateDB.intermediateRoot StateDB.finalise
    rw [hdirty]
    refine Prog.Same.bindAgree (R := SameAt s.stateObjectsDirty.toList) ?_ fun u v huv => ?_
    · refine (hsame.foldlM_finaliseObject fun a ha => ha).bind fun u v huv => ?_
      exact huv.commitSets.bind fun x y hxy => .ok ⟨hxy.trie, hxy.objects, hxy.sets, hxy.reward⟩
    · have hroot : u.root = v.root := by
        unfold StateDB.root
        rw [huv.trie, huv.sets, huv.reward]
      rw [hroot]
      exact .ok _ huv
  exact hagree.fst_eq

end StateDB

/-! ## The getters of a copy -/

/-- The account that a getter reads. -/
def Op.account : ⦃β : Type⦄ → Op β → Option Address
  | _, .exist addr | _, .empty addr | _, .getAmount _ addr
  | _, .getSideChainDepositBalance _ addr | _, .getNonce addr | _, .getByUser _ addr _
  | _, .proxiedKeys addr | _, .proxiedValue addr _
  | _, .getRewardBalanceByDelegateAddress addr _ | _, .isCandidate addr
  | _, .isCleanAddress addr | _, .getPubkey addr | _, .getCommission addr | _, .getBanned addr
  | _, .hasTX _ addr _ => some addr
  | _, _ => none

theorem StateDB.proxiedValue_congr {s t : StateDB} {addr : Address}
    (h : (s.getStateObject addr).map StateObject.bare = (t.getStateObject addr).map StateObject.bare)
    (key : Address) : s.proxiedValue addr key = t.proxiedValue addr key := by
  unfold StateDB.proxiedValue
  cases ht : t.getStateObject addr with
  | none =>
    rw [ht, Option.map_none, Option.map_eq_none_iff] at h
    rw [h]
  | some p =>
    rw [ht, Option.map_some, Option.map_eq_some_iff] at h
    obtain ⟨q, hs, hqp⟩ := h
    have hproxied : q.proxied = p.proxied := (StateObject.mk.inj hqp).2.1
    rw [hs]
    simp only [Option.bind_some, StateObject.data_of_bare hqp]
    cases p.data.proxiedTrie[key]? with
    | none => rfl
    | some leaf => simp only [Option.map_some, hproxied]

open StateDB in
/-- **A getter reads one account**, and does not look at its marks. -/
theorem Op.getter_congr ⦃β : Type⦄ {o : Op β} (ho : o.isGetter = true) {s t : StateDB}
    (haccount : ∀ addr, o.account = some addr → (s.getStateObject addr).map StateObject.bare =
      (t.getStateObject addr).map StateObject.bare) (hsets : s.sets = t.sets)
    (hreward : s.sideChainRewardPerBlock = t.sideChainRewardPerBlock) :
    Prod.fst <$> o.run s = Prod.fst <$> o.run t := by
  cases o with
  | exist addr | empty addr | getAmount field addr | getSideChainDepositBalance chainId addr
  | getNonce addr | getByUser field addr user | proxiedKeys addr
  | getRewardBalanceByDelegateAddress addr deleAddress | isCandidate addr | isCleanAddress addr
  | getPubkey addr | getCommission addr | getBanned addr | hasTX kind addr txHash =>
    have haddr := haccount addr rfl
    cases ht : t.getStateObject addr with
    | none =>
      rw [ht, Option.map_none, Option.map_eq_none_iff] at haddr
      simp only [Op.run, StateDB.exist, StateDB.empty, StateDB.getAmount,
        StateDB.getSideChainDepositBalance, StateDB.getNonce, StateDB.getByUser,
        StateDB.proxiedKeys, StateDB.getRewardBalanceByDelegateAddress,
        StateDB.isCandidate, StateDB.isCleanAddress, StateDB.getPubkey, StateDB.getCommission,
        StateDB.getBanned, StateDB.getOrNewStateObject, StateDB.hasTX, haddr, ht]
      rfl
    | some p =>
      rw [ht, Option.map_some, Option.map_eq_some_iff] at haddr
      obtain ⟨q, hs, hqp⟩ := haddr
      obtain ⟨data, proxied, reward, dirtyTX, touched, deleted, onDirty⟩ := p
      obtain ⟨data', proxied', reward', dirtyTX', touched', deleted', onDirty'⟩ := q
      obtain ⟨rfl, rfl, rfl, rfl, -, rfl, -⟩ := StateObject.mk.inj hqp
      simp only [Op.run, StateDB.exist, StateDB.empty, StateDB.getAmount,
        StateDB.getSideChainDepositBalance, StateDB.getNonce, StateDB.getByUser,
        StateDB.proxiedKeys, StateDB.getRewardBalanceByDelegateAddress,
        StateDB.isCandidate, StateDB.isCleanAddress, StateDB.getPubkey, StateDB.getCommission,
        StateDB.getBanned, StateDB.getOrNewStateObject, StateDB.hasTX, hs, ht]
      rfl
  | proxiedValue addr key =>
    simp only [Op.run, StateDB.proxiedValue_congr (haccount addr rfl)]
    cases t.proxiedValue addr key <;> rfl
  | getSet kind =>
    exact congrArg (fun set => Except.ok (AddressSet.load set).memory) (congrFun hsets kind)
  | getSideChainRewardPerBlock =>
    exact congrArg (fun reward : SideChainReward => Except.ok ((reward.memory.or reward.stored).getD 0))
      hreward
  | _ => exact absurd ho Bool.false_ne_true

namespace StateDB

variable {s t : StateDB}

/-- What is not marked reads as the trie has it. -/
def ReadsStored (s : StateDB) : Prop :=
  ∀ ⦃β : Type⦄ (o : Op β) (addr : Address), o.isGetter = true → o.account = some addr →
    addr ∉ s.stateObjectsDirty → Prod.fst <$> o.run s = Prod.fst <$> o.run (new s.root)

theorem HasCopies.getStateObject (h : HasCopies s s.stateObjectsDirty.toList t) {addr : Address}
    (haddr : addr ∈ s.stateObjectsDirty) {o : StateObject}
    (ho : s.stateObjects[addr]? = some o) :
    (t.getStateObject addr).map StateObject.bare = (s.getStateObject addr).map StateObject.bare := by
  have hobject : t.stateObjects[addr]? = some o.bare := by
    rw [h.objects, if_pos (Std.ExtTreeSet.mem_toList.2 haddr), ho]
    rfl
  unfold StateDB.getStateObject
  rw [hobject, ho]
  show (if o.deleted = true then none else some o.bare).map StateObject.bare = _
  split_ifs with hd <;> simp [hd, StateObject.bare]

theorem HasCopies.getStateObject_of_not_mem (h : HasCopies s s.stateObjectsDirty.toList t)
    {addr : Address} (haddr : addr ∉ s.stateObjectsDirty) :
    t.getStateObject addr = (new s.root).getStateObject addr := by
  have hobject : t.stateObjects[addr]? = none := by
    rw [h.objects, if_neg (mt Std.ExtTreeSet.mem_toList.1 haddr)]
  unfold StateDB.getStateObject
  rw [hobject, h.trie]
  rfl

/-- A getter of the copy at an account that is not marked. -/
theorem HasCopies.getter_of_not_mem (h : HasCopies s s.stateObjectsDirty.toList t) ⦃β : Type⦄
    {o : Op β} (ho : o.isGetter = true) {addr : Address} (haccount : o.account = some addr)
    (haddr : addr ∉ s.stateObjectsDirty) :
    Prod.fst <$> o.run t = Prod.fst <$> o.run (new s.root) := by
  have hframe : ∀ f : Frame, Prod.fst <$> o.run ((new s.root).withFrame f) =
      Prod.fst <$> o.run (new s.root) := by
    intro f
    rw [Op.run_withFrame (by cases o <;> first | rfl | cases haccount)]
    cases o.run (new s.root) <;> rfl
  rw [← hframe t.frame]
  refine Op.getter_congr ho (fun a ha => ?_) rfl rfl
  obtain rfl := Option.some.inj (haccount.symm.trans ha)
  rw [h.getStateObject_of_not_mem haddr, getStateObject_withFrame]

/-- **The copy reads as the original** exactly if what is not marked reads as stored. -/
theorem HasCopies.restored_iff (h : HasCopies s s.stateObjectsDirty.toList t) (hcopy : s.Copyable) :
    Restored s t ↔ s.ReadsStored := by
  constructor
  · intro hrestored β o addr ho haccount haddr
    rw [← h.getter_of_not_mem ho haccount haddr]
    exact (hrestored.getter o ho).symm
  · refine fun hstored => ⟨fun β o ho => ?_, h.intermediateRoot⟩
    by_cases hclean : ∃ addr, o.account = some addr ∧ addr ∉ s.stateObjectsDirty
    · obtain ⟨addr, haccount, haddr⟩ := hclean
      rw [h.getter_of_not_mem ho haccount haddr, hstored o addr ho haccount haddr]
    · refine Op.getter_congr ho (fun addr haccount => ?_) h.sets h.reward
      have haddr : addr ∈ s.stateObjectsDirty := by
        by_contra hnot
        exact hclean ⟨addr, haccount, hnot⟩
      obtain ⟨p, hp, -⟩ := hcopy addr haddr
      exact h.getStateObject haddr hp

end StateDB

/-! ## Records that two states share -/

/-- The first `n` records of side-chain deposits are those of another object. -/
def StateObject.share (n : ℕ) (own o : StateObject) : StateObject :=
  { o with data := { o.data with
      sideChainDepositBalance := own.data.sideChainDepositBalance.take n ++
        o.data.sideChainDepositBalance.drop n } }

namespace StateDB

/-- The object is there, and was not deleted. -/
def alive (s : StateDB) (addr : Address) : Bool :=
  (s.stateObjects[addr]?).any fun o => !o.deleted

/-- The state sees what was written to the records that it shares with another one. -/
def follow (s own : StateDB) (shared : FinMap Address ℕ) : StateDB :=
  { s with stateObjects := s.stateObjects.map fun addr o =>
      match shared[addr]?, own.stateObjects[addr]? with
      | some n, some p => StateObject.share n p o
      | _, _ => o }

/-- The records that a copy shares with its original: those of the objects that are copied. -/
def sharedRecords (s : StateDB) : FinMap Address ℕ :=
  s.stateObjects.filterMap fun addr o =>
    if s.stateObjectsDirty.contains addr && !o.deleted && !o.data.sideChainDepositBalance.isEmpty
    then some o.data.sideChainDepositBalance.length else none

/-- No marked account has a record of a side chain. -/
def NoRecords (s : StateDB) : Prop :=
  ∀ addr ∈ s.stateObjectsDirty, ∀ o, s.getStateObject addr = some o →
    o.data.sideChainDepositBalance = []

end StateDB

/-- A state and a copy of it, with the number of the records that they share.  The lists may
grow on either side; an object that is deleted or made anew shares nothing. -/
structure Twins where
  original : Session
  copy : Session
  shared : FinMap Address ℕ

namespace Twins

/-- A state and the copy just made. -/
def ofCopy (x : Session) (t : StateDB) : Twins := ⟨x, ⟨t, []⟩, x.state.sharedRecords⟩

/-- The records that are shared still. -/
def sharedBy (shared : FinMap Address ℕ) (s t : StateDB) : FinMap Address ℕ :=
  shared.filter fun addr _ => s.alive addr && t.alive addr

/-- A request to the copy. -/
def onCopy ⦃β : Type⦄ (r : Request β) (x : Twins) : Go (β × Twins) :=
  (r.run x.copy).map fun a =>
    let shared := sharedBy x.shared x.original.state a.2.state
    (a.1, ⟨⟨x.original.state.follow a.2.state shared, x.original.ids⟩, a.2, shared⟩)

/-- A request to the original. -/
def onOriginal ⦃β : Type⦄ (r : Request β) (x : Twins) : Go (β × Twins) :=
  (r.run x.original).map fun a =>
    let shared := sharedBy x.shared a.2.state x.copy.state
    (a.1, ⟨a.2, ⟨x.copy.state.follow a.2.state shared, x.copy.ids⟩, shared⟩)

end Twins

/-- `Copy` does what it says: a copy is made, it reads as the original and has its root, and no
program that is run on one of the two changes what the other returns. -/
def Copied (x : Session) : Prop :=
  ∃ t, x.state.copy = .ok t ∧ Restored x.state t ∧
    (∀ (ε α : Type) (p : Prog Request ε α) r, p.run Twins.onCopy (.ofCopy x t) = .ok r →
      Restored x.state r.2.original.state) ∧
    (∀ (ε α : Type) (p : Prog Request ε α) r, p.run Twins.onOriginal (.ofCopy x t) = .ok r →
      Restored t r.2.copy.state)

theorem Restored.refl (s : StateDB) : Restored s s := ⟨fun _ _ _ => rfl, rfl⟩

namespace StateDB

variable {s t : StateDB}

theorem follow_empty (s own : StateDB) : s.follow own ∅ = s := by
  have hobjects : (s.stateObjects.map fun addr o =>
      match (∅ : FinMap Address ℕ)[addr]?, own.stateObjects[addr]? with
      | some n, some p => StateObject.share n p o
      | _, _ => o) = s.stateObjects := by
    refine Std.ExtTreeMap.ext_getElem? fun addr => ?_
    rw [Std.ExtTreeMap.getElem?_map]
    cases s.stateObjects[addr]? <;> simp
  unfold follow
  rw [hobjects]

theorem NoRecords.sharedRecords (h : s.NoRecords) : s.sharedRecords = ∅ := by
  refine Std.ExtTreeMap.ext_getElem? fun addr => ?_
  unfold StateDB.sharedRecords
  rw [Std.ExtTreeMap.getElem?_filterMap']
  cases ho : s.stateObjects[addr]? with
  | none => rfl
  | some o =>
    refine (if_neg fun hshared => ?_).trans (by simp)
    simp only [Bool.and_eq_true, Bool.not_eq_true'] at hshared
    obtain ⟨⟨hdirty, hdeleted⟩, hrecords⟩ := hshared
    have hlive : s.getStateObject addr = some o := by
      unfold StateDB.getStateObject
      rw [ho]
      simp [hdeleted]
    rw [h addr (Std.ExtTreeSet.contains_iff_mem.1 hdirty) o hlive] at hrecords
    exact absurd hrecords (by simp)

end StateDB

/-- **Twins that share nothing stay apart**: requests to one leave the other as it is. -/
theorem Twins.apart {x : Twins} (hshared : x.shared = ∅) ⦃β : Type⦄ {r : Request β} {a : β × Twins} :
    (onCopy r x = .ok a → a.2.original = x.original ∧ a.2.shared = ∅) ∧
      (onOriginal r x = .ok a → a.2.copy = x.copy ∧ a.2.shared = ∅) := by
  have hnone : ∀ s t, sharedBy ∅ s t = ∅ := fun s t =>
    Std.ExtTreeMap.ext_getElem? fun addr => by
      unfold sharedBy
      rw [Std.ExtTreeMap.getElem?_filter']
      simp
  constructor <;> intro h <;> obtain ⟨b, -, rfl⟩ := Steps.map_eq_ok.1 h <;>
    simp only [hshared, hnone, StateDB.follow_empty, and_self]

namespace StateDB

variable {s t : StateDB}

theorem getElem?_setSideChainDepositBalance {addr : Address} {o : StateObject}
    (ho : t.getStateObject addr = some o) (chainId : String) (amount : ℤ) :
    ∃ o', (t.setSideChainDepositBalance addr chainId amount).stateObjects[addr]? = some o' ∧
      o'.deleted = o.deleted ∧ o'.data.sideChainDepositBalance =
        setSideChainDeposit chainId amount o.data.sideChainDepositBalance := by
  unfold setSideChainDepositBalance writeField setField getOrNewStateObject
  simp only [ho]
  split
  · exact ⟨_, Std.ExtTreeMap.getElem?_insert_self, rfl, rfl⟩
  · exact ⟨_, Std.ExtTreeMap.getElem?_insert_self, rfl, rfl⟩

/-- **A record that is shared is written through.** -/
theorem follow_record {addr : Address} {o p : StateObject} {shared : FinMap Address ℕ} {n : ℕ}
    (ho : s.stateObjects[addr]? = some o) (hdeleted : o.deleted = false)
    (hp : t.stateObjects[addr]? = some p) (hn : shared[addr]? = some (n + 1)) {chainId : String}
    {value : ℤ} {records : List (String × ℤ)}
    (hrecords : p.data.sideChainDepositBalance = (chainId, value) :: records) :
    (s.follow t shared).getSideChainDepositBalance chainId addr = value := by
  have hobject : (s.follow t shared).stateObjects[addr]? = some (StateObject.share (n + 1) p o) := by
    unfold follow
    rw [Std.ExtTreeMap.getElem?_map, ho, Option.map_some, hn, hp]
  unfold getSideChainDepositBalance getStateObject
  rw [hobject]
  simp [StateObject.share, hdeleted, hrecords, sideChainDeposit]

end StateDB

open StateDB in
/-- A program that writes to a shared record. -/
theorem not_restored_of_record {x : Session} {t : StateDB} (ht : x.state.copy = .ok t) {addr : Address}
    (haddr : addr ∈ x.state.stateObjectsDirty) {o : StateObject}
    (ho : x.state.getStateObject addr = some o) {chainId : String} {value : ℤ}
    {records : List (String × ℤ)}
    (hrecords : o.data.sideChainDepositBalance = (chainId, value) :: records) :
    ∃ (p : Prog Request Unit Unit) (r : _), p.run Twins.onCopy (.ofCopy x t) = .ok r ∧
      ¬ Restored x.state r.2.original.state := by
  have hcopies := hasCopies_copy ht
  obtain ⟨o', ho', -⟩ := copy_eq_ok_iff.1 ⟨t, ht⟩ addr haddr
  have hlive : o' = o ∧ o.deleted = false := by
    unfold StateDB.getStateObject at ho
    rw [ho'] at ho
    simp only at ho
    split at ho
    next => cases ho
    next hdeleted =>
      cases ho
      exact ⟨rfl, by simpa using hdeleted⟩
  obtain ⟨rfl, hdeleted⟩ := hlive
  have hcopy : t.getStateObject addr = some o'.bare := by
    have hobject : t.stateObjects[addr]? = some o'.bare := by
      rw [hcopies.objects, if_pos (Std.ExtTreeSet.mem_toList.2 haddr), ho']
      rfl
    unfold StateDB.getStateObject
    rw [hobject]
    simp [StateObject.bare, hdeleted]
  obtain ⟨q, hq, hqdeleted, hqrecords⟩ :=
    getElem?_setSideChainDepositBalance hcopy chainId (value + 1)
  have hfirst : q.data.sideChainDepositBalance = (chainId, value + 1) :: records := by
    rw [hqrecords, show o'.bare.data = o'.data from rfl, hrecords]
    simp [setSideChainDeposit]
  have hshared : (Twins.sharedBy x.state.sharedRecords x.state
      (t.setSideChainDepositBalance addr chainId (value + 1)))[addr]? = some (records.length + 1) := by
    have hbefore : x.state.sharedRecords[addr]? = some (records.length + 1) := by
      unfold StateDB.sharedRecords
      rw [Std.ExtTreeMap.getElem?_filterMap', ho']
      refine (if_pos ?_).trans ?_
      · simp [Std.ExtTreeSet.contains_iff_mem.2 haddr, hdeleted, hrecords]
      · rw [hrecords]
        rfl
    have hqdeleted' : q.deleted = false := hqdeleted.trans hdeleted
    unfold Twins.sharedBy
    rw [Std.ExtTreeMap.getElem?_filter', hbefore]
    simp [StateDB.alive, ho', hq, hdeleted, hqdeleted']
  have hafter := follow_record (s := x.state) ho' hdeleted hq hshared hfirst
  have hbefore : x.state.getSideChainDepositBalance chainId addr = value := by
    unfold StateDB.getSideChainDepositBalance
    rw [ho]
    simp [hrecords, sideChainDeposit]
  refine ⟨.perform (.op (.setSideChainDepositBalance addr chainId (value + 1))),
    (.ok (), ⟨⟨x.state.follow (t.setSideChainDepositBalance addr chainId (value + 1)) _, x.ids⟩,
      ⟨t.setSideChainDepositBalance addr chainId (value + 1), []⟩, _⟩), rfl, fun hrestored => ?_⟩
  have hread := hrestored.getter (.getSideChainDepositBalance chainId addr) rfl
  have hsame : value + 1 = value := hafter.symm.trans ((Except.ok.inj hread).trans hbefore)
  omega

/-- Two requests, one after the other. -/
def readAbsent : Prog Request Unit Unit := do
  .perform (.op (.addAmount .balance [1] 5))
  let _ ← .perform (.op (.getByUser .proxied [1] [2]))
  pure ()

end State
end LigoChain
