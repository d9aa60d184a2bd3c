/-
# The launch of side chains

A side chain that has been created waits in an index until it is launched
(`storePendingSideChainData` in `core/chains_info.go`).  At the end of a block
`GetSideChainForLaunch` walks over the index: a chain whose end has passed is refunded and leaves,
one that has its validators and deposits in time is launched, and the others stay.  When the block is
inserted, `ProcessPostPendingData` stores the index that is left and deletes the data of the refunded
chains.

**The walk finds the data of every chain, puts each into one of the three groups, and moves the
deposits without loss** (`sideChain_launch`): the sum over all accounts stays, and nothing becomes
negative, as long as the deposits that the chains record are held.  Between the two calls further
chains may have been created; if any chain leaves the index these are lost from it
(`created_between_lost`).

A big integer is never nil here, and the public keys of the validators are left out.
-/

import LigoChain.State.Deposits
import LigoChain.State.Totals
import LigoChain.Staking.Booked
import LigoChain.Types.VoteSet

namespace LigoChain

namespace CrossChain

open State Staking

/-- `OFFICIAL_MINIMUM_DEPOSIT`. -/
def officialMinimumDeposit : ℤ := 77000000000000000000000

/-- `JoinedValidator`. -/
structure JoinedValidator where
  address : Address
  depositAmount : ℤ

/-- `CoreChainInfo`, as far as it is read while the chain is pending. -/
structure CoreChainInfo where
  owner : Address
  chainId : String
  minValidators : ℕ
  minDepositAmount : ℤ
  startBlock : ℤ
  endBlock : ℤ
  joinedValidators : List JoinedValidator

/-- `TotalDeposit`. -/
def CoreChainInfo.totalDeposit (cci : CoreChainInfo) : ℤ :=
  (cci.joinedValidators.map JoinedValidator.depositAmount).sum

/-- `pendingIdxData`. -/
structure PendingIdx where
  chainID : String
  startBlock : ℤ
  endBlock : ℤ

/-- The pending chains: their data and the index. -/
structure PendingDB where
  data : GoMap String CoreChainInfo
  index : List PendingIdx

/-- What happens to a pending chain. -/
inductive Fate
  | kept
  | expired (cci : CoreChainInfo)
  | ready (cci : CoreChainInfo)

/-- What the walk has found: the chains to launch, the index that is left, and the chains to
delete. -/
structure Launch where
  readyForLaunch : List String
  newPendingIdx : List PendingIdx
  deleteSideChainIds : List String

namespace PendingDB

variable (db : PendingDB)

/-- `GetPendingSideChainData`. -/
def getPendingSideChainData (chainId : String) : Option CoreChainInfo := db.data.lookup chainId

/-- `storePendingSideChainData`. -/
def storePendingSideChainData (cci : CoreChainInfo) (create : Bool) : PendingDB :=
  { data := db.data.insert cci.chainId cci
    index :=
      if create && !db.index.any fun v => v.chainID == cci.chainId then
        db.index ++ [⟨cci.chainId, cci.startBlock, cci.endBlock⟩]
      else db.index }

/-- The branches of `GetSideChainForLaunch`.  The data of a chain that has not started is not
read. -/
def fate (height : ℤ) (v : PendingIdx) : Go Fate :=
  if height < v.startBlock then .ok .kept
  else if v.endBlock < height then
    match db.getPendingSideChainData v.chainID with
    | none => .error .nilDeref
    | some cci => .ok (.expired cci)
  else
    match db.getPendingSideChainData v.chainID with
    | none => .error .nilDeref
    | some cci =>
      if cci.minValidators ≤ cci.joinedValidators.length ∧ cci.minDepositAmount ≤ cci.totalDeposit
      then .ok (.ready cci) else .ok .kept

end PendingDB

/-- The chain is added to its group. -/
def Launch.add (l : Launch) (v : PendingIdx) : Fate → Launch
  | .kept => { l with newPendingIdx := l.newPendingIdx ++ [v] }
  | .expired _ => { l with deleteSideChainIds := l.deleteSideChainIds ++ [v.chainID] }
  | .ready _ => { l with readyForLaunch := l.readyForLaunch ++ [v.chainID] }

/-- What is done to the state for a chain: the deposits go back, or to the owner as balance of the
chain. -/
def settle (v : PendingIdx) : Fate → Prog Op GoPanic Unit
  | .kept => pure ()
  | .expired cci => do
    forEach cci.joinedValidators fun jv => do
      call (.subSideChainDepositBalance jv.address v.chainID jv.depositAmount)
      call (.addAmount .balance jv.address jv.depositAmount)
    call (.addAmount .balance cci.owner officialMinimumDeposit)
    call (.subAmount .chainBalance cci.owner officialMinimumDeposit)
  | .ready cci =>
    forEach cci.joinedValidators fun jv => do
      call (.subSideChainDepositBalance jv.address v.chainID jv.depositAmount)
      call (.addAmount .chainBalance cci.owner jv.depositAmount)

namespace PendingDB

variable {visited : List PendingIdx}

variable (db : PendingDB)

/-- One chain of the walk. -/
def visit (height : ℤ) (l : Launch) (v : PendingIdx) : Prog Op GoPanic Launch :=
  match db.fate height v with
  | .error p => .throw p
  | .ok fate => do
    settle v fate
    pure (l.add v fate)

/-- `GetSideChainForLaunch`: the chains to launch, the new index if it has changed, and the chains
to delete. -/
def getSideChainForLaunch (height : ℤ) :
    Prog Op GoPanic (List String × Option (List PendingIdx) × List String) := do
  let l ← db.index.foldlM (db.visit height) ⟨[], [], []⟩
  pure (l.readyForLaunch,
    if l.newPendingIdx.length ≠ db.index.length then some l.newPendingIdx else none,
    l.deleteSideChainIds)

/-- `ProcessPostPendingData`. -/
def processPostPendingData (newPendingIdx : Option (List PendingIdx))
    (deleteSideChainIds : List String) : PendingDB :=
  { data := deleteSideChainIds.foldl (fun data id => data.erase id) db.data
    index := newPendingIdx.getD db.index }

/-! ## The pending chains -/

/-- The groups that the walk finds, which do not depend on the state. -/
def groups (height : ℤ) (l : Launch) (v : PendingIdx) : Go Launch :=
  l.add v <$> db.fate height v

/-- What the walk finds. -/
def launch (height : ℤ) : Go Launch := db.index.foldlM (db.groups height) ⟨[], [], []⟩

/-- The index that is stored, if it has changed. -/
def changed (l : Launch) : Option (List PendingIdx) :=
  if l.newPendingIdx.length ≠ db.index.length then some l.newPendingIdx else none

/-- What is done to the pending chains: one is created or updated, or a walk at a height is followed
by `ProcessPostPendingData`, with further chains stored in between. -/
inductive PendingAction
  | create (cci : CoreChainInfo)
  | update (cci : CoreChainInfo)
  | launch (height : ℤ) (between : List (CoreChainInfo × Bool))

/-- Chains are stored one after the other. -/
def storeAll (stored : List (CoreChainInfo × Bool)) : PendingDB :=
  stored.foldl (fun db p => db.storePendingSideChainData p.1 p.2) db

/-- The pending chains after an action. -/
def act : PendingAction → Go PendingDB
  | .create cci => .ok (db.storePendingSideChainData cci true)
  | .update cci => .ok (db.storePendingSideChainData cci false)
  | .launch height between =>
    (fun l => (db.storeAll between).processPostPendingData (db.changed l) l.deleteSideChainIds) <$>
      db.launch height

/-- No chain is pending. -/
def empty : PendingDB := ⟨∅, []⟩

/-- **Every chain of the index is there once and has data.** -/
structure Coherent (db : PendingDB) : Prop where
  nodup : (db.index.map PendingIdx.chainID).Nodup
  data : ∀ v ∈ db.index, db.getPendingSideChainData v.chainID ≠ none

/-- What the groups have to do with the chains that the walk has come to. -/
structure Grouped (visited : List PendingIdx) (l : Launch) : Prop where
  kept : l.newPendingIdx.Sublist visited
  perm : (l.newPendingIdx.map PendingIdx.chainID ++ l.readyForLaunch ++ l.deleteSideChainIds).Perm
    (visited.map PendingIdx.chainID)

variable {db} {height : ℤ} {l : Launch} {v : PendingIdx}

theorem fate_spec {f : Fate} (h : db.fate height v = .ok f) :
    f = .kept ∨ ∃ cci, db.getPendingSideChainData v.chainID = some cci ∧
      (f = .expired cci ∨ f = .ready cci) := by
  unfold fate at h
  split_ifs at h
  · exact .inl (Except.ok.inj h).symm
  · split at h
    · cases h
    · next cci hcci => exact .inr ⟨cci, hcci, .inl (Except.ok.inj h).symm⟩
  · split at h
    · cases h
    next cci hcci =>
    split_ifs at h
    · exact .inr ⟨cci, hcci, .inr (Except.ok.inj h).symm⟩
    · exact .inl (Except.ok.inj h).symm

theorem exists_fate (h : db.getPendingSideChainData v.chainID ≠ none) :
    ∃ f, db.fate height v = .ok f := by
  obtain ⟨cci, hcci⟩ := Option.ne_none_iff_exists'.1 h
  unfold fate
  simp only [hcci]
  split_ifs <;> exact ⟨_, rfl⟩

/-- One more chain is put into one group. -/
theorem Grouped.add (h : Grouped visited l) (v : PendingIdx) (f : Fate) :
    Grouped (visited ++ [v]) (l.add v f) := by
  have hperm := h.perm.append_right [v.chainID]
  rw [← List.map_singleton, ← List.map_append] at hperm
  cases f with
  | kept =>
    refine ⟨h.kept.append (List.Sublist.refl _), List.Perm.trans ?_ hperm⟩
    simp only [Launch.add, List.map_append, List.map_singleton, List.append_assoc]
    refine List.Perm.append_left _ ?_
    rw [← List.append_assoc l.readyForLaunch]
    exact List.perm_append_comm
  | expired cci =>
    refine ⟨h.kept.trans (List.sublist_append_left _ _), List.Perm.trans ?_ hperm⟩
    simp only [Launch.add, List.map_singleton, List.append_assoc]
    exact List.Perm.refl _
  | ready cci =>
    refine ⟨h.kept.trans (List.sublist_append_left _ _), List.Perm.trans ?_ hperm⟩
    simp only [Launch.add, List.map_singleton, List.append_assoc]
    refine List.Perm.append_left _ (List.Perm.append_left _ ?_)
    exact List.perm_append_comm

theorem grouped_nil : Grouped [] ⟨[], [], []⟩ := ⟨List.Sublist.refl _, List.Perm.refl _⟩

/-- **The walk puts every chain of a coherent index into one group.** -/
theorem Coherent.exists_launch (h : db.Coherent) (height : ℤ) :
    ∃ l, db.launch height = .ok l ∧ Grouped db.index l := by
  suffices hrest : ∀ rest visited l, db.index = visited ++ rest → Grouped visited l →
      ∃ l', rest.foldlM (db.groups height) l = .ok l' ∧ Grouped db.index l' from
    hrest db.index [] _ rfl grouped_nil
  intro rest
  induction rest with
  | nil =>
    intro visited l hindex hgrouped
    rw [List.append_nil] at hindex
    exact ⟨l, rfl, hindex ▸ hgrouped⟩
  | cons v rest ih =>
    intro visited l hindex hgrouped
    have hv : v ∈ db.index := hindex ▸ List.mem_append_right _ List.mem_cons_self
    obtain ⟨f, hf⟩ := @exists_fate db height v (h.data v hv)
    obtain ⟨l', hrun, hgrouped'⟩ := ih (visited ++ [v]) (l.add v f)
      (by rw [hindex, List.append_assoc]; rfl) (hgrouped.add v f)
    refine ⟨l', Steps.foldlM_cons_eq_ok.2 ⟨l.add v f, ?_, hrun⟩, hgrouped'⟩
    rw [groups, hf]
    rfl

theorem Grouped.length (h : Grouped visited l) :
    l.newPendingIdx.length + l.readyForLaunch.length + l.deleteSideChainIds.length =
      visited.length := by
  have hlength := h.perm.length_eq
  simpa only [List.length_append, List.length_map] using hlength

theorem Grouped.unchanged (h : Grouped visited l)
    (hlength : l.newPendingIdx.length = visited.length) :
    l.newPendingIdx = visited ∧ l.deleteSideChainIds = [] := by
  refine ⟨h.kept.eq_of_length hlength, List.length_eq_zero_iff.1 ?_⟩
  have hsum := h.length
  omega

theorem lookup_eraseAll (ids : List String) (data : GoMap String CoreChainInfo) (id : String) :
    (ids.foldl (fun data id => data.erase id) data).lookup id =
      if id ∈ ids then none else data.lookup id := by
  induction ids generalizing data with
  | nil => rfl
  | cons id' ids ih =>
    rw [List.foldl_cons, ih, GoMap.lookup_erase_ite]
    by_cases hid : id ∈ ids
    · rw [if_pos hid, if_pos (List.mem_cons_of_mem _ hid)]
    · rw [if_neg hid]
      by_cases heq : id = id'
      · rw [if_pos heq, if_pos (heq ▸ List.mem_cons_self)]
      · rw [if_neg heq, if_neg (by rw [List.mem_cons, not_or]; exact ⟨heq, hid⟩)]

theorem Grouped.not_deleted (h : Grouped visited l)
    (hnodup : (visited.map PendingIdx.chainID).Nodup) (hv : v ∈ l.newPendingIdx) :
    v.chainID ∉ l.deleteSideChainIds := by
  have hall := h.perm.nodup_iff.2 hnodup
  rw [List.append_assoc] at hall
  intro hdeleted
  exact List.disjoint_of_nodup_append hall (List.mem_map_of_mem hv)
    (List.mem_append_right _ hdeleted)

theorem lookup_store (cci : CoreChainInfo) (create : Bool) (id : String) :
    (db.storePendingSideChainData cci create).getPendingSideChainData id =
      if id = cci.chainId then some cci else db.getPendingSideChainData id :=
  GoMap.lookup_insert_ite ..

/-- **Storing a chain keeps the index coherent.** -/
theorem Coherent.store (h : db.Coherent) (cci : CoreChainInfo) (create : Bool) :
    (db.storePendingSideChainData cci create).Coherent := by
  have hdata : ∀ v ∈ db.index,
      (db.storePendingSideChainData cci create).getPendingSideChainData v.chainID ≠ none := by
    intro v hv
    rw [lookup_store]
    split_ifs
    · exact Option.some_ne_none _
    · exact h.data v hv
  by_cases hnew : (create && !db.index.any fun v => v.chainID == cci.chainId) = true
  · have hindex : (db.storePendingSideChainData cci create).index =
        db.index ++ [⟨cci.chainId, cci.startBlock, cci.endBlock⟩] := if_pos hnew
    have hnot : ∀ v ∈ db.index, v.chainID ≠ cci.chainId := by
      simp only [Bool.and_eq_true, Bool.not_eq_true', List.any_eq_false, beq_iff_eq] at hnew
      exact hnew.2
    refine ⟨?_, fun v hv => ?_⟩
    · rw [hindex, List.map_append, List.nodup_append]
      refine ⟨h.nodup, List.nodup_singleton _, fun id hid id' hid' => ?_⟩
      obtain ⟨v, hv, rfl⟩ := List.mem_map.1 hid
      rw [List.mem_singleton.1 hid']
      exact hnot v hv
    · rw [hindex] at hv
      rcases List.mem_append.1 hv with hv | hv
      · exact hdata v hv
      · rw [lookup_store, List.mem_singleton.1 hv, if_pos rfl]
        exact Option.some_ne_none _
  · have hindex : (db.storePendingSideChainData cci create).index = db.index := if_neg hnew
    exact ⟨hindex ▸ h.nodup, fun v hv => hdata v (hindex ▸ hv)⟩

theorem Coherent.storeAll (h : db.Coherent) (stored : List (CoreChainInfo × Bool)) :
    (db.storeAll stored).Coherent ∧ ∀ id, db.getPendingSideChainData id ≠ none →
      (db.storeAll stored).getPendingSideChainData id ≠ none := by
  induction stored generalizing db with
  | nil => exact ⟨h, fun _ hid => hid⟩
  | cons p stored ih =>
    obtain ⟨hcoherent, hdata⟩ := ih (h.store p.1 p.2)
    refine ⟨hcoherent, fun id hid => hdata id ?_⟩
    rw [lookup_store]
    split_ifs
    · exact Option.some_ne_none _
    · exact hid

/-- **The pending chains stay coherent.** -/
theorem Coherent.act (h : db.Coherent) (a : PendingAction) :
    ∃ db', db.act a = .ok db' ∧ db'.Coherent := by
  cases a with
  | create cci => exact ⟨_, rfl, h.store cci true⟩
  | update cci => exact ⟨_, rfl, h.store cci false⟩
  | launch height between =>
    obtain ⟨l, hl, hgrouped⟩ := h.exists_launch height
    refine ⟨_, Steps.map_eq_ok.2 ⟨l, hl, rfl⟩, ?_⟩
    obtain ⟨hstored, hdata⟩ := h.storeAll between
    by_cases hlength : l.newPendingIdx.length = db.index.length
    · have hchanged : db.changed l = none := if_neg (not_not_intro hlength)
      rw [hchanged, (hgrouped.unchanged hlength).2]
      exact hstored
    · have hchanged : db.changed l = some l.newPendingIdx := if_pos hlength
      rw [hchanged]
      refine ⟨h.nodup.sublist (hgrouped.kept.map _), fun v hv => ?_⟩
      have hdeleted := hgrouped.not_deleted h.nodup hv
      show AList.lookup _ (l.deleteSideChainIds.foldl _ _) ≠ none
      rw [lookup_eraseAll, if_neg hdeleted]
      exact hdata v.chainID (h.data v (hgrouped.kept.subset hv))

theorem coherent_empty : empty.Coherent := ⟨List.nodup_nil, fun _ hv => nomatch hv⟩

theorem exists_run (actions : List PendingAction) :
    ∃ db, actions.foldlM act empty = .ok db ∧ db.Coherent := by
  suffices h : ∀ db : PendingDB, db.Coherent →
      ∃ db', actions.foldlM PendingDB.act db = .ok db' ∧ db'.Coherent from h empty coherent_empty
  induction actions with
  | nil => exact fun db h => ⟨db, rfl, h⟩
  | cons a actions ih =>
    intro db h
    obtain ⟨mid, hmid, hcoherent⟩ := h.act a
    obtain ⟨db', hrun, hcoherent'⟩ := ih mid hcoherent
    exact ⟨db', Steps.foldlM_cons_eq_ok.2 ⟨mid, hmid, hrun⟩, hcoherent'⟩

end PendingDB

/-! ## The deposits -/

/-- What the records of a chain say that an address has deposited. -/
def recorded (jvs : List JoinedValidator) (a : Address) : ℤ :=
  ((jvs.filter fun jv => jv.address = a).map JoinedValidator.depositAmount).sum

theorem recorded_cons (jv : JoinedValidator) (jvs : List JoinedValidator) (a : Address) :
    recorded (jv :: jvs) a = (if a = jv.address then jv.depositAmount else 0) + recorded jvs a := by
  unfold recorded
  rw [List.filter_cons]
  by_cases h : jv.address = a
  · simp [h]
  · simp [h, Ne.symm h]

theorem recorded_nonneg {jvs : List JoinedValidator} (h : ∀ jv ∈ jvs, 0 ≤ jv.depositAmount)
    (a : Address) : 0 ≤ recorded jvs a := by
  refine List.sum_nonneg fun x hx => ?_
  obtain ⟨jv, hjv, rfl⟩ := List.mem_map.1 hx
  exact h jv (List.mem_filter.1 hjv).1

/-- How many of the chains an address owns. -/
def PendingDB.owned (db : PendingDB) (vs : List PendingIdx) (a : Address) : ℕ :=
  vs.countP fun v => (db.getPendingSideChainData v.chainID).any fun cci => cci.owner = a

/-- **What the chains record is held**: the amounts are amounts, every validator has a deposit for
what is recorded of it, and every owner has the official deposit for each of its chains. -/
structure PendingDB.Funded (db : PendingDB) (vs : List PendingIdx) (w : World) : Prop where
  amounts : ∀ v ∈ vs, ∀ cci, db.getPendingSideChainData v.chainID = some cci →
    ∀ jv ∈ cci.joinedValidators, 0 ≤ jv.depositAmount
  deposits : ∀ v ∈ vs, ∀ cci, db.getPendingSideChainData v.chainID = some cci →
    ∀ a, recorded cci.joinedValidators a ≤ w.deposit a v.chainID
  owners : ∀ a, (db.owned vs a : ℤ) * officialMinimumDeposit ≤ w.amount .chainBalance a

/-- What a walk over deposits for one chain does to the accounts: the sum stays, nothing becomes
negative, the deposits for other chains stay and no chain balance goes down. -/
structure PaidOut (chainId : String) (w w' : World) : Prop where
  total : World.SameTotal w w'
  nonneg : w'.NonnegFunds
  others : ∀ a id, id ≠ chainId → w'.deposit a id = w.deposit a id
  chainBalance : ∀ a, w.amount .chainBalance a ≤ w'.amount .chainBalance a

/-- **The deposits of a chain are paid out.** -/
theorem ends_payOut {chainId : String} {field : AmountField}
    (hfield : field = .balance ∨ field = .chainBalance) (payee : JoinedValidator → Address)
    {jvs : List JoinedValidator} {w : World} (hw : w.NonnegFunds)
    (hamounts : ∀ jv ∈ jvs, 0 ≤ jv.depositAmount)
    (hdeposits : ∀ a, recorded jvs a ≤ w.deposit a chainId) :
    (forEach jvs fun jv => do
      call (.subSideChainDepositBalance jv.address chainId jv.depositAmount)
      call (.addAmount field (payee jv) jv.depositAmount) : Prog Op GoPanic Unit).Ends Op.denote w
      fun _ w' => PaidOut chainId w w' := by
  induction jvs generalizing w with
  | nil => exact Prog.ends_pure ⟨.refl w, hw, fun _ _ _ => rfl, fun _ => le_rfl⟩
  | cons jv jvs ih =>
    have hx := hamounts jv List.mem_cons_self
    have hrest : ∀ jv' ∈ jvs, 0 ≤ jv'.depositAmount :=
      fun jv' h => hamounts jv' (List.mem_cons_of_mem _ h)
    have hcover : jv.depositAmount ≤ w.deposit jv.address chainId := by
      have h := hdeposits jv.address
      rw [recorded_cons, if_pos rfl] at h
      have hnonneg := recorded_nonneg hrest jv.address
      omega
    have hpaid : (w.pay jv.address chainId jv.depositAmount field (payee jv)).NonnegFunds :=
      hw.pay field hx hcover
    have hleft : ∀ a, recorded jvs a ≤
        (w.pay jv.address chainId jv.depositAmount field (payee jv)).deposit a chainId := by
      intro a
      have h := hdeposits a
      rw [recorded_cons] at h
      rw [World.deposit_pay]
      by_cases ha : a = jv.address
      · rw [if_pos ⟨ha, rfl⟩]
        rw [if_pos ha] at h
        omega
      · rw [if_neg fun h => ha h.1]
        rw [if_neg ha] at h
        omega
    unfold forEach
    rw [List.foldlM_cons]
    refine Prog.Ends.bind (Prog.Ends.bind (Prog.ends_perform rfl (Prog.ends_perform rfl ?_)))
    refine (ih hpaid hrest hleft).mono fun _ w' h => ?_
    refine ⟨(World.sameTotal_pay _ _ _ _ hfield).trans h.total, h.nonneg, fun a id hid => ?_,
      fun a => le_trans ?_ (h.chainBalance a)⟩
    · rw [h.others a id hid, World.deposit_pay, if_neg fun h => hid h.2, sub_zero]
    · rw [World.amount_pay]
      split_ifs <;> omega

namespace PendingDB

variable {db : PendingDB} {height : ℤ} {v : PendingIdx} {rest : List PendingIdx} {w w' : World}

theorem owned_cons (db : PendingDB) (v : PendingIdx) (vs : List PendingIdx) (a : Address) :
    db.owned (v :: vs) a = db.owned vs a +
      if (db.getPendingSideChainData v.chainID).any (fun cci => cci.owner = a) then 1 else 0 := by
  unfold owned
  rw [List.countP_cons]

/-- What is held for all chains is held for those after the first, if their deposits have not
changed and the chain balances cover them. -/
theorem Funded.tail (h : db.Funded (v :: rest) w)
    (hdeposits : ∀ a, ∀ v' ∈ rest, w'.deposit a v'.chainID = w.deposit a v'.chainID)
    (howners : ∀ a, (db.owned rest a : ℤ) * officialMinimumDeposit ≤ w'.amount .chainBalance a) :
    db.Funded rest w' where
  amounts v' hv' := h.amounts v' (List.mem_cons_of_mem _ hv')
  deposits v' hv' cci hcci a := by
    rw [hdeposits a v' hv']
    exact h.deposits v' (List.mem_cons_of_mem _ hv') cci hcci a
  owners := howners

theorem Funded.owners_tail (h : db.Funded (v :: rest) w) (a : Address) :
    (db.owned rest a : ℤ) * officialMinimumDeposit ≤ w.amount .chainBalance a := by
  have howners := h.owners a
  rw [owned_cons] at howners
  unfold officialMinimumDeposit at *
  split_ifs at howners <;> push_cast at howners <;> omega

theorem sameTotal_official (w : World) (owner : Address) (x : ℤ) :
    World.SameTotal w ((w.addAmount .balance owner x).subAmount .chainBalance owner x) := by
  refine @World.sameTotal_of_moved w _ owner owner x fun a => ?_
  unfold World.wealth
  rw [World.deposits_subAmount, World.deposits_addAmount]
  simp only [World.amount_subAmount, World.amount_addAmount]
  by_cases ha : a = owner
  · simp only [ha, true_and, if_true, reduceCtorEq, if_false]
    ring
  · simp only [ha, false_and, if_false]
    ring

/-- **What is done for a chain keeps the sum**, makes nothing negative, and leaves what is held for
the chains after it. -/
theorem ends_settle {f : Fate} (hf : db.fate height v = .ok f) (hw : w.NonnegFunds)
    (hfunded : db.Funded (v :: rest) w) (hnew : ∀ v' ∈ rest, v'.chainID ≠ v.chainID) :
    (settle v f).Ends Op.denote w fun _ w' =>
      World.SameTotal w w' ∧ w'.NonnegFunds ∧ db.Funded rest w' := by
  rcases fate_spec hf with rfl | ⟨cci, hcci, rfl | rfl⟩
  · exact Prog.ends_pure ⟨.refl w, hw, hfunded.tail (fun _ _ _ => rfl) hfunded.owners_tail⟩
  · have hamounts := hfunded.amounts v List.mem_cons_self cci hcci
    have hdeposits := hfunded.deposits v List.mem_cons_self cci hcci
    refine Prog.Ends.bind ((ends_payOut (.inl rfl) _ hw hamounts hdeposits).mono fun _ w₁ h₁ => ?_)
    refine Prog.Ends.bind (Prog.ends_perform rfl (Prog.ends_perform rfl ?_))
    have howner : ((db.owned rest cci.owner : ℤ) + 1) * officialMinimumDeposit ≤
        w₁.amount .chainBalance cci.owner := by
      have h := hfunded.owners cci.owner
      rw [owned_cons, hcci] at h
      simp only [Option.any_some, decide_true, if_true] at h
      push_cast at h
      exact h.trans (h₁.chainBalance cci.owner)
    have howned : 0 ≤ (db.owned rest cci.owner : ℤ) := Int.natCast_nonneg _
    refine ⟨h₁.total.trans (sameTotal_official w₁ cci.owner officialMinimumDeposit),
      ⟨fun a => ?_, fun a => ?_, fun a p hp => ?_⟩,
      hfunded.tail (fun a v' hv' => ?_) fun a => ?_⟩
    · have hold := h₁.nonneg.balance a
      rw [World.amount_subAmount, World.amount_addAmount]
      simp only [reduceCtorEq, and_false, if_false, sub_zero]
      unfold officialMinimumDeposit
      split_ifs <;> omega
    · have hold := h₁.nonneg.chainBalance a
      rw [World.amount_subAmount, World.amount_addAmount]
      simp only [reduceCtorEq, and_false, if_false, add_zero]
      split_ifs with ha
      · rw [ha.1]
        unfold officialMinimumDeposit at *
        omega
      · omega
    · rw [World.deposits_subAmount, World.deposits_addAmount] at hp
      exact h₁.nonneg.deposits a p hp
    · rw [← h₁.others a v'.chainID (hnew v' hv')]
      unfold World.deposit
      rw [World.deposits_subAmount, World.deposits_addAmount]
    · rw [World.amount_subAmount, World.amount_addAmount]
      simp only [reduceCtorEq, and_false, if_false, add_zero]
      split_ifs with ha
      · rw [ha.1]
        unfold officialMinimumDeposit at *
        omega
      · rw [sub_zero]
        exact (hfunded.owners_tail a).trans (h₁.chainBalance a)
  · have hamounts := hfunded.amounts v List.mem_cons_self cci hcci
    have hdeposits := hfunded.deposits v List.mem_cons_self cci hcci
    refine (ends_payOut (.inr rfl) (fun _ => cci.owner) hw hamounts hdeposits).mono fun _ w' h => ?_
    refine ⟨h.total, h.nonneg, hfunded.tail (fun a v' hv' => h.others a _ (hnew v' hv')) fun a => ?_⟩
    exact (hfunded.owners_tail a).trans (h.chainBalance a)

/-- **The walk over the index** ends with the groups, keeps the sum and makes nothing negative. -/
theorem Coherent.ends_walk (h : db.Coherent) (height : ℤ) (hw : w.NonnegFunds)
    (hfunded : db.Funded db.index w) :
    (db.index.foldlM (db.visit height) ⟨[], [], []⟩).Ends Op.denote w fun l w' =>
      db.launch height = .ok l ∧ World.SameTotal w w' ∧ w'.NonnegFunds := by
  refine (Prog.ends_foldlM (fun visited l w' =>
      visited.foldlM (db.groups height) ⟨[], [], []⟩ = .ok l ∧ World.SameTotal w w' ∧
      w'.NonnegFunds ∧ ∀ rest, db.index = visited ++ rest → db.Funded rest w')
    ⟨rfl, .refl w, hw, fun rest hrest => ?_⟩
    fun visited v rest l w' hindex ⟨hgroups, htotal, hnonneg, hheld⟩ => ?_).mono
    fun l w' h => ⟨h.1, h.2.1, h.2.2.1⟩
  · rw [List.nil_append] at hrest
    exact hrest ▸ hfunded
  have hv : v ∈ db.index := hindex ▸ List.mem_append_right _ List.mem_cons_self
  have hnew : ∀ v' ∈ rest, v'.chainID ≠ v.chainID := by
    intro v' hv' heq
    have hnodup := h.nodup
    rw [hindex, List.map_append, List.map_cons] at hnodup
    have hcons := (List.nodup_append.1 hnodup).2.1
    exact (List.nodup_cons.1 hcons).1 (heq ▸ List.mem_map_of_mem hv')
  obtain ⟨f, hf⟩ := @exists_fate db height v (h.data v hv)
  have hvisit : db.visit height l v = (settle v f >>= fun _ => pure (l.add v f)) := by
    unfold visit
    rw [hf]
  rw [hvisit]
  refine Prog.Ends.bind ((ends_settle hf hnonneg (hheld _ hindex) hnew).mono
    fun _ w'' ⟨htotal', hnonneg', hfunded'⟩ => Prog.ends_pure ?_)
  refine ⟨Steps.foldlM_append_eq_ok.2 ⟨l, hgroups, ?_⟩, htotal.trans htotal', hnonneg',
    fun rest' hrest' => ?_⟩
  · rw [List.foldlM_cons, groups, hf]
    rfl
  rw [hindex, List.append_assoc] at hrest'
  obtain rfl : rest = rest' := by simpa using hrest'
  exact hfunded'

/-- `GetSideChainForLaunch` adds no cross-chain transaction. -/
theorem unmarked_getSideChainForLaunch (db : PendingDB) (height : ℤ) :
    Unmarked (db.getSideChainForLaunch height) := by
  have hjoined : ∀ (jvs : List JoinedValidator) (body : JoinedValidator → Prog Op GoPanic Unit),
      (∀ jv, Unmarked (body jv)) → Unmarked (forEach jvs body) := fun jvs body hbody =>
    Prog.uses_foldlM (fun _ jv => hbody jv) jvs ()
  have hsettle : ∀ v f, Unmarked (settle v f) := by
    intro v f
    cases f with
    | kept => exact unmarked_pure ()
    | expired cci =>
      exact (hjoined _ _ fun jv => (unmarked_call rfl).bind fun _ => unmarked_call rfl).bind
        fun _ => (unmarked_call rfl).bind fun _ => unmarked_call rfl
    | ready cci =>
      exact hjoined _ _ fun jv => (unmarked_call rfl).bind fun _ => unmarked_call rfl
  refine Unmarked.bind (Prog.uses_foldlM (fun l v => ?_) db.index _) fun l => unmarked_pure _
  unfold visit
  split
  · trivial
  · exact (hsettle v _).bind fun _ => unmarked_pure _

theorem ends_of_denote {ε α : Type} {p : Prog Op ε α} (hp : Unmarked p) {s : StateDB} (hs : s.Wf)
    {Q : α → World → Prop} (h : p.Ends Op.denote s.view Q) :
    p.Ends Op.run s fun a t => t.Wf ∧ Q a t.view := by
  obtain ⟨a, w', hrun, hQ⟩ := h
  have hagree := run_refines p ⟨hs, rfl⟩ (hp.safe Op.run s)
  rw [hrun] at hagree
  generalize hrun' : p.run Op.run s = r at hagree
  cases hagree with
  | ok _ hst => exact ⟨a, _, hrun', hst.wf, hst.view ▸ hQ⟩

theorem finite_wealth (s : StateDB) : (Function.support s.view.wealth).Finite := by
  refine s.finite_accounts.subset fun a ha hnone => ha ?_
  unfold World.wealth World.deposits World.amount
  rw [World.acct_of_none hnone]
  rfl

/-- **The launch of side chains.**  After every sequence of actions on the pending chains, at every
height and in every state in which what they record is held, `GetSideChainForLaunch` returns.  Each
chain of the index is kept, ready or deleted, and only one of them; the sum of balances, chain
balances and deposits over all accounts stays, and none of them is negative; and
`ProcessPostPendingData` leaves an index of exactly the chains that are kept, with their data. -/
theorem sideChain_launch (actions : List PendingAction) :
    ∃ db, actions.foldlM act empty = .ok db ∧
      ∀ (height : ℤ) (s : StateDB), s.Wf → s.view.NonnegFunds → db.Funded db.index s.view →
        ∃ ready newIdx deleted t,
          (db.getSideChainForLaunch height).run Op.run s = .ok (.ok (ready, newIdx, deleted), t) ∧
          t.view.totalWealth = s.view.totalWealth ∧ t.view.NonnegFunds ∧
          ∃ kept, (kept.map PendingIdx.chainID ++ ready ++ deleted).Perm
              (db.index.map PendingIdx.chainID) ∧
            (db.index.map PendingIdx.chainID).Nodup ∧
            (db.processPostPendingData newIdx deleted).index = kept ∧
            ∀ v ∈ kept, v ∈ db.index ∧
              (db.processPostPendingData newIdx deleted).getPendingSideChainData v.chainID =
                db.getPendingSideChainData v.chainID ∧
              db.getPendingSideChainData v.chainID ≠ none := by
  obtain ⟨db, hrun, hcoherent⟩ := exists_run actions
  refine ⟨db, hrun, fun height s hs hnonneg hfunded => ?_⟩
  obtain ⟨l, hl, hgrouped⟩ := hcoherent.exists_launch height
  have hends : (db.getSideChainForLaunch height).Ends Op.denote s.view fun r w' =>
      r = (l.readyForLaunch, db.changed l, l.deleteSideChainIds) ∧
        World.SameTotal s.view w' ∧ w'.NonnegFunds := by
    refine Prog.Ends.bind ((hcoherent.ends_walk height hnonneg hfunded).mono
      fun l' w' ⟨hl', htotal, hnonneg'⟩ => Prog.ends_pure ⟨?_, htotal, hnonneg'⟩)
    rw [← Except.ok.inj (hl.symm.trans hl')]
    rfl
  obtain ⟨r, t, hrun', -, rfl, htotal, hnonneg'⟩ :=
    ends_of_denote (unmarked_getSideChainForLaunch db height) hs hends
  refine ⟨_, _, _, t, hrun', (htotal (finite_wealth s)).2, hnonneg', l.newPendingIdx, hgrouped.perm,
    hcoherent.nodup, ?_, fun v hv => ?_⟩
  · by_cases hlength : l.newPendingIdx.length = db.index.length
    · rw [changed, if_neg (not_not_intro hlength), (hgrouped.unchanged hlength).1]
      rfl
    · rw [changed, if_pos hlength]
      rfl
  · have hindex := hgrouped.kept.subset hv
    refine ⟨hindex, ?_, hcoherent.data v hindex⟩
    exact (lookup_eraseAll ..).trans (if_neg (hgrouped.not_deleted hcoherent.nodup hv))

/-- **A chain that is created between the two calls is lost** if any chain leaves the index: its data
stays, but the index does not list it. -/
theorem created_between_lost (hcoherent : db.Coherent) {l : Launch}
    (hl : db.launch height = .ok l) (hleaves : l.newPendingIdx.length ≠ db.index.length)
    {cci : CoreChainInfo} (hnew : db.getPendingSideChainData cci.chainId = none)
    {db' : PendingDB} (hdb' : db.act (.launch height [(cci, true)]) = .ok db') :
    db'.getPendingSideChainData cci.chainId = some cci ∧ ∀ v ∈ db'.index, v.chainID ≠ cci.chainId := by
  obtain ⟨l', hl', hgrouped⟩ := hcoherent.exists_launch height
  obtain rfl := Except.ok.inj (hl.symm.trans hl')
  obtain ⟨l', hl', rfl⟩ := Steps.map_eq_ok.1 hdb'
  obtain rfl := Except.ok.inj (hl.symm.trans hl')
  have hlisted : ∀ v ∈ db.index, v.chainID ≠ cci.chainId := by
    rintro v hv heq
    exact hcoherent.data v hv (heq ▸ hnew)
  constructor
  · have hdeleted : cci.chainId ∉ l.deleteSideChainIds := by
      intro hmem
      obtain ⟨v, hv, heq⟩ := List.mem_map.1
        (hgrouped.perm.subset (List.mem_append_right _ hmem))
      exact hlisted v hv heq
    refine (lookup_eraseAll ..).trans ((if_neg hdeleted).trans ?_)
    exact (lookup_store cci true cci.chainId).trans (if_pos rfl)
  · intro v hv
    have hindex : ((db.storeAll [(cci, true)]).processPostPendingData (db.changed l)
        l.deleteSideChainIds).index = l.newPendingIdx := by
      rw [changed, if_pos hleaves]
      rfl
    rw [hindex] at hv
    exact hlisted v (hgrouped.kept.subset hv)

end PendingDB

end CrossChain

end LigoChain
