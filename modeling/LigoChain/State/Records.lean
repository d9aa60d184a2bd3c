/-
# Delegation records and rewards as a map

The per-user functions of a state (`statedb_delegate.go`, `statedb_reward.go`) read and write the
delegation and reward tries of an account through two caches.  Here a run of them, with reads,
`Finalise`, `Commit`, and `New` at the root that it returns, is compared with a plain map to which
the same updates are applied (`Records`).

A record that is negative has no encoding and is dropped from the trie; an account that is empty
is deleted with its records and rewards; and an object that `Commit` has written is not marked when
it is written to again, so that the next `Commit` leaves it out.  **In a run without these the
getters return the values of the map, and the roots that are written depend on its non-zero content
alone** (`records_refine`).
-/

import LigoChain.State.Booking
import LigoChain.State.Sessions

namespace LigoChain
namespace State

/-! ## Reads -/

theorem StateObject.Clean.loaded {o : StateObject} {stored : Option Account} (h : o.Clean stored)
    (f : FieldWrite) : (o.loaded f).Clean stored := by
  have hload : ∀ {ν : Type} (c : Cache Address ν) (base : FinMap Address ν) (key : Address),
      (c.load base key).dirty = c.dirty := by
    intro ν c base key
    unfold Cache.load
    split <;> rfl
  cases f with
  | accountProxiedBalance key value =>
    exact ⟨h.deleted, h.stored, (hload _ _ _).trans h.proxied, h.reward, h.dirtyTX⟩
  | delegateRewardBalance key value =>
    exact ⟨h.deleted, h.stored, h.proxied, (hload _ _ _).trans h.reward, h.dirtyTX⟩
  | _ => exact h

theorem StateObject.loaded_marks (o : StateObject) (f : FieldWrite) :
    (o.loaded f).deleted = o.deleted ∧ (o.loaded f).onDirty = o.onDirty := by
  cases f <;> exact ⟨rfl, rfl⟩

namespace StateDB

variable {s : StateDB}

theorem getStateObject_deleted {addr : Address} {o : StateObject}
    (h : s.getStateObject addr = some o) : o.deleted = false := by
  unfold getStateObject at h
  split at h
  next o' _ =>
    split_ifs at h with hdeleted
    cases h
    exact Bool.eq_false_iff.2 hdeleted
  next =>
    obtain ⟨a, -, rfl⟩ := Option.map_eq_some_iff.1 h
    rfl

/-- **A read leaves a state that tells the same.** -/
theorem view_leave (s : StateDB) (addr : Address) (f : FieldWrite) :
    (s.leave addr fun o => o.loaded f).view = s.view := by
  unfold StateDB.leave
  cases ho : s.getStateObject addr with
  | none => rfl
  | some o =>
    have hdeleted : (o.loaded f).deleted = false :=
      (StateObject.loaded_marks o f).1.trans (getStateObject_deleted ho)
    refine (view_insert s addr hdeleted _ s.journal).trans ?_
    rw [StateObject.view_loaded]
    refine World.ext (funext fun a => ?_) rfl rfl
    show Function.update s.view.accounts addr (some o.view) a = s.view.accounts a
    rw [Function.update_apply]
    split_ifs with ha
    · rw [ha, accounts_view, ho]
      rfl
    · rfl

theorem Sound.leave (h : s.Sound) (addr : Address) (f : FieldWrite) :
    (s.leave addr fun o => o.loaded f).Sound := by
  unfold StateDB.leave
  cases ho : s.getStateObject addr with
  | none => exact h
  | some o =>
    obtain ⟨howf, hdeleted, hdirty, hclean⟩ := h.wf.getStateObject ho
    obtain ⟨hsame, honDirty⟩ := StateObject.loaded_marks o f
    refine ⟨?_, h.storedNonempty, h.revisionsBelow⟩
    refine h.wf.insert s.journal (howf.loaded f) (hsame.trans hdeleted) ?_
      (fun _ _ => Iff.rfl) fun hd => ?_
    · rw [honDirty]
      exact hdirty
    · exact (hclean (honDirty ▸ hd)).loaded f

end StateDB

/-! ## Runs -/

/-- What users have delegated and earned. -/
structure Records where
  entry : Address → Address → EntryField → ℤ
  reward : Address → Address → ℤ

namespace Records

/-- What a state tells of them. -/
def of (s : StateDB) : Records :=
  ⟨fun addr user field => s.getByUser field addr user,
    fun addr deleAddress => s.getRewardBalanceByDelegateAddress addr deleAddress⟩

variable (m : Records)

/-- An update. -/
def book (b : Booking) : Records :=
  ⟨fun addr user field => m.entry addr user field + b.entryAt field addr user,
    fun addr deleAddress => m.reward addr deleAddress + b.rewardAt addr deleAddress⟩

/-- The non-zero content at an account: what the delegation trie is to have. -/
def stored (addr user : Address) : Option AccountProxiedBalance :=
  let record := ⟨m.entry addr user .proxied, m.entry addr user .depositProxied,
    m.entry addr user .pendingRefund⟩
  if record = .new then none else some record

/-- What the reward trie is to have. -/
def storedReward (addr deleAddress : Address) : Option ℤ :=
  if m.reward addr deleAddress = 0 then none else some (m.reward addr deleAddress)

/-- Nothing is negative. -/
def Nonneg : Prop :=
  (∀ addr user field, 0 ≤ m.entry addr user field) ∧ ∀ addr deleAddress, 0 ≤ m.reward addr deleAddress

/-- There is nothing at the account. -/
def NoneAt (addr : Address) : Prop :=
  (∀ user field, m.entry addr user field = 0) ∧ ∀ deleAddress, m.reward addr deleAddress = 0

end Records

/-- The kept part of a record that is not negative is its non-zero part. -/
theorem filter_keep {record : Option AccountProxiedBalance} {m : Records} {addr user : Address}
    (hnonneg : m.Nonneg) (h : ∀ field, (record.getD .new).get field = m.entry addr user field) :
    record.filter AccountProxiedBalance.keep = m.stored addr user := by
  have hrecord : (⟨m.entry addr user .proxied, m.entry addr user .depositProxied,
      m.entry addr user .pendingRefund⟩ : AccountProxiedBalance) = record.getD .new := by
    refine AccountProxiedBalance.ext_get fun field => ?_
    rw [h]
    cases field <;> rfl
  unfold Records.stored
  simp only [hrecord]
  cases record with
  | none => rw [Option.getD_none, if_pos rfl, Option.filter_none]
  | some value =>
    rw [Option.getD_some] at h ⊢
    have hencodable : value.encodable = true :=
      AccountProxiedBalance.encodable_iff.2 fun field => (h field).symm ▸ hnonneg.1 addr user field
    by_cases hnew : value = .new
    · rw [if_pos hnew, Option.filter_eq_none_iff]
      intro v hv
      cases hv
      simp [AccountProxiedBalance.keep, AccountProxiedBalance.isEmpty_iff.2 hnew]
    · rw [if_neg hnew, Option.filter_eq_some_iff]
      have hempty : value.isEmpty = false :=
        Bool.eq_false_iff.2 (mt AccountProxiedBalance.isEmpty_iff.1 hnew)
      exact ⟨rfl, by simp [AccountProxiedBalance.keep, hempty, hencodable]⟩

theorem filter_keepReward {reward : Option ℤ} {m : Records} {addr deleAddress : Address}
    (hnonneg : m.Nonneg) (h : reward.getD 0 = m.reward addr deleAddress) :
    reward.filter keepReward = m.storedReward addr deleAddress := by
  have hpos := hnonneg.2 addr deleAddress
  unfold Records.storedReward
  cases reward with
  | none =>
    rw [← h, Option.getD_none, if_pos rfl, Option.filter_none]
  | some value =>
    rw [Option.getD_some] at h
    subst h
    by_cases hzero : m.reward addr deleAddress = 0
    · simp [hzero, Option.filter, keepReward]
    · have hlt : 0 < m.reward addr deleAddress := lt_of_le_of_ne hpos (Ne.symm hzero)
      simp [hzero, Option.filter, keepReward, hlt]

/-- What a run does: updates, also of balances, and reads; `Finalise`; `Commit`; and `New` at the
root that the last `Commit` returned. -/
inductive RecordStep
  | addByUser (field : EntryField) (addr user : Address) (amount : ℤ)
  | subByUser (field : EntryField) (addr user : Address) (amount : ℤ)
  | addReward (addr deleAddress : Address) (amount : ℤ)
  | subReward (addr deleAddress : Address) (amount : ℤ)
  | addBalance (addr : Address) (amount : ℤ)
  | getByUser (field : EntryField) (addr user : Address)
  | getReward (addr deleAddress : Address)
  | finalise
  | commit
  | reopen
  deriving DecidableEq

/-- A state, and the map to which the same updates were applied; the root that was last opened or
returned, with the map at that time; and whether `Commit` was called on the state. -/
structure RecordRun where
  state : StateDB
  records : Records
  root : Root
  saved : Records
  committed : Bool

namespace RecordRun

/-- A state is opened. -/
def start (root : Root) : RecordRun :=
  ⟨.new root, .of (.new root), root, .of (.new root), false⟩

variable (x : RecordRun)

/-- A function of the state is called that books something. -/
def call {β : Type} (o : Op β) (b : Booking) : Go RecordRun := do
  let r ← o.ask x.state
  .ok { x with state := r.2, records := x.records.book b }

/-- A getter is called. -/
def read {β : Type} (o : Op β) : Go RecordRun := do
  let r ← o.ask x.state
  .ok { x with state := r.2 }

/-- A step of a run. -/
def step : RecordStep → Go RecordRun
  | .addByUser field addr user amount =>
    x.call (.addByUser field addr user amount) (.post addr (.entry field user amount))
  | .subByUser field addr user amount =>
    x.call (.subByUser field addr user amount) (.post addr (.entry field user (-amount)))
  | .addReward addr deleAddress amount =>
    x.call (.addRewardBalanceByDelegateAddress addr deleAddress amount)
      (.post addr (.reward deleAddress amount))
  | .subReward addr deleAddress amount =>
    x.call (.subRewardBalanceByDelegateAddress addr deleAddress amount)
      (.post addr (.reward deleAddress (-amount)))
  | .addBalance addr amount =>
    x.call (.addAmount .balance addr amount) (.post addr (.amount .balance amount))
  | .getByUser field addr user => x.read (.getByUser field addr user)
  | .getReward addr deleAddress => x.read (.getRewardBalanceByDelegateAddress addr deleAddress)
  | .finalise => do
    let s ← x.state.finalise
    .ok { x with state := s }
  | .commit => do
    let r ← x.state.commit
    .ok { x with state := r.2, root := r.1, saved := x.records, committed := true }
  | .reopen =>
    .ok { x with state := .new x.root, records := x.saved, committed := false }

/-- **What can be written**: no record and no reward is negative, no account that has one is empty,
and every account that is not empty has an encoding. -/
structure Storable : Prop where
  nonneg : x.records.Nonneg
  noneAt : ∀ addr, x.state.empty addr = true → x.records.NoneAt addr
  encodable : x.state.view.Encodable
  rewardEncodable : x.state.view.RewardEncodable

/-- **What a step must not do**: use a state on which `Commit` was called other than to read; take
from a reward that there is not; write what cannot be written. -/
def Allowed : RecordStep → Prop
  | .getByUser _ _ _ | .getReward _ _ | .reopen => True
  | .finalise | .commit => x.committed = false ∧ x.Storable
  | .subReward addr deleAddress _ => x.committed = false ∧ x.records.reward addr deleAddress ≠ 0
  | _ => x.committed = false

end RecordRun

/-- The state tells what the map has. -/
structure Tells (s : StateDB) (m : Records) : Prop where
  entry : ∀ addr user field, (s.view.entry addr user).get field = m.entry addr user field
  reward : ∀ addr deleAddress, s.view.reward addr deleAddress = m.reward addr deleAddress

/-- What an account of the trie has to have of the map. -/
structure Holds (m : Records) (addr : Address) (a : Account) : Prop where
  proxiedRoot : ∃ trie, a.proxiedRoot = some trie ∧ ∀ user, trie[user]? = m.stored addr user
  rewardRoot : ∃ trie, a.rewardRoot = some trie ∧ ∀ d, trie[d]? = m.storedReward addr d

namespace Tells

variable {s t : StateDB} {m : Records}

theorem of_self (s : StateDB) : Tells s (.of s) :=
  ⟨fun addr user field => (StateDB.getByUser_eq s addr field user).symm,
    fun addr d => (StateDB.getRewardBalanceByDelegateAddress_eq s addr d).symm⟩

theorem congr (h : Tells s m) (haccounts : t.view.accounts = s.view.accounts) : Tells t m := by
  have hacct : ∀ addr, t.view.acct addr = s.view.acct addr := fun addr => by
    unfold World.acct
    rw [haccounts]
  refine ⟨fun addr user field => ?_, fun addr d => ?_⟩
  · rw [World.entry, hacct]
    exact h.entry addr user field
  · rw [World.reward, hacct]
    exact h.reward addr d

theorem book (h : Tells s m) {b : Booking} (hview : t.view = s.view.book b) : Tells t (m.book b) := by
  refine ⟨fun addr user field => ?_, fun addr d => ?_⟩
  · rw [hview, World.entry_book, h.entry]
    rfl
  · rw [hview, World.reward_book, h.reward]
    rfl

theorem noneAt (h : Tells s m) {addr : Address} (hnone : s.view.accounts addr = none) :
    m.NoneAt addr := by
  have hacct : s.view.acct addr = .new := by
    unfold World.acct
    rw [hnone]
    rfl
  refine ⟨fun user field => ?_, fun d => ?_⟩
  · rw [← h.entry, World.entry, hacct]
    simp [Acct.entry, Acct.new]
  · rw [← h.reward, World.reward, hacct]
    simp [Acct.new]

/-- `Finalise` changes no read, if it deletes nothing that the map has. -/
theorem finalised (h : Tells s m) (hview : t.view = s.view.finalised)
    (hempty : ∀ addr, s.empty addr = true → m.NoneAt addr) : Tells t m := by
  refine ⟨fun addr user field => ?_, fun addr d => ?_⟩
  · unfold World.entry
    rw [hview, World.acct_finalised]
    split_ifs with hdeleted
    · rw [(hempty addr ((s.empty_eq_acct addr).trans hdeleted)).1]
      simp [Acct.entry, Acct.new]
    · exact h.entry addr user field
  · unfold World.reward
    rw [hview, World.acct_finalised]
    split_ifs with hdeleted
    · rw [(hempty addr ((s.empty_eq_acct addr).trans hdeleted)).2]
      simp [Acct.new]
    · exact h.reward addr d

/-- **What is written** depends on the non-zero content of the map alone. -/
theorem holds (h : Tells s m) (hnonneg : m.Nonneg) (hview : t.view = s.view.finalised)
    (hsettled : t.Settled) {addr : Address} {a : Account} (ha : t.trie[addr]? = some a) :
    Holds m addr a := by
  obtain ⟨acct, hacct, rfl⟩ := Option.map_eq_some_iff.1 ((hsettled addr).symm.trans ha)
  rw [hview] at hacct
  obtain ⟨before, hbefore, hsettles⟩ := Option.bind_eq_some_iff.1 hacct
  have hat : s.view.acct addr = before := by
    unfold World.acct
    rw [hbefore]
    rfl
  unfold Acct.settled at hsettles
  split_ifs at hsettles
  cases hsettles
  refine ⟨⟨_, rfl, fun user => ?_⟩, ⟨_, rfl, fun d => ?_⟩⟩
  · rw [Std.ExtTreeMap.getElem?_filter']
    refine filter_keep hnonneg fun field => ?_
    have hentry := h.entry addr user field
    rw [World.entry, hat] at hentry
    exact hentry
  · rw [Std.ExtTreeMap.getElem?_filter']
    refine filter_keepReward hnonneg ?_
    have hreward := h.reward addr d
    rw [World.reward, hat] at hreward
    exact hreward

/-- A state opened at a root that has the map. -/
theorem opened {root : Root}
    (hstored : ∀ (addr : Address) a, root.accounts[addr]? = some a → Holds m addr a)
    (hnone : ∀ addr : Address, root.accounts[addr]? = none → m.NoneAt addr) :
    Tells (.new root) m := by
  have hopened : ∀ addr, (StateDB.new root).view.acct addr =
      ((root.accounts[addr]?).map fun a => (StateObject.newObject a).view).getD .new := by
    intro addr
    rw [StateDB.acct_view]
    show (((root.accounts[addr]?).map StateObject.newObject).map StateObject.view).getD .new = _
    rw [Option.map_map]
    rfl
  refine ⟨fun addr user field => ?_, fun addr d => ?_⟩
  · rw [World.entry, hopened]
    cases haddr : root.accounts[addr]? with
    | none =>
      rw [(hnone addr haddr).1]
      simp [Acct.entry, Acct.new]
    | some a =>
      obtain ⟨trie, htrie, hvalues⟩ := (hstored addr a haddr).proxiedRoot
      rw [Option.map_some, Option.getD_some, StateObject.view_newObject]
      show ((a.proxiedTrie[user]?).getD .new).get field = _
      rw [Account.proxiedTrie, htrie, Option.getD_some, hvalues]
      unfold Records.stored
      simp only
      split_ifs with hnew
      · rw [Option.getD_none, ← hnew]
        cases field <;> rfl
      · rw [Option.getD_some]
        cases field <;> rfl
  · rw [World.reward, hopened]
    cases haddr : root.accounts[addr]? with
    | none =>
      rw [(hnone addr haddr).2]
      simp [Acct.new]
    | some a =>
      obtain ⟨trie, htrie, hvalues⟩ := (hstored addr a haddr).rewardRoot
      rw [Option.map_some, Option.getD_some, StateObject.view_newObject]
      show (a.rewardTrie[d]?).getD 0 = _
      rw [Account.rewardTrie, htrie, Option.getD_some, hvalues]
      unfold Records.storedReward
      split_ifs with hzero
      · rw [Option.getD_none, hzero]
      · rw [Option.getD_some]

end Tells

theorem World.subReward_eq_book (w : World) (addr deleAddress : Address) (amount : ℤ)
    {r : Unit × World}
    (h : (Op.subRewardBalanceByDelegateAddress addr deleAddress amount).denote w = .ok r) :
    r.2 = w.book (.post addr (.reward deleAddress (-amount))) := by
  simp only [Op.denote] at h
  split at h
  next => cases h
  next reward hreward =>
    cases h
    have hvalue : w.reward addr deleAddress = reward := by
      unfold World.reward
      rw [hreward]
      rfl
    rw [← World.addReward_eq_book, hvalue, World.subAmount_eq_book, World.addAmount_eq_book,
      sub_eq_add_neg]


namespace RecordRun

/-- The invariant of a run. -/
structure Good (x : RecordRun) : Prop where
  sound : x.committed = false → x.state.Sound
  tells : Tells x.state x.records
  root : x.root.Wf
  saved : Tells (.new x.root) x.saved

variable {x y : RecordRun}

theorem good_start {root : Root} (h : root.Wf) : (start root).Good :=
  ⟨fun _ => StateDB.sound_new h, .of_self _, h, .of_self _⟩

/-- An update, on the state and on the map. -/
theorem Good.call (h : x.Good) (hfresh : x.committed = false) {β : Type} {o : Op β} {b : Booking}
    (hmarked : o.Marked x.state) (hleaves : ∀ s, o.leaves s = s)
    (hdenote : ∀ r, o.denote x.state.view = .ok r → r.2 = x.state.view.book b)
    (hruns : ∃ r, o.run x.state = .ok r) : ∃ y, x.call o b = .ok y ∧ y.Good := by
  obtain ⟨r, hr⟩ := hruns
  obtain ⟨hsound, w, hw, hview⟩ := (h.sound hfresh).op hmarked hr
  have hask : o.ask x.state = .ok r := by
    unfold Op.ask
    rw [hr]
    show Except.ok (r.1, o.leaves r.2) = _
    rw [hleaves]
  refine ⟨{ x with state := r.2, records := x.records.book b }, ?_, fun _ => hsound, ?_, h.root,
    h.saved⟩
  · rw [RecordRun.call, hask]
    rfl
  · exact h.tells.book (hview.trans (hdenote _ hw))

theorem Good.read (h : x.Good) (addr : Address) (f : FieldWrite) :
    Good { x with state := x.state.leave addr fun o => o.loaded f } where
  sound := fun hfresh => (h.sound hfresh).leave addr f
  tells := h.tells.congr (congrArg World.accounts (x.state.view_leave addr f))
  root := h.root
  saved := h.saved

/-- **`Finalise`** goes through, and what it writes is the map. -/
theorem Good.finalise (h : x.Good) (hfresh : x.committed = false) (hx : x.Storable) :
    ∃ t, x.state.finalise = .ok t ∧ t.Sound ∧ t.Settled ∧ Tells t x.records ∧
      ∀ (addr : Address) a, t.trie[addr]? = some a → Holds x.records addr a := by
  have hsound := h.sound hfresh
  rcases hsound.storedNonempty.finalise ⟨hsound.wf, rfl⟩ with ⟨-, -, t, ht, -⟩ | ⟨hbad, -⟩ |
    ⟨-, hbad, -⟩
  · obtain ⟨hsound', hview, hsettled⟩ := hsound.finalise ht
    exact ⟨t, ht, hsound', hsettled, h.tells.finalised hview hx.noneAt,
      fun addr a ha => h.tells.holds hx.nonneg hview hsettled ha⟩
  · exact absurd hx.encodable hbad
  · exact absurd hx.rewardEncodable hbad

/-- **`Commit`** goes through, and a state opened at the root that it returns tells the same. -/
theorem Good.commit (h : x.Good) (hfresh : x.committed = false) (hx : x.Storable) :
    ∃ r, x.state.commit = .ok r ∧ Tells r.2 x.records ∧ r.1.Wf ∧ Tells (.new r.1) x.records ∧
      ∀ (addr : Address) a, r.1.accounts[addr]? = some a → Holds x.records addr a := by
  obtain ⟨t, ht, hsound, hsettled, htells, hholds⟩ := h.finalise hfresh hx
  have heq := StateDB.commit_eq (h.sound hfresh).wf.dirty_subset
  rw [ht] at heq
  obtain ⟨r, hr, hsame⟩ := Steps.map_eq_ok.1 heq
  have hroot : r.1 = t.root := congrArg Prod.fst hsame
  refine ⟨r, hr, htells.congr (congrArg Prod.snd hsame), ?_⟩
  rw [hroot]
  refine ⟨⟨hsound.wf.stored, hsound.storedNonempty⟩, ?_, hholds⟩
  refine .opened hholds fun addr haddr => htells.noneAt ?_
  have hnone : (t.view.accounts addr).map Acct.data = none := (hsettled addr).symm.trans haddr
  exact Option.map_eq_none_iff.1 hnone

/-- A reward that is not zero is there to be taken from. -/
theorem Good.subReward_runs (h : x.Good) {addr deleAddress : Address} (amount : ℤ)
    (hne : x.records.reward addr deleAddress ≠ 0) (hfresh : x.committed = false) :
    ∃ r, (Op.subRewardBalanceByDelegateAddress addr deleAddress amount).run x.state = .ok r := by
  have hagree := (Op.subRewardBalanceByDelegateAddress addr deleAddress amount).run_agree _ _
    ⟨(h.sound hfresh).wf, rfl⟩ trivial
  have hdenote : ∃ r, (Op.subRewardBalanceByDelegateAddress addr deleAddress amount).denote
      x.state.view = .ok r := by
    rw [← h.tells.reward, World.reward] at hne
    simp only [Op.denote]
    cases hreward : (x.state.view.acct addr).rewards[deleAddress]? with
    | none =>
      rw [hreward] at hne
      exact absurd rfl hne
    | some reward => exact ⟨_, rfl⟩
  obtain ⟨r, hr⟩ := hdenote
  rw [hr] at hagree
  generalize Op.run _ x.state = y at hagree ⊢
  cases hagree with
  | ok b hst => exact ⟨_, rfl⟩

/-- **A step that is allowed goes through and keeps the invariant.** -/
theorem Good.step (h : x.Good) {a : RecordStep} (ha : x.Allowed a) :
    ∃ y, x.step a = .ok y ∧ y.Good := by
  cases a with
  | addByUser field addr user amount =>
    refine h.call ha (o := .addByUser field addr user amount) trivial (fun _ => rfl)
      (fun r hr => ?_) ⟨_, rfl⟩
    rw [← Except.ok.inj hr, ← World.addByUser_eq_book]
  | subByUser field addr user amount =>
    refine h.call ha (o := .subByUser field addr user amount) trivial (fun _ => rfl)
      (fun r hr => ?_) ⟨_, rfl⟩
    rw [← Except.ok.inj hr, ← World.subByUser_eq_book]
  | addReward addr deleAddress amount =>
    refine h.call ha (o := .addRewardBalanceByDelegateAddress addr deleAddress amount) trivial
      (fun _ => rfl) (fun r hr => ?_) ⟨_, rfl⟩
    rw [← Except.ok.inj hr, ← World.addReward_eq_book]
    rfl
  | subReward addr deleAddress amount =>
    exact h.call ha.1 (o := .subRewardBalanceByDelegateAddress addr deleAddress amount) trivial
      (fun _ => rfl) (fun r hr => World.subReward_eq_book _ _ _ _ hr)
      (h.subReward_runs amount ha.2 ha.1)
  | addBalance addr amount =>
    refine h.call ha (o := .addAmount .balance addr amount) trivial (fun _ => rfl)
      (fun r hr => ?_) ⟨_, rfl⟩
    rw [← Except.ok.inj hr, ← World.addAmount_eq_book]
  | getByUser field addr user => exact ⟨_, rfl, h.read addr (.accountProxiedBalance user none)⟩
  | getReward addr deleAddress =>
    exact ⟨_, rfl, h.read addr (.delegateRewardBalance deleAddress none)⟩
  | finalise =>
    obtain ⟨t, ht, hsound, -, htells, -⟩ := h.finalise ha.1 ha.2
    refine ⟨{ x with state := t }, ?_, fun _ => hsound, htells, h.root, h.saved⟩
    rw [RecordRun.step, ht]
    rfl
  | commit =>
    obtain ⟨r, hr, htells, hroot, hsaved, -⟩ := h.commit ha.1 ha.2
    refine ⟨{ x with state := r.2, root := r.1, saved := x.records, committed := true }, ?_,
      fun hfresh => Bool.noConfusion hfresh, htells, hroot, hsaved⟩
    rw [RecordRun.step, hr]
    rfl
  | reopen => exact ⟨_, rfl, fun _ => StateDB.sound_new h.root, h.saved, h.root, h.saved⟩

/-- **What the state has to say**: the getters return the map's values, and what `Finalise` or
`Commit` writes for an account is the map's non-zero content. -/
structure Refines (x : RecordRun) : Prop where
  getByUser : ∀ field addr user, x.state.getByUser field addr user = x.records.entry addr user field
  getReward : ∀ addr deleAddress, x.state.getRewardBalanceByDelegateAddress addr deleAddress =
    x.records.reward addr deleAddress
  finalise : x.Allowed .finalise → ∃ t, x.state.finalise = .ok t ∧
    ∀ (addr : Address) a, t.trie[addr]? = some a → Holds x.records addr a
  commit : x.Allowed .commit → ∃ r, x.state.commit = .ok r ∧
    ∀ (addr : Address) a, r.1.accounts[addr]? = some a → Holds x.records addr a

theorem Good.refines (h : x.Good) : x.Refines where
  getByUser := fun field addr user =>
    (StateDB.getByUser_eq _ addr field user).trans (h.tells.entry addr user field)
  getReward := fun addr deleAddress =>
    (StateDB.getRewardBalanceByDelegateAddress_eq _ addr deleAddress).trans
      (h.tells.reward addr deleAddress)
  finalise := fun ha => by
    obtain ⟨t, ht, -, -, -, hholds⟩ := h.finalise ha.1 ha.2
    exact ⟨t, ht, hholds⟩
  commit := fun ha => by
    obtain ⟨r, hr, -, -, -, hholds⟩ := h.commit ha.1 ha.2
    exact ⟨r, hr, hholds⟩

/-- **Delegation and reward caches refine a map.**  A run whose steps are all allowed goes through,
and everywhere on its way the getters return the values of the map and the roots that are written
depend on its non-zero content alone. -/
theorem records_refine {root : Root} (hroot : root.Wf) (steps : List RecordStep)
    (hallowed : Steps.RunMeets step Allowed (start root) steps) :
    Steps.Survives step Refines (start root) steps :=
  (hallowed.survives (fun _ _ ha h => h.step ha) (good_start hroot)).mono fun _ => Good.refines

theorem storable_empty : (start .empty).Storable := by
  have hnone : ∀ addr, (StateDB.new .empty).view.accounts addr = none := fun addr => by
    simp [StateDB.accounts_view, StateDB.getStateObject, StateDB.new, Root.empty]
  have hnoneAt : ∀ addr, (Records.of (.new .empty)).NoneAt addr := fun addr =>
    (Tells.of_self _).noneAt (hnone addr)
  exact ⟨⟨fun addr user field => ((hnoneAt addr).1 user field).ge,
      fun addr d => ((hnoneAt addr).2 d).ge⟩, fun addr _ => hnoneAt addr,
    fun addr a ha => absurd ((hnone addr).symm.trans ha) (Option.some_ne_none a).symm,
    fun hdirty => Bool.noConfusion hdirty⟩

/-- An empty state is committed and opened again, and a user delegates to an account that has a
balance. -/
theorem records_refine_reopened :
    Steps.Survives step Refines (start .empty)
      [.commit, .reopen, .addBalance [1] 5, .addByUser .proxied [1] [2] 3,
        .getByUser .proxied [1] [2]] :=
  records_refine Root.wf_empty _
    (And.intro ⟨rfl, storable_empty⟩ (And.intro trivial (And.intro rfl (And.intro rfl
      (And.intro trivial trivial)))))

/-- An account that has only a reward is deleted when the state is finalised; a record that is
negative is dropped when the state is opened again; and what is booked after `Commit` is not written
by the next one. -/
theorem records_lost :
    Steps.holds ([.addReward [1] [1] 5, .finalise].foldlM step (start .empty)) (fun x =>
      x.state.getRewardBalanceByDelegateAddress [1] [1] = 0 ∧ x.records.reward [1] [1] = 5) ∧
    Steps.holds ([.addByUser .proxied [1] [2] 9, .subByUser .proxied [1] [3] 5, .commit,
        .reopen].foldlM step (start .empty)) (fun x =>
      x.state.getByUser .proxied [1] [3] = 0 ∧ x.records.entry [1] [3] .proxied = -5) ∧
    Steps.holds ([.addBalance [1] 5, .addByUser .proxied [1] [2] 3, .commit,
        .addByUser .proxied [1] [2] 4, .commit, .reopen].foldlM step (start .empty)) (fun x =>
      x.state.getByUser .proxied [1] [2] = 3 ∧ x.records.entry [1] [2] .proxied = 7) := by
  decide +kernel

end RecordRun

end State
end LigoChain
