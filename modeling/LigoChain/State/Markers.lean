/-
# Markers of cross-chain transactions

`AddTX1`, `AddTX3`, `HasTX1` and `HasTX3` (`chain/core/state/statedb.go`, `state_object.go`).
An account keeps the hashes of the cross-chain transactions it has taken part in; a withdrawal
is refused when its hash is there.

A hash that was added is pending until the next `Finalise`, which writes it without its leading
zeros, while `HasTX` compares what it finds with the whole hash.  `AddTX` does not mark the
account dirty; an account that is empty is deleted with its markers; and the undo of an `AddTX`
removes the hash also if it had been added before.

**In a run without these four, `HasTX` is true exactly of the hashes that were added and not
reverted** (`hasTX_exact`).  The argument follows the views of the states; each snapshot that
can be reverted to is kept with the state it was taken of (`Taken`).
-/

import LigoChain.State.Sessions

namespace LigoChain
namespace State

namespace Acct

/-- `HasTX1`, `HasTX3` of an account. -/
def hasTX (a : Acct) (kind : TxKind) (txHash : TxHash) : Bool :=
  (a.dirtyTX kind).contains txHash || (a.data.txTrie kind)[txHash]? == some txHash

/-- No pending hash has a leading zero. -/
def Trimmed (a : Acct) : Prop := ∀ kind, ∀ txHash ∈ a.dirtyTX kind, txHash.head? ≠ some 0

theorem dropWhile_zero {txHash : TxHash} (h : txHash.head? ≠ some 0) :
    txHash.dropWhile (· == 0) = txHash := by
  cases txHash with
  | nil => rfl
  | cons b bytes =>
    have hb : b ≠ 0 := fun heq => h (by rw [heq]; rfl)
    simp [hb]

theorem getElem?_foldl_writeTX (l : List TxHash) (trie : FinMap TxHash Bytes) (txHash : TxHash) :
    (l.foldl StateObject.writeTX trie)[txHash]? =
      if txHash ∈ l then some (txHash.dropWhile (· == 0)) else trie[txHash]? := by
  induction l generalizing trie with
  | nil => simp
  | cons h l ih =>
    rw [List.foldl_cons, ih]
    unfold StateObject.writeTX
    rw [FinMap.getElem?_insert_ite]
    by_cases hmem : txHash ∈ l
    · simp [hmem]
    · by_cases heq : txHash = h <;> simp [hmem, heq]

/-- **Writing the pending hashes changes no answer**, if none has a leading zero. -/
theorem hasTX_finalised {a : Acct} (h : a.Trimmed) (kind : TxKind) (txHash : TxHash) :
    a.finalised.hasTX kind txHash = a.hasTX kind txHash := by
  have hwritten : a.finalised.hasTX kind txHash =
      (((a.dirtyTX kind).toList.foldl StateObject.writeTX (a.data.txTrie kind))[txHash]? ==
        some txHash) := by
    show ((∅ : FinSet TxHash).contains txHash || _) = _
    simp only [Std.ExtTreeSet.contains_empty, Bool.false_or]
    rfl
  rw [hwritten, getElem?_foldl_writeTX]
  unfold hasTX
  by_cases hmem : txHash ∈ a.dirtyTX kind
  · rw [if_pos (Std.ExtTreeSet.mem_toList.2 hmem), dropWhile_zero (h kind txHash hmem),
      Std.ExtTreeSet.contains_iff_mem.2 hmem]
    simp
  · rw [if_neg (mt Std.ExtTreeSet.mem_toList.1 hmem),
      Bool.eq_false_iff.2 (mt Std.ExtTreeSet.contains_iff_mem.1 hmem), Bool.false_or]

theorem trimmed_finalised (a : Acct) : a.finalised.Trimmed := fun kind txHash h => by
  have hnone : txHash ∈ (∅ : FinSet TxHash) := h
  exact absurd hnone Std.ExtTreeSet.not_mem_empty

theorem hasTX_new (kind : TxKind) (txHash : TxHash) : Acct.new.hasTX kind txHash = false := by
  simp [hasTX, Acct.new, Account.txTrie, Account.new]

theorem hasTX_set_addTX (a : Acct) (kind kind' : TxKind) (h h' : TxHash) :
    (a.set (.addTX kind h)).hasTX kind' h' = (decide (kind' = kind ∧ h' = h) || a.hasTX kind' h') := by
  have hpending : (a.set (.addTX kind h)).dirtyTX kind' =
      if kind' = kind then (a.dirtyTX kind).insert h else a.dirtyTX kind' :=
    Function.update_apply ..
  have htrie : (a.set (.addTX kind h)).data.txTrie kind' = a.data.txTrie kind' := rfl
  unfold hasTX
  rw [hpending, htrie]
  by_cases hkind : kind' = kind
  · subst hkind
    rw [if_pos rfl, Std.ExtTreeSet.contains_insert]
    have hsame : (compare h h' == .eq) = decide (h' = h) := by
      rw [Bool.eq_iff_iff, beq_iff_eq, Std.compare_eq_iff_eq, decide_eq_true_eq, eq_comm]
    simp only [hsame, true_and, Bool.or_assoc]
  · rw [if_neg hkind]
    simp [hkind]

end Acct

namespace World

/-- The answers of a state. -/
def hasTX (w : World) (kind : TxKind) (addr : Address) (txHash : TxHash) : Bool :=
  (w.acct addr).hasTX kind txHash

/-- No pending hash has a leading zero. -/
def Trimmed (w : World) : Prop := ∀ addr, (w.acct addr).Trimmed

variable {w : World}

theorem hasTX_addTX (w : World) (kind kind' : TxKind) (addr addr' : Address) (h h' : TxHash) :
    (w.write addr (.addTX kind h)).hasTX kind' addr' h' =
      (decide (kind' = kind ∧ addr' = addr ∧ h' = h) || w.hasTX kind' addr' h') := by
  unfold hasTX World.write
  rw [acct_put]
  by_cases haddr : addr' = addr
  · subst haddr
    rw [if_pos rfl, Acct.hasTX_set_addTX]
    simp
  · rw [if_neg haddr]
    simp [haddr]

theorem Trimmed.addTX (hw : w.Trimmed) (kind : TxKind) (addr : Address) {h : TxHash}
    (hh : h.head? ≠ some 0) : (w.write addr (.addTX kind h)).Trimmed := by
  intro addr' kind' h' hmem
  unfold World.write at hmem
  rw [acct_put] at hmem
  split_ifs at hmem with haddr
  · have hpending : h' ∈ Function.update (w.acct addr).dirtyTX kind
        (((w.acct addr).dirtyTX kind).insert h) kind' := hmem
    rw [Function.update_apply] at hpending
    split_ifs at hpending with hkind
    · rcases (StateDB.mem_insert_iff _ _).1 hpending with rfl | hold
      · exact hh
      · exact hw addr kind h' hold
    · exact hw addr kind' h' hpending
  · exact hw addr' kind' h' hmem

theorem addAmount_markers (w : World) (field : AmountField) (addr addr' : Address) (amount : ℤ) :
    ((w.addAmount field addr amount).acct addr').dirtyTX = (w.acct addr').dirtyTX ∧
      ((w.addAmount field addr amount).acct addr').data.txRoot = (w.acct addr').data.txRoot := by
  unfold addAmount
  split_ifs
  · rw [acct_ensure]
    exact ⟨rfl, rfl⟩
  · unfold World.write
    rw [acct_put]
    split_ifs with haddr
    · rw [haddr]
      exact ⟨rfl, rfl⟩
    · exact ⟨rfl, rfl⟩

theorem hasTX_congr {w w' : World} {addr : Address}
    (hdirty : (w'.acct addr).dirtyTX = (w.acct addr).dirtyTX)
    (hroot : (w'.acct addr).data.txRoot = (w.acct addr).data.txRoot) (kind : TxKind) (h : TxHash) :
    w'.hasTX kind addr h = w.hasTX kind addr h := by
  unfold hasTX Acct.hasTX Account.txTrie
  rw [hdirty, hroot]

/-- `Finalise` on markers: no account that has one is empty. -/
theorem hasTX_finalised (hw : w.Trimmed)
    (hkept : ∀ addr, (w.acct addr).data.empty = true → ∀ kind h, w.hasTX kind addr h = false)
    (kind : TxKind) (addr : Address) (h : TxHash) :
    w.finalised.hasTX kind addr h = w.hasTX kind addr h := by
  have hacct := w.acct_finalised addr
  unfold hasTX at hkept ⊢
  rw [hacct]
  split_ifs with hempty
  · rw [Acct.hasTX_new, hkept addr hempty]
  · exact Acct.hasTX_finalised (hw addr) kind h

theorem trimmed_finalised (w : World) : w.finalised.Trimmed := by
  intro addr
  rw [acct_finalised]
  split_ifs
  · intro kind h hmem
    exact absurd hmem Std.ExtTreeSet.not_mem_empty
  · exact Acct.trimmed_finalised _

end World

/-! ## Runs -/

/-- The hashes that accounts have. -/
abbrev Markers := TxKind → Address → TxHash → Bool

/-- What a run does: it adds markers, and amounts, which mark accounts dirty. -/
inductive MarkerStep
  | addTX (kind : TxKind) (addr : Address) (txHash : TxHash)
  | addBalance (addr : Address) (amount : ℤ)
  | snapshot
  | revert (n : ℕ)
  | finalise
  | reopen
  deriving DecidableEq

/-- A state in use, the hashes that were added and not reverted, and those at each snapshot. -/
structure MarkerRun where
  session : Session
  added : Markers
  saved : List Markers

namespace MarkerRun

/-- A state is opened; the hashes that it has count as added. -/
def start (root : Root) : MarkerRun :=
  ⟨⟨.new root, []⟩, fun kind addr txHash => (StateDB.new root).hasTX kind addr txHash, []⟩

/-- A step of a run; to reopen a state is `Commit`, then `New` at the root it returns. -/
def step (x : MarkerRun) : MarkerStep → Go MarkerRun
  | .addTX kind addr txHash =>
    .ok { x with
      session := ⟨x.session.state.addTX kind addr txHash, x.session.ids⟩
      added := fun kind' addr' txHash' =>
        decide (kind' = kind ∧ addr' = addr ∧ txHash' = txHash) || x.added kind' addr' txHash' }
  | .addBalance addr amount =>
    .ok { x with session := ⟨x.session.state.addAmount .balance addr amount, x.session.ids⟩ }
  | .snapshot =>
    .ok ⟨⟨x.session.state.snapshot.2, x.session.state.snapshot.1 :: x.session.ids⟩, x.added,
      x.added :: x.saved⟩
  | .revert n =>
    match x.session.ids[n]?, x.saved[n]? with
    | some id, some added => do
      let s ← x.session.state.revertToSnapshot id
      .ok { x with session := ⟨s, x.session.ids⟩, added := added }
    | _, _ => .ok x
  | .finalise => do
    let s ← x.session.state.finalise
    .ok { x with session := ⟨s, x.session.ids⟩ }
  | .reopen => do
    let r ← x.session.state.commit
    .ok ⟨⟨.new r.1, []⟩, x.added, []⟩

/-- **What a step must not do**: add a hash with a leading zero, one that is pending already, or
one to an account that was not written to; finalise or commit while an account that has a
marker is empty. -/
def Allowed (x : MarkerRun) : MarkerStep → Prop
  | .addTX kind addr txHash =>
    (Op.addTX kind addr txHash).Marked x.session.state ∧ txHash.head? ≠ some 0 ∧
      txHash ∉ (x.session.state.view.acct addr).dirtyTX kind
  | .finalise | .reopen =>
    ∀ addr, x.session.state.empty addr = true → ∀ kind txHash, x.added kind addr txHash = false
  | _ => True

end MarkerRun

/-- The state says which hashes were added, and none that is pending has a leading zero. -/
structure Exact (s : StateDB) (added : Markers) : Prop where
  sound : s.Sound
  hasTX : ∀ kind addr txHash, s.view.hasTX kind addr txHash = added kind addr txHash
  trimmed : s.view.Trimmed

/-- A snapshot, the state it was taken of, and the state now. -/
structure Taken (s : StateDB) (id : ℕ) (added : Markers) (t : StateDB) : Prop where
  exact : Exact s added
  id : s.nextRevisionId = id
  after : StateDB.After s.snapshot.2 t

/-- The invariant of a run. -/
structure MarkerRun.Good (x : MarkerRun) : Prop where
  exact : Exact x.session.state x.added
  ids : ∀ id ∈ x.session.ids, id < x.session.state.nextRevisionId
  saved : ∀ (n id : ℕ) (added : Markers), x.session.ids[n]? = some id → x.saved[n]? = some added →
    id ∈ x.session.state.validRevisions.map Prod.fst → ∃ s, Taken s id added x.session.state

namespace Exact

variable {s : StateDB} {added : Markers}

theorem of_view {t : StateDB} (h : Exact s added) (ht : t.Sound) (hview : t.view = s.view) :
    Exact t added :=
  ⟨ht, hview ▸ h.hasTX, hview ▸ h.trimmed⟩

theorem finalise {t : StateDB} (h : Exact s added) (hrun : s.finalise = .ok t)
    (hkept : ∀ addr, s.empty addr = true → ∀ kind txHash, added kind addr txHash = false) :
    Exact t added ∧ t.Settled ∧ ∀ addr kind, (t.view.acct addr).dirtyTX kind = ∅ := by
  obtain ⟨hsound, hview, hsettled⟩ := h.sound.finalise hrun
  refine ⟨⟨hsound, fun kind addr txHash => ?_, ?_⟩, hsettled, fun addr kind => ?_⟩
  · rw [hview, World.hasTX_finalised h.trimmed _ kind addr txHash, h.hasTX]
    intro addr' hempty kind' txHash'
    rw [h.hasTX]
    exact hkept addr' ((s.empty_eq_acct addr').trans hempty) kind' txHash'
  · rw [hview]
    exact World.trimmed_finalised _
  · rw [hview, World.acct_finalised]
    split_ifs <;> rfl

/-- A state opened at the root of one that was finalised. -/
theorem reopen (h : Exact s added) (hsettled : s.Settled)
    (hclean : ∀ addr kind, (s.view.acct addr).dirtyTX kind = ∅) : Exact (.new s.root) added := by
  have hroot : s.root.Wf := ⟨h.sound.wf.stored, h.sound.storedNonempty⟩
  have hacct : ∀ addr, ((StateDB.new s.root).view.acct addr).dirtyTX = (s.view.acct addr).dirtyTX ∧
      ((StateDB.new s.root).view.acct addr).data.txRoot = (s.view.acct addr).data.txRoot := by
    intro addr
    have hstored := hsettled addr
    have hopened : (StateDB.new s.root).view.accounts addr =
        (s.trie[addr]?).map fun a => (StateObject.newObject a).view := by
      rw [StateDB.accounts_view]
      show ((s.trie[addr]?).map StateObject.newObject).map StateObject.view = _
      rw [Option.map_map]
      rfl
    rw [hstored] at hopened
    have hdirty : (s.view.acct addr).dirtyTX = fun _ => ∅ := funext (hclean addr)
    rw [hdirty]
    unfold World.acct
    rw [hopened]
    cases s.view.accounts addr with
    | none => exact ⟨rfl, rfl⟩
    | some a => exact ⟨rfl, rfl⟩
  refine ⟨StateDB.sound_new hroot, fun kind addr txHash => ?_, fun addr kind txHash hmem => ?_⟩
  · rw [World.hasTX_congr (hacct addr).1 (hacct addr).2, h.hasTX]
  · rw [(hacct addr).1, hclean] at hmem
    exact absurd hmem Std.ExtTreeSet.not_mem_empty

end Exact

theorem StateDB.nextRevisionId_of_foldlM {β : Type} {step : StateDB → β → Go StateDB} {s t : StateDB}
    (hstep : ∀ u b, step (u.withFrame s.frame) b = (step u b).map (withFrame s.frame)) {l : List β}
    (h : l.foldlM step s = .ok t) : t.nextRevisionId = s.nextRevisionId := by
  have hframe := foldlM_withFrame hstep l s
  rw [withFrame_frame, h] at hframe
  have hsame : t = t.withFrame s.frame := Except.ok.inj hframe
  rw [hsame]
  rfl

theorem StateDB.revertToSnapshot_nextRevisionId {s t : StateDB} {id : ℕ}
    (h : s.revertToSnapshot id = .ok t) : t.nextRevisionId = s.nextRevisionId := by
  unfold revertToSnapshot at h
  split at h
  next => cases h
  next =>
    split at h
    next => cases h
    next id' j hget =>
      split at h
      next => cases h
      next =>
        obtain ⟨u, hu, hlast⟩ := Steps.bind_eq_ok.1 h
        have hkept := nextRevisionId_of_foldlM (undo_withFrame s.frame) hu
        rw [← Except.ok.inj hlast]
        exact hkept

theorem StateDB.finalise_nextRevisionId {s t : StateDB} (h : s.finalise = .ok t) :
    t.nextRevisionId = s.nextRevisionId := by
  obtain ⟨u, hloop, hrest⟩ := Steps.bind_eq_ok.1 h
  obtain ⟨v, hsets, hlast⟩ := Steps.bind_eq_ok.1 hrest
  have hkept := nextRevisionId_of_foldlM (finaliseObject_withFrame s.frame) hloop
  rw [commitSets_eq] at hsets
  split at hsets
  · rw [← Except.ok.inj hlast, ← Except.ok.inj hsets]
    exact hkept
  · cases hsets

namespace MarkerRun

variable {x : MarkerRun}

theorem good_start {root : Root} (h : root.Wf) : (start root).Good := by
  have hacct : ∀ addr kind, ((StateDB.new root).view.acct addr).dirtyTX kind = ∅ := by
    intro addr kind
    rw [StateDB.acct_view]
    show ((((root.accounts[addr]?).map StateObject.newObject).map StateObject.view).getD
      .new).dirtyTX kind = ∅
    cases root.accounts[addr]? <;> rfl
  refine ⟨⟨StateDB.sound_new h, fun kind addr txHash => ?_, fun addr kind txHash hmem => ?_⟩,
    fun id hid => absurd hid List.not_mem_nil, fun n id added hid => by simp [start] at hid⟩
  · exact (StateDB.hasTX_eq _ addr kind txHash).symm
  · have hnone := hacct addr kind
    change txHash ∈ ((StateDB.new root).view.acct addr).dirtyTX kind at hmem
    rw [hnone] at hmem
    exact absurd hmem Std.ExtTreeSet.not_mem_empty

/-- A function of the state that can be undone. -/
theorem Good.op (h : x.Good) ⦃β : Type⦄ {o : Op β} (hmarked : o.Marked x.session.state)
    (hrev : o.Revertible x.session.state.view) {r : β × StateDB}
    (hrun : o.run x.session.state = .ok r) {added : Markers} (hexact : Exact r.2 added) :
    Good ⟨⟨r.2, x.session.ids⟩, added, x.saved⟩ := by
  have hkept := o.kept hrun
  refine ⟨hexact, fun id hid => ?_, fun n id m hid hm hvalid => ?_⟩
  · rw [hkept.nextRevisionId]
    exact h.ids id hid
  · rw [hkept.validRevisions] at hvalid
    obtain ⟨s, htaken⟩ := h.saved n id m hid hm hvalid
    obtain ⟨es, hes⟩ := o.since h.exact.sound.wf h.exact.sound.storedNonempty hmarked hrev hrun
    exact ⟨s, htaken.exact, htaken.id, htaken.after.since hes⟩

theorem Good.snapshot (h : x.Good) : Good ⟨⟨x.session.state.snapshot.2,
    x.session.state.snapshot.1 :: x.session.ids⟩, x.added, x.added :: x.saved⟩ := by
  have hsound := h.exact.sound.snapshot
  refine ⟨h.exact.of_view hsound rfl, fun id hid => ?_, fun n id m hid hm hvalid => ?_⟩
  · rcases List.mem_cons.1 hid with rfl | hid
    · exact Nat.lt_succ_self _
    · exact Nat.lt_succ_of_lt (h.ids id hid)
  · cases n with
    | zero =>
      cases hid
      cases hm
      exact ⟨x.session.state, h.exact, rfl, .refl hsound.wf⟩
    | succ n =>
      have hold : x.session.ids[n]? = some id := hid
      have hlt := h.ids id (List.mem_of_getElem? hold)
      have hvalid' : id ∈ x.session.state.validRevisions.map Prod.fst := by
        have happend : x.session.state.snapshot.2.validRevisions = x.session.state.validRevisions ++
          [(x.session.state.nextRevisionId, x.session.state.journal.length)] := rfl
        rw [happend, List.map_append, List.mem_append] at hvalid
        refine hvalid.resolve_right fun hnew => ?_
        rw [List.mem_singleton.1 hnew] at hlt
        exact absurd hlt (Nat.lt_irrefl _)
      obtain ⟨s, htaken⟩ := h.saved n id m hold hm hvalid'
      exact ⟨s, htaken.exact, htaken.id, htaken.after.snapshot⟩

theorem Good.revert (h : x.Good) {n id : ℕ} {added : Markers} (hid : x.session.ids[n]? = some id)
    (hadded : x.saved[n]? = some added) {t : StateDB}
    (hrun : x.session.state.revertToSnapshot id = .ok t) :
    Good ⟨⟨t, x.session.ids⟩, added, x.saved⟩ := by
  obtain ⟨vs, j, vs', hsplit, -⟩ := StateDB.exists_revision hrun
  obtain ⟨s, htaken⟩ := h.saved n id added hid hadded (by rw [hsplit]; simp)
  have hbelow := htaken.exact.sound.revisionsBelow
  obtain ⟨u, hu, hsound, hview, hvalid⟩ := htaken.after.restore_sound htaken.exact.sound
  have hid' : s.snapshot.1 = id := htaken.id
  rw [hid'] at hu
  obtain rfl := Except.ok.inj (hu.symm.trans hrun)
  have hsame := StateDB.revertToSnapshot_nextRevisionId hrun
  refine ⟨htaken.exact.of_view hsound hview, fun id' hmem => ?_,
    fun n' id' m hid' hm hmem => ?_⟩
  · rw [hsame]
    exact h.ids id' hmem
  · -- a snapshot that is left is older than the one reverted to
    have hmem' : id' ∈ s.validRevisions.map Prod.fst := hvalid ▸ hmem
    obtain ⟨r, hr, rfl⟩ := List.mem_map.1 hmem'
    have hlt := hbelow r hr
    obtain ⟨rs, hrs, -⟩ := htaken.after.revisions
    obtain ⟨s', htaken'⟩ := h.saved n' r.1 m hid' hm (by
      rw [hrs]
      show r.1 ∈ ((s.validRevisions ++ [_]) ++ rs).map Prod.fst
      rw [List.append_assoc, List.map_append]
      exact List.mem_append_left _ (List.mem_map_of_mem hr))
    refine ⟨s', htaken'.exact, htaken'.id, htaken'.after.revert htaken'.exact.sound.snapshot.revisionsBelow
      ?_ hrun⟩
    show s'.nextRevisionId + 1 ≤ id
    rw [htaken'.id, ← htaken.id]
    exact hlt

/-- **A step that is allowed keeps the invariant.** -/
theorem Good.step (h : x.Good) {a : MarkerStep} (ha : x.Allowed a) {y : MarkerRun}
    (hrun : x.step a = .ok y) : y.Good := by
  cases a with
  | addTX kind addr txHash =>
    cases hrun
    obtain ⟨hmarked, hzero, hpending⟩ := ha
    obtain ⟨hsound, w, hw, hview⟩ := h.exact.sound.op hmarked (r := ((), _)) rfl
    have hwrite : (x.session.state.addTX kind addr txHash).view =
        x.session.state.view.write addr (.addTX kind txHash) := by
      rw [hview]
      exact (congrArg Prod.snd (Except.ok.inj hw)).symm
    refine h.op hmarked hpending (r := ((), _)) rfl ⟨hsound, fun kind' addr' txHash' => ?_, ?_⟩
    · show (x.session.state.addTX kind addr txHash).view.hasTX _ _ _ = _
      rw [hwrite, World.hasTX_addTX, h.exact.hasTX]
    · show (x.session.state.addTX kind addr txHash).view.Trimmed
      rw [hwrite]
      exact h.exact.trimmed.addTX kind addr hzero
  | addBalance addr amount =>
    cases hrun
    have hmarked : (Op.addAmount .balance addr amount).Marked x.session.state := trivial
    obtain ⟨hsound, w, hw, hview⟩ := h.exact.sound.op hmarked (r := ((), _)) rfl
    have hwrite : (x.session.state.addAmount .balance addr amount).view =
        x.session.state.view.addAmount .balance addr amount := by
      rw [hview]
      exact (congrArg Prod.snd (Except.ok.inj hw)).symm
    have hsame := fun addr' => x.session.state.view.addAmount_markers .balance addr addr' amount
    refine h.op hmarked trivial (r := ((), _)) rfl ⟨hsound, fun kind' addr' txHash' => ?_,
      fun addr' kind' txHash' hmem => ?_⟩
    · show (x.session.state.addAmount .balance addr amount).view.hasTX _ _ _ = _
      rw [hwrite, World.hasTX_congr (hsame addr').1 (hsame addr').2, h.exact.hasTX]
    · change txHash' ∈ ((x.session.state.addAmount .balance addr amount).view.acct addr').dirtyTX
        kind' at hmem
      rw [hwrite, (hsame addr').1] at hmem
      exact h.exact.trimmed addr' kind' txHash' hmem
  | snapshot =>
    cases hrun
    exact h.snapshot
  | revert n =>
    simp only [MarkerRun.step] at hrun
    split at hrun
    next id added hid hadded =>
      obtain ⟨t, ht, hlast⟩ := Steps.bind_eq_ok.1 hrun
      cases hlast
      exact h.revert hid hadded ht
    next =>
      cases hrun
      exact h
  | finalise =>
    obtain ⟨t, ht, hlast⟩ := Steps.bind_eq_ok.1 hrun
    cases hlast
    refine ⟨(h.exact.finalise ht ha).1, fun id hid => ?_, fun n id m hid hm hvalid => ?_⟩
    · show id < t.nextRevisionId
      rw [StateDB.finalise_nextRevisionId ht]
      exact h.ids id hid
    · have hnone := StateDB.finalise_validRevisions ht
      change id ∈ t.validRevisions.map Prod.fst at hvalid
      rw [hnone] at hvalid
      exact absurd hvalid List.not_mem_nil
  | reopen =>
    obtain ⟨r, hr, hlast⟩ := Steps.bind_eq_ok.1 hrun
    cases hlast
    have hroot := h.exact.sound.wf.commit_root
    rw [hr] at hroot
    obtain ⟨t, ht, htroot⟩ := Steps.map_eq_ok.1 hroot.symm
    obtain ⟨hexact, hsettled, hclean⟩ := h.exact.finalise ht ha
    have hopened := hexact.reopen hsettled hclean
    rw [htroot] at hopened
    exact ⟨hopened, fun id hid => absurd hid List.not_mem_nil, fun n id m hid => by simp at hid⟩

/-- **`HasTX` is true exactly of the hashes added and not reverted**, in every run whose steps are
allowed. -/
theorem hasTX_exact {root : Root} (hroot : root.Wf) (steps : List MarkerStep)
    (hallowed : Steps.RunMeets step Allowed (start root) steps) {x : MarkerRun}
    (hrun : steps.foldlM step (start root) = .ok x) (kind : TxKind) (addr : Address)
    (txHash : TxHash) : x.session.state.hasTX kind addr txHash = x.added kind addr txHash := by
  have hgood : x.Good := hallowed.invariant (fun y y' a ha hy' hy => hy.step ha hy') hrun
    (good_start hroot)
  rw [StateDB.hasTX_eq]
  exact hgood.exact.hasTX kind addr txHash

/-- An account gets an amount and a marker, and a second marker that is reverted. -/
theorem hasTX_exact_reverted :
    ∃ x, [.addBalance [1] 5, .addTX .tx1 [1] [7], .snapshot, .addTX .tx1 [1] [8],
        .revert 0].foldlM step (start .empty) = .ok x ∧
      x.session.state.hasTX .tx1 [1] [7] = x.added .tx1 [1] [7] ∧ x.added .tx1 [1] [7] = true ∧
      x.session.state.hasTX .tx1 [1] [8] = x.added .tx1 [1] [8] ∧ x.added .tx1 [1] [8] = false := by
  have hallowed : Steps.RunMeets step Allowed (start .empty) [.addBalance [1] 5,
      .addTX .tx1 [1] [7], .snapshot, .addTX .tx1 [1] [8], .revert 0] := by
    refine And.intro trivial (And.intro ⟨rfl, by decide, ?_⟩ (And.intro trivial
      (And.intro ⟨rfl, by decide, ?_⟩ (And.intro trivial ?_))))
    · decide +kernel
    · decide +kernel
    · trivial
  refine ⟨_, rfl, ?_, ?_, ?_, ?_⟩
  · exact hasTX_exact Root.wf_empty _ hallowed rfl .tx1 [1] [7]
  · decide +kernel
  · exact hasTX_exact Root.wf_empty _ hallowed rfl .tx1 [1] [8]
  · decide +kernel

/-- The answer for one hash at the end of a run, and whether it was added. -/
def markerAfter (steps : List MarkerStep) (txHash : TxHash) : Go (Bool × Bool) :=
  (steps.foldlM step (start .empty)).map fun x =>
    (x.session.state.hasTX .tx1 [1] txHash, x.added .tx1 [1] txHash)

/-- **Markers are lost**: a hash of 32 bytes that starts with a zero, after `Finalise`; a hash that
is added to an account just opened, after the state is reopened; and a hash that is added again
and reverted. -/
theorem markers_lost :
    Steps.holds (markerAfter [.addBalance [1] 5, .addTX .tx1 [1] (0 :: List.replicate 31 7),
        .finalise] (0 :: List.replicate 31 7)) (· == (false, true)) = true ∧
      Steps.holds (markerAfter [.addBalance [1] 5, .reopen, .addTX .tx1 [1] (List.replicate 32 7),
        .reopen] (List.replicate 32 7)) (· == (false, true)) = true ∧
      Steps.holds (markerAfter [.addBalance [1] 5, .addTX .tx1 [1] (List.replicate 32 7), .snapshot,
        .addTX .tx1 [1] (List.replicate 32 7), .revert 0] (List.replicate 32 7))
        (· == (false, true)) = true := by
  decide +kernel

end MarkerRun

end State
end LigoChain
