/-
# Programs that book

What the loops of `ShouldEnterNewEpoch`, of `accumulateRewards` and of the transactions do to the
accounts are bookings.  `Booked p w a bs` says that the program returns `a` and makes the bookings
`bs`; there is a rule for each function of the state that books, and one for `ForEachProxied`: a
callback that only touches the record of its own key books what it books for the records as they
were before the loop (`booked_forEachProxied`).
-/

import LigoChain.State.Booking
import LigoChain.State.Revert
import LigoChain.Staking.Switch

namespace LigoChain

namespace Staking

open State

variable {ε : Type} {α β : Type} {w : World}
variable {p : Prog Op ε α} {bs : List Booking}

/-! ## Programs that add no cross-chain transaction -/

/-- The program adds no cross-chain transaction, so it runs on a state as on what the state says. -/
def Unmarked (p : Prog Op ε α) : Prop := p.Uses fun _ o => ∀ s, o.Marked s

/-- The function adds no cross-chain transaction. -/
def addsNoTX {β : Type} : Op β → Bool
  | .addTX .. => false
  | _ => true

theorem unmarked_pure (a : α) : Unmarked (pure a : Prog Op ε α) := Prog.uses_pure a

theorem unmarked_call {o : Op β} (ho : addsNoTX o = true) :
    Unmarked (call o : Prog Op ε β) := by
  cases o with
  | addTX => cases ho
  | _ => exact Prog.uses_perform fun _ => trivial

theorem Unmarked.bind {f : α → Prog Op ε β} (hp : Unmarked p) (hf : ∀ a, Unmarked (f a)) :
    Unmarked (p >>= f) :=
  Prog.Uses.bind hp hf

theorem unmarked_ite {c : Prop} [Decidable c] {p q : Prog Op ε α} (hp : Unmarked p)
    (hq : Unmarked q) : Unmarked (if c then p else q) := by
  split_ifs
  · exact hp
  · exact hq

theorem unmarked_forEachProxied {σ : Type} {addr : Address}
    {cb : σ → Address → AccountProxiedBalance → Prog Op ε σ}
    (hcb : ∀ acc key value, Unmarked (cb acc key value)) (init : σ) :
    Unmarked (forEachProxied addr cb init) :=
  (unmarked_call rfl).bind fun keys => Prog.uses_foldlM (fun acc key =>
    (unmarked_call rfl).bind fun value => hcb acc key value) keys init

/-! ## Bookings of a program -/

/-- The program returns the value, and makes the bookings. -/
def Booked (p : Prog Op ε α) (w : World) (a : α) (bs : List Booking) : Prop :=
  p.run Op.denote w = .ok (.ok a, w.bookAll bs)

theorem booked_pure (a : α) : Booked (pure a : Prog Op ε α) w a [] := rfl

theorem Booked.bind {f : α → Prog Op ε β} {a : α} {b : β} {bs bs' : List Booking}
    (hp : Booked p w a bs) (hf : Booked (f a) (w.bookAll bs) b bs') :
    Booked (p >>= f) w b (bs ++ bs') := by
  unfold Booked at *
  rw [Prog.run_bind, hp, World.bookAll_append]
  exact hf

theorem Booked.ends {a : α} (hp : Booked p w a bs) {Q : α → World → Prop} (hQ : Q a (w.bookAll bs)) :
    p.Ends Op.denote w Q := ⟨a, _, hp, hQ⟩

theorem booked_of_ends {a : α} (hp : p.Ends Op.denote w fun a' w' => a' = a ∧ w' = w.bookAll bs) :
    Booked p w a bs := by
  obtain ⟨a', w', hrun, rfl, rfl⟩ := hp
  exact hrun

/-- **A program that books does so on every state that says something.** -/
theorem Booked.run (hp : Unmarked p) {s : StateDB} {a : α} (hs : s.Refines w)
    (hbooked : Booked p w a bs) :
    ∃ t, p.run Op.run s = .ok (.ok a, t) ∧ t.Refines (w.bookAll bs) ∧ t.trie = s.trie := by
  have hagree := run_refines p hs (hp.safe Op.run s)
  unfold Booked at hbooked
  rw [hbooked] at hagree
  generalize hrun : p.run Op.run s = r at hagree
  cases hagree with
  | ok _ hst => exact ⟨_, rfl, hst, (run_kept p hrun).trie⟩

theorem booked_read {o : Op β} {b : β} (ho : Op.denote o w = .ok (b, w)) :
    Booked (call o : Prog Op ε β) w b [] := by
  unfold Booked call
  rw [Prog.run_perform, ho]
  rfl

theorem booked_read_bind {o : Op α} {a : α} {f : α → Prog Op ε β} {b : β}
    (ho : Op.denote o w = .ok (a, w)) (hf : Booked (f a) w b bs) : Booked (call o >>= f) w b bs :=
  (booked_read ho).bind hf

theorem booked_call {o : Op β} {a : β} {w' : World} {b : Booking}
    (ho : Op.denote o w = .ok (a, w')) (hw' : w' = w.book b) :
    Booked (call o : Prog Op ε β) w a [b] := by
  unfold Booked call
  rw [Prog.run_perform, ho, hw']
  rfl

section Calls

variable (field : AmountField) (entryField : EntryField) (addr user : Address) (x : ℤ)

theorem booked_addAmount : Booked (call (.addAmount field addr x) : Prog Op ε Unit) w ()
    [.post addr (.amount field x)] :=
  booked_call rfl (w.addAmount_eq_book field addr x)

theorem booked_subAmount : Booked (call (.subAmount field addr x) : Prog Op ε Unit) w ()
    [.post addr (.amount field (-x))] :=
  booked_call rfl (w.subAmount_eq_book field addr x)

theorem booked_addByUser : Booked (call (.addByUser entryField addr user x) : Prog Op ε Unit) w ()
    [.post addr (.entry entryField user x)] :=
  booked_call rfl (w.addByUser_eq_book entryField addr user x)

theorem booked_subByUser : Booked (call (.subByUser entryField addr user x) : Prog Op ε Unit) w ()
    [.post addr (.entry entryField user (-x))] :=
  booked_call rfl (w.subByUser_eq_book entryField addr user x)

theorem booked_clearCommission : Booked (call (.setCommission addr 0) : Prog Op ε Unit) w ()
    [.post addr .clearCommission] :=
  booked_call rfl (w.clearCommission_eq_book addr)

theorem booked_addReward :
    Booked (call (.addRewardBalanceByDelegateAddress addr user x) : Prog Op ε Unit) w ()
      [.post addr (.reward user x)] :=
  booked_call rfl (w.addReward_eq_book addr user x)

theorem booked_mark (kind : SetKind) : Booked (call (.markSet kind addr) : Prog Op ε Unit) w ()
    [.mark kind addr] :=
  booked_call rfl rfl

end Calls

/-! ## Loops -/

/-- The booking leaves the records of an account under other keys. -/
def OwnRecord (addr key : Address) (b : Booking) : Prop :=
  ∀ field u, u ≠ key → b.entryAt field addr u = 0

theorem entry_bookAll_of_own {addr key : Address} {bs : List Booking}
    (hbs : ∀ b ∈ bs, ∀ field, b.entryAt field addr key = 0) :
    (w.bookAll bs).entry addr key = w.entry addr key := by
  refine AccountProxiedBalance.ext_get fun field => ?_
  rw [World.entry_bookAll, List.sum_eq_zero, add_zero]
  intro x hx
  obtain ⟨b, hb, rfl⟩ := List.mem_map.1 hx
  exact hbs b hb field

/-- **A loop of `ForEachProxied` whose callback touches the record of its own key only** books,
for each key, what the callback books for the record as it was before the loop. -/
theorem booked_forEachProxied {σ : Type} {addr : Address}
    {cb : σ → Address → AccountProxiedBalance → Prog Op ε σ} {init : σ}
    (next : σ → Address → AccountProxiedBalance → σ)
    (bs : Address → AccountProxiedBalance → List Booking)
    (hcb : ∀ acc key value w', Booked (cb acc key value) w' (next acc key value) (bs key value))
    (hown : ∀ key value, ∀ b ∈ bs key value, OwnRecord addr key b) :
    Booked (forEachProxied addr cb init) w
      ((w.acct addr).data.proxiedTrie.keys.foldl
        (fun acc key => next acc key (w.entry addr key)) init)
      ((w.acct addr).data.proxiedTrie.keys.flatMap fun key => bs key (w.entry addr key)) := by
  refine booked_of_ends (ends_forEachProxied (fun done acc w' =>
    acc = done.foldl (fun acc key => next acc key (w.entry addr key)) init ∧
      w' = w.bookAll (done.flatMap fun key => bs key (w.entry addr key))) ⟨rfl, rfl⟩ ?_)
  rintro done key rest acc w' hkeys ⟨rfl, rfl⟩
  -- the keys are distinct, so the record of this one is as it was
  have hnodup : (done ++ key :: rest).Nodup := hkeys ▸ Std.ExtTreeMap.nodup_keys
  have hkey : key ∉ done := fun hmem =>
    List.disjoint_of_nodup_append hnodup hmem List.mem_cons_self
  have hentry := @entry_bookAll_of_own w addr key
    (done.flatMap fun key => bs key (w.entry addr key)) fun b hb field => by
      obtain ⟨key', hkey', hb⟩ := List.mem_flatMap.1 hb
      exact hown key' _ b hb field key fun h => hkey (h ▸ hkey')
  rw [hentry]
  refine (hcb _ key (w.entry addr key) _).ends ⟨?_, ?_⟩
  · rw [List.foldl_append]
    rfl
  · rw [List.flatMap_append, World.bookAll_append, List.flatMap_singleton]

theorem sum_map_flatMap {γ : Type} [AddMonoid γ] (g : β → γ) (f : α → List β) (l : List α) :
    ((l.flatMap f).map g).sum = (l.map fun a => ((f a).map g).sum).sum := by
  rw [List.map_flatMap, List.flatMap_def, List.sum_flatten, List.map_map]
  rfl

theorem sum_map_ite {addrs : List Address} (h : addrs.Nodup) (c : Address) (f : Address → ℤ) :
    (addrs.map fun a => if c = a then f a else 0).sum = if c ∈ addrs then f c else 0 := by
  induction addrs with
  | nil => simp
  | cons a addrs ih =>
    rw [List.map_cons, List.sum_cons, ih (List.nodup_cons.1 h).2]
    by_cases hc : c = a
    · subst hc
      simp [(List.nodup_cons.1 h).1]
    · simp [hc]

/-- A loop over a list, each step of which books what the list and the state before the loop
give. -/
theorem booked_forEach {body : α → Prog Op ε Unit} (bs : α → List Booking) {l : List α}
    (hbody : ∀ done a rest, l = done ++ a :: rest →
      Booked (body a) (w.bookAll (done.flatMap bs)) () (bs a)) :
    Booked (forEach l body) w () (l.flatMap bs) := by
  refine booked_of_ends (Prog.ends_foldlM (fun done _ w' =>
    () = () ∧ w' = w.bookAll (done.flatMap bs)) ⟨rfl, rfl⟩ ?_)
  rintro done a rest acc w' hl ⟨-, rfl⟩
  refine (hbody done a rest hl).ends ⟨rfl, ?_⟩
  rw [List.flatMap_append, World.bookAll_append, List.flatMap_singleton]

end Staking

end LigoChain
