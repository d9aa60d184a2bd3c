/-
# Bookings

Most functions of `StateDB` that change an account add to one of its amounts: `AddBalance` and its
like, `AddProxiedBalanceByUser` and its like, which change the record of a user and the total of
the account, and `AddRewardBalanceByDelegateAddress`.  On the abstract state such a call is a
posting to an account.  A booking is a posting, or an address is marked in a set.

Bookings commute (`World.book_comm`), so what a program has booked depends on the bookings and not
on their order (`World.bookAll_perm`), and what it has done to an amount is a sum over them
(`World.amount_bookAll`).
-/

import LigoChain.State.Api
import Mathlib.Tactic.Ring

namespace LigoChain
namespace State

/-- An addition to an amount, to the record of a user and its total, to a reward and its total; or
the commission is cleared. -/
inductive Posting
  | amount (field : AmountField) (x : ℤ)
  | entry (field : EntryField) (user : Address) (x : ℤ)
  | reward (deleAddress : Address) (x : ℤ)
  | clearCommission
  deriving DecidableEq

namespace Posting

/-- What is added to the amounts of the account. -/
def delta : Posting → AmountField → ℤ
  | amount field x, f => if f = field then x else 0
  | entry field _ x, f => if f = field.total then x else 0
  | reward _ x, f => if f = .rewardBalance then x else 0
  | clearCommission, _ => 0

/-- The records of the account. -/
def onEntries (m : FinMap Address AccountProxiedBalance) :
    Posting → FinMap Address AccountProxiedBalance
  | entry field user x => m.insert user (((m[user]?).getD .new).add x field)
  | _ => m

/-- The rewards of the account. -/
def onRewards (m : FinMap Address ℤ) : Posting → FinMap Address ℤ
  | reward deleAddress x => m.insert deleAddress ((m[deleAddress]?).getD 0 + x)
  | _ => m

/-- The commission of the account. -/
def onCommission (commission : ℕ) : Posting → ℕ
  | clearCommission => 0
  | _ => commission

/-- The account after the posting. -/
def apply (p : Posting) (a : Acct) : Acct where
  data := { a.data with
    amounts := fun f => a.data.amounts f + p.delta f
    commission := p.onCommission a.data.commission }
  entries := p.onEntries a.entries
  rewards := p.onRewards a.rewards
  dirtyTX := a.dirtyTX

theorem onEntries_comm (p q : Posting) (m : FinMap Address AccountProxiedBalance) :
    q.onEntries (p.onEntries m) = p.onEntries (q.onEntries m) := by
  cases p with
  | entry field user x =>
    cases q with
    | entry field' user' x' =>
      refine Std.ExtTreeMap.ext_getElem? fun u => ?_
      simp only [onEntries, FinMap.getElem?_insert_ite]
      by_cases huser : user = user'
      · subst huser
        by_cases hu : u = user
        · simp only [hu, if_true, Option.getD_some, Option.some.injEq]
          refine AccountProxiedBalance.ext_get fun f => ?_
          simp only [AccountProxiedBalance.get_add]
          ring
        · simp only [hu, if_false]
      · by_cases hu : u = user
        · simp only [hu, if_true, if_neg huser, if_neg (Ne.symm huser)]
        · by_cases hu' : u = user'
          · simp only [hu', if_true, if_neg huser, if_neg (Ne.symm huser)]
          · simp only [if_neg hu, if_neg hu']
    | _ => rfl
  | _ => rfl

theorem onRewards_comm (p q : Posting) (m : FinMap Address ℤ) :
    q.onRewards (p.onRewards m) = p.onRewards (q.onRewards m) := by
  cases p with
  | reward dele x =>
    cases q with
    | reward dele' x' =>
      refine Std.ExtTreeMap.ext_getElem? fun d => ?_
      simp only [onRewards, FinMap.getElem?_insert_ite]
      by_cases hdele : dele = dele'
      · subst hdele
        by_cases hd : d = dele
        · simp only [hd, if_true, Option.getD_some, Option.some.injEq]
          ring
        · simp only [hd, if_false]
      · by_cases hd : d = dele
        · simp only [hd, if_true, if_neg hdele, if_neg (Ne.symm hdele)]
        · by_cases hd' : d = dele'
          · simp only [hd', if_true, if_neg hdele, if_neg (Ne.symm hdele)]
          · simp only [if_neg hd, if_neg hd']
    | _ => rfl
  | _ => rfl

theorem onCommission_comm (p q : Posting) (commission : ℕ) :
    q.onCommission (p.onCommission commission) = p.onCommission (q.onCommission commission) := by
  cases p <;> cases q <;> rfl

theorem apply_comm (p q : Posting) (a : Acct) : q.apply (p.apply a) = p.apply (q.apply a) := by
  refine Acct.ext ?_ (onEntries_comm p q a.entries) (onRewards_comm p q a.rewards) rfl
  have hamounts : (fun f => a.data.amounts f + p.delta f + q.delta f) =
      fun f => a.data.amounts f + q.delta f + p.delta f :=
    funext fun f => add_right_comm _ _ _
  unfold apply
  dsimp only
  rw [hamounts, onCommission_comm]

end Posting

/-- A posting to an account, or an address is marked in a set. -/
inductive Booking
  | post (addr : Address) (p : Posting)
  | mark (kind : SetKind) (addr : Address)
  deriving DecidableEq

namespace AddressSet

variable (set : AddressSet)

theorem contains_mark (addr : Address) : (set.mark addr).memory.contains addr = true := by
  unfold mark
  split_ifs with h
  · exact h
  · exact Std.ExtTreeSet.contains_insert_self

theorem load_mark (addr : Address) : (set.mark addr).load = set.mark addr := by
  have hmem := Std.ExtTreeSet.contains_iff_mem.1 (set.contains_mark addr)
  unfold load
  rw [if_neg fun h => ?_]
  rw [Std.ExtTreeSet.isEmpty_iff.1 h] at hmem
  exact Std.ExtTreeSet.not_mem_empty hmem

/-- What marking leaves, in one expression. -/
theorem mark_eq (addr : Address) :
    set.mark addr = ⟨set.entry, set.load.memory.insert addr,
      set.dirty || !set.load.memory.contains addr⟩ := by
  have hload : set.load.entry = set.entry ∧ set.load.dirty = set.dirty := by
    unfold load
    split_ifs <;> exact ⟨rfl, rfl⟩
  unfold mark
  split_ifs with h
  · have hinsert : set.load.memory.insert addr = set.load.memory := by
      refine Std.ExtTreeSet.ext_mem fun b => ?_
      rw [Std.ExtTreeSet.mem_insert]
      exact ⟨fun hb => hb.elim
        (fun heq => Std.LawfulEqCmp.eq_of_compare heq ▸ Std.ExtTreeSet.contains_iff_mem.1 h) id,
        .inr⟩
    rw [hinsert, h, Bool.not_true, Bool.or_false, ← hload.1, ← hload.2]
  · rw [Bool.not_eq_true] at h
    rw [h, Bool.not_false, Bool.or_true, ← hload.1]

theorem mark_comm (a b : Address) : (set.mark a).mark b = (set.mark b).mark a := by
  rw [mark_eq (set.mark a), mark_eq (set.mark b), load_mark, load_mark, mark_eq set, mark_eq set]
  simp only [AddressSet.mk.injEq, true_and]
  constructor
  · refine Std.ExtTreeSet.ext_mem fun c => ?_
    simp only [Std.ExtTreeSet.mem_insert]
    exact or_left_comm
  · simp only [Std.ExtTreeSet.contains_insert]
    by_cases hab : a = b
    · rw [hab]
    · have hne : compare a b ≠ .eq := fun h => hab (Std.LawfulEqCmp.eq_of_compare h)
      have hne' : compare b a ≠ .eq := fun h => hab (Std.LawfulEqCmp.eq_of_compare h).symm
      have h₁ : (compare a b == .eq) = false := beq_eq_false_iff_ne.2 hne
      have h₂ : (compare b a == .eq) = false := beq_eq_false_iff_ne.2 hne'
      rw [h₁, h₂, Bool.false_or, Bool.false_or]
      cases set.dirty <;> cases set.load.memory.contains a <;>
        cases set.load.memory.contains b <;> rfl

end AddressSet

namespace World

variable (w : World)

/-- A booking is made. -/
def book : Booking → World
  | .post addr p => w.put addr (p.apply (w.acct addr))
  | .mark kind addr => w.updateSet kind fun set => set.mark addr

/-- Several bookings are made. -/
def bookAll (bs : List Booking) : World := bs.foldl book w

theorem acct_post (addr a : Address) (p : Posting) :
    (w.book (.post addr p)).acct a = if a = addr then p.apply (w.acct a) else w.acct a := by
  unfold book
  rw [acct_put]
  split_ifs with h
  · rw [h]
  · rfl

/-- **Bookings commute.** -/
theorem book_comm (b b' : Booking) : (w.book b).book b' = (w.book b').book b := by
  cases b with
  | post addr p =>
    cases b' with
    | post addr' p' =>
      simp only [book]
      by_cases h : addr' = addr
      · simp only [h, acct_put, if_true, put_put, Posting.apply_comm]
      · rw [acct_put, acct_put, if_neg h, if_neg (Ne.symm h)]
        unfold put
        rw [Function.update_comm h]
    | mark kind addr' => rfl
  | mark kind addr =>
    cases b' with
    | post addr' p' => rfl
    | mark kind' addr' =>
      simp only [book, updateSet]
      by_cases h : kind' = kind
      · subst h
        simp only [Function.update_self, Function.update_idem, AddressSet.mark_comm]
      · simp only [Function.update_of_ne h, Function.update_of_ne (Ne.symm h)]
        rw [Function.update_comm h]

@[simp] theorem bookAll_nil : w.bookAll [] = w := rfl

theorem bookAll_cons (b : Booking) (bs : List Booking) :
    w.bookAll (b :: bs) = (w.book b).bookAll bs := rfl

theorem bookAll_append (bs bs' : List Booking) :
    w.bookAll (bs ++ bs') = (w.bookAll bs).bookAll bs' := List.foldl_append

/-- **What is booked does not depend on the order.** -/
theorem bookAll_perm {bs bs' : List Booking} (h : bs.Perm bs') : w.bookAll bs = w.bookAll bs' :=
  h.foldl_eq' (fun b _ b' _ w => w.book_comm b b') w

/-! ## Functions of the state that are bookings -/

theorem book_amount (field : AmountField) (addr : Address) (x : ℤ) :
    w.book (.post addr (.amount field x)) =
      w.write addr (.amount field (w.amount field addr + x)) := by
  refine congrArg (w.put addr) (Acct.ext ?_ rfl rfl rfl)
  have hamounts : (fun f => (w.acct addr).data.amounts f + if f = field then x else 0) =
      Function.update (w.acct addr).data.amounts field (w.amount field addr + x) := by
    funext f
    rw [Function.update_apply]
    split_ifs with hf
    · rw [hf]
      rfl
    · rw [add_zero]
  unfold Posting.apply
  dsimp only [Posting.delta, Posting.onCommission, Acct.set]
  rw [hamounts]

theorem addAmount_eq_book (field : AmountField) (addr : Address) (x : ℤ) :
    w.addAmount field addr x = w.book (.post addr (.amount field x)) := by
  rw [book_amount]
  unfold addAmount
  split_ifs with hx
  · subst hx
    rw [add_zero]
    refine congrArg (w.put addr) (Acct.ext ?_ rfl rfl rfl)
    unfold World.amount
    dsimp only [Acct.set]
    rw [Function.update_eq_self]
  · rfl

theorem subAmount_eq_book (field : AmountField) (addr : Address) (x : ℤ) :
    w.subAmount field addr x = w.book (.post addr (.amount field (-x))) := by
  rw [← addAmount_eq_book]
  unfold subAmount addAmount
  simp only [neg_eq_zero, sub_eq_add_neg]

theorem addByUser_eq_book (field : EntryField) (addr user : Address) (x : ℤ) :
    w.addByUser field addr user x = w.book (.post addr (.entry field user x)) := by
  unfold addByUser
  rw [addAmount_eq_book]
  unfold changeEntry write book
  dsimp only
  rw [acct_put, if_pos rfl, put_put]
  rfl

theorem subByUser_eq_book (field : EntryField) (addr user : Address) (x : ℤ) :
    w.subByUser field addr user x = w.book (.post addr (.entry field user (-x))) := by
  rw [← addByUser_eq_book]
  unfold subByUser addByUser
  rw [subAmount_eq_book, addAmount_eq_book]

theorem clearCommission_eq_book (addr : Address) :
    w.write addr (.commission 0) = w.book (.post addr .clearCommission) := by
  refine congrArg (w.put addr) (Acct.ext ?_ rfl rfl rfl)
  unfold Posting.apply
  simp only [Posting.delta, add_zero]
  rfl

/-- The reward of an account from another. -/
def reward (addr deleAddress : Address) : ℤ := ((w.acct addr).rewards[deleAddress]?).getD 0

theorem addReward_eq_book (addr deleAddress : Address) (x : ℤ) :
    (w.write addr (.delegateRewardBalance deleAddress
      (some (w.reward addr deleAddress + x)))).addAmount .rewardBalance addr x =
      w.book (.post addr (.reward deleAddress x)) := by
  rw [addAmount_eq_book]
  unfold write book
  dsimp only
  rw [acct_put, if_pos rfl, put_put]
  rfl

end World

/-! ## What bookings add up to -/

namespace Booking

/-- What the booking adds to an amount. -/
def amountAt (field : AmountField) (a : Address) : Booking → ℤ
  | post addr p => if a = addr then p.delta field else 0
  | mark _ _ => 0

/-- What the booking adds to a record. -/
def entryAt (field : EntryField) (c u : Address) : Booking → ℤ
  | post addr (.entry f user x) => if c = addr ∧ u = user ∧ field = f then x else 0
  | _ => 0

/-- What the booking adds to a reward. -/
def rewardAt (a d : Address) : Booking → ℤ
  | post addr (.reward dele x) => if a = addr ∧ d = dele then x else 0
  | _ => 0

end Booking

namespace World

variable (w : World)

theorem amount_book (b : Booking) (field : AmountField) (a : Address) :
    (w.book b).amount field a = w.amount field a + b.amountAt field a := by
  cases b with
  | post addr p =>
    simp only [World.amount, Booking.amountAt, acct_post]
    split_ifs with h
    · rfl
    · rw [add_zero]
  | mark kind addr => exact (add_zero _).symm

theorem entry_book (b : Booking) (field : EntryField) (c u : Address) :
    ((w.book b).entry c u).get field = (w.entry c u).get field + b.entryAt field c u := by
  cases b with
  | mark kind addr => exact (add_zero _).symm
  | post addr p =>
    unfold World.entry
    rw [acct_post]
    by_cases hc : c = addr
    · subst hc
      rw [if_pos rfl]
      cases p with
      | entry f user x =>
        simp only [Acct.entry, Posting.apply, Posting.onEntries, Booking.entryAt,
          FinMap.getElem?_insert_ite, true_and]
        by_cases hu : u = user
        · subst hu
          simp [AccountProxiedBalance.get_add]
        · simp [hu]
      | _ => exact (add_zero _).symm
    · rw [if_neg hc]
      cases p with
      | entry f user x => simp [Booking.entryAt, hc]
      | _ => exact (add_zero _).symm

theorem reward_book (b : Booking) (a d : Address) :
    (w.book b).reward a d = w.reward a d + b.rewardAt a d := by
  cases b with
  | mark kind addr => exact (add_zero _).symm
  | post addr p =>
    unfold World.reward
    rw [acct_post]
    by_cases ha : a = addr
    · subst ha
      rw [if_pos rfl]
      cases p with
      | reward dele x =>
        simp only [Posting.apply, Posting.onRewards, Booking.rewardAt,
          FinMap.getElem?_insert_ite, true_and]
        by_cases hd : d = dele
        · simp [hd]
        · simp [hd]
      | _ => exact (add_zero _).symm
    · rw [if_neg ha]
      cases p with
      | reward dele x => simp [Booking.rewardAt, ha]
      | _ => exact (add_zero _).symm

/-- **An amount after bookings** is what it was and what they have added. -/
theorem amount_bookAll (bs : List Booking) (field : AmountField) (a : Address) :
    (w.bookAll bs).amount field a =
      w.amount field a + (bs.map (Booking.amountAt field a)).sum := by
  induction bs generalizing w with
  | nil => simp
  | cons b bs ih => rw [bookAll_cons, ih, amount_book, List.map_cons, List.sum_cons, add_assoc]

theorem entry_bookAll (bs : List Booking) (field : EntryField) (c u : Address) :
    ((w.bookAll bs).entry c u).get field =
      (w.entry c u).get field + (bs.map (Booking.entryAt field c u)).sum := by
  induction bs generalizing w with
  | nil => simp
  | cons b bs ih => rw [bookAll_cons, ih, entry_book, List.map_cons, List.sum_cons, add_assoc]

theorem reward_bookAll (bs : List Booking) (a d : Address) :
    (w.bookAll bs).reward a d = w.reward a d + (bs.map (Booking.rewardAt a d)).sum := by
  induction bs generalizing w with
  | nil => simp
  | cons b bs ih => rw [bookAll_cons, ih, reward_book, List.map_cons, List.sum_cons, add_assoc]

theorem data_book (b : Booking) (a : Address) :
    ((w.book b).acct a).data = { (w.acct a).data with
      amounts := ((w.book b).acct a).data.amounts
      commission := ((w.book b).acct a).data.commission } := by
  cases b with
  | mark kind addr => rfl
  | post addr p =>
    rw [acct_post]
    split_ifs <;> rfl

@[simp] theorem candidate_bookAll (bs : List Booking) (a : Address) :
    ((w.bookAll bs).acct a).data.candidate = (w.acct a).data.candidate := by
  induction bs generalizing w with
  | nil => rfl
  | cons b bs ih => rw [bookAll_cons, ih, data_book]

@[simp] theorem proxiedTrie_bookAll (bs : List Booking) (a : Address) :
    ((w.bookAll bs).acct a).data.proxiedTrie = (w.acct a).data.proxiedTrie := by
  induction bs generalizing w with
  | nil => rfl
  | cons b bs ih =>
    rw [bookAll_cons, ih]
    unfold Account.proxiedTrie
    rw [data_book]

end World

end State
end LigoChain
