/-
# The epoch of a block

`Epoch.GetEpochByBlockNumber` (`consensus/tendermint/epoch/epoch.go`) and
`ChainInfo.GetEpochByBlockNumber` (`core/chains_info.go`) look for the epoch of a block in a
database that has the epochs `0` to `N`, where `N` is the current one; the second may also have the
future epoch `N + 1`.  Header and proof verification take their validators from the answer.

The first counts a `uint64` down with the condition `number >= 0`, which is always true: after `0`
comes `2 ^ 64 - 1`, and what ends the loop is that no such epoch is stored (`searchDown_add`).  The
second gives a block after the current epoch the future epoch, whatever its blocks are.  So
**both answer rightly exactly if a stored future epoch does not end before the block**, numbers at
the end of the range of `uint64` apart (`epoch_lookup_iff`).
-/

import LigoChain.CrossChain.ProofData

namespace LigoChain

open Engine CrossChain

namespace Engine

/-- `number--` on a `uint64`. -/
def decUint64 (number : ℕ) : ℕ := (number + (2 ^ 64 - 1)) % 2 ^ 64

/-- The loop of `Epoch.GetEpochByBlockNumber` as it counts, for a number of turns; `none` if it has
not returned by then. -/
def searchDown (sb : Backend) (blockNumber : ℕ) : ℕ → ℕ → Option (Option Epoch)
  | 0, _ => none
  | turns + 1, number =>
    match sb.loadOneEpoch number with
    | none => some none
    | some ep =>
      if Contains ep blockNumber then some (some ep)
      else searchDown sb blockNumber turns (decUint64 number)

/-- `Epoch.GetEpochByBlockNumber`, for a number of turns of its loop. -/
def lookupEpoch (sb : Backend) (turns : ℕ) (epoch : Epoch) (blockNumber : ℕ) :
    Option (Option Epoch) :=
  if Contains epoch blockNumber then some (some epoch)
  else searchDown sb blockNumber turns (decUint64 epoch.number)

end Engine

/-! ## Contiguous epochs -/

/-- The database has the epochs up to this one, each beginning after the one before has ended. -/
structure Contiguous (load : ℕ → Option Epoch) (top : ℕ) : Prop where
  stored : ∀ k, (load k).isSome ↔ k ≤ top
  number : ∀ {k ep}, load k = some ep → ep.number = k
  range : ∀ {k ep}, load k = some ep → ep.startBlock ≤ ep.endBlock + 1
  follows : ∀ {k ep ep'}, load k = some ep → load (k + 1) = some ep' →
    ep'.startBlock = ep.endBlock + 1

/-- The answer is the epoch that contains the block, among the epochs up to `top`. -/
def Answers (load : ℕ → Option Epoch) (top blockNumber : ℕ) (answer : Option Epoch) : Prop :=
  ∀ ep, answer = some ep ↔ ∃ k ≤ top, load k = some ep ∧ Contains ep blockNumber

section

variable {load : ℕ → Option Epoch} {top b : ℕ}

namespace Contiguous

theorem exists_load (h : Contiguous load top) {k : ℕ} (hk : k ≤ top) : ∃ ep, load k = some ep :=
  Option.isSome_iff_exists.1 ((h.stored k).2 hk)

theorem load_eq_none (h : Contiguous load top) {k : ℕ} (hk : top < k) : load k = none := by
  rw [← Option.not_isSome_iff_eq_none, h.stored]
  exact not_le.2 hk

theorem endBlock_lt (h : Contiguous load top) {k j : ℕ} {ep ep' : Epoch} (hk : load k = some ep)
    (hj : load j = some ep') (hlt : k < j) : ep.endBlock < ep'.startBlock := by
  induction j generalizing ep' with
  | zero => omega
  | succ j ih =>
    have hjtop : j + 1 ≤ top := (h.stored _).1 (by rw [hj]; rfl)
    obtain ⟨prev, hprev⟩ := h.exists_load (k := j) (by omega)
    have hfollows := h.follows hprev hj
    rcases Nat.lt_succ_iff_lt_or_eq.1 hlt with hlt' | rfl
    · have := ih hprev hlt'
      have := h.range hprev
      omega
    · obtain rfl := Option.some_inj.1 (hk.symm.trans hprev)
      omega

theorem endBlock_le (h : Contiguous load top) {k j : ℕ} {ep ep' : Epoch} (hk : load k = some ep)
    (hj : load j = some ep') (hle : k ≤ j) : ep.endBlock ≤ ep'.endBlock := by
  rcases Nat.lt_or_eq_of_le hle with hlt | rfl
  · have := h.endBlock_lt hk hj hlt
    have := h.range hj
    omega
  · rw [Option.some_inj.1 (hk.symm.trans hj)]

theorem eq_of_contains (h : Contiguous load top) {k j : ℕ} {ep ep' : Epoch}
    (hk : load k = some ep) (hj : load j = some ep') (hb : Contains ep b) (hb' : Contains ep' b) :
    ep = ep' := by
  obtain ⟨hstart, hend⟩ := hb
  obtain ⟨hstart', hend'⟩ := hb'
  rcases Nat.lt_trichotomy k j with hlt | rfl | hlt
  · have := h.endBlock_lt hk hj hlt
    omega
  · exact Option.some_inj.1 (hk.symm.trans hj)
  · have := h.endBlock_lt hj hk hlt
    omega

end Contiguous

/-! ## The two loops -/

/-- The loop that stops at `0`, over any database. -/
def searchBelow (load : ℕ → Option Epoch) (blockNumber : ℕ) : ℕ → Option Epoch
  | 0 => none
  | number + 1 =>
    match load number with
    | none => none
    | some ep =>
      if Contains ep blockNumber then some ep else searchBelow load blockNumber number

/-- The loop of `ChainInfo.GetEpochByBlockNumber` is it. -/
theorem searchEpoch_eq (cch : CrossChainHelper) (chainId : String) (b n : ℕ) :
    cch.searchEpoch chainId b n = searchBelow (cch.loadEpoch · chainId) b n := by
  induction n with
  | zero => rfl
  | succ n ih =>
    unfold CrossChainHelper.searchEpoch searchBelow
    cases cch.loadEpoch n chainId with
    | none => rfl
    | some ep => simp only [ih]

theorem searchBelow_succ {n : ℕ} {ep : Epoch} (hn : load n = some ep) :
    searchBelow load b (n + 1) = if Contains ep b then some ep else searchBelow load b n := by
  rw [searchBelow, hn]

/-- The loop finds the epoch that contains the block. -/
theorem Contiguous.searchBelow_eq_some (h : Contiguous load top) {n : ℕ} (hn : n ≤ top + 1)
    (ep : Epoch) : searchBelow load b n = some ep ↔
      ∃ k < n, load k = some ep ∧ Contains ep b := by
  induction n with
  | zero => simp [searchBelow]
  | succ n ih =>
    obtain ⟨last, hlast⟩ := h.exists_load (k := n) (by omega)
    rw [searchBelow_succ hlast]
    split_ifs with hb
    · rw [Option.some_inj]
      constructor
      · rintro rfl
        exact ⟨n, by omega, hlast, hb⟩
      · rintro ⟨k, -, hk, hb'⟩
        exact h.eq_of_contains hlast hk hb hb'
    · rw [ih (by omega)]
      constructor
      · rintro ⟨k, hk, hrest⟩
        exact ⟨k, by omega, hrest⟩
      · rintro ⟨k, hk, hload, hb'⟩
        refine ⟨k, ?_, hload, hb'⟩
        rcases Nat.lt_succ_iff_lt_or_eq.1 hk with hlt | rfl
        · exact hlt
        · rw [Option.some_inj.1 (hlast.symm.trans hload)] at hb
          exact absurd hb' hb

theorem decUint64_succ {n : ℕ} (hn : n + 1 < 2 ^ 64) : decUint64 (n + 1) = n := by
  unfold decUint64
  omega

theorem decUint64_zero : decUint64 0 = 2 ^ 64 - 1 := by decide

/-- **The loop that counts past zero** goes through the epochs below a number, and, if none of them
contains the block, on with `2 ^ 64 - 1`. -/
theorem searchDown_add {sb : Backend} {n : ℕ} (hn : n < 2 ^ 64)
    (hstored : ∀ k < n, (sb.loadOneEpoch k).isSome) (turns : ℕ) :
    searchDown sb b (n + turns) (decUint64 n) =
      (searchBelow sb.loadOneEpoch b n).elim (searchDown sb b turns (2 ^ 64 - 1))
        fun ep => some (some ep) := by
  induction n with
  | zero => rw [decUint64_zero, Nat.zero_add]; rfl
  | succ n ih =>
    obtain ⟨ep, hep⟩ := Option.isSome_iff_exists.1 (hstored n (by omega))
    rw [decUint64_succ hn, Nat.add_right_comm, searchDown, hep, searchBelow_succ hep]
    dsimp only
    split_ifs with hb
    · rfl
    · exact ih (by omega) fun k hk => hstored k (by omega)

theorem searchDown_ne_nil {sb : Backend} (hstored : ∀ k < 2 ^ 64, (sb.loadOneEpoch k).isSome)
    (turns : ℕ) {number : ℕ} (hnumber : number < 2 ^ 64) :
    searchDown sb b turns number ≠ some none := by
  induction turns generalizing number with
  | zero => simp [searchDown]
  | succ turns ih =>
    obtain ⟨ep, hep⟩ := Option.isSome_iff_exists.1 (hstored number hnumber)
    rw [searchDown, hep]
    dsimp only
    split_ifs with hb
    · simp
    · exact ih (Nat.mod_lt _ (by norm_num))

/-! ## The two functions -/

/-- `Epoch.GetEpochByBlockNumber` on the epoch `N` returns, and returns the epoch among `0` to `N`
that contains the block. -/
def EpochFinds (sb : Backend) (epoch : Epoch) (blockNumber : ℕ) : Prop :=
  ∃ turns answer, lookupEpoch sb turns epoch blockNumber = some answer ∧
    Answers sb.loadOneEpoch epoch.number blockNumber answer

/-- `ChainInfo.GetEpochByBlockNumber` returns the stored epoch that contains the block. -/
def ChainFinds (cch : CrossChainHelper) (chainId : String) (epoch : Epoch) (top blockNumber : ℕ) :
    Prop :=
  Answers (cch.loadEpoch · chainId) top blockNumber
    (cch.getEpochByBlockNumber ⟨chainId, some epoch⟩ blockNumber)

theorem Contiguous.answers_below (h : Contiguous load top) {N : ℕ} (hN : N ≤ top) {epoch : Epoch}
    (hload : load N = some epoch) :
    Answers load N b (if Contains epoch b then some epoch else searchBelow load b N) := by
  intro ep
  rw [← searchBelow_succ hload, h.searchBelow_eq_some (by omega)]
  simp only [Nat.lt_succ_iff]

theorem Answers.unique {answer answer' : Option Epoch} (h : Answers load top b answer)
    (h' : Answers load top b answer') : answer = answer' := by
  ext ep
  exact (h ep).trans (h' ep).symm

/-- **The lookup of an epoch** is right unless the counter comes round to a stored epoch. -/
theorem epochFinds_iff {sb : Backend} {N : ℕ} {epoch : Epoch} (h : Contiguous sb.loadOneEpoch top)
    (htop : top < 2 ^ 64) (hN : N ≤ top) (hload : sb.loadOneEpoch N = some epoch) :
    EpochFinds sb epoch b ↔ top + 1 < 2 ^ 64 ∨
      ∃ k ≤ N, ∃ ep, sb.loadOneEpoch k = some ep ∧ Contains ep b := by
  have hbelow := h.answers_below (b := b) hN hload
  have hdown := @searchDown_add b sb N (by omega) fun k hk => (h.stored k).2 (by omega)
  unfold EpochFinds lookupEpoch
  rw [h.number hload]
  constructor
  · rintro ⟨turns, answer, hanswer, hright⟩
    obtain rfl := hright.unique hbelow
    by_contra hcond
    push Not at hcond
    obtain ⟨hround, hnone⟩ := hcond
    have hstored : ∀ k < 2 ^ 64, (sb.loadOneEpoch k).isSome := fun k hk =>
      (h.stored k).2 (by omega)
    have hepoch : ¬Contains epoch b := hnone N le_rfl epoch hload
    have hsearch : searchBelow sb.loadOneEpoch b N = none := by
      rw [Option.eq_none_iff_forall_ne_some]
      intro ep hep
      obtain ⟨k, hk, hrest⟩ := (h.searchBelow_eq_some (by omega) ep).1 hep
      exact hnone k (by omega) ep hrest.1 hrest.2
    rw [if_neg hepoch, if_neg hepoch, hsearch] at hanswer
    exact searchDown_ne_nil hstored turns (Nat.mod_lt _ (by norm_num)) hanswer
  · intro hcond
    refine ⟨N + 1, _, ?_, hbelow⟩
    split_ifs with hepoch
    · rfl
    · rw [hdown 1]
      cases hsearch : searchBelow sb.loadOneEpoch b N with
      | some ep => rfl
      | none =>
        rcases hcond with hround | ⟨k, hk, ep, hep, hb⟩
        · have hnone : sb.loadOneEpoch (2 ^ 64 - 1) = none := h.load_eq_none (by omega)
          rw [Option.elim_none, searchDown, hnone]
        · rw [if_neg hepoch] at hbelow
          exact absurd ((hbelow ep).2 ⟨k, hk, hep, hb⟩) (by rw [hsearch]; simp)

theorem Contiguous.answers_none (h : Contiguous load top) {last : Epoch}
    (hlast : load top = some last) (hb : last.endBlock < b) : Answers load top b none := by
  intro ep
  refine ⟨fun hep => (Option.some_ne_none ep hep.symm).elim, ?_⟩
  rintro ⟨k, hk, hep, -, hend⟩
  have := h.endBlock_le hep hlast hk
  omega

theorem Contiguous.answers_of_le (h : Contiguous load top) {N : ℕ} (hN : N ≤ top) {epoch : Epoch}
    (hload : load N = some epoch) (hb : b ≤ epoch.endBlock) {answer : Option Epoch}
    (hanswer : Answers load N b answer) : Answers load top b answer := by
  intro ep
  rw [hanswer ep]
  constructor
  · rintro ⟨k, hk, hrest⟩
    exact ⟨k, by omega, hrest⟩
  · rintro ⟨k, hk, hep, hcontains⟩
    refine ⟨k, ?_, hep, hcontains⟩
    by_contra hlt
    have := h.endBlock_lt hload hep (by omega)
    have := hcontains.1
    omega

theorem Contiguous.answers_after (h : Contiguous load top) {last : Epoch}
    (hlast : load top = some last) (hb : last.endBlock < b) {answer : Option Epoch} :
    Answers load top b answer ↔ answer = none :=
  ⟨fun hanswer => hanswer.unique (h.answers_none hlast hb),
    fun hnone => hnone ▸ h.answers_none hlast hb⟩

theorem Contiguous.answers_in (h : Contiguous load top) {k : ℕ} {ep : Epoch} (hk : k ≤ top)
    (hload : load k = some ep) (hb : Contains ep b) : Answers load top b (some ep) := by
  intro ep'
  rw [Option.some_inj]
  constructor
  · rintro rfl
    exact ⟨k, hk, hload, hb⟩
  · rintro ⟨j, -, hload', hb'⟩
    exact h.eq_of_contains hload hload' hb hb'

/-- **The lookup in the information of a chain** is right unless a stored future epoch ends before
the block, or the number of the current one is the last. -/
theorem chainFinds_iff {cch : CrossChainHelper} {chainId : String} {N : ℕ} {epoch last : Epoch}
    (h : Contiguous (cch.loadEpoch · chainId) top) (hN : N ≤ top) (hnext : top ≤ N + 1)
    (hload : cch.loadEpoch N chainId = some epoch) (hlast : cch.loadEpoch top chainId = some last)
    (htop : top < 2 ^ 64) :
    ChainFinds cch chainId epoch top b ↔
      b ≤ epoch.endBlock ∨ (top = N ∧ top + 1 < 2 ^ 64) ∨ (top = N + 1 ∧ b ≤ last.endBlock) := by
  have hbelow := h.answers_below (b := b) hN hload
  unfold ChainFinds CrossChainHelper.getEpochByBlockNumber
  dsimp only
  rw [h.number hload, searchEpoch_eq]
  rcases Nat.lt_or_ge epoch.endBlock b with hb | hb
  · -- the block is after the current epoch, and what is loaded is not compared with it
    have hnot : ¬Contains epoch b := fun hc => by have := hc.2; omega
    rw [if_neg hnot, if_pos hb]
    rcases Nat.lt_or_eq_of_le hN with hlt | rfl
    · obtain rfl : top = N + 1 := by omega
      rw [Nat.mod_eq_of_lt htop, hlast]
      have hstart := h.follows hload hlast
      rcases Nat.lt_or_ge last.endBlock b with hafter | hin
      · rw [h.answers_after hlast hafter]
        simp only [reduceCtorEq, false_iff]
        omega
      · refine ⟨fun _ => .inr (.inr ⟨rfl, hin⟩), fun _ => ?_⟩
        exact h.answers_in le_rfl hlast ⟨by omega, hin⟩
    · obtain rfl := Option.some_inj.1 (hload.symm.trans hlast)
      rw [h.answers_after hload hb]
      rcases Nat.lt_or_ge (N + 1) (2 ^ 64) with hround | hround
      · rw [Nat.mod_eq_of_lt hround]
        exact ⟨fun _ => .inr (.inl ⟨rfl, hround⟩), fun _ => h.load_eq_none (Nat.lt_succ_self N)⟩
      · obtain ⟨first, hfirst⟩ := h.exists_load (k := 0) (by omega)
        rw [show (N + 1) % 2 ^ 64 = 0 by omega, hfirst]
        simp only [reduceCtorEq, false_iff]
        omega
  · refine ⟨fun _ => .inl hb, fun _ => ?_⟩
    have hright := h.answers_of_le hN hload hb hbelow
    rwa [if_neg (not_lt.2 hb)]

/-- **Epoch lookup.**  In a database with the epochs `0` to `N`, and perhaps `N + 1`, both functions
return and find the epoch of a block, exactly if a stored future epoch does not end before the block,
and the numbers of the epochs leave room for the counter or an epoch up to `N` contains the block. -/
theorem epoch_lookup_iff {sb : Backend} {cch : CrossChainHelper} {chainId : String} {N : ℕ}
    {epoch last : Epoch} (h : Contiguous sb.loadOneEpoch top)
    (hsame : ∀ k, cch.loadEpoch k chainId = sb.loadOneEpoch k) (htop : top < 2 ^ 64) (hN : N ≤ top)
    (hnext : top ≤ N + 1) (hload : sb.loadOneEpoch N = some epoch)
    (hlast : sb.loadOneEpoch top = some last) (b : ℕ) :
    EpochFinds sb epoch b ∧ ChainFinds cch chainId epoch top b ↔
      (top + 1 < 2 ^ 64 ∨ ∃ k ≤ N, ∃ ep, sb.loadOneEpoch k = some ep ∧ Contains ep b) ∧
      (top = N ∨ b ≤ last.endBlock) := by
  have hload' : (cch.loadEpoch · chainId) = sb.loadOneEpoch := funext hsame
  rw [epochFinds_iff h htop hN hload,
    chainFinds_iff (hload' ▸ h) hN hnext (by rw [hsame, hload]) (by rw [hsame, hlast]) htop]
  refine and_congr_right fun hcond => ?_
  have hend := h.endBlock_le hload hlast hN
  constructor
  · rintro (hb | ⟨htopN, -⟩ | ⟨-, hb⟩)
    · exact .inr (by omega)
    · exact .inl htopN
    · exact .inr hb
  · rintro (rfl | hb)
    · rcases hcond with hround | ⟨k, hk, ep, hep, hcontains⟩
      · exact .inr (.inl ⟨rfl, hround⟩)
      · have := h.endBlock_le hep hload hk
        have := hcontains.2
        exact .inl (by omega)
    · rcases Nat.lt_or_eq_of_le hN with hlt | rfl
      · exact .inr (.inr ⟨by omega, hb⟩)
      · rw [Option.some_inj.1 (hload.symm.trans hlast)]
        exact .inl hb

end

/-! ## A block after the future epoch -/

/-- The epochs `0`, of the blocks up to `9`, and `1`, of the blocks `10` to `19`. -/
def twoEpochs : ℕ → Option Epoch
  | 0 => some ⟨0, 0, 9, some soleValidator⟩
  | 1 => some ⟨1, 10, 19, some soleValidator⟩
  | _ => none

theorem twoEpochs_contiguous : Contiguous twoEpochs 1 where
  stored
    | 0 => by simp [twoEpochs]
    | 1 => by simp [twoEpochs]
    | k + 2 => by simp [twoEpochs]
  number {k ep} hk := by
    match k, hk with
    | 0, hk => exact (Option.some_inj.1 hk) ▸ rfl
    | 1, hk => exact (Option.some_inj.1 hk) ▸ rfl
  range {k ep} hk := by
    match k, hk with
    | 0, hk => exact (Option.some_inj.1 hk) ▸ (by decide : 0 ≤ 9 + 1)
    | 1, hk => exact (Option.some_inj.1 hk) ▸ (by decide : 10 ≤ 19 + 1)
  follows {k ep ep'} hk hk' := by
    match k, hk, hk' with
    | 0, hk, hk' => exact (Option.some_inj.1 hk) ▸ (Option.some_inj.1 hk') ▸ rfl

/-- A node with these epochs. -/
def lookupBackend : Backend := { soleBackend with loadOneEpoch := twoEpochs }

/-- A helper with these epochs. -/
def lookupHelper : CrossChainHelper :=
  { plainHelper with loadEpoch := fun k _ => twoEpochs k }

theorem epoch_lookup_iff_future :
    (EpochFinds lookupBackend ⟨0, 0, 9, some soleValidator⟩ 12 ∧
      ChainFinds lookupHelper "side" ⟨0, 0, 9, some soleValidator⟩ 1 12) :=
  (epoch_lookup_iff twoEpochs_contiguous (fun _ => rfl) (by norm_num) (Nat.zero_le 1) le_rfl rfl rfl
    12).2 ⟨.inl (by norm_num), .inr (by decide)⟩

/-- **A block after the future epoch is given that epoch**: block `25` is in no stored epoch, and the
information of the chain answers with the epoch of the blocks `10` to `19`. -/
theorem future_epoch_without_range :
    lookupHelper.getEpochByBlockNumber ⟨"side", some ⟨0, 0, 9, some soleValidator⟩⟩ 25 =
      some ⟨1, 10, 19, some soleValidator⟩ ∧
    ∀ k ep, twoEpochs k = some ep → ¬Contains ep 25 := by
  refine ⟨rfl, fun k ep hk => ?_⟩
  match k, hk with
  | 0, hk => exact (Option.some_inj.1 hk) ▸ (by decide)
  | 1, hk => exact (Option.some_inj.1 hk) ▸ (by decide)

end LigoChain
