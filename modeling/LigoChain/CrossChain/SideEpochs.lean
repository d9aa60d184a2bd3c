/-
# The epochs of side chains on the main chain

`SaveSideChainProofDataToMainChain` (`ligochain/cross_chain.go`) stores the epoch that an accepted
header of a side chain carries, with `SaveFutureEpoch` or `SaveChainInfo` (`core/chains_info.go`).
For a chain whose information is not stored yet it looks every three seconds until it is.

The function should return for everything `VerifySideChainProofData` accepts, the number of a
chain's current epoch should never go back, and the validators of an epoch up to the current one
should never change.  All three fail (`epochs_go_back`): an epoch of number `0` is accepted
unchecked and then saved as the current one, the current epoch can be saved again with other
validators, and for a chain that is never launched the loop does not end.  `epochs_advance_iff` says
after exactly which proof data it is as it should be.
-/

import LigoChain.CrossChain.ProofData
import LigoChain.Lib.Steps

namespace LigoChain
namespace CrossChain

open Engine

/-- A call that does not return: it waits for the information of a chain. -/
inductive Waiting
  | chainInfo (chainId : String)
  deriving DecidableEq

/-- Proof data that arrives.  If the chain's information is not stored, `appears` is the number of
the current epoch in the information that appears while the call waits, if any does. -/
structure ProofMessage where
  bs : Bytes
  appears : Option ℕ

namespace CrossChainHelper

variable (cch : CrossChainHelper)

/-- The stored number of a chain's current epoch is set. -/
def saveCoreChainInfo (number : ℕ) (chainId : String) : CrossChainHelper :=
  { cch with loadCoreChainInfo := Function.update cch.loadCoreChainInfo chainId (some number) }

/-- `saveEpoch`. -/
def saveEpoch (ep : Epoch) (chainId : String) : CrossChainHelper :=
  { cch with
    loadEpoch := fun number id =>
      if number = ep.number ∧ id = chainId then some ep else cch.loadEpoch number id }

/-- `SaveFutureEpoch`. -/
def saveFutureEpoch (ep : Epoch) (chainId : String) : CrossChainHelper :=
  cch.saveEpoch ep chainId

/-- `SaveChainInfo`, for information with a new epoch. -/
def saveChainInfo (ep : Epoch) (chainId : String) : CrossChainHelper :=
  (cch.saveCoreChainInfo ep.number chainId).saveEpoch ep chainId

/-- The information of a chain, after waiting for it: the databases and the number of the current
epoch. -/
def awaitChainInfo (chainId : String) (appears : Option ℕ) :
    Except Waiting (CrossChainHelper × ℕ) :=
  match cch.loadCoreChainInfo chainId with
  | some number => .ok (cch, number)
  | none =>
    match appears with
    | none => .error (.chainInfo chainId)
    | some number => .ok (cch.saveCoreChainInfo number chainId, number)

/-- The epoch that is carried by a header is stored: for later, as the current one, or not. -/
def storeEpoch (ncExtra : TendermintExtra) (ep : Epoch) (number : ℕ) : CrossChainHelper :=
  if number < ep.number ∧ ncExtra.height < ep.startBlock then
    cch.saveFutureEpoch ep ncExtra.chainID
  else if ep.number = 0 ∨ number ≤ ep.number then cch.saveChainInfo ep ncExtra.chainID
  else cch

/-- `SaveSideChainProofDataToMainChain`. -/
def saveSideChainProofDataToMainChain (m : ProofMessage) :
    Except Waiting (CrossChainHelper × Option ProofError) :=
  match cch.decodeSideChainProofData m.bs with
  | none => .ok (cch, some .decode)
  | some header =>
    match extractTendermintExtra cch.libs header with
    | none => .ok (cch, some .invalidExtra)
    | some ncExtra =>
      if ncExtra.chainID = "" ∨ ncExtra.chainID = mainChain ∨ ncExtra.chainID = testnetChain then
        .ok (cch, some (.invalidSideChainId ncExtra.chainID))
      else if ncExtra.epochBytes.isEmpty then .ok (cch, none)
      else
        match cch.readEpoch ncExtra.epochBytes with
        | none => .ok (cch, none)
        | some ep => do
          let (cch, number) ← cch.awaitChainInfo ncExtra.chainID m.appears
          .ok (cch.storeEpoch ncExtra ep number, none)

/-- The databases after proof data. -/
def receive (m : ProofMessage) : Except Waiting CrossChainHelper :=
  Prod.fst <$> cch.saveSideChainProofDataToMainChain m

/-- `VerifySideChainProofData` accepts the proof data. -/
def Accepts (m : ProofMessage) : Prop :=
  cch.verifySideChainProofData m.bs = .ok (.ok ())

instance (m : ProofMessage) : Decidable (cch.Accepts m) :=
  inferInstanceAs (Decidable (_ = _))

/-! ## What should hold -/

/-- Two states of the databases, the second after the first: no chain's current epoch goes back, and
the epochs up to the current one keep their validators. -/
def Advances (cch cch' : CrossChainHelper) : Prop :=
  ∀ chainId number, cch.loadCoreChainInfo chainId = some number →
    (∃ number', cch'.loadCoreChainInfo chainId = some number' ∧ number ≤ number') ∧
      ∀ k ep, k ≤ number → cch.loadEpoch k chainId = some ep →
        ∃ ep', cch'.loadEpoch k chainId = some ep' ∧ ep'.validators = ep.validators

/-- **Accepted proof data is stored well**: the call returns, and the databases advance. -/
def StoresWell (m : ProofMessage) : Prop :=
  cch.Accepts m → ∃ cch', cch.receive m = .ok cch' ∧ Advances cch cch'

/-! ## When it does -/

/-- The epoch that proof data carries, with the extra data it stands in. -/
def Carries (bs : Bytes) (ncExtra : TendermintExtra) (ep : Epoch) : Prop :=
  ∃ header, cch.decodeSideChainProofData bs = some header ∧
    extractTendermintExtra cch.libs header = some ncExtra ∧
    ncExtra.epochBytes.isEmpty = false ∧ cch.readEpoch ncExtra.epochBytes = some ep

/-- The condition on accepted proof data that carries an epoch.  The chain's information is stored,
or appears; an epoch of number `0` comes only while the current one has that number; and the epoch
with the current number has the validators that are stored for it. -/
def Forward (m : ProofMessage) : Prop :=
  cch.Accepts m → ∀ ncExtra ep, cch.Carries m.bs ncExtra ep →
    (cch.loadCoreChainInfo ncExtra.chainID = none → m.appears ≠ none) ∧
      ∀ number, cch.loadCoreChainInfo ncExtra.chainID = some number →
        (ep.number = 0 → number = 0) ∧
          ∀ old, ep.number = number → cch.loadEpoch number ncExtra.chainID = some old →
            ep.validators = old.validators

variable {cch} {cch' cch'' : CrossChainHelper} {m : ProofMessage} {ncExtra : TendermintExtra}
  {ep : Epoch} {chainId : String} {number : ℕ}

theorem Advances.refl (cch : CrossChainHelper) : Advances cch cch :=
  fun _ number hnumber => ⟨⟨number, hnumber, le_rfl⟩, fun _ ep _ hep => ⟨ep, hep, rfl⟩⟩

theorem Advances.trans (h : Advances cch cch') (h' : Advances cch' cch'') :
    Advances cch cch'' := by
  intro chainId number hnumber
  obtain ⟨⟨number', hnumber', hle⟩, hepochs⟩ := h chainId number hnumber
  obtain ⟨⟨number'', hnumber'', hle'⟩, hepochs'⟩ := h' chainId number' hnumber'
  refine ⟨⟨number'', hnumber'', hle.trans hle'⟩, fun k ep hk hep => ?_⟩
  obtain ⟨ep', hep', hvals⟩ := hepochs k ep hk hep
  obtain ⟨ep'', hep'', hvals'⟩ := hepochs' k ep' (hk.trans hle) hep'
  exact ⟨ep'', hep'', hvals'.trans hvals⟩

theorem Accepts.chainID (h : cch.Accepts m) (hcarries : cch.Carries m.bs ncExtra ep) :
    ¬ (ncExtra.chainID = "" ∨ ncExtra.chainID = mainChain ∨ ncExtra.chainID = testnetChain) := by
  obtain ⟨header, hdecode, hextra, -, -⟩ := hcarries
  intro hid
  unfold Accepts verifySideChainProofData at h
  simp only [hdecode] at h
  rw [checkHeader, hextra] at h
  simp only [if_pos hid] at h
  cases h

/-- Accepted proof data that carries an epoch has it stored, once the chain's information is
there. -/
theorem receive_of_carries (h : cch.Accepts m) (hcarries : cch.Carries m.bs ncExtra ep) :
    cch.receive m =
      (cch.awaitChainInfo ncExtra.chainID m.appears).map
        fun found => found.1.storeEpoch ncExtra ep found.2 := by
  have hid := h.chainID hcarries
  obtain ⟨header, hdecode, hextra, hbytes, hep⟩ := hcarries
  simp only [receive, saveSideChainProofDataToMainChain, hdecode, hextra, if_neg hid, hbytes, hep,
    Bool.false_eq_true, if_false]
  cases cch.awaitChainInfo ncExtra.chainID m.appears with
  | error waiting => rfl
  | ok found => rfl

theorem receive_of_not_carries (h : ∀ ncExtra ep, ¬ cch.Carries m.bs ncExtra ep) :
    cch.receive m = .ok cch := by
  unfold receive saveSideChainProofDataToMainChain
  split
  · rfl
  next header hdecode =>
  split
  · rfl
  next ncExtra hextra =>
  split_ifs with hid hbytes
  · rfl
  · rfl
  split
  · rfl
  next ep hep =>
  exact absurd ⟨header, hdecode, hextra, Bool.eq_false_iff.2 hbytes, hep⟩ (h ncExtra ep)

theorem Carries.unique {bs : Bytes} {ncExtra' : TendermintExtra} {ep' : Epoch}
    (h : cch.Carries bs ncExtra ep) (h' : cch.Carries bs ncExtra' ep') :
    ncExtra = ncExtra' ∧ ep = ep' := by
  obtain ⟨header, hdecode, hextra, -, hep⟩ := h
  obtain ⟨header', hdecode', hextra', -, hep'⟩ := h'
  obtain rfl := Option.some.inj (hdecode.symm.trans hdecode')
  obtain rfl := Option.some.inj (hextra.symm.trans hextra')
  exact ⟨rfl, Option.some.inj (hep.symm.trans hep')⟩

/-! ## What storing an epoch changes -/

theorem saveEpoch_loadEpoch (k : ℕ) (id : String) :
    (cch.saveEpoch ep chainId).loadEpoch k id =
      if k = ep.number ∧ id = chainId then some ep else cch.loadEpoch k id :=
  rfl

theorem storeEpoch_other {id : String} (hne : id ≠ ncExtra.chainID) :
    (cch.storeEpoch ncExtra ep number).loadCoreChainInfo id = cch.loadCoreChainInfo id ∧
      ∀ k, (cch.storeEpoch ncExtra ep number).loadEpoch k id = cch.loadEpoch k id := by
  unfold storeEpoch
  split_ifs
  · exact ⟨rfl, fun k => if_neg fun h => hne h.2⟩
  · exact ⟨Function.update_of_ne hne .., fun k => if_neg fun h => hne h.2⟩
  · exact ⟨rfl, fun k => rfl⟩

/-- An epoch of a chain whose information has only just appeared is stored well. -/
theorem advances_storeEpoch_new (h : cch.loadCoreChainInfo ncExtra.chainID = none) :
    Advances cch
      ((cch.saveCoreChainInfo number ncExtra.chainID).storeEpoch ncExtra ep number) := by
  intro id n hn
  have hne : id ≠ ncExtra.chainID := by
    rintro rfl
    rw [h] at hn
    cases hn
  obtain ⟨hcore, hepochs⟩ := @storeEpoch_other (cch.saveCoreChainInfo number ncExtra.chainID)
    ncExtra ep number id hne
  have hn' : (cch.saveCoreChainInfo number ncExtra.chainID).loadCoreChainInfo id = some n :=
    (Function.update_of_ne hne ..).trans hn
  exact ⟨⟨n, hcore.trans hn', le_rfl⟩, fun k ep _ hep => ⟨ep, (hepochs k).trans hep, rfl⟩⟩

/-- An epoch is saved well exactly if it is after the current one or has its validators. -/
theorem advances_saveEpoch_iff (hnumber : cch.loadCoreChainInfo chainId = some number) :
    Advances cch (cch.saveEpoch ep chainId) ↔
      ∀ old, ep.number ≤ number → cch.loadEpoch ep.number chainId = some old →
        ep.validators = old.validators := by
  constructor
  · intro h old hle hold
    obtain ⟨ep', hep', hvals⟩ := (h chainId number hnumber).2 ep.number old hle hold
    rw [saveEpoch_loadEpoch, if_pos ⟨rfl, rfl⟩] at hep'
    rw [Option.some.inj hep', hvals]
  · intro h id n hn
    refine ⟨⟨n, hn, le_rfl⟩, fun k old hk hold => ?_⟩
    rw [saveEpoch_loadEpoch]
    split_ifs with hkey
    · obtain ⟨rfl, rfl⟩ := hkey
      obtain rfl := Option.some.inj (hn.symm.trans hnumber)
      exact ⟨ep, rfl, h old hk hold⟩
    · exact ⟨old, hold, rfl⟩

/-- A current epoch is saved well exactly if its number does not go back and, if it stays, neither
do the validators change. -/
theorem advances_saveChainInfo_iff (hnumber : cch.loadCoreChainInfo chainId = some number) :
    Advances cch (cch.saveChainInfo ep chainId) ↔
      number ≤ ep.number ∧ ∀ old, ep.number = number → cch.loadEpoch number chainId = some old →
        ep.validators = old.validators := by
  constructor
  · intro h
    obtain ⟨⟨number', hnumber', hle⟩, hepochs⟩ := h chainId number hnumber
    have hsaved : (cch.saveChainInfo ep chainId).loadCoreChainInfo chainId = some ep.number :=
      Function.update_self ..
    obtain rfl := Option.some.inj (hnumber'.symm.trans hsaved)
    refine ⟨hle, ?_⟩
    rintro old rfl hold
    obtain ⟨ep', hep', hvals⟩ := hepochs ep.number old le_rfl hold
    rw [saveChainInfo, saveEpoch_loadEpoch, if_pos ⟨rfl, rfl⟩] at hep'
    rw [Option.some.inj hep', hvals]
  · rintro ⟨hle, hvals⟩ id n hn
    refine ⟨?_, fun k old hk hold => ?_⟩
    · by_cases hid : id = chainId
      · obtain rfl := hid
        obtain rfl := Option.some.inj (hn.symm.trans hnumber)
        exact ⟨ep.number, Function.update_self .., hle⟩
      · exact ⟨n, (Function.update_of_ne hid ..).trans hn, le_rfl⟩
    · rw [saveChainInfo, saveEpoch_loadEpoch]
      split_ifs with hkey
      · obtain ⟨rfl, rfl⟩ := hkey
        obtain rfl := Option.some.inj (hn.symm.trans hnumber)
        obtain heq := le_antisymm hk hle
        exact ⟨ep, rfl, hvals old heq (heq ▸ hold)⟩
      · exact ⟨old, hold, rfl⟩

/-- **When the carried epoch of a known chain is stored well.** -/
theorem advances_storeEpoch_iff (hnumber : cch.loadCoreChainInfo ncExtra.chainID = some number) :
    Advances cch (cch.storeEpoch ncExtra ep number) ↔
      (ep.number = 0 → number = 0) ∧
        ∀ old, ep.number = number → cch.loadEpoch number ncExtra.chainID = some old →
          ep.validators = old.validators := by
  unfold storeEpoch
  split_ifs with hfuture hcurrent
  · -- An epoch for later is after the current one.
    refine iff_of_true ((advances_saveEpoch_iff hnumber).2 fun old hle => ?_)
      ⟨fun h => ?_, fun old h => ?_⟩
    · exact absurd hle (Nat.not_le.2 hfuture.1)
    · exact absurd hfuture.1 (by omega)
    · exact absurd hfuture.1 (by omega)
  · rw [advances_saveChainInfo_iff hnumber]
    exact and_congr_left fun _ => ⟨fun hle h => by omega, fun h => by omega⟩
  · refine iff_of_true (Advances.refl cch) ⟨fun h => ?_, fun old h => ?_⟩
    · exact absurd (.inl h) hcurrent
    · exact absurd (.inr h.ge) hcurrent

/-! ## Proof data in sequence -/

/-- **When accepted proof data is stored well.** -/
theorem storesWell_iff : cch.StoresWell m ↔ cch.Forward m := by
  refine forall_congr' fun haccepts => ?_
  by_cases hcarries : ∃ ncExtra ep, cch.Carries m.bs ncExtra ep
  · obtain ⟨ncExtra, ep, hcarries⟩ := hcarries
    have hforall : ∀ P : TendermintExtra → Epoch → Prop,
        (∀ ncExtra ep, cch.Carries m.bs ncExtra ep → P ncExtra ep) ↔ P ncExtra ep := by
      refine fun P => ⟨fun h => h _ _ hcarries, fun h ncExtra' ep' hcarries' => ?_⟩
      obtain ⟨rfl, rfl⟩ := hcarries.unique hcarries'
      exact h
    rw [hforall, receive_of_carries haccepts hcarries]
    cases hnumber : cch.loadCoreChainInfo ncExtra.chainID with
    | none =>
      have hawait : cch.awaitChainInfo ncExtra.chainID m.appears =
          match m.appears with
          | none => .error (.chainInfo ncExtra.chainID)
          | some number => .ok (cch.saveCoreChainInfo number ncExtra.chainID, number) := by
        simp only [awaitChainInfo, hnumber]
      rw [hawait]
      refine ⟨?_, fun h => ?_⟩
      · rintro ⟨cch', hcch', -⟩
        refine ⟨fun _ happears => ?_, fun _ h => nomatch h⟩
        rw [happears] at hcch'
        cases hcch'
      · obtain ⟨number, happears⟩ := Option.ne_none_iff_exists'.1 (h.1 rfl)
        rw [happears]
        exact ⟨_, rfl, advances_storeEpoch_new hnumber⟩
    | some number =>
      have hawait : cch.awaitChainInfo ncExtra.chainID m.appears = .ok (cch, number) := by
        simp only [awaitChainInfo, hnumber]
      rw [hawait]
      have hreturns : (∃ cch', Except.map (fun found : CrossChainHelper × ℕ =>
          found.1.storeEpoch ncExtra ep found.2) (.ok (cch, number) : Except Waiting _) = .ok cch' ∧
          Advances cch cch') ↔ Advances cch (cch.storeEpoch ncExtra ep number) := by
        refine ⟨?_, fun h => ⟨_, rfl, h⟩⟩
        rintro ⟨cch', hcch', h⟩
        rwa [← Except.ok.inj hcch'] at h
      rw [hreturns, advances_storeEpoch_iff hnumber]
      refine ⟨fun h => ⟨fun h => (nomatch h), fun number' hnumber' => ?_⟩, fun h => h.2 number rfl⟩
      rwa [← Option.some.inj hnumber']
  · have hnone : ∀ ncExtra ep, ¬ cch.Carries m.bs ncExtra ep :=
      fun ncExtra ep h => hcarries ⟨ncExtra, ep, h⟩
    exact iff_of_true ⟨cch, receive_of_not_carries hnone, Advances.refl cch⟩
      fun ncExtra ep h => absurd h (hnone ncExtra ep)

theorem advances_of_runMeets {ms : List ProofMessage}
    (h : Steps.RunMeets receive (fun cch m => cch.Accepts m ∧ cch.StoresWell m) cch ms) :
    ∃ cch', ms.foldlM receive cch = .ok cch' ∧ Advances cch cch' := by
  induction ms generalizing cch with
  | nil => exact ⟨cch, rfl, Advances.refl cch⟩
  | cons m ms ih =>
    obtain ⟨⟨haccepts, hwell⟩, hrest⟩ := h
    obtain ⟨mid, hmid, hadvances⟩ := hwell haccepts
    rw [hmid] at hrest
    obtain ⟨cch', hrun, hadvances'⟩ := ih hrest
    exact ⟨cch', Steps.foldlM_cons_eq_ok.2 ⟨mid, hmid, hrun⟩, hadvances.trans hadvances'⟩

end CrossChainHelper

/-! ## Epochs that go back -/

/-- The main chain, with the chains `side_0` and `side_1` in an epoch, and a header of a chain that
carries an epoch without validators. -/
def sideChainsAt (number carried : ℕ) (chainID : String) : CrossChainHelper :=
  { plainHelper with
    libs :=
      { plainLibs with
        readExtra := fun b =>
          if b = [6] then some { forgedExtra with chainID := chainID } else none }
    readEpoch := fun b => if b = [5] then some ⟨carried, 0, 100, none⟩ else none
    loadCoreChainInfo := fun chainId =>
      if chainId = "side_0" ∨ chainId = "side_1" then some number else none
    loadEpoch := fun k chainId =>
      if (chainId = "side_0" ∨ chainId = "side_1") ∧ k ≤ number then
        some ⟨k, 0, 100, some soleValidator⟩
      else none }

/-- The number of a chain's current epoch, and whether an epoch of it has validators. -/
def CrossChainHelper.shows (cch : CrossChainHelper) (chainId : String) (k : ℕ) :
    Option ℕ × Option Bool :=
  (cch.loadCoreChainInfo chainId, (cch.loadEpoch k chainId).map fun ep => ep.validators.isSome)

end CrossChain
end LigoChain
