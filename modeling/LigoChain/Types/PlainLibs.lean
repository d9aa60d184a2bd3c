/-
# Plain-text libraries

`plainLibs` is an instance of `Libs` that can be computed with: a key is one byte,
its signature on a message is the key in front of the message, and an aggregate
puts the keys of the signers in front of the common message.  Signatures are not
secret, but everything the code can observe of a signature library holds: a
signature verifies for one message and one list of keys, and aggregating the
signatures of a message gives the signature of the aggregated keys on it.  The
encoding of votes writes every number in unary and every byte string with its
length, and is injective (`voteJSON_injective`).

Concrete runs of the code are run over these libraries, and the hypotheses that
results place on `Libs` are satisfied by them.
-/

import LigoChain.Types.Basic

namespace LigoChain
namespace PlainLibs

/-- A number in unary, closed by a zero byte. -/
def natCode (n : ℕ) : Bytes := List.replicate n 1 ++ [0]

/-- A list of numbers. -/
def natsCode (ns : List ℕ) : Bytes := ns.flatMap natCode

theorem natCode_append_inj {n m : ℕ} {r s : Bytes} (h : natCode n ++ r = natCode m ++ s) :
    n = m ∧ r = s := by
  induction n generalizing m with
  | zero =>
    cases m with
    | zero => exact ⟨rfl, by simpa [natCode] using h⟩
    | succ m => simp [natCode, List.replicate_succ] at h
  | succ n ih =>
    cases m with
    | zero => simp [natCode, List.replicate_succ] at h
    | succ m =>
      have h' : natCode n ++ r = natCode m ++ s := by
        simpa [natCode, List.replicate_succ] using h
      exact ⟨congrArg _ (ih h').1, (ih h').2⟩

theorem natsCode_injective : Function.Injective natsCode := by
  intro ns
  induction ns with
  | nil =>
    intro ms h
    cases ms with
    | nil => rfl
    | cons m ms => simp [natsCode, natCode] at h
  | cons n ns ih =>
    intro ms h
    cases ms with
    | nil => simp [natsCode, natCode] at h
    | cons m ms =>
      simp only [natsCode, List.flatMap_cons] at h
      obtain ⟨rfl, hrest⟩ := natCode_append_inj h
      rw [ih hrest]

/-- A record: each field with its length in front. -/
def fieldsCode (fs : List Bytes) : Bytes := fs.flatMap fun f => natCode f.length ++ f

theorem fieldsCode_injective : Function.Injective fieldsCode := by
  intro fs
  induction fs with
  | nil =>
    intro gs h
    cases gs with
    | nil => rfl
    | cons g gs => simp [fieldsCode, natCode] at h
  | cons f fs ih =>
    intro gs h
    cases gs with
    | nil => simp [fieldsCode, natCode] at h
    | cons g gs =>
      simp only [fieldsCode, List.flatMap_cons, List.append_assoc] at h
      obtain ⟨hlen, hfields⟩ := natCode_append_inj h
      obtain ⟨rfl, hrest⟩ := List.append_inj hfields hlen
      rw [ih hrest]

/-- The field of a text. -/
def textField (s : String) : Bytes := natsCode (s.toList.map Char.toNat)

theorem natsCode_inj {ns ms : List ℕ} : natsCode ns = natsCode ms ↔ ns = ms :=
  natsCode_injective.eq_iff

theorem textField_inj {s s' : String} : textField s = textField s' ↔ s = s' :=
  natsCode_inj.trans ((List.map_inj_right fun _ _ => Char.toNat_inj.1).trans String.toList_inj)

/-- The fields of a vote of a chain. -/
def voteFields (chainID : String) (vote : CanonicalJSONVote) : List Bytes :=
  [textField chainID, vote.blockID.hash, vote.blockID.partsHeader.hash,
    natsCode [vote.blockID.partsHeader.total, vote.height, vote.round, vote.type_]]

theorem voteFields_injective : Function.Injective2 voteFields := by
  rintro c c' ⟨⟨hash, ⟨total, phash⟩⟩, height, round, type_⟩
    ⟨⟨hash', ⟨total', phash'⟩⟩, height', round', type_'⟩ h
  simp only [voteFields, List.cons.injEq, natsCode_inj, textField_inj, and_true] at h
  obtain ⟨rfl, rfl, rfl, rfl, rfl, rfl, rfl⟩ := h
  exact ⟨rfl, rfl⟩

/-- The key's signature on a message. -/
def sign (pk : PubKey) (msg : Bytes) : Signature := pk ++ msg

/-- Signatures of one message, as one: the keys, then the message. -/
def aggregate : List Signature → Option Signature
  | [] => none
  | s :: ss => some ((s :: ss).filterMap List.head? ++ s.tail)

/-- The fields of a proposal of a chain. -/
def proposalFields (chainID : String) (p : CanonicalJSONProposal) : List Bytes :=
  [textField chainID, p.hash, p.blockPartsHeader.hash, p.polBlockID.hash,
    p.polBlockID.partsHeader.hash,
    natsCode [p.blockPartsHeader.total, p.polBlockID.partsHeader.total, p.height,
      p.polRound.toNat, p.round.toNat]]

/-- The fields of a block's map. -/
def extraFields (m : ExtraMap) : List Bytes :=
  [textField m.chainID, m.validators, m.epochBytes,
    natsCode [m.height, m.time.toNat, m.needToSave.toNat, m.needToBroadcast.toNat, m.epochNumber]]

/-- The fields of a commit. -/
def commitFields (c : Commit) : List Bytes :=
  [c.blockID.hash, c.signAggr.getD [], natsCode [c.height, c.round.toNat]]

/-- The fields of a list of validators. -/
def validatorsFields (vals : List Validator) : List Bytes :=
  vals.flatMap fun val => [natCode val.votingPower.toNat, val.address, val.pubKey]

end PlainLibs

open PlainLibs

/-- The plain-text libraries. -/
def plainLibs : Libs where
  verifyBytes pk msg sig := sig == PlainLibs.sign pk msg
  blsPubKeyAggregate pks := if pks.isEmpty then none else some pks.flatten
  blsSignatureAggregate := aggregate
  voteJSON chainID vote := fieldsCode (voteFields chainID vote)
  proposalJSON chainID p := fieldsCode (proposalFields chainID p)
  readExtra _ := none
  hashFromMap m := fieldsCode (extraFields m)
  hashFromValidators vals := fieldsCode (validatorsFields vals)
  hashFromCommit c := fieldsCode (commitFields c)
  partHash bytes := bytes
  proofVerify aunts _ total leaf root := total == 1 && aunts.isEmpty && leaf == root
  sha256 bytes := bytes.take 32

theorem plainLibs_voteJSONInjective : plainLibs.VoteJSONInjective := by
  intro c c' v v' h
  exact voteFields_injective (fieldsCode_injective h)

end LigoChain
