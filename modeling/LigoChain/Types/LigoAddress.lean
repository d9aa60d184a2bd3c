/-
# Generated addresses

`NewLigoScriptAddr` and `ValidateLigoAddr` in `utilities/crypto/crypto.go`, and the check of a
recipient in `TxPool.validateTx` (`chain/core/tx_pool.go`).  Every account of the chain, and every
contract that `CREATE` or `CREATE2` makes, has an address of the first function: the package
variable `addressPrefix` and the first 29 characters of the base58 check-encoding of a hash.  The
pool takes a transfer only to an address that the second function accepts.

The generator writes `Lig` and the validator asks for `NEAT`.  **A generated address is accepted
exactly if `addressPrefix` is `NEA` and the encoding begins with `T`** (`generated_accepted_iff`), so
with the prefix that the package has the pool refuses every transfer to every account
(`generated_refused`).
-/

import LigoChain.Types.Block

namespace LigoChain
namespace Address

/-- A text of ASCII characters. -/
def ascii (text : List Char) : Bytes := text.map fun c => UInt8.ofNat c.toNat

/-- `bs58Str`. -/
def bs58Str : Bytes :=
  ascii ['1', '2', '3', '4', '5', '6', '7', '8', '9', 'A', 'B', 'C', 'D', 'E', 'F', 'G', 'H', 'J',
    'K', 'L', 'M', 'N', 'P', 'Q', 'R', 'S', 'T', 'U', 'V', 'W', 'X', 'Y', 'Z', 'a', 'b', 'c', 'd',
    'e', 'f', 'g', 'h', 'i', 'j', 'k', 'm', 'n', 'o', 'p', 'q', 'r', 's', 't', 'u', 'v', 'w', 'x',
    'y', 'z']

/-- `scriptVersion`. -/
def scriptVersion : UInt8 := 0x42

/-- The value of `addressPrefix`. -/
def addressPrefix : Bytes := ascii ['L', 'i', 'g']

/-- The hashes and the encodings: `Hash160`, the RIPEMD-160 of a SHA-256; `base58.CheckEncode` of a
version and a hash of 20 bytes, which is at least 29 characters of the base58 alphabet; the RLP
encoding of an address and a nonce, and `Keccak256`. -/
structure AddressLibs where
  encodeToBytes : Bytes → UInt64 → Bytes
  keccak256 : Bytes → Bytes
  hash160 : Bytes → Bytes
  hash160_length : ∀ buf, (hash160 buf).length = 20
  checkEncode : Bytes → UInt8 → Bytes
  checkEncode_length : ∀ hash version, hash.length = 20 → 29 ≤ (checkEncode hash version).length
  checkEncode_alphabet : ∀ hash version, hash.length = 20 →
    ∀ c ∈ checkEncode hash version, c ∈ bs58Str

variable (A : AddressLibs)

/-- `encodeAddress`. -/
def encodeAddress (hash160 : Bytes) (version : UInt8) : Bytes := A.checkEncode hash160 version

/-- `NewLigoScriptAddr`, with the value of `addressPrefix`.  The slice of the first 29 characters
panics when there are fewer. -/
def newLigoScriptAddr (addressPrefix script : Bytes) : Go Bytes :=
  let strArray := encodeAddress A (A.hash160 script) scriptVersion
  if strArray.length < 29 then .error .index else .ok (addressPrefix ++ strArray.take 29)

/-- `ValidateLigoAddr`.  The characters after the first three are compared one by one; what is not
ASCII is not in the alphabet, whether it is read by bytes or by runes. -/
def validateLigoAddr (input : Bytes) : Bool :=
  input.length == 32 && input.take 4 == ascii ['N', 'E', 'A', 'T'] &&
    (input.drop 3).all fun c => bs58Str.contains c

/-- `common.BytesToAddress`: the last 32 bytes, with zeros in front. -/
def bytesToAddress (b : Bytes) : Bytes :=
  let b := b.drop (b.length - 32)
  List.replicate (32 - b.length) 0 ++ b

/-- The check of the recipient in `validateTx`: a contract creation has none. -/
def recipientValid (recipient : Option Bytes) : Bool := recipient.all validateLigoAddr

/-- `CreateAddress`. -/
def createAddress (addressPrefix b : Bytes) (nonce : UInt64) : Go Bytes :=
  bytesToAddress <$> newLigoScriptAddr A addressPrefix (A.encodeToBytes b nonce)

/-- `CreateAddress2`. -/
def createAddress2 (addressPrefix b salt inithash : Bytes) : Go Bytes :=
  bytesToAddress <$>
    newLigoScriptAddr A addressPrefix (A.keccak256 (0xff :: (b ++ salt ++ inithash)))

variable {A}

theorem bytesToAddress_of_length {b : Bytes} (h : b.length = 32) : bytesToAddress b = b := by
  simp [bytesToAddress, h]

/-- **The generator does not panic**, and writes 29 characters of the alphabet. -/
theorem newLigoScriptAddr_eq (addressPrefix script : Bytes) :
    ∃ encoded, newLigoScriptAddr A addressPrefix script = .ok (addressPrefix ++ encoded) ∧
      encoded = (encodeAddress A (A.hash160 script) scriptVersion).take 29 ∧
      encoded.length = 29 ∧ ∀ c ∈ encoded, c ∈ bs58Str := by
  have hhash := A.hash160_length script
  have hlength : 29 ≤ (encodeAddress A (A.hash160 script) scriptVersion).length :=
    A.checkEncode_length _ _ hhash
  refine ⟨_, if_neg (not_lt.2 hlength), rfl, by simpa using hlength, fun c hc => ?_⟩
  exact A.checkEncode_alphabet _ _ hhash c (List.mem_of_mem_take hc)

/-- What the validator asks of a prefix of three characters and an encoding. -/
theorem validateLigoAddr_append {p encoded : Bytes} (hp : p.length = 3)
    (hlength : encoded.length = 29) (halphabet : ∀ c ∈ encoded, c ∈ bs58Str) :
    validateLigoAddr (p ++ encoded) = true ↔
      p = ascii ['N', 'E', 'A'] ∧ encoded.head? = some (UInt8.ofNat 'T'.toNat) := by
  obtain ⟨c, rest, rfl⟩ := List.exists_cons_of_length_eq_add_one hlength
  have hdrop : (p ++ c :: rest).drop 3 = c :: rest := by rw [← hp, List.drop_left]
  have htake : (p ++ c :: rest).take 4 = p ++ [c] := by
    rw [show p ++ c :: rest = (p ++ [c]) ++ rest by simp,
      show 4 = (p ++ [c]).length by simp [hp], List.take_left]
  have hall : ((c :: rest).all fun c => bs58Str.contains c) = true := by
    rw [List.all_eq_true]
    exact fun x hx => List.contains_iff_mem.2 (halphabet x hx)
  have hsize : (p ++ c :: rest).length = 32 := by rw [List.length_append, hp, hlength]
  unfold validateLigoAddr
  rw [hdrop, htake, hall, hsize]
  simp only [beq_self_eq_true, Bool.true_and, Bool.and_true, beq_iff_eq, List.head?_cons,
    Option.some_inj]
  constructor
  · intro h
    have h' : p ++ [c] = ascii ['N', 'E', 'A'] ++ [UInt8.ofNat 'T'.toNat] := h
    obtain ⟨hstart, hc⟩ := List.append_inj' h' rfl
    exact ⟨hstart, (List.cons.inj hc).1⟩
  · rintro ⟨hstart, hc⟩
    rw [hstart, hc]
    rfl

/-- The pool takes a transfer to this address. -/
def Received (addr : Go Bytes) : Prop := ∃ a, addr = .ok a ∧ recipientValid (some a) = true

/-- The address that is generated for a byte string has 32 bytes and is accepted: by the validator,
and, as the address of an account or of a contract, by the pool. -/
structure GeneratedAccepted (A : AddressLibs) (addressPrefix script : Bytes) : Prop where
  valid : ∃ addr, newLigoScriptAddr A addressPrefix script = .ok addr ∧ addr.length = 32 ∧
    validateLigoAddr addr = true
  account : Received (bytesToAddress <$> newLigoScriptAddr A addressPrefix script)
  create : ∀ b nonce, A.encodeToBytes b nonce = script →
    Received (createAddress A addressPrefix b nonce)
  create2 : ∀ b salt inithash, A.keccak256 (0xff :: (b ++ salt ++ inithash)) = script →
    Received (createAddress2 A addressPrefix b salt inithash)

/-- **Generated addresses**: one is accepted exactly if the prefix is `NEA` and the encoding begins
with `T`. -/
theorem generated_accepted_iff (A : AddressLibs) (addressPrefix script : Bytes) :
    GeneratedAccepted A addressPrefix script ↔ addressPrefix = ascii ['N', 'E', 'A'] ∧
      (encodeAddress A (A.hash160 script) scriptVersion).head? = some (UInt8.ofNat 'T'.toNat) := by
  obtain ⟨encoded, hnew, hencoded, hlength, halphabet⟩ :=
    @newLigoScriptAddr_eq A addressPrefix script
  have hhead : (encodeAddress A (A.hash160 script) scriptVersion).head? = encoded.head? := by
    rw [hencoded, List.head?_take]
    rfl
  rw [hhead]
  constructor
  · rintro ⟨⟨addr, haddr, hsize, hvalid⟩, -, -, -⟩
    obtain rfl := Except.ok.inj (hnew.symm.trans haddr)
    have hp : addressPrefix.length = 3 := by
      rw [List.length_append, hlength] at hsize
      omega
    exact (validateLigoAddr_append hp hlength halphabet).1 hvalid
  · rintro ⟨hstart, hT⟩
    have hp : addressPrefix.length = 3 := by rw [hstart]; rfl
    have hvalid := (validateLigoAddr_append hp hlength halphabet).2 ⟨hstart, hT⟩
    have hsize : (addressPrefix ++ encoded).length = 32 := by
      rw [List.length_append, hp, hlength]
    have hreceived : Received (bytesToAddress <$> newLigoScriptAddr A addressPrefix script) := by
      refine ⟨addressPrefix ++ encoded, ?_, hvalid⟩
      rw [hnew]
      exact congrArg Except.ok (bytesToAddress_of_length hsize)
    refine ⟨⟨_, hnew, hsize, hvalid⟩, hreceived, ?_, ?_⟩
    · rintro b nonce rfl
      exact hreceived
    · rintro b salt inithash rfl
      exact hreceived

/-- Hashes and encodings, with an encoding that begins as the validator asks. -/
def plainAddressLibs : AddressLibs where
  encodeToBytes b nonce := b ++ [nonce.toUInt8]
  keccak256 data := data.take 32
  hash160 buf := (buf ++ List.replicate 20 0).take 20
  hash160_length buf := by simp
  checkEncode _ _ := ascii (List.replicate 34 'T')
  checkEncode_length _ _ _ := by decide
  checkEncode_alphabet _ _ _ c hc := by
    obtain rfl : c = UInt8.ofNat 'T'.toNat := by
      simpa [ascii, List.mem_replicate] using hc
    decide

/-- **With the prefix of the package a generated address is refused**: the address has its 32 bytes,
the validator does not accept it, and the pool refuses a transfer to the contract that has it. -/
theorem generated_refused :
    ∃ addr, newLigoScriptAddr plainAddressLibs addressPrefix [4, 1] = .ok addr ∧
      addr.length = 32 ∧ validateLigoAddr addr = false ∧
      createAddress plainAddressLibs addressPrefix [4] 1 = .ok addr ∧
      recipientValid (some addr) = false := by
  refine ⟨_, rfl, ?_, ?_, ?_, ?_⟩ <;> decide +kernel

end Address
end LigoChain
