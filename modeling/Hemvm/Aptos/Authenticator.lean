import Hemvm.Aptos.RawTransaction
import Hemvm.Crypto

/-! Transaction authentication (`types/src/transaction/authenticator.rs`), with the secp256k1
checks it calls (`crates/aptos-crypto/src/secp256k1.rs`). The verification of the Ed25519
schemes, upstream cryptography, enters as a parameter, and so does the RLP crate, over whose
encoding the signature hash of an Ethereum transaction is taken. -/
namespace Hemvm.Aptos
open Codec Control

abbrev Ed25519PublicKey := FixedBytes 32
abbrev Ed25519Signature := FixedBytes 64

/-- `MultiEd25519PublicKey`: the keys and the threshold. -/
structure MultiEd25519PublicKey where
  publicKeys : List Ed25519PublicKey
  threshold : UInt8
deriving DecidableEq

/-- `MultiEd25519Signature`: the signatures and the bitmap of the keys that made them. -/
structure MultiEd25519Signature where
  signatures : List Ed25519Signature
  bitmap : FixedBytes 4
deriving DecidableEq

/-- `Secp256k1PublicKey` wraps a `cfxkey::Public`, `Secp256k1Signature` a `cfxkey::Signature`. -/
abbrev Secp256k1PublicKey := Public
abbrev Secp256k1Signature := Signature

/-- The messages handed to `Signature::verify`, which is generic over the message type and
hashes it under that type's seed. -/
inductive SigningMessage where
  | rawTransaction (txn : RawTransaction)
  | rawTransactionWithData (txn : RawTransactionWithData)
deriving DecidableEq

/-- `Signature::verify` of the Ed25519 and MultiEd25519 schemes, each reduced to its result. -/
structure AptosCrypto where
  ed25519Verify : Ed25519Signature → SigningMessage → Ed25519PublicKey → Except String Unit
  multiEd25519Verify :
    MultiEd25519Signature → SigningMessage → MultiEd25519PublicKey → Except String Unit

namespace Secp256k1Signature

/-- `check_malleability`; the length check of `from_bytes_unchecked` holds of sixty-five bytes. -/
def checkMalleability (sig : Secp256k1Signature) : Except String Unit :=
  if !sig.isLowS || !sig.isValid then .error "CanonicalRepresentationError" else .ok ()

/-- `Secp256k1Signature::verify_arbitrary_msg`. -/
def verifyArbitraryMsg (crypto : Crypto) (sig : Secp256k1Signature) (message : H256)
    (publicKey : Secp256k1PublicKey) : Except String Unit :=
  checkMalleability sig >>= fun () =>
    if crypto.verifyPublic publicKey sig message then .ok () else .error "Incorrect signature"

/-- The `Signature` trait's `verify` for secp256k1, which refuses every message. -/
def verify (_sig : Secp256k1Signature) (_message : SigningMessage)
    (_publicKey : Secp256k1PublicKey) : Except String Unit :=
  .error "secp256k1 is not used to sign CryptoHash messages"

theorem verifyArbitraryMsg_eq_ok_iff {crypto : Crypto} {sig : Secp256k1Signature} {message : H256}
    {publicKey : Secp256k1PublicKey} :
    verifyArbitraryMsg crypto sig message publicKey = .ok () ↔
      sig.isLowS = true ∧ sig.isValid = true ∧ crypto.verifyPublic publicKey sig message = true := by
  unfold verifyArbitraryMsg checkMalleability
  by_cases hlow : sig.isLowS <;> by_cases hvalid : sig.isValid <;>
    by_cases hver : crypto.verifyPublic publicKey sig message <;> simp [hlow, hvalid, hver]

end Secp256k1Signature

inductive AccountAuthenticator where
  | ed25519 (publicKey : Ed25519PublicKey) (signature : Ed25519Signature)
  | multiEd25519 (publicKey : MultiEd25519PublicKey) (signature : MultiEd25519Signature)
  | secp256k1 (publicKey : Secp256k1PublicKey) (signature : Secp256k1Signature)
deriving DecidableEq

namespace AccountAuthenticator

def numberOfSignatures : AccountAuthenticator → Nat
  | .ed25519 .. => 1
  | .multiEd25519 _ signature => signature.signatures.length
  | .secp256k1 .. => 1

/-- `AccountAuthenticator::verify`. -/
def verify (ac : AptosCrypto) (auth : AccountAuthenticator) (message : SigningMessage) :
    Except String Unit :=
  match auth with
  | .ed25519 publicKey signature => ac.ed25519Verify signature message publicKey
  | .multiEd25519 publicKey signature => ac.multiEd25519Verify signature message publicKey
  -- The source's arm is `Ok(())` under `FIXME(lpl): Check if it's possible to unmatch.`
  | .secp256k1 .. => .ok ()

/-- The scheme's own `Signature::verify` on the authenticator's key and signature: what the
docstring of `verify` ("Ok if the authenticator's public key matches its signature") asks. -/
def signatureVerify (ac : AptosCrypto) (auth : AccountAuthenticator) (message : SigningMessage) :
    Except String Unit :=
  match auth with
  | .ed25519 publicKey signature => ac.ed25519Verify signature message publicKey
  | .multiEd25519 publicKey signature => ac.multiEd25519Verify signature message publicKey
  | .secp256k1 publicKey signature => Secp256k1Signature.verify signature message publicKey

def IsSecp256k1 : AccountAuthenticator → Prop
  | .secp256k1 .. => True
  | _ => False

/-- The two checks differ on the secp256k1 arm only. -/
theorem verify_eq_signatureVerify {auth : AccountAuthenticator} (h : ¬ auth.IsSecp256k1)
    (ac : AptosCrypto) (message : SigningMessage) :
    auth.verify ac message = auth.signatureVerify ac message := by
  cases auth with
  | ed25519 publicKey signature => rfl
  | multiEd25519 publicKey signature => rfl
  | secp256k1 publicKey signature => exact absurd trivial h

theorem signatureVerify_secp256k1_ne_ok (ac : AptosCrypto) (publicKey : Secp256k1PublicKey)
    (signature : Secp256k1Signature) (message : SigningMessage) :
    (secp256k1 publicKey signature).signatureVerify ac message ≠ .ok () := by
  simp [signatureVerify, Secp256k1Signature.verify]

end AccountAuthenticator

/-- `MAX_NUM_OF_SIGS`. -/
def maxNumOfSigs : Nat := 32

inductive TransactionAuthenticator where
  | ed25519 (publicKey : Ed25519PublicKey) (signature : Ed25519Signature)
  | multiEd25519 (publicKey : MultiEd25519PublicKey) (signature : MultiEd25519Signature)
  | multiAgent (sender : AccountAuthenticator) (secondarySignerAddresses : List AccountAddress)
      (secondarySigners : List AccountAuthenticator)
  | secp256k1 (signature : Secp256k1Signature) (publicKey : Secp256k1PublicKey)
deriving DecidableEq

namespace TransactionAuthenticator

def sender : TransactionAuthenticator → AccountAuthenticator
  | .ed25519 publicKey signature => .ed25519 publicKey signature
  | .multiEd25519 publicKey signature => .multiEd25519 publicKey signature
  | .multiAgent sender .. => sender
  | .secp256k1 signature publicKey => .secp256k1 publicKey signature

def secondarySigners : TransactionAuthenticator → List AccountAuthenticator
  | .multiAgent _ _ secondarySigners => secondarySigners
  | _ => []

/-- The signatures counted against `MAX_NUM_OF_SIGS`. -/
def numSigs (auth : TransactionAuthenticator) : Nat :=
  auth.sender.numberOfSignatures + (auth.secondarySigners.map (·.numberOfSignatures)).sum

/-- The Ethereum sender a secp256k1 key stands for, as an account address. -/
def ethSender (crypto : Crypto) (publicKey : Secp256k1PublicKey) : AccountAddress :=
  ethAddressToAptosAddress (ethPublicToAddress crypto.keccak publicKey)

/-- `TransactionAuthenticator::verify`. -/
def verify (rlp : Rlp.Codec) (ac : AptosCrypto) (crypto : Crypto) (auth : TransactionAuthenticator)
    (rawTxn : RawTransaction) : Except String Unit :=
  if maxNumOfSigs < auth.numSigs then .error "MaxSignaturesExceeded" else
  match auth with
  | .ed25519 publicKey signature => ac.ed25519Verify signature (.rawTransaction rawTxn) publicKey
  | .multiEd25519 publicKey signature =>
    ac.multiEd25519Verify signature (.rawTransaction rawTxn) publicKey
  | .multiAgent sender secondarySignerAddresses secondarySigners =>
    let message := SigningMessage.rawTransactionWithData (.multiAgent rawTxn secondarySignerAddresses)
    sender.verify ac message >>= fun () =>
      forM secondarySigners fun signer => signer.verify ac message
  | .secp256k1 signature publicKey =>
    -- No key rotation on the Ethereum side: the sender must be the key's own address.
    if rawTxn.sender ≠ ethSender crypto publicKey then .error "eth tx sender and public key unmatch"
    else match rawTxn.ethTransaction with
      | none => .error "secp256k1 signature with wrong tx type"
      | some ethRawTx =>
        Secp256k1Signature.verifyArbitraryMsg crypto signature
          (ethRawTx.signatureHash rlp crypto.keccak) publicKey

/-- What authentication is meant to establish: every signer the authenticator names (the
sender, and each secondary signer of a multi-agent transaction) holds a signature that its
scheme accepts over that signer's message; for an Ethereum transaction, the signature is
valid for the key over the transaction's signature hash and the key owns the sender. -/
def Authorized (rlp : Rlp.Codec) (ac : AptosCrypto) (crypto : Crypto)
    (auth : TransactionAuthenticator) (rawTxn : RawTransaction) : Prop :=
  match auth with
  | .ed25519 publicKey signature => ac.ed25519Verify signature (.rawTransaction rawTxn) publicKey = .ok ()
  | .multiEd25519 publicKey signature =>
    ac.multiEd25519Verify signature (.rawTransaction rawTxn) publicKey = .ok ()
  | .multiAgent sender secondarySignerAddresses secondarySigners =>
    let message := SigningMessage.rawTransactionWithData (.multiAgent rawTxn secondarySignerAddresses)
    sender.signatureVerify ac message = .ok () ∧
      ∀ signer ∈ secondarySigners, signer.signatureVerify ac message = .ok ()
  | .secp256k1 signature publicKey =>
    rawTxn.sender = ethSender crypto publicKey ∧
      ∃ ethRawTx, rawTxn.ethTransaction = some ethRawTx ∧
        crypto.verifyPublic publicKey signature (ethRawTx.signatureHash rlp crypto.keccak) = true

/-- No account-level authenticator of a multi-agent transaction is a secp256k1 one. -/
def NoAccountSecp256k1 : TransactionAuthenticator → Prop
  | .multiAgent sender _ secondarySigners =>
    ¬ sender.IsSecp256k1 ∧ ∀ signer ∈ secondarySigners, ¬ signer.IsSecp256k1
  | _ => True

variable {rlp : Rlp.Codec} {ac : AptosCrypto} {crypto : Crypto} {rawTxn : RawTransaction}

theorem numSigs_le_of_verify {auth : TransactionAuthenticator}
    (h : auth.verify rlp ac crypto rawTxn = .ok ()) : auth.numSigs ≤ maxNumOfSigs := by
  unfold verify at h
  by_cases hn : maxNumOfSigs < auth.numSigs
  · rw [if_pos hn] at h
    cases h
  · exact Nat.le_of_not_lt hn

theorem verify_ed25519 (publicKey : Ed25519PublicKey) (signature : Ed25519Signature) :
    (ed25519 publicKey signature).verify rlp ac crypto rawTxn =
      ac.ed25519Verify signature (.rawTransaction rawTxn) publicKey := rfl

theorem verify_multiEd25519_eq_ok_iff {publicKey : MultiEd25519PublicKey}
    {signature : MultiEd25519Signature} :
    (multiEd25519 publicKey signature).verify rlp ac crypto rawTxn = .ok () ↔
      signature.signatures.length ≤ maxNumOfSigs ∧
        ac.multiEd25519Verify signature (.rawTransaction rawTxn) publicKey = .ok () := by
  have hn : (multiEd25519 publicKey signature).numSigs = signature.signatures.length := by
    simp [numSigs, sender, secondarySigners, AccountAuthenticator.numberOfSignatures]
  unfold verify
  rw [hn]
  by_cases hlt : maxNumOfSigs < signature.signatures.length
  · simp only [if_pos hlt, reduceCtorEq, false_iff, not_and]
    intro hle
    omega
  · simp only [if_neg hlt]
    exact ⟨fun h => ⟨Nat.le_of_not_lt hlt, h⟩, And.right⟩

/-- A multi-agent transaction passes when the count is within bounds and the sender and every
secondary signer pass `AccountAuthenticator::verify` over the multi-agent message. -/
theorem verify_multiAgent_eq_ok_iff {sender : AccountAuthenticator}
    {secondarySignerAddresses : List AccountAddress} {secondarySigners : List AccountAuthenticator} :
    (multiAgent sender secondarySignerAddresses secondarySigners).verify rlp ac crypto rawTxn = .ok () ↔
      (multiAgent sender secondarySignerAddresses secondarySigners).numSigs ≤ maxNumOfSigs ∧
        sender.verify ac (.rawTransactionWithData (.multiAgent rawTxn secondarySignerAddresses)) =
          .ok () ∧
        ∀ signer ∈ secondarySigners,
          signer.verify ac (.rawTransactionWithData (.multiAgent rawTxn secondarySignerAddresses)) =
            .ok () := by
  unfold verify
  by_cases hlt : maxNumOfSigs < (multiAgent sender secondarySignerAddresses secondarySigners).numSigs
  · simp only [if_pos hlt, reduceCtorEq, false_iff, not_and]
    intro hle
    omega
  · simp only [if_neg hlt, bind_eq_ok_iff, forM_eq_ok_iff]
    constructor
    · rintro ⟨⟨⟩, hs, hss⟩
      exact ⟨Nat.le_of_not_lt hlt, hs, hss⟩
    · rintro ⟨-, hs, hss⟩
      exact ⟨(), hs, hss⟩

/-- An Ethereum transaction passes when its sender is the key's address, it carries an Ethereum
payload, and the signature passes `verify_arbitrary_msg` over its signature hash. -/
theorem verify_secp256k1_eq_ok_iff {signature : Secp256k1Signature}
    {publicKey : Secp256k1PublicKey} :
    (secp256k1 signature publicKey).verify rlp ac crypto rawTxn = .ok () ↔
      rawTxn.sender = ethSender crypto publicKey ∧
        ∃ ethRawTx, rawTxn.ethTransaction = some ethRawTx ∧
          Secp256k1Signature.verifyArbitraryMsg crypto signature
            (ethRawTx.signatureHash rlp crypto.keccak) publicKey = .ok () := by
  have hn : ¬ maxNumOfSigs < (secp256k1 signature publicKey).numSigs := by
    simp [numSigs, sender, secondarySigners, AccountAuthenticator.numberOfSignatures,
      maxNumOfSigs]
  unfold verify
  rw [if_neg hn]
  by_cases hs : rawTxn.sender = ethSender crypto publicKey
  · simp only [hs, ne_eq, not_true_eq_false, if_false, true_and]
    cases rawTxn.ethTransaction with
    | none => simp
    | some ethRawTx => simp
  · simp [hs]

/-- Where no account-level authenticator is a secp256k1 one, a passing check authorises the
transaction: every signer it names is covered by a signature its scheme accepts. -/
theorem authorized_of_verify {auth : TransactionAuthenticator} (hs : auth.NoAccountSecp256k1)
    (h : auth.verify rlp ac crypto rawTxn = .ok ()) : auth.Authorized rlp ac crypto rawTxn := by
  cases auth with
  | ed25519 publicKey signature =>
    rw [verify_ed25519] at h
    exact h
  | multiEd25519 publicKey signature => exact (verify_multiEd25519_eq_ok_iff.mp h).2
  | multiAgent sender secondarySignerAddresses secondarySigners =>
    obtain ⟨hsender, hsigners⟩ := hs
    obtain ⟨-, hv, hvs⟩ := verify_multiAgent_eq_ok_iff.mp h
    refine ⟨?_, fun signer hmem => ?_⟩
    · rw [← AccountAuthenticator.verify_eq_signatureVerify hsender]
      exact hv
    · rw [← AccountAuthenticator.verify_eq_signatureVerify (hsigners signer hmem)]
      exact hvs signer hmem
  | secp256k1 signature publicKey =>
    obtain ⟨hsender, ethRawTx, htx, hver⟩ := verify_secp256k1_eq_ok_iff.mp h
    exact ⟨hsender, ethRawTx, htx, (Secp256k1Signature.verifyArbitraryMsg_eq_ok_iff.mp hver).2.2⟩

/-- A multi-agent transaction whose sender is a secp256k1 authenticator passes the check
whatever its signature, although no secp256k1 signature is valid over a multi-agent message. -/
theorem verify_multiAgent_secp256k1_sender (rlp : Rlp.Codec) (ac : AptosCrypto) (crypto : Crypto)
    (rawTxn : RawTransaction) (publicKey : Secp256k1PublicKey) (signature : Secp256k1Signature)
    (secondarySignerAddresses : List AccountAddress) :
    (multiAgent (.secp256k1 publicKey signature) secondarySignerAddresses []).verify rlp ac crypto
        rawTxn = .ok () ∧
      ¬ (multiAgent (.secp256k1 publicKey signature) secondarySignerAddresses []).Authorized rlp
        ac crypto rawTxn := by
  have hcount :
      (multiAgent (.secp256k1 publicKey signature) secondarySignerAddresses []).numSigs ≤
        maxNumOfSigs := by
    simp [numSigs, sender, secondarySigners, AccountAuthenticator.numberOfSignatures, maxNumOfSigs]
  refine ⟨verify_multiAgent_eq_ok_iff.mpr ⟨hcount, rfl, fun _ hmem => absurd hmem List.not_mem_nil⟩,
    ?_⟩
  rintro ⟨hsender, -⟩
  exact AccountAuthenticator.signatureVerify_secp256k1_ne_ok ac publicKey signature _ hsender

end TransactionAuthenticator

end Hemvm.Aptos
