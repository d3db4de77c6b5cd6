import Hemvm.Aptos.Authenticator

/-! Signed transactions of the Aptos side and their conversion from Ethereum transactions
(`types/src/transaction/mod.rs`): the transaction an Ethereum client submits becomes a raw
transaction with a secp256k1 authenticator, and can be read back as the Ethereum transaction. -/
namespace Hemvm.Aptos
open Codec Control Primitives

/-- `SignedTransaction`; the size cache and the transaction type are read by no modelled
function. -/
structure SignedTransaction where
  rawTxn : RawTransaction
  authenticator : TransactionAuthenticator
deriving DecidableEq

namespace SignedTransaction

/-- `SignedTransaction::check_signature`. -/
def checkSignature (rlp : Rlp.Codec) (ac : AptosCrypto) (crypto : Crypto) (t : SignedTransaction) :
    Except String SignedTransaction :=
  t.authenticator.verify rlp ac crypto t.rawTxn >>= fun () => .ok t

/-- `SignedTransaction::eth_transaction`: the Ethereum transaction with the authenticator's
signature, hashed again. -/
def ethTransaction (rlp : Rlp.Codec) (keccak : List UInt8 → H256) (t : SignedTransaction) :
    Option TransactionWithSignature :=
  match t.rawTxn.ethTransaction with
  | none => none
  | some rawEthTx =>
    match t.authenticator with
    | .secp256k1 signature _ => some (rawEthTx.withSignature rlp keccak signature)
    | _ => none

/-- `u64::MAX`, the expiration time of a converted transaction. -/
def u64Max : UInt64 := 18446744073709551615

/-- `TryFrom<EthTransaction> for SignedTransaction`: the sender is the address of the recovered
key, the nonce and the gas fields are narrowed by `as_u64` and the chain id by `as u8`. -/
def tryFrom (rlp : Rlp.Codec) (crypto : Crypto) (ethTx : TransactionWithSignature) :
    Except String SignedTransaction :=
  match ethTx.recoverPublic rlp crypto with
  | none => .error "recover_public error"
  | some publicKey =>
    let unsigned := ethTx.transaction.unsigned
    let aptosSender := ethAddressToAptosAddress (ethPublicToAddress crypto.keccak publicKey)
    let payload : EthTransactionPayload :=
      ⟨unsigned.value, .ofEthAction unsigned.action, unsigned.data⟩
    U256.asU64 unsigned.nonce >>= fun nonce =>
    U256.asU64 unsigned.gas >>= fun gas =>
    U256.asU64 unsigned.gasPrice >>= fun gasPrice =>
    -- `FIXME(lpl): Check chain_id somewhere because it panics with 0.`
    ChainId.new (unsigned.chainId.getD ChainId.test.id.toUInt32).toUInt8 >>= fun chainId =>
    .ok { rawTxn := .newEth aptosSender nonce payload gas gasPrice u64Max chainId,
          authenticator := .secp256k1 ethTx.signature publicKey }

theorem toUInt32_toUInt8_of_le {c : UInt32} (h : c ≤ 255) : c.toUInt8.toUInt32 = c := by
  rw [UInt32.le_iff_toNat_le] at h
  apply UInt32.toNat_inj.mp
  simp at h ⊢
  omega

theorem chainId_new_toUInt8 {c : UInt32} (h1 : 1 ≤ c) (h255 : c ≤ 255) :
    ChainId.new c.toUInt8 = .ok ⟨c.toUInt8⟩ := by
  apply ChainId.new_of_pos
  rw [UInt32.le_iff_toNat_le] at h1 h255
  rw [UInt8.lt_iff_toNat_lt]
  simp at h1 h255 ⊢
  omega

section Conversion

variable {rlp : Rlp.Codec} {crypto : Crypto} {t : TransactionWithSignature} {publicKey : Public}
  {c : UInt32}

/-- The transaction the conversion builds when nothing overflows and the chain id is a
nonzero byte. -/
theorem tryFrom_eq_ok (hpk : t.recoverPublic rlp crypto = some publicKey)
    (hnonce : t.transaction.unsigned.nonce.val < 2 ^ 64)
    (hgas : t.transaction.unsigned.gas.val < 2 ^ 64)
    (hprice : t.transaction.unsigned.gasPrice.val < 2 ^ 64)
    (hchain : t.transaction.unsigned.chainId = some c) (hc1 : 1 ≤ c) (hc255 : c ≤ 255) :
    tryFrom rlp crypto t = .ok
      { rawTxn := .newEth (TransactionAuthenticator.ethSender crypto publicKey)
          (UInt64.ofNat t.transaction.unsigned.nonce.val)
          ⟨t.transaction.unsigned.value, .ofEthAction t.transaction.unsigned.action,
            t.transaction.unsigned.data⟩
          (UInt64.ofNat t.transaction.unsigned.gas.val)
          (UInt64.ofNat t.transaction.unsigned.gasPrice.val) u64Max ⟨c.toUInt8⟩,
        authenticator := .secp256k1 t.signature publicKey } := by
  unfold tryFrom
  rw [hpk]
  dsimp only
  rw [U256.asU64_of_lt hnonce, ok_bind, U256.asU64_of_lt hgas, ok_bind, U256.asU64_of_lt hprice,
    ok_bind, hchain, Option.getD_some, chainId_new_toUInt8 hc1 hc255, ok_bind]
  rfl

/-- The raw transaction the conversion builds carries exactly the unsigned Ethereum
transaction. -/
theorem ethTransaction_of_tryFrom {st : SignedTransaction} (ht : tryFrom rlp crypto t = .ok st)
    (hpk : t.recoverPublic rlp crypto = some publicKey)
    (hnonce : t.transaction.unsigned.nonce.val < 2 ^ 64)
    (hgas : t.transaction.unsigned.gas.val < 2 ^ 64)
    (hprice : t.transaction.unsigned.gasPrice.val < 2 ^ 64)
    (hchain : t.transaction.unsigned.chainId = some c) (hc1 : 1 ≤ c) (hc255 : c ≤ 255) :
    st.rawTxn.ethTransaction = some t.transaction.unsigned := by
  rw [tryFrom_eq_ok hpk hnonce hgas hprice hchain hc1 hc255] at ht
  cases ht
  rw [RawTransaction.ethTransaction_newEth, U256.fromU64_ofNat hnonce, U256.fromU64_ofNat hgas,
    U256.fromU64_ofNat hprice, Action.toEthAction_ofEthAction, toUInt32_toUInt8_of_le hc255,
    ← hchain]
  obtain ⟨⟨⟨tx⟩, v, r, s⟩, hash⟩ := t
  rfl

/-- Read back, the converted transaction is the Ethereum transaction itself, hash included,
when that hash is the Keccak-256 digest of the transaction's encoding. -/
theorem ethTransaction_tryFrom {st : SignedTransaction} (ht : tryFrom rlp crypto t = .ok st)
    (hpk : t.recoverPublic rlp crypto = some publicKey)
    (hnonce : t.transaction.unsigned.nonce.val < 2 ^ 64)
    (hgas : t.transaction.unsigned.gas.val < 2 ^ 64)
    (hprice : t.transaction.unsigned.gasPrice.val < 2 ^ 64)
    (hchain : t.transaction.unsigned.chainId = some c) (hc1 : 1 ≤ c) (hc255 : c ≤ 255)
    (hhash : t.hash = crypto.keccak (t.transaction.rlpBytes rlp)) :
    st.ethTransaction rlp crypto.keccak = some t := by
  have hraw := ethTransaction_of_tryFrom ht hpk hnonce hgas hprice hchain hc1 hc255
  rw [tryFrom_eq_ok hpk hnonce hgas hprice hchain hc1 hc255] at ht
  cases ht
  unfold ethTransaction
  rw [hraw]
  dsimp only
  rw [TransactionWithSignature.withSignature_signature, ← hhash]

/-- The secp256k1 authenticator the conversion builds passes `verify` when the signature's `s`
is low and the library behaves as `Crypto.Lawful` says. -/
theorem verify_tryFrom (hcrypto : crypto.Lawful) (ac : AptosCrypto) {st : SignedTransaction}
    (ht : tryFrom rlp crypto t = .ok st) (hpk : t.recoverPublic rlp crypto = some publicKey)
    (hnonce : t.transaction.unsigned.nonce.val < 2 ^ 64)
    (hgas : t.transaction.unsigned.gas.val < 2 ^ 64)
    (hprice : t.transaction.unsigned.gasPrice.val < 2 ^ 64)
    (hchain : t.transaction.unsigned.chainId = some c) (hc1 : 1 ≤ c) (hc255 : c ≤ 255)
    (hv : t.transaction.v ≤ 1) (hlow : t.transaction.s.val ≤ Signature.lowSMask) :
    st.authenticator.verify rlp ac crypto st.rawTxn = .ok () := by
  have hraw := ethTransaction_of_tryFrom ht hpk hnonce hgas hprice hchain hc1 hc255
  rw [tryFrom_eq_ok hpk hnonce hgas hprice hchain hc1 hc255] at ht
  cases ht
  refine TransactionAuthenticator.verify_secp256k1_eq_ok_iff.mpr ⟨rfl, _, hraw, ?_⟩
  -- The signature recovered to the key over the very hash `verify` checks it against.
  have hrec : crypto.recover t.signature (t.transaction.unsigned.signatureHash rlp crypto.keccak) =
      some publicKey := hpk
  obtain ⟨hr1, hrn, hs1, hsn⟩ := hcrypto.recover_range _ _ _ hrec
  have hlowS : t.signature.isLowS = true := by
    simp [Signature.isLowS, hlow]
  have hvalid : t.signature.isValid = true := by
    simp only [TransactionWithSignature.signature_r, TransactionWithSignature.signature_s]
      at hr1 hrn hs1 hsn
    simp [Signature.isValid, hv, hr1, hrn, hs1, hsn]
  exact Secp256k1Signature.verifyArbitraryMsg_eq_ok_iff.mpr
    ⟨hlowS, hvalid, hcrypto.verifyPublic_recover _ _ _ hrec hlowS⟩

/-- With a low-`s` signature, the conversion of an Ethereum transaction whose numbers fit the
raw transaction succeeds, reads back as the same transaction (hash included), and passes
authentication. -/
theorem tryFrom_roundTrip (hcrypto : crypto.Lawful) (ac : AptosCrypto)
    (t : TransactionWithSignature) (publicKey : Public) (c : UInt32)
    (hv : t.transaction.v = 0 ∨ t.transaction.v = 1)
    (hchain : t.transaction.unsigned.chainId = some c) (hc1 : 1 ≤ c) (hc255 : c ≤ 255)
    (hnonce : t.transaction.unsigned.nonce.val < 2 ^ 64)
    (hgas : t.transaction.unsigned.gas.val < 2 ^ 64)
    (hprice : t.transaction.unsigned.gasPrice.val < 2 ^ 64)
    (hlow : t.transaction.s.val ≤ Signature.lowSMask)
    (hhash : t.hash = crypto.keccak (t.transaction.rlpBytes rlp))
    (hpk : t.recoverPublic rlp crypto = some publicKey) :
    ∃ st, tryFrom rlp crypto t = .ok st ∧ st.rawTxn.ethTransaction = some t.transaction.unsigned ∧
      st.ethTransaction rlp crypto.keccak = some t ∧
      st.authenticator.verify rlp ac crypto st.rawTxn = .ok () := by
  have hv' : t.transaction.v ≤ 1 := by
    rcases hv with h | h <;> rw [h] <;> decide
  have ht := tryFrom_eq_ok hpk hnonce hgas hprice hchain hc1 hc255
  exact ⟨_, ht, ethTransaction_of_tryFrom ht hpk hnonce hgas hprice hchain hc1 hc255,
    ethTransaction_tryFrom ht hpk hnonce hgas hprice hchain hc1 hc255 hhash,
    verify_tryFrom hcrypto ac ht hpk hnonce hgas hprice hchain hc1 hc255 hv' hlow⟩

/-- A high `s` fails `check_malleability`, whatever the library answers. -/
theorem verify_tryFrom_of_highS (ac : AptosCrypto) {st : SignedTransaction}
    (ht : tryFrom rlp crypto t = .ok st) (hpk : t.recoverPublic rlp crypto = some publicKey)
    (hnonce : t.transaction.unsigned.nonce.val < 2 ^ 64)
    (hgas : t.transaction.unsigned.gas.val < 2 ^ 64)
    (hprice : t.transaction.unsigned.gasPrice.val < 2 ^ 64)
    (hchain : t.transaction.unsigned.chainId = some c) (hc1 : 1 ≤ c) (hc255 : c ≤ 255)
    (hhigh : Signature.lowSMask < t.transaction.s.val) :
    st.authenticator.verify rlp ac crypto st.rawTxn ≠ .ok () := by
  rw [tryFrom_eq_ok hpk hnonce hgas hprice hchain hc1 hc255] at ht
  cases ht
  intro hver
  obtain ⟨-, _, -, hmsg⟩ := TransactionAuthenticator.verify_secp256k1_eq_ok_iff.mp hver
  have hlowS := (Secp256k1Signature.verifyArbitraryMsg_eq_ok_iff.mp hmsg).1
  simp only [Signature.isLowS, TransactionWithSignature.signature_s, decide_eq_true_eq] at hlowS
  omega

end Conversion

section Samples

open Rlp.Reference (codec)

/-- A stand-in for the secp256k1 library on the sample inputs: each signature with `r` and `s`
in range recovers to one fixed key, which verifies the low-`s` ones; the digest is constant. -/
def sampleKey : Public := ⟨List.replicate 64 7, by simp⟩

def inRange (sig : Signature) : Bool :=
  1 ≤ ofBeBytes sig.r && ofBeBytes sig.r < Signature.curveOrder && 1 ≤ ofBeBytes sig.s &&
    ofBeBytes sig.s < Signature.curveOrder

def sampleCrypto : Crypto where
  keccak _ := H256.zero
  recover sig _ := if inRange sig then some sampleKey else none
  verifyPublic pk sig _ := inRange sig && pk == sampleKey && sig.isLowS

theorem sampleCrypto_lawful : sampleCrypto.Lawful where
  recover_range sig msg pk h := by
    simp only [sampleCrypto] at h
    split at h
    · case isTrue hr =>
      simp only [inRange, Bool.and_eq_true, decide_eq_true_eq] at hr
      obtain ⟨⟨⟨hr1, hrn⟩, hs1⟩, hsn⟩ := hr
      exact ⟨hr1, hrn, hs1, hsn⟩
    · case isFalse => cases h
  verifyPublic_recover sig msg pk h hlow := by
    simp only [sampleCrypto] at h ⊢
    split at h
    · case isTrue hr =>
      cases h
      simp [hr, hlow]
    · case isFalse => cases h

/-- Ed25519 verification that accepts everything: the samples carry no Ed25519 signature. -/
def sampleAptosCrypto : AptosCrypto := ⟨fun _ _ _ => .ok (), fun _ _ _ => .ok ()⟩

/-- A signed creation transaction on chain 1, with `r` the x-coordinate of the generator. -/
def sampleSigned (s : U256) : TransactionWithSignature :=
  let tx : Eip155Transaction :=
    { nonce := 1, gasPrice := 2, gas := 21000, action := .create, value := 0,
      chainId := some 1, data := [] }
  let part : TransactionWithSignatureSerializePart :=
    { unsigned := .ethereum tx, v := 0,
      r := 0x79BE667EF9DCBBAC55A06295CE870B07029BFCDB2DCE28D959F2815B16F81798, s := s }
  TransactionWithSignature.computeHash codec sampleCrypto.keccak
    { transaction := part, hash := H256.zero }

theorem recoverPublic_sampleSigned_one :
    (sampleSigned 1).recoverPublic codec sampleCrypto = some sampleKey := by
  decide

theorem tryFrom_roundTrip_sampleSigned :
    sampleCrypto.Lawful ∧
      ((sampleSigned 1).transaction.v = 0 ∨ (sampleSigned 1).transaction.v = 1) ∧
      (sampleSigned 1).transaction.unsigned.chainId = some 1 ∧ (1 : UInt32) ≤ 1 ∧ (1 : UInt32) ≤ 255 ∧
      (sampleSigned 1).transaction.unsigned.nonce.val < 2 ^ 64 ∧
      (sampleSigned 1).transaction.unsigned.gas.val < 2 ^ 64 ∧
      (sampleSigned 1).transaction.unsigned.gasPrice.val < 2 ^ 64 ∧
      (sampleSigned 1).transaction.s.val ≤ Signature.lowSMask ∧
      (sampleSigned 1).hash = sampleCrypto.keccak ((sampleSigned 1).transaction.rlpBytes codec) ∧
      (sampleSigned 1).recoverPublic codec sampleCrypto = some sampleKey ∧
      ∃ st, tryFrom codec sampleCrypto (sampleSigned 1) = .ok st ∧
        st.rawTxn.ethTransaction = some (sampleSigned 1).transaction.unsigned ∧
        st.ethTransaction codec sampleCrypto.keccak = some (sampleSigned 1) ∧
        st.authenticator.verify codec sampleAptosCrypto sampleCrypto st.rawTxn = .ok () :=
  ⟨sampleCrypto_lawful, by decide, rfl, by decide, by decide, by decide, by decide, by decide,
    by decide, rfl, recoverPublic_sampleSigned_one,
    tryFrom_roundTrip sampleCrypto_lawful sampleAptosCrypto (sampleSigned 1) sampleKey 1
      (by decide) rfl (by decide) (by decide) (by decide) (by decide) (by decide) (by decide) rfl
      recoverPublic_sampleSigned_one⟩

/-- The smallest high `s`: one above half the group order. -/
def highS : U256 := 0x7FFFFFFFFFFFFFFFFFFFFFFFFFFFFFFF5D576E7357A4501DDFE92F46681B20A1

theorem recoverPublic_sampleSigned_highS :
    (sampleSigned highS).recoverPublic codec sampleCrypto = some sampleKey := by
  decide

/-- Without the low-`s` condition the round trip fails: under a lawful library and the format's
RLP, a transaction with a high `s` converts, but its authenticator does not pass `verify`. -/
theorem tryFrom_roundTrip_highS :
    ¬ ∀ (crypto : Crypto), crypto.Lawful → ∀ (ac : AptosCrypto) (t : TransactionWithSignature)
        (publicKey : Public) (c : UInt32), (t.transaction.v = 0 ∨ t.transaction.v = 1) →
        t.transaction.unsigned.chainId = some c → 1 ≤ c → c ≤ 255 →
        t.transaction.unsigned.nonce.val < 2 ^ 64 → t.transaction.unsigned.gas.val < 2 ^ 64 →
        t.transaction.unsigned.gasPrice.val < 2 ^ 64 →
        t.hash = crypto.keccak (t.transaction.rlpBytes codec) →
        t.recoverPublic codec crypto = some publicKey →
        ∃ st, tryFrom codec crypto t = .ok st ∧
          st.rawTxn.ethTransaction = some t.transaction.unsigned ∧
          st.ethTransaction codec crypto.keccak = some t ∧
          st.authenticator.verify codec ac crypto st.rawTxn = .ok () := by
  intro h
  obtain ⟨st, hst, -, -, hver⟩ := h sampleCrypto sampleCrypto_lawful sampleAptosCrypto
    (sampleSigned highS) sampleKey 1 (by decide) rfl (by decide) (by decide) (by decide)
    (by decide) (by decide) rfl recoverPublic_sampleSigned_highS
  exact verify_tryFrom_of_highS sampleAptosCrypto hst recoverPublic_sampleSigned_highS
    (by decide) (by decide) (by decide) rfl (by decide) (by decide) (by decide) hver

end Samples

end SignedTransaction

end Hemvm.Aptos
