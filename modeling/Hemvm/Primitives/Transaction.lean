import Hemvm.Codec.Rlp
import Hemvm.Crypto

/-! Ethereum transactions of the EVM side (`cfx-evm/utils/primitives/src/transaction.rs`):
their RLP encodings, over the RLP crate as a parameter, the EIP-155 folding of the chain id into
`v`, signing and recovery. -/
namespace Hemvm.Primitives
open Codec Control Rlp

inductive Action where
  | create
  | call (address : Address)
deriving DecidableEq

structure Eip155Transaction where
  nonce : U256
  gasPrice : U256
  gas : U256
  action : Action
  value : U256
  chainId : Option UInt32
  data : List UInt8
deriving DecidableEq

inductive Transaction where
  | ethereum (tx : Eip155Transaction)
deriving DecidableEq

/-- The signed part that is serialized; `v` is the bare recovery id. -/
structure TransactionWithSignatureSerializePart where
  unsigned : Transaction
  v : UInt8
  r : U256
  s : U256
deriving DecidableEq

/-- A signed transaction and its hash; the `rlp_size` cache is read by no modelled function. -/
structure TransactionWithSignature where
  transaction : TransactionWithSignatureSerializePart
  hash : H256

/-! `eip155_signature`: how the chain id is folded into the `v` of a signature. -/
namespace Eip155Signature

def addChainReplayProtection (v : UInt8) (chainId : Option UInt64) : UInt64 :=
  v.toUInt64 + match chainId with
    | some n => 35 + n * 2
    | none => 27

def extractStandardV (v : UInt64) : UInt8 :=
  if v = 27 then 0
  else if v = 28 then 1
  else if 35 ≤ v then ((v - 1) % 2).toUInt8
  else 4

def extractChainIdFromLegacyV (v : UInt64) : Option UInt64 :=
  if 35 ≤ v then some ((v - 35) / 2) else none

variable {x : UInt64} {v : UInt8}

theorem toNat_addChainReplayProtection_some (v : UInt8) (c : UInt32) :
    (addChainReplayProtection v (some c.toUInt64)).toNat = v.toNat + 35 + 2 * c.toNat := by
  have hv := v.toNat_lt
  have hc := c.toNat_lt
  simp [addChainReplayProtection, UInt64.toNat_add, UInt64.toNat_mul]
  omega

theorem toNat_addChainReplayProtection_none (v : UInt8) :
    (addChainReplayProtection v none).toNat = v.toNat + 27 := by
  have hv := v.toNat_lt
  simp [addChainReplayProtection, UInt64.toNat_add]
  omega

theorem extractStandardV_of_ge (h : 35 ≤ x.toNat) :
    (extractStandardV x).toNat = (x.toNat - 1) % 2 := by
  have h27 : x ≠ 27 := by intro he; simp [he] at h
  have h28 : x ≠ 28 := by intro he; simp [he] at h
  have h35 : (35 : UInt64) ≤ x := by simpa [UInt64.le_iff_toNat_le] using h
  have h1 : (1 : UInt64) ≤ x := by simp [UInt64.le_iff_toNat_le]; omega
  rw [extractStandardV, if_neg h27, if_neg h28, if_pos h35]
  simp [UInt64.toNat_mod, UInt64.toNat_sub_of_le _ _ h1]
  omega

theorem extractStandardV_of_lt (h : x.toNat = 27 ∨ x.toNat = 28) :
    (extractStandardV x).toNat = x.toNat - 27 := by
  rcases h with h | h
  · obtain rfl : x = 27 := UInt64.toNat_inj.mp (by simpa using h)
    decide
  · obtain rfl : x = 28 := UInt64.toNat_inj.mp (by simpa using h)
    decide

theorem extractChainIdFromLegacyV_of_ge (h : 35 ≤ x.toNat) :
    extractChainIdFromLegacyV x = some (UInt64.ofNat ((x.toNat - 35) / 2)) := by
  have h35 : (35 : UInt64) ≤ x := by simpa [UInt64.le_iff_toNat_le] using h
  have hx := x.toNat_lt
  rw [extractChainIdFromLegacyV, if_pos h35]
  congr 1
  apply UInt64.toNat_inj.mp
  simp [UInt64.toNat_div, UInt64.toNat_sub_of_le _ _ h35]
  omega

theorem extractChainIdFromLegacyV_of_lt (h : x.toNat < 35) :
    extractChainIdFromLegacyV x = none := by
  have : ¬ (35 : UInt64) ≤ x := by simp [UInt64.le_iff_toNat_le]; omega
  simp [extractChainIdFromLegacyV, this]

/-- Extraction inverts the folding for a recovery id `0` or `1` and any 32-bit chain id. -/
theorem extractStandardV_addChainReplayProtection (hv : v ≤ 1) (c : Option UInt32) :
    extractStandardV (addChainReplayProtection v (c.map UInt32.toUInt64)) = v := by
  have hv' : v.toNat ≤ 1 := by simpa [UInt8.le_iff_toNat_le] using hv
  apply UInt8.toNat_inj.mp
  cases c with
  | some c =>
    have h := toNat_addChainReplayProtection_some v c
    rw [Option.map_some, extractStandardV_of_ge (by omega), h]
    omega
  | none =>
    have h := toNat_addChainReplayProtection_none v
    rw [Option.map_none, extractStandardV_of_lt (by omega), h]
    omega

theorem extractChainIdFromLegacyV_addChainReplayProtection (hv : v ≤ 1) (c : Option UInt32) :
    extractChainIdFromLegacyV (addChainReplayProtection v (c.map UInt32.toUInt64)) =
      c.map UInt32.toUInt64 := by
  have hv' : v.toNat ≤ 1 := by simpa [UInt8.le_iff_toNat_le] using hv
  cases c with
  | some c =>
    have h := toNat_addChainReplayProtection_some v c
    rw [Option.map_some, extractChainIdFromLegacyV_of_ge (by omega), h]
    congr 1
    apply UInt64.toNat_inj.mp
    have hc := c.toNat_lt
    simp only [UInt64.toNat_ofNat', UInt32.toNat_toUInt64]
    omega
  | none =>
    have h := toNat_addChainReplayProtection_none v
    rw [Option.map_none, extractChainIdFromLegacyV_of_lt (by omega)]

end Eip155Signature

/-! ### RLP encodings -/

section Encodings

variable (rlp : Rlp.Codec)

def encodeU256 (x : U256) : Item := rlp.encodeUint x.val

def decodeU256 (item : Item) : Except DecoderError U256 := (rlp.decodeUint 32 item).map (Fin.ofNat _)

def decodeU64 (item : Item) : Except DecoderError UInt64 := (rlp.decodeUint 8 item).map UInt64.ofNat

/-- `Rlp::val_at`: decodes the element at `index` of a list item. -/
def valAt {α : Type} (item : Item) (index : Nat) (dec : Item → Except DecoderError α) :
    Except DecoderError α :=
  item.atIndex index >>= dec

namespace Action

/-- The empty string for a creation, the address for a call. -/
def rlpAppend : Action → Item
  | .create => .bytes []
  | .call address => rlp.encodeFixed 20 address

def decode (item : Item) : Except DecoderError Action :=
  if item.isEmpty then .ok .create else .call <$> rlp.decodeFixed 20 item

end Action

/-- Without a chain id the six fields; with one, the chain id and two empty strings after. -/
def Eip155Transaction.rlpAppend (tx : Eip155Transaction) : Item :=
  match tx.chainId with
  | some chainId =>
    .list [encodeU256 rlp tx.nonce, encodeU256 rlp tx.gasPrice, encodeU256 rlp tx.gas,
      tx.action.rlpAppend rlp, encodeU256 rlp tx.value, .bytes tx.data,
      rlp.encodeUint chainId.toNat, rlp.encodeUint 0, rlp.encodeUint 0]
  | none =>
    .list [encodeU256 rlp tx.nonce, encodeU256 rlp tx.gasPrice, encodeU256 rlp tx.gas,
      tx.action.rlpAppend rlp, encodeU256 rlp tx.value, .bytes tx.data]

/-- `Transaction::signature_hash`: the Keccak-256 digest of the unsigned transaction's RLP. -/
def Transaction.signatureHash (keccak : List UInt8 → H256) : Transaction → H256
  | .ethereum tx => keccak (rlp.encode (tx.rlpAppend rlp))

end Encodings

/-- `access_common_ref!`: a field read through the one variant of `Transaction`. -/
def Transaction.accessCommonRef {α : Type} (field : Eip155Transaction → α) : Transaction → α
  | .ethereum tx => field tx

@[simp] theorem Transaction.accessCommonRef_ethereum {α : Type} (field : Eip155Transaction → α)
    (tx : Eip155Transaction) : Transaction.accessCommonRef field (.ethereum tx) = field tx := rfl

def Transaction.gas : Transaction → U256 := Transaction.accessCommonRef Eip155Transaction.gas

def Transaction.gasPrice : Transaction → U256 :=
  Transaction.accessCommonRef Eip155Transaction.gasPrice

def Transaction.data : Transaction → List UInt8 :=
  Transaction.accessCommonRef Eip155Transaction.data

def Transaction.nonce : Transaction → U256 := Transaction.accessCommonRef Eip155Transaction.nonce

def Transaction.action : Transaction → Action :=
  Transaction.accessCommonRef Eip155Transaction.action

def Transaction.value : Transaction → U256 := Transaction.accessCommonRef Eip155Transaction.value

def Transaction.chainId : Transaction → Option UInt32
  | .ethereum tx => tx.chainId

namespace TransactionWithSignatureSerializePart
open Eip155Signature

/-- The `v` that is written: the recovery id with the chain id folded in. -/
def legacyV (p : TransactionWithSignatureSerializePart) : UInt64 :=
  addChainReplayProtection p.v (p.unsigned.chainId.map UInt32.toUInt64)

/-- The chain id folded into `legacy_v`, refused when it does not fit 32 bits. -/
def chainIdOfLegacyV (legacyV : UInt64) : Except DecoderError (Option UInt32) :=
  match extractChainIdFromLegacyV legacyV with
  | some chainId =>
    if chainId.toNat > 2 ^ 32 - 1 then .error (.custom "Does not support chain_id >= 2^32")
    else .ok (some chainId.toUInt32)
  | none => .ok none

section Encodings

variable (rlp : Rlp.Codec)

def rlpAppend (p : TransactionWithSignatureSerializePart) : Item :=
  match p.unsigned with
  | .ethereum tx =>
    .list [encodeU256 rlp tx.nonce, encodeU256 rlp tx.gasPrice, encodeU256 rlp tx.gas,
      tx.action.rlpAppend rlp, encodeU256 rlp tx.value, .bytes tx.data,
      rlp.encodeUint p.legacyV.toNat, encodeU256 rlp p.r, encodeU256 rlp p.s]

def decode (item : Item) : Except DecoderError TransactionWithSignatureSerializePart :=
  match item.itemCount with
  | .error e => .error e
  | .ok 9 => do
    let nonce ← valAt item 0 (decodeU256 rlp)
    let gasPrice ← valAt item 1 (decodeU256 rlp)
    let gas ← valAt item 2 (decodeU256 rlp)
    let action ← valAt item 3 (Action.decode rlp)
    let value ← valAt item 4 (decodeU256 rlp)
    let data ← valAt item 5 Item.decodeValue
    let legacyV ← valAt item 6 (decodeU64 rlp)
    let r ← valAt item 7 (decodeU256 rlp)
    let s ← valAt item 8 (decodeU256 rlp)
    let v := extractStandardV legacyV
    let chainId ← chainIdOfLegacyV legacyV
    pure { unsigned := .ethereum { nonce, gasPrice, gas, action, value, chainId, data }, v, r, s }
  | .ok _ => .error .rlpInvalidLength

/-- `rlp::encode`. -/
def rlpBytes (p : TransactionWithSignatureSerializePart) : List UInt8 := rlp.encode (p.rlpAppend rlp)

/-- `rlp::decode`: the item at the head of the bytes, decoded. -/
def decodeBytes (bs : List UInt8) : Except DecoderError TransactionWithSignatureSerializePart :=
  rlp.decode bs >>= fun (item, _) => decode rlp item

end Encodings

section Lawful

variable {rlp : Rlp.Codec} (hrlp : rlp.Lawful) {p : TransactionWithSignatureSerializePart}
include hrlp

theorem decodeU256_encodeU256 (x : U256) : decodeU256 rlp (encodeU256 rlp x) = .ok x := by
  have hx : x.val < 256 ^ 32 := by simp
  simp [decodeU256, encodeU256, hrlp.decodeUint_encodeUint hx, Except.map]

theorem decodeU64_encodeUint (x : UInt64) : decodeU64 rlp (rlp.encodeUint x.toNat) = .ok x := by
  have hx : x.toNat < 256 ^ 8 := by simpa using x.toNat_lt
  simp [decodeU64, hrlp.decodeUint_encodeUint hx, Except.map]

theorem Action.decode_rlpAppend (a : Action) : Action.decode rlp (a.rlpAppend rlp) = .ok a := by
  cases a with
  | create => rfl
  | call address =>
    simp [Action.decode, Action.rlpAppend, hrlp.isEmpty_encodeFixed address (by decide),
      hrlp.decodeFixed_encodeFixed]

omit hrlp in
theorem chainIdOfLegacyV_legacyV (hv : p.v ≤ 1) :
    chainIdOfLegacyV p.legacyV = .ok p.unsigned.chainId := by
  rw [chainIdOfLegacyV, legacyV, extractChainIdFromLegacyV_addChainReplayProtection hv]
  cases p.unsigned.chainId with
  | none => rfl
  | some c =>
    have hc := c.toNat_lt
    simp only [Option.map_some, UInt32.toNat_toUInt64, UInt32.toUInt32_toUInt64]
    rw [if_neg (by omega)]

/-- Field by field, the item `rlp_append` writes decodes back to the transaction. -/
theorem decode_rlpAppend (hv : p.v ≤ 1) : decode rlp (p.rlpAppend rlp) = .ok p := by
  have hstd : extractStandardV p.legacyV = p.v := extractStandardV_addChainReplayProtection hv _
  have hchain := chainIdOfLegacyV_legacyV hv
  rcases p with ⟨⟨tx⟩, v, r, s⟩
  simp only [Transaction.chainId] at hchain
  simp [decode, rlpAppend, Item.itemCount, valAt, Item.atIndex, decodeU256_encodeU256 hrlp,
    Action.decode_rlpAppend hrlp, Item.decodeValue, decodeU64_encodeUint hrlp, hstd, hchain]

end Lawful

/-- The RLP round trip of a signed transaction, for a lawful RLP crate: for a recovery id `0` or
`1`, every chain id a `u32` holds, and an encoding that RLP can frame,
`rlp::decode (rlp::encode p) = p`, since extraction undoes the EIP-155 folding of the chain id
into `v`. -/
theorem decodeBytes_rlpBytes (rlp : Rlp.Codec) (hrlp : rlp.Lawful)
    (p : TransactionWithSignatureSerializePart) (hv : p.v = 0 ∨ p.v = 1)
    (hfit : (p.rlpBytes rlp).length < 2 ^ 64) :
    decodeBytes rlp (p.rlpBytes rlp) = .ok p ∧ extractStandardV p.legacyV = p.v ∧
      extractChainIdFromLegacyV p.legacyV = p.unsigned.chainId.map UInt32.toUInt64 := by
  have hv' : p.v ≤ 1 := by
    rcases hv with h | h <;> rw [h] <;> decide
  refine ⟨?_, extractStandardV_addChainReplayProtection hv' _,
    extractChainIdFromLegacyV_addChainReplayProtection hv' _⟩
  rw [decodeBytes, rlpBytes, hrlp.decode_encode _ hfit, ok_bind]
  exact decode_rlpAppend hrlp hv'

section Reference

open Rlp.Reference

/-- Under the format's encoding, a transaction whose data is a Rust `Vec<u8>`, so fewer than
`2 ^ 63` bytes, is framed. -/
theorem length_rlpBytes_lt {p : TransactionWithSignatureSerializePart}
    (h : p.unsigned.data.length < 2 ^ 63) : (p.rlpBytes codec).length < 2 ^ 64 := by
  rcases p with ⟨⟨tx⟩, v, r, s⟩
  simp only [Transaction.data, Transaction.accessCommonRef_ethereum] at h
  have hu : ∀ x : U256, (encode (encodeU256 codec x)).length ≤ 41 := fun x =>
    length_encode_encodeUint_le (by simp)
  have hlv : (encode (encodeUint (legacyV ⟨.ethereum tx, v, r, s⟩).toNat)).length ≤ 41 :=
    length_encode_encodeUint_le (lt_of_lt_of_le (UInt64.toNat_lt _) (by norm_num))
  have ha : (encode (tx.action.rlpAppend codec)).length ≤ 29 := by
    cases tx.action with
    | create => simp [Action.rlpAppend, encode, encodeBytes, isSingleByte, header]
    | call address =>
      have := length_encode_bytes_le address.bytes (by simp [address.length_eq])
      simpa [Action.rlpAppend, address.length_eq] using this
  have hd := length_encode_bytes_le tx.data (by omega)
  have hpay : (encodeList [encodeU256 codec tx.nonce, encodeU256 codec tx.gasPrice,
      encodeU256 codec tx.gas, tx.action.rlpAppend codec, encodeU256 codec tx.value,
      .bytes tx.data, encodeUint (legacyV ⟨.ethereum tx, v, r, s⟩).toNat, encodeU256 codec r,
      encodeU256 codec s]).length ≤ tx.data.length + 325 := by
    have := hu tx.nonce; have := hu tx.gasPrice; have := hu tx.gas; have := hu tx.value
    have := hu r; have := hu s
    simp only [encodeList, List.length_append, List.length_nil]
    omega
  have hhead := length_header_le 192 _ (lt_of_le_of_lt hpay (by omega))
  simp only [rlpBytes, rlpAppend, codec_encode, codec_encodeUint, encode, List.length_append]
  omega

/-- A contract creation on chain 1 without value, signed with recovery id 1. -/
def sampleCreation : TransactionWithSignatureSerializePart :=
  let tx : Eip155Transaction :=
    { nonce := 1, gasPrice := 2, gas := 21000, action := .create, value := 0,
      chainId := some 1, data := [1, 2, 3] }
  { unsigned := .ethereum tx, v := 1, r := 5, s := 7 }

theorem decodeBytes_rlpBytes_sampleCreation :
    codec.Lawful ∧ (sampleCreation.v = 0 ∨ sampleCreation.v = 1) ∧
      (sampleCreation.rlpBytes codec).length < 2 ^ 64 ∧
      (decodeBytes codec (sampleCreation.rlpBytes codec) = .ok sampleCreation ∧
        extractStandardV sampleCreation.legacyV = sampleCreation.v ∧
        extractChainIdFromLegacyV sampleCreation.legacyV =
          sampleCreation.unsigned.chainId.map UInt32.toUInt64) :=
  have hfit : (sampleCreation.rlpBytes codec).length < 2 ^ 64 := length_rlpBytes_lt (by decide)
  ⟨codec_lawful, by decide, hfit,
    decodeBytes_rlpBytes codec codec_lawful sampleCreation (by decide) hfit⟩

end Reference

end TransactionWithSignatureSerializePart

/-- `BigEndianHash::from_uint`. -/
def h256FromUint (x : U256) : H256 := ⟨beBytes 32 x.val, by simp⟩

def H256.zero : H256 := ⟨List.replicate 32 0, by simp⟩

@[simp] theorem ofBeBytes_h256FromUint (x : U256) : ofBeBytes (h256FromUint x).bytes = x.val :=
  ofBeBytes_beBytes_of_lt (by simp)

namespace TransactionWithSignature

variable (rlp : Rlp.Codec)

/-- `compute_hash`: the Keccak-256 digest of the transaction's RLP. -/
def computeHash (keccak : List UInt8 → H256) (t : TransactionWithSignature) :
    TransactionWithSignature :=
  { t with hash := keccak (t.transaction.rlpBytes rlp) }

/-- `TransactionWithSignature::signature`. -/
def signature (t : TransactionWithSignature) : Signature :=
  Signature.fromRsv (h256FromUint t.transaction.r) (h256FromUint t.transaction.s) t.transaction.v

/-- `recover_public`: the key that signed the transaction's signature hash. -/
def recoverPublic (crypto : Crypto) (t : TransactionWithSignature) : Option Public :=
  crypto.recover t.signature (t.transaction.unsigned.signatureHash rlp crypto.keccak)

@[simp] theorem signature_r (t : TransactionWithSignature) :
    ofBeBytes t.signature.r = t.transaction.r.val := by
  simp [signature]

@[simp] theorem signature_s (t : TransactionWithSignature) :
    ofBeBytes t.signature.s = t.transaction.s.val := by
  simp [signature]

@[simp] theorem signature_v (t : TransactionWithSignature) : t.signature.v = t.transaction.v := by
  simp [signature]

end TransactionWithSignature

/-- `Transaction::with_signature`; `sig.r()` and `sig.s()` become numbers big-endian. -/
def Transaction.withSignature (rlp : Rlp.Codec) (keccak : List UInt8 → H256) (tx : Transaction)
    (sig : Signature) : TransactionWithSignature :=
  let part : TransactionWithSignatureSerializePart :=
    { unsigned := tx, v := sig.v, r := Fin.ofNat _ (ofBeBytes sig.r),
      s := Fin.ofNat _ (ofBeBytes sig.s) }
  TransactionWithSignature.computeHash rlp keccak { transaction := part, hash := H256.zero }

/-- Signing a transaction again with the signature read off a signed one rebuilds it, hashed. -/
theorem TransactionWithSignature.withSignature_signature (rlp : Rlp.Codec)
    (keccak : List UInt8 → H256) (t : TransactionWithSignature) :
    t.transaction.unsigned.withSignature rlp keccak t.signature =
      { transaction := t.transaction, hash := keccak (t.transaction.rlpBytes rlp) } := by
  obtain ⟨⟨unsigned, v, r, s⟩, hash⟩ := t
  have hr : (Fin.ofNat (2 ^ 256) r.val : U256) = r := Fin.ofNat_val_eq_self r
  have hs : (Fin.ofNat (2 ^ 256) s.val : U256) = s := Fin.ofNat_val_eq_self s
  simp only [Transaction.withSignature, computeHash, signature_r, signature_s, signature_v, hr, hs]

end Hemvm.Primitives
