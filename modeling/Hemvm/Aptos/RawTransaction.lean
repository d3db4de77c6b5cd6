import Hemvm.Primitives.Transaction

/-! The Aptos raw transaction and the Ethereum transaction it can carry
(`types/src/transaction/mod.rs`, `ethereum.rs`, `chain_id.rs`). -/
namespace Hemvm.Aptos
open Codec

/-- `ChainId(u8)`. Deserialisation builds any byte, so the type itself carries no invariant;
`ChainId::new` is the constructor that asserts `id > 0`. -/
structure ChainId where
  id : UInt8
deriving DecidableEq

namespace ChainId

/-- `ChainId::new`; its `assert!` is modelled as an error carrying the assertion's message. -/
def new (id : UInt8) : Except String ChainId :=
  if 0 < id then .ok ⟨id⟩ else .error "cannot have chain ID with 0"

/-- `ChainId::test()`, the chain `NamedChain::TESTING = 4`. -/
def test : ChainId := ⟨4⟩

theorem new_of_pos {id : UInt8} (h : 0 < id) : new id = .ok ⟨id⟩ := if_pos h

end ChainId

/-- `U256::from(u64)`. -/
def U256.fromU64 (x : UInt64) : U256 := ⟨x.toNat, by have := x.toNat_lt; omega⟩

/-- `U256::as_u64`, whose overflow panic is modelled as an error with the panic's message. -/
def U256.asU64 (x : U256) : Except String UInt64 :=
  if x.val < 2 ^ 64 then .ok (UInt64.ofNat x.val) else .error "Integer overflow when casting to u64"

theorem U256.asU64_fromU64 (x : UInt64) : U256.asU64 (U256.fromU64 x) = .ok x := by
  have hx := x.toNat_lt
  simp [U256.asU64, U256.fromU64, hx]

theorem U256.fromU64_asU64 {x : U256} {y : UInt64} (h : U256.asU64 x = .ok y) : U256.fromU64 y = x := by
  unfold U256.asU64 at h
  split at h
  · case isTrue hlt =>
    cases h
    ext
    simpa [U256.fromU64] using hlt
  · cases h

theorem U256.asU64_of_lt {x : U256} (h : x.val < 2 ^ 64) : U256.asU64 x = .ok (UInt64.ofNat x.val) :=
  if_pos h

theorem U256.fromU64_ofNat {x : U256} (h : x.val < 2 ^ 64) : U256.fromU64 (UInt64.ofNat x.val) = x :=
  U256.fromU64_asU64 (U256.asU64_of_lt h)

/-- `types::transaction::ethereum::Action`, the payload's copy of the EVM action. -/
inductive Action where
  | create
  | call (address : Address)
deriving DecidableEq

namespace Action

/-- `Into<EthAction> for &Action`. -/
def toEthAction : Action → Primitives.Action
  | .create => .create
  | .call address => .call address

/-- `From<EthAction> for Action`. -/
def ofEthAction : Primitives.Action → Action
  | .create => .create
  | .call address => .call address

@[simp] theorem toEthAction_ofEthAction (a : Primitives.Action) : (ofEthAction a).toEthAction = a := by
  cases a <;> rfl

end Action

structure EthTransactionPayload where
  value : U256
  action : Action
  data : List UInt8
deriving DecidableEq

/-- `TransactionPayload`. The Move payloads' contents are read by no modelled function. -/
inductive TransactionPayload where
  | script
  | moduleBundle
  | entryFunction
  | ethTransactionPayload (payload : EthTransactionPayload)
deriving DecidableEq

structure RawTransaction where
  sender : AccountAddress
  sequenceNumber : UInt64
  payload : TransactionPayload
  maxGasAmount : UInt64
  gasUnitPrice : UInt64
  expirationTimestampSecs : UInt64
  chainId : ChainId
deriving DecidableEq

namespace RawTransaction

/-- `RawTransaction::new_eth`. -/
def newEth (sender : AccountAddress) (sequenceNumber : UInt64) (ethPayload : EthTransactionPayload)
    (maxGasAmount gasUnitPrice expirationTimestampSecs : UInt64) (chainId : ChainId) :
    RawTransaction :=
  { sender, sequenceNumber, payload := .ethTransactionPayload ethPayload, maxGasAmount,
    gasUnitPrice, expirationTimestampSecs, chainId }

/-- `RawTransaction::eth_transaction`: the EIP-155 transaction an Ethereum payload stands for,
with the sequence number as nonce and the one-byte chain id widened to `u32`. -/
def ethTransaction (t : RawTransaction) : Option Primitives.Transaction :=
  match t.payload with
  | .ethTransactionPayload ⟨value, action, data⟩ =>
    some (.ethereum
      { nonce := U256.fromU64 t.sequenceNumber, gasPrice := U256.fromU64 t.gasUnitPrice,
        gas := U256.fromU64 t.maxGasAmount, action := action.toEthAction, value,
        chainId := some t.chainId.id.toUInt32, data })
  | _ => none

theorem ethTransaction_newEth (sender : AccountAddress) (sequenceNumber : UInt64)
    (ethPayload : EthTransactionPayload) (maxGasAmount gasUnitPrice expiry : UInt64)
    (chainId : ChainId) :
    (newEth sender sequenceNumber ethPayload maxGasAmount gasUnitPrice expiry chainId).ethTransaction =
      some (.ethereum
        { nonce := U256.fromU64 sequenceNumber, gasPrice := U256.fromU64 gasUnitPrice,
          gas := U256.fromU64 maxGasAmount, action := ethPayload.action.toEthAction,
          value := ethPayload.value, chainId := some chainId.id.toUInt32, data := ethPayload.data }) :=
  rfl

theorem ethTransaction_isSome_iff (t : RawTransaction) :
    t.ethTransaction.isSome ↔ ∃ p, t.payload = .ethTransactionPayload p := by
  obtain ⟨sender, sequenceNumber, payload, maxGasAmount, gasUnitPrice, expiry, chainId⟩ := t
  cases payload <;> simp [ethTransaction]

end RawTransaction

/-- `RawTransactionWithData`, the message a multi-agent transaction's signers sign. -/
inductive RawTransactionWithData where
  | multiAgent (rawTxn : RawTransaction) (secondarySignerAddresses : List AccountAddress)
deriving DecidableEq

end Hemvm.Aptos
