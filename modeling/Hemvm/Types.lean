import Hemvm.Codec.Bytes

/-! Primitive types shared by the Move and EVM sides, and the embedding of Ethereum addresses
into Aptos account addresses (`types/src/transaction/mod.rs`). -/
namespace Hemvm
open Codec

/-- `cfx_types::Address`, the twenty-byte `H160`. -/
abbrev Address := FixedBytes 20

abbrev H256 := FixedBytes 32

/-- `AccountAddress`: thirty-two bytes. -/
abbrev AccountAddress := FixedBytes 32

abbrev U256 := Fin (2 ^ 256)

/-- The width of `U256` is positive, for its numerals and `Fin.ofNat`. -/
instance neZeroU256Size : NeZero (2 ^ 256 : Nat) := ⟨by decide⟩

/-- `cfxkey::Public`, an uncompressed secp256k1 key without its prefix byte. -/
abbrev Public := FixedBytes 64

/-- `eth_address_to_aptos_address`: the twenty address bytes first, then twelve zero bytes. -/
def ethAddressToAptosAddress (a : Address) : AccountAddress :=
  ⟨a.bytes ++ List.replicate 12 0, by simp [a.length_eq]⟩

/-- `aptos_address_to_eth_address`: the first twenty bytes. -/
def aptosAddressToEthAddress (a : AccountAddress) : Address :=
  ⟨a.bytes.take 20, by simp [a.length_eq]⟩

/-- `eth_public_to_address`: the last twenty bytes of the Keccak-256 digest of the key. -/
def ethPublicToAddress (keccak : List UInt8 → H256) (p : Public) : Address :=
  ⟨(keccak p.bytes).bytes.drop 12, by simp [(keccak p.bytes).length_eq]⟩

@[simp] theorem aptosAddressToEthAddress_ethAddressToAptosAddress (a : Address) :
    aptosAddressToEthAddress (ethAddressToAptosAddress a) = a := by
  ext1
  simp [aptosAddressToEthAddress, ethAddressToAptosAddress, a.length_eq]

theorem ethAddressToAptosAddress_injective : Function.Injective ethAddressToAptosAddress := by
  intro a b h
  simpa using congrArg aptosAddressToEthAddress h

/-- The embedding reaches exactly the account addresses whose last twelve bytes are zero. -/
theorem ethAddressToAptosAddress_bytes_drop (a : Address) :
    (ethAddressToAptosAddress a).bytes.drop 20 = List.replicate 12 0 := by
  simp [ethAddressToAptosAddress, a.length_eq]

end Hemvm
