import Hemvm.Types

/-! Signatures as `cfxkey` lays them out (`cfx-evm/utils/cfxkey/src/signature.rs`), and the
primitives of external crates that the transaction code calls. -/
namespace Hemvm
open Codec

/-- `cfxkey::Signature`: `r`, `s` and the recovery byte `v`, sixty-five bytes. -/
abbrev Signature := FixedBytes 65

namespace Signature

def r (sig : Signature) : List UInt8 := sig.bytes.take 32

def s (sig : Signature) : List UInt8 := (sig.bytes.drop 32).take 32

def v (sig : Signature) : UInt8 := sig.bytes.getD 64 0

/-- `Signature::from_rsv`. -/
def fromRsv (r s : H256) (v : UInt8) : Signature :=
  ⟨r.bytes ++ s.bytes ++ [v], by simp [r.length_eq, s.length_eq]⟩

/-- Half the order of the secp256k1 group, the bound of `is_low_s`. -/
def lowSMask : Nat := 0x7FFFFFFFFFFFFFFFFFFFFFFFFFFFFFFF5D576E7357A4501DDFE92F46681B20A0

/-- The order of the secp256k1 group, the bound of `is_valid`. -/
def curveOrder : Nat := 0xFFFFFFFFFFFFFFFFFFFFFFFFFFFFFFFEBAAEDCE6AF48A03BBFD25E8CD0364141

/-- `is_low_s`; two 32-byte strings compare as the numbers they denote big-endian. -/
def isLowS (sig : Signature) : Bool := ofBeBytes sig.s ≤ lowSMask

/-- `is_valid`: `v` is a recovery id and `r`, `s` lie in `[1, n)`. -/
def isValid (sig : Signature) : Bool :=
  sig.v ≤ 1 && 1 ≤ ofBeBytes sig.r && ofBeBytes sig.r < curveOrder &&
    1 ≤ ofBeBytes sig.s && ofBeBytes sig.s < curveOrder

@[simp] theorem r_fromRsv (r s : H256) (v : UInt8) : (fromRsv r s v).r = r.bytes := by
  simp [fromRsv, Signature.r, r.length_eq]

@[simp] theorem s_fromRsv (r s : H256) (v : UInt8) : (fromRsv r s v).s = s.bytes := by
  simp [fromRsv, Signature.s, r.length_eq, s.length_eq]

@[simp] theorem v_fromRsv (r s : H256) (v : UInt8) : (fromRsv r s v).v = v := by
  simp [fromRsv, Signature.v, r.length_eq, s.length_eq, List.getD_eq_getElem?_getD]

end Signature

/-- The primitives of external crates: Keccak-256 (`keccak_hash`), and recovery and
verification of secp256k1 signatures (`cfxkey::recover` and `cfxkey::verify_public` over the
`secp256k1` crate), each reduced to its result. -/
structure Crypto where
  keccak : List UInt8 → H256
  recover : Signature → H256 → Option Public
  verifyPublic : Public → Signature → H256 → Bool

/-- What the code relies on from the secp256k1 library: recovery succeeds only for a signature
whose `r` and `s` lie in `[1, n)` (`RecoverableSignature::from_compact` and `recover` reject the
others), and the recovered key verifies the signature when `s` is low (`secp256k1_ecdsa_verify`
accepts the lower-S signatures of the key they recover to). -/
structure Crypto.Lawful (crypto : Crypto) : Prop where
  recover_range : ∀ sig msg pk, crypto.recover sig msg = some pk →
    1 ≤ ofBeBytes sig.r ∧ ofBeBytes sig.r < Signature.curveOrder ∧
      1 ≤ ofBeBytes sig.s ∧ ofBeBytes sig.s < Signature.curveOrder
  verifyPublic_recover : ∀ sig msg pk, crypto.recover sig msg = some pk → sig.isLowS = true →
    crypto.verifyPublic pk sig msg = true

end Hemvm
