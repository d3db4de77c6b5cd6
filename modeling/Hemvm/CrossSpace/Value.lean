import Hemvm.Aptos.RawTransaction

/-! Values crossing between the Move and the EVM spaces. A Move coin of value `c` enters the EVM as
`c * 10^10` (`make_cross_vm_params` in `natives/call_evm.rs`); an EVM value `v` that `CallToMove`
debits from the cross-space contract is credited to the Move side as `v / 10^10`, saturating at
`u64::MAX` (`CrossSpaceHandler::call_move_vm` in `aptos_vm.rs`).

Coming back from the EVM gives every coin value back. Going to Move never credits more than the
whole units debited, and credits all of them exactly when the value is below `2^64 * 10^10`:
above it the saturation keeps `u64::MAX` and the rest is lost. -/
namespace Hemvm.CrossSpace
open Aptos

/-- `10_000_000_000u64`, the EVM value of one unit of a Move coin. -/
def evmUnitsPerCoin : UInt64 := 10_000_000_000

/-- `u64::MAX`. -/
def u64Max : UInt64 := UInt64.ofNat (2 ^ 64 - 1)

/-- `U256 * U256`, which panics on overflow. -/
def checkedMul (a b : U256) : Except String U256 :=
  if h : a.val * b.val < 2 ^ 256 then .ok ⟨a.val * b.val, h⟩
  else .error "arithmetic operation overflow"

/-- The EVM value `make_cross_vm_params` passes for the coin it pops: its value times `10^10`, or
zero for no coin. -/
def coinToEvmValue (maybeCoin : Option UInt64) : Except String U256 :=
  match maybeCoin with
  | some value => checkedMul (U256.fromU64 value) (U256.fromU64 evmUnitsPerCoin)
  | none => .ok 0

/-- The coin value `call_move_vm` credits for an EVM value: `u64::MAX` from
`u64::MAX * 10^10` on, else the whole units. -/
def callMoveVmValue (value : U256) : Except String UInt64 :=
  checkedMul (U256.fromU64 u64Max) (U256.fromU64 evmUnitsPerCoin) >>= fun bound =>
    if value ≥ bound then .ok u64Max
    else U256.asU64 (value / U256.fromU64 evmUnitsPerCoin)

@[simp] theorem toNat_evmUnitsPerCoin : evmUnitsPerCoin.toNat = 10_000_000_000 := rfl

@[simp] theorem toNat_u64Max : u64Max.toNat = 2 ^ 64 - 1 := rfl

theorem checkedMul_of_lt {a b : U256} (h : a.val * b.val < 2 ^ 256) :
    checkedMul a b = .ok ⟨a.val * b.val, h⟩ := dif_pos h

/-- A coin value times `10^10` fits in 256 bits. -/
theorem coinToEvmValue_some (c : UInt64) :
    coinToEvmValue (some c) = .ok ⟨c.toNat * 10_000_000_000, by have := c.toNat_lt; omega⟩ := by
  have hc := c.toNat_lt
  exact checkedMul_of_lt (by simp [U256.fromU64]; omega)

/-- `call_move_vm` is the saturated quotient by `10^10`; it never fails. -/
theorem callMoveVmValue_eq (value : U256) :
    callMoveVmValue value =
      .ok (if (2 ^ 64 - 1) * 10_000_000_000 ≤ value.val then u64Max
        else UInt64.ofNat (value.val / 10_000_000_000)) := by
  have hbound : (U256.fromU64 u64Max).val * (U256.fromU64 evmUnitsPerCoin).val < 2 ^ 256 := by
    simp [U256.fromU64]
  unfold callMoveVmValue
  rw [checkedMul_of_lt hbound, Control.ok_bind]
  by_cases hge : (2 ^ 64 - 1) * 10_000_000_000 ≤ value.val
  · have hle : (⟨_, hbound⟩ : U256) ≤ value := by
      show _ ≤ value.val
      simpa [U256.fromU64] using hge
    rw [if_pos hle, if_pos hge]
  · have hlt : ¬ (⟨_, hbound⟩ : U256) ≤ value := by
      show ¬ _ ≤ value.val
      simpa [U256.fromU64] using hge
    have hdiv : (value / U256.fromU64 evmUnitsPerCoin).val = value.val / 10_000_000_000 := by
      simp [U256.fromU64, Fin.div_val]
    have hfits : (value / U256.fromU64 evmUnitsPerCoin).val < 2 ^ 64 := by
      rw [hdiv]
      omega
    rw [if_neg hlt, if_neg hge, U256.asU64_of_lt hfits, hdiv]

/-- The whole units `call_move_vm` credits, as a number. -/
theorem toNat_callMoveVmValue (value : U256) :
    ∃ c, callMoveVmValue value = .ok c ∧
      c.toNat = min (2 ^ 64 - 1) (value.val / 10_000_000_000) := by
  refine ⟨_, callMoveVmValue_eq value, ?_⟩
  split
  case isTrue hge =>
    rw [toNat_u64Max]
    omega
  case isFalse hlt =>
    have hfits : value.val / 10_000_000_000 < UInt64.size := by
      show _ < 2 ^ 64
      omega
    rw [UInt64.toNat_ofNat_of_lt' hfits]
    omega

/-- A coin value sent to the EVM and back is credited in full, and `call_move_vm` credits at
most the whole units of the value `CallToMove` debits, and all of them exactly when the value is
below `2^64 * 10^10`. -/
theorem callMoveVmValue_bounds :
    (∀ c : UInt64, (coinToEvmValue (some c) >>= callMoveVmValue) = .ok c) ∧
      ∀ value : U256, ∃ c, callMoveVmValue value = .ok c ∧
        10_000_000_000 * c.toNat ≤ value.val ∧
        (value.val < 10_000_000_000 * c.toNat + 10_000_000_000 ↔
          value.val < 2 ^ 64 * 10_000_000_000) := by
  refine ⟨fun c => ?_, fun value => ?_⟩
  · have hc := c.toNat_lt
    rw [coinToEvmValue_some, Control.ok_bind, callMoveVmValue_eq]
    split
    case isTrue hge =>
      -- only `u64::MAX` itself reaches the saturation bound
      have hmax : c.toNat = u64Max.toNat := by
        simp only [toNat_u64Max] at hge ⊢
        omega
      rw [UInt64.toNat_inj.mp hmax]
    case isFalse =>
      rw [Nat.mul_div_cancel _ (by norm_num), UInt64.ofNat_toNat]
  · obtain ⟨c, hc, hval⟩ := toNat_callMoveVmValue value
    refine ⟨c, hc, ?_, ?_⟩
    · rw [hval]
      omega
    · rw [hval]
      omega

/-- The EVM value `2^64 * 10^10` is debited in full and credited as `u64::MAX` units: a whole
unit, `10^10` of value, is lost. -/
theorem callMoveVmValue_saturated :
    callMoveVmValue ⟨2 ^ 64 * 10_000_000_000, by norm_num⟩ = .ok u64Max ∧
      ¬ 2 ^ 64 * 10_000_000_000 < 10_000_000_000 * u64Max.toNat + 10_000_000_000 := by
  refine ⟨?_, by simp⟩
  rw [callMoveVmValue_eq, if_pos (by norm_num)]

end Hemvm.CrossSpace
