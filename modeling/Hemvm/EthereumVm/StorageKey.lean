import Hemvm.Aptos.StateStore

/-! The keys the EVM side stores its state under, and their conversion to Aptos access paths
(`aptos-move/ethereum-vm/src/storage_key.rs`). The conversion places an EVM key at the Aptos
address its H160 embeds into, under the BCS bytes of `Path::Evm`. For a lawful serializer the
variant index of `Path` keeps these paths apart from every Move code and resource path, and the
rest of the serialization keeps them apart from each other. -/
namespace Hemvm.EthereumVm
open Aptos Bcs Control

/-- `cfx_primitives::OwnedStateKey`, by the H160 address each key holds; the space of an
`AddressWithSpace` is not read by the conversion. -/
inductive OwnedStateKey where
  | accountKey (address : Address)
  | storageKey (address : Address) (storageKey : List UInt8)
  | codeKey (address : Address)
deriving DecidableEq

/-- `StorageKey`. -/
structure StorageKey where
  address : Address
  path : EvmPath
deriving DecidableEq, Hashable

namespace StorageKey

/-- `StorageKey::event_nonce_key`. -/
def eventNonceKey (address : Address) : StorageKey := ⟨address, .eventNonce⟩

/-- `From<OwnedStateKey> for StorageKey`. -/
def ofOwnedStateKey : OwnedStateKey → StorageKey
  | .accountKey address => ⟨address, .account⟩
  | .storageKey address storageKey => ⟨address, .storage storageKey⟩
  | .codeKey address => ⟨address, .code⟩

/-- The keys of the EVM's own state are never event nonce keys. -/
theorem ofOwnedStateKey_ne_eventNonceKey (key : OwnedStateKey) (address : Address) :
    ofOwnedStateKey key ≠ eventNonceKey address := by
  cases key <;> intro h <;> cases h

section Conversion

variable (bcs : Serializer)

/-- `bcs::to_bytes(&Path::Evm(path))`; the Move serializers are never reached from `Path::Evm`. -/
def evmPathBytes (path : EvmPath) : Except Bcs.Error (List UInt8) :=
  (Path.evm path : Path Empty Empty).serialize bcs Empty.elim Empty.elim

/-- `From<StorageKey> for AccessPath`, whose `expect` panics on a serialization error. -/
def toAccessPath (key : StorageKey) : Except String AccessPath :=
  (expectSerialized (evmPathBytes bcs key.path) "Unexpected Serialization Error").map fun path =>
    { address := ethAddressToAptosAddress key.address, path }

/-- `From<StorageKey> for AptosStateKey`. -/
def toStateKey (key : StorageKey) : Except String StateKey :=
  (key.toAccessPath bcs).map .accessPath

/-- The keys whose conversion does not panic. -/
def Serializable (key : StorageKey) : Prop := key.path.FitsBcs

instance (key : StorageKey) : Decidable key.Serializable := inferInstanceAs (Decidable key.path.FitsBcs)

/-- The access path a key converts to when its conversion does not panic. -/
def accessPath (key : StorageKey) : AccessPath :=
  { address := ethAddressToAptosAddress key.address, path := bcs.variantIndex 2 ++ key.path.bytes bcs }

/-- The state key a serializable key converts to. -/
def stateKey (key : StorageKey) : StateKey := .accessPath (key.accessPath bcs)

variable {bcs}

theorem accessPath_injective (hbcs : bcs.Lawful) : Function.Injective (accessPath bcs) := by
  intro k₁ k₂ h
  obtain ⟨a₁, p₁⟩ := k₁
  obtain ⟨a₂, p₂⟩ := k₂
  obtain ⟨haddr, hpath⟩ := AccessPath.mk.inj h
  have ha : a₁ = a₂ := ethAddressToAptosAddress_injective haddr
  have hp : p₁ = p₂ := EvmPath.bytes_injective hbcs (hbcs.variantIndex_append_inj hpath).2
  rw [ha, hp]

theorem stateKey_injective (hbcs : bcs.Lawful) : Function.Injective (stateKey bcs) := fun _ _ h =>
  accessPath_injective hbcs (StateKey.accessPath.inj h)

theorem evmPathBytes_eq_ok_iff {path : EvmPath} {bytes : List UInt8} :
    evmPathBytes bcs path = .ok bytes ↔ path.FitsBcs ∧ bytes = bcs.variantIndex 2 ++ path.bytes bcs := by
  simp only [evmPathBytes, Path.serialize, Serializer.variant_eq_ok_iff, EvmPath.serialize_eq_ok_iff]
  constructor
  · rintro ⟨_, ⟨hfits, rfl⟩, rfl⟩
    exact ⟨hfits, rfl⟩
  · rintro ⟨hfits, rfl⟩
    exact ⟨_, ⟨hfits, rfl⟩, rfl⟩

/-- The conversion succeeds exactly on the serializable keys, with the key's access path. -/
theorem toAccessPath_eq_ok_iff {key : StorageKey} {ap : AccessPath} :
    key.toAccessPath bcs = .ok ap ↔ key.Serializable ∧ ap = key.accessPath bcs := by
  rw [toAccessPath, map_eq_ok_iff]
  constructor
  · rintro ⟨path, hpath, rfl⟩
    obtain ⟨hs, rfl⟩ := evmPathBytes_eq_ok_iff.mp (expectSerialized_eq_ok_iff.mp hpath)
    exact ⟨hs, rfl⟩
  · rintro ⟨hs, rfl⟩
    exact ⟨_, expectSerialized_eq_ok_iff.mpr (evmPathBytes_eq_ok_iff.mpr ⟨hs, rfl⟩), rfl⟩

theorem toAccessPath_of_serializable {key : StorageKey} (h : key.Serializable) :
    key.toAccessPath bcs = .ok (key.accessPath bcs) :=
  toAccessPath_eq_ok_iff.mpr ⟨h, rfl⟩

/-- Exactly the serializable keys convert. -/
theorem toAccessPath_isOk_iff (key : StorageKey) :
    (∃ ap, key.toAccessPath bcs = .ok ap) ↔ key.Serializable := by
  constructor
  · rintro ⟨ap, h⟩
    exact (toAccessPath_eq_ok_iff.mp h).1
  · intro h
    exact ⟨key.accessPath bcs, toAccessPath_of_serializable h⟩

/-- Distinct keys convert to distinct access paths. -/
theorem toAccessPath_inj (hbcs : bcs.Lawful) {k₁ k₂ : StorageKey} {ap : AccessPath}
    (h₁ : k₁.toAccessPath bcs = .ok ap) (h₂ : k₂.toAccessPath bcs = .ok ap) : k₁ = k₂ := by
  obtain ⟨-, rfl⟩ := toAccessPath_eq_ok_iff.mp h₁
  obtain ⟨-, hap⟩ := toAccessPath_eq_ok_iff.mp h₂
  exact accessPath_injective hbcs hap

theorem toStateKey_eq_ok_iff {key : StorageKey} {sk : StateKey} :
    key.toStateKey bcs = .ok sk ↔ key.Serializable ∧ sk = key.stateKey bcs := by
  rw [toStateKey, map_eq_ok_iff]
  constructor
  · rintro ⟨ap, hap, rfl⟩
    obtain ⟨hs, rfl⟩ := toAccessPath_eq_ok_iff.mp hap
    exact ⟨hs, rfl⟩
  · rintro ⟨hs, rfl⟩
    exact ⟨_, toAccessPath_of_serializable hs, rfl⟩

theorem toStateKey_of_serializable {key : StorageKey} (h : key.Serializable) :
    key.toStateKey bcs = .ok (key.stateKey bcs) :=
  toStateKey_eq_ok_iff.mpr ⟨h, rfl⟩

end Conversion

end StorageKey

section Move

variable {bcs : Serializer} (hbcs : bcs.Lawful) {ModuleId StructTag : Type}
  (serializeModuleId : ModuleId → Except Bcs.Error (List UInt8))
  (serializeStructTag : StructTag → Except Bcs.Error (List UInt8))
include hbcs

/-- An access path under a `Path` variant other than `Path::Evm` is no converted EVM key's: the
variant indices differ. -/
theorem StorageKey.toAccessPath_ne_of_variant {key : StorageKey} {ap : AccessPath}
    (h : key.toAccessPath bcs = .ok ap) {index : Nat} (hindex : index ≠ 2)
    (payload : Except Bcs.Error (List UInt8)) (msg : String) (address : AccountAddress) :
    (expectSerialized (bcs.variant index payload) msg).map (fun path => ({ address, path } : AccessPath)) ≠
      .ok ap := by
  intro hmap
  obtain ⟨path, hvec, rfl⟩ := map_eq_ok_iff.mp hmap
  obtain ⟨-, hap⟩ := StorageKey.toAccessPath_eq_ok_iff.mp h
  have hpath : path = bcs.variantIndex 2 ++ key.path.bytes bcs := congrArg AccessPath.path hap
  have hevm : bcs.variant 2 (.ok (key.path.bytes bcs)) = .ok path := by
    rw [Serializer.variant_ok, hpath]
  exact hindex (Serializer.variant_inj hbcs (expectSerialized_eq_ok_iff.mp hvec) hevm).1

/-- A converted EVM key is no Move resource path, at any address and for any struct tag. -/
theorem StorageKey.toAccessPath_ne_resourceAccessPath {key : StorageKey} {ap : AccessPath}
    (h : key.toAccessPath bcs = .ok ap) (address : AccountAddress) (tag : StructTag) :
    AccessPath.resourceAccessPath bcs serializeModuleId serializeStructTag address tag ≠ .ok ap :=
  StorageKey.toAccessPath_ne_of_variant hbcs h (by decide) _ _ address

/-- A converted EVM key is no Move code path, for any module. -/
theorem StorageKey.toAccessPath_ne_codeAccessPath {key : StorageKey} {ap : AccessPath}
    (h : key.toAccessPath bcs = .ok ap) (moduleAddress : ModuleId → AccountAddress) (m : ModuleId) :
    AccessPath.codeAccessPath bcs serializeModuleId serializeStructTag moduleAddress m ≠ .ok ap :=
  StorageKey.toAccessPath_ne_of_variant hbcs h (by decide) _ _ (moduleAddress m)

end Move

/-- The conversion of EVM keys to access paths, under a lawful serializer, is defined exactly on
the serializable keys, is injective there, and never produces a path of Move code or of a Move
resource, whatever the Move crate's types serialize to. -/
theorem StorageKey.toAccessPath_injective_disjoint (bcs : Serializer) (hbcs : bcs.Lawful) :
    (∀ (k₁ k₂ : StorageKey) (ap : AccessPath),
        k₁.toAccessPath bcs = .ok ap → k₂.toAccessPath bcs = .ok ap → k₁ = k₂) ∧
      (∀ k : StorageKey, (∃ ap, k.toAccessPath bcs = .ok ap) ↔ k.Serializable) ∧
      ∀ {ModuleId StructTag : Type} (serializeModuleId : ModuleId → Except Bcs.Error (List UInt8))
        (serializeStructTag : StructTag → Except Bcs.Error (List UInt8))
        (moduleAddress : ModuleId → AccountAddress) (k : StorageKey) (ap : AccessPath),
        k.toAccessPath bcs = .ok ap →
          (∀ address tag,
            AccessPath.resourceAccessPath bcs serializeModuleId serializeStructTag address tag ≠
              .ok ap) ∧
          ∀ m, AccessPath.codeAccessPath bcs serializeModuleId serializeStructTag moduleAddress m ≠
            .ok ap := by
  refine ⟨fun k₁ k₂ ap h₁ h₂ => StorageKey.toAccessPath_inj hbcs h₁ h₂,
    StorageKey.toAccessPath_isOk_iff, ?_⟩
  intro ModuleId StructTag serializeModuleId serializeStructTag moduleAddress k ap h
  exact ⟨StorageKey.toAccessPath_ne_resourceAccessPath hbcs serializeModuleId serializeStructTag h,
    StorageKey.toAccessPath_ne_codeAccessPath hbcs serializeModuleId serializeStructTag h
      moduleAddress⟩

/-- The crate's serializer is lawful, and under it distinct EVM keys convert to distinct paths. -/
theorem StorageKey.toAccessPath_injective_uleb128 :
    uleb128Serializer.Lawful ∧
      ∀ (k₁ k₂ : StorageKey) (ap : AccessPath), k₁.toAccessPath uleb128Serializer = .ok ap →
        k₂.toAccessPath uleb128Serializer = .ok ap → k₁ = k₂ :=
  ⟨uleb128Serializer_lawful,
    (StorageKey.toAccessPath_injective_disjoint uleb128Serializer uleb128Serializer_lawful).1⟩

end Hemvm.EthereumVm
