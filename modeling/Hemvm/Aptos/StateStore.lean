import Hemvm.Codec.Bcs
import Hemvm.Store.Overlay
import Hemvm.Types

/-! Keys and writes of the Aptos state store (`types/src/access_path.rs`,
`state_store/state_key.rs`, `write_set.rs`). The BCS serializer enters as a parameter, and the
Move crate's `ModuleId` and `StructTag` as type parameters with their serializers, so that what
is proved about paths holds for every lawful serializer and whatever the Move types serialize
to. -/
namespace Hemvm.Aptos
open Bcs

/-- `EvmPath`. -/
inductive EvmPath where
  | account
  | storage (bytes : List UInt8)
  | code
  | eventNonce
deriving DecidableEq, Hashable

/-- `Path`. -/
inductive Path (ModuleId StructTag : Type) where
  | code (m : ModuleId)
  | resource (s : StructTag)
  | evm (p : EvmPath)

namespace EvmPath

/-- The paths BCS serializes: a storage path's bytes fit a sequence. -/
def FitsBcs : EvmPath → Prop
  | .storage bytes => bytes.length ≤ maxSequenceLength
  | _ => True

instance (p : EvmPath) : Decidable p.FitsBcs := by
  cases p <;> unfold FitsBcs <;> infer_instance

/-- The variant index of a path. -/
def index : EvmPath → Nat
  | .account => 0
  | .storage _ => 1
  | .code => 2
  | .eventNonce => 3

variable (bcs : Serializer)

/-- The derived `Serialize` of `EvmPath`: the variant index, then a `Storage` path's bytes. -/
def serialize : EvmPath → Except Bcs.Error (List UInt8)
  | .account => bcs.variant 0 (.ok [])
  | .storage bytes => bcs.variant 1 (bcs.byteSeq bytes)
  | .code => bcs.variant 2 (.ok [])
  | .eventNonce => bcs.variant 3 (.ok [])

/-- What follows the variant index: a storage path's sequence of bytes. -/
def payload : EvmPath → List UInt8
  | .storage bytes => bcs.seqBytes bytes
  | _ => []

/-- The serialization of a path that fits, as one function of the path. -/
def bytes (p : EvmPath) : List UInt8 := bcs.variantIndex p.index ++ p.payload bcs

variable {bcs}

theorem serialize_eq_ok_iff {p : EvmPath} {out : List UInt8} :
    p.serialize bcs = .ok out ↔ p.FitsBcs ∧ out = p.bytes bcs := by
  cases p with
  | storage bs =>
    simp only [serialize, Serializer.variant_eq_ok_iff, Serializer.byteSeq_eq_ok_iff, FitsBcs,
      bytes, index, payload]
    constructor
    · rintro ⟨_, ⟨hle, rfl⟩, rfl⟩
      exact ⟨hle, rfl⟩
    · rintro ⟨hle, rfl⟩
      exact ⟨_, ⟨hle, rfl⟩, rfl⟩
  | account | code | eventNonce =>
    simp [serialize, FitsBcs, bytes, index, payload, eq_comm]

/-- The bytes determine the path, for a lawful serializer: variants differ in their index, and
storage paths in their sequence of bytes. -/
theorem bytes_injective (h : bcs.Lawful) : Function.Injective (bytes bcs) := by
  intro p q hpq
  obtain ⟨hindex, hpayload⟩ := h.variantIndex_append_inj hpq
  cases p <;> cases q
  case storage.storage bs cs =>
    simp only [payload] at hpayload
    rw [Serializer.seqBytes_injective h hpayload]
  all_goals first
    | rfl
    | simp only [index] at hindex
      omega

end EvmPath

section Path

variable {ModuleId StructTag : Type} (bcs : Serializer)
  (serializeModuleId : ModuleId → Except Bcs.Error (List UInt8))
  (serializeStructTag : StructTag → Except Bcs.Error (List UInt8))

/-- The derived `Serialize` of `Path`. -/
def Path.serialize : Path ModuleId StructTag → Except Bcs.Error (List UInt8)
  | .code m => bcs.variant 0 (serializeModuleId m)
  | .resource s => bcs.variant 1 (serializeStructTag s)
  | .evm p => bcs.variant 2 (p.serialize bcs)

end Path

/-- `AccessPath`. -/
structure AccessPath where
  address : AccountAddress
  path : List UInt8
deriving DecidableEq

/-- `bcs::to_bytes(..).expect(msg)`: a serialization error panics with `msg`. -/
def expectSerialized (r : Except Bcs.Error (List UInt8)) (msg : String) : Except String (List UInt8) :=
  match r with
  | .ok bytes => .ok bytes
  | .error _ => .error msg

theorem expectSerialized_eq_ok_iff {r : Except Bcs.Error (List UInt8)} {msg : String}
    {bytes : List UInt8} : expectSerialized r msg = .ok bytes ↔ r = .ok bytes := by
  cases r <;> simp [expectSerialized]

namespace AccessPath

variable {ModuleId StructTag : Type} (bcs : Serializer)
  (serializeModuleId : ModuleId → Except Bcs.Error (List UInt8))
  (serializeStructTag : StructTag → Except Bcs.Error (List UInt8))

/-- `AccessPath::resource_path_vec`. -/
def resourcePathVec (tag : StructTag) : Except String (List UInt8) :=
  expectSerialized ((Path.resource tag : Path ModuleId StructTag).serialize bcs serializeModuleId
    serializeStructTag) "Unexpected serialization error"

/-- `AccessPath::resource_access_path`, for a `ResourceKey` given by its address and type. -/
def resourceAccessPath (address : AccountAddress) (type : StructTag) : Except String AccessPath :=
  (resourcePathVec bcs serializeModuleId serializeStructTag type).map fun path => { address, path }

/-- `AccessPath::code_path_vec`. -/
def codePathVec (key : ModuleId) : Except String (List UInt8) :=
  expectSerialized ((Path.code key : Path ModuleId StructTag).serialize bcs serializeModuleId
    serializeStructTag) "Unexpected serialization error"

/-- `AccessPath::code_access_path`, at the module's own address. -/
def codeAccessPath (moduleAddress : ModuleId → AccountAddress) (key : ModuleId) :
    Except String AccessPath :=
  (codePathVec bcs serializeModuleId serializeStructTag key).map fun path =>
    { address := moduleAddress key, path }

end AccessPath

/-- `StateKey`; a table handle is the account address it wraps. -/
inductive StateKey where
  | accessPath (accessPath : AccessPath)
  | tableItem (handle : AccountAddress) (key : List UInt8)
  | raw (bytes : List UInt8)
deriving DecidableEq

/-- `StateView::get_state_value`, which may fail. -/
structure StateView where
  getStateValue : StateKey → Except String (Option (List UInt8))

/-- The view of a store that answers every read from a map. -/
def StateView.ofMap (s : StateKey → Option (List UInt8)) : StateView := ⟨fun k => .ok (s k)⟩

/-- `WriteOp`: `Creation`, `Modification` and `Deletion` of a key's bytes. -/
abbrev WriteOp := Store.WriteOp (List UInt8)

/-- `WriteSetMut`, a `BTreeMap` from keys to their writes, as the function it defines. -/
structure WriteSetMut where
  writeSet : StateKey → Option WriteOp

namespace WriteSetMut

/-- `WriteSetMut::insert`: the new write replaces any earlier one of its key. -/
def insert (w : WriteSetMut) (item : StateKey × WriteOp) : WriteSetMut :=
  ⟨Function.update w.writeSet item.1 (some item.2)⟩

/-- `WriteSetMut::new`, collecting writes in order. -/
def new (writeOps : List (StateKey × WriteOp)) : WriteSetMut :=
  writeOps.foldl insert ⟨fun _ => none⟩

/-- `WriteSetMut::get`. -/
def get (w : WriteSetMut) (key : StateKey) : Option WriteOp := w.writeSet key

@[simp] theorem get_insert_self (w : WriteSetMut) (key : StateKey) (op : WriteOp) :
    (w.insert (key, op)).get key = some op := by
  simp [insert, get]

theorem get_insert_of_ne (w : WriteSetMut) {key key' : StateKey} (op : WriteOp) (h : key' ≠ key) :
    (w.insert (key, op)).get key' = w.get key' := by
  simp [insert, get, Function.update_of_ne h]

/-- Inserting writes of other keys leaves a key's write. -/
theorem get_foldl_insert_of_not_mem {key : StateKey} :
    ∀ {ws : List (StateKey × WriteOp)} {w : WriteSetMut}, key ∉ ws.map Prod.fst →
      (ws.foldl insert w).get key = w.get key
  | [], _, _ => rfl
  | (key', op) :: ws, w, h => by
    simp only [List.map_cons, List.mem_cons, not_or] at h
    rw [List.foldl_cons, get_foldl_insert_of_not_mem h.2, get_insert_of_ne w op h.1]

/-- After inserting writes of distinct keys, each key has its write. -/
theorem get_foldl_insert_of_mem {key : StateKey} {op : WriteOp} :
    ∀ {ws : List (StateKey × WriteOp)} (w : WriteSetMut), (ws.map Prod.fst).Nodup →
      (key, op) ∈ ws → (ws.foldl insert w).get key = some op
  | [], _, _, h => absurd h List.not_mem_nil
  | (key', op') :: ws, w, hnodup, h => by
    simp only [List.map_cons, List.nodup_cons] at hnodup
    rw [List.foldl_cons]
    rcases List.mem_cons.mp h with heq | hmem
    · obtain ⟨rfl, rfl⟩ := Prod.mk.inj heq
      rw [get_foldl_insert_of_not_mem hnodup.1, get_insert_self]
    · exact get_foldl_insert_of_mem _ hnodup.2 hmem

/-- The state a write set leaves over `s`: a written key takes its write's new value. -/
def applyTo (w : WriteSetMut) (s : StateKey → Option (List UInt8)) : StateKey → Option (List UInt8) :=
  fun key =>
    match w.get key with
    | some op => op.newValue
    | none => s key

theorem applyTo_insert (w : WriteSetMut) (s : StateKey → Option (List UInt8)) (key : StateKey)
    (op : WriteOp) : (w.insert (key, op)).applyTo s = Function.update (w.applyTo s) key op.newValue := by
  funext key'
  by_cases h : key' = key
  · subst h
    simp [applyTo]
  · simp only [applyTo, get_insert_of_ne w op h, Function.update_of_ne h]

/-- Inserting writes in order applies them in order. -/
theorem applyTo_foldl_insert (s : StateKey → Option (List UInt8)) :
    ∀ (ws : List (StateKey × WriteOp)) (w : WriteSetMut),
      (ws.foldl insert w).applyTo s = Store.applyWrites (w.applyTo s) ws
  | [], _ => rfl
  | (key, op) :: ws, w => by
    rw [List.foldl_cons, applyTo_foldl_insert s ws, applyTo_insert]
    rfl

/-- A collected write set applies its writes in order. -/
theorem applyTo_new (ws : List (StateKey × WriteOp)) (s : StateKey → Option (List UInt8)) :
    (new ws).applyTo s = Store.applyWrites s ws :=
  applyTo_foldl_insert s ws _

end WriteSetMut

end Hemvm.Aptos
