import Hemvm.Codec.HeadTail
import Hemvm.Types

/-! The Solidity ABI codec of `cfx-evm/utils/solidity-abi` (and the impls that
`solidity-abi-derive` generates). The trait `ABIVariable` is implemented per Rust type;
here a type is a code `AbiType`, and each impl is the arm of `toAbi` and `fromAbi` for its
code, so that the generic impls (`Vec<T>`, `[T; N]`, derived structs) recurse on the code. -/
namespace Hemvm.SolidityAbi
open Codec Control

/-- `ABIDecodeError(&'static str)`. -/
structure ABIDecodeError where
  msg : String
deriving DecidableEq

/-- `abi_require`. -/
def abiRequire (claim : Bool) (desc : String) : Except ABIDecodeError Unit :=
  if !claim then .error ⟨desc⟩ else .ok ()

/-- `pull_slice`: the first `n` bytes at the pointer, and the pointer moved past them. -/
def pullSlice (iter : List UInt8) (n : Nat) (errDesc : String) :
    Except ABIDecodeError (List UInt8 × List UInt8) :=
  abiRequire (n ≤ iter.length) errDesc >>= fun () => .ok (iter.take n, iter.drop n)

/-- `padded_big_endian`: a length as a 32-byte big-endian word. -/
def paddedBigEndian (length : Nat) : List UInt8 := beBytes 32 length

/-- The integer types of `impl_abi_variable_for_primitive!`. -/
inductive UIntType where
  | u8
  | u16
  | u32
  | u64
  | u128
deriving DecidableEq

/-- `BITS / 8`. -/
def UIntType.byteCount : UIntType → Nat
  | .u8 => 1
  | .u16 => 2
  | .u32 => 4
  | .u64 => 8
  | .u128 => 16

/-- The Rust types with an `ABIVariable` impl. -/
inductive AbiType where
  | address
  | u256
  | h256
  | bool
  | uint (ty : UIntType)
  /-- `[u8; N]`, marked `SolidityBytes` for `2 ≤ N ≤ 32`. -/
  | fixedBytes (n : Nat)
  /-- `Bytes = Vec<u8>`. -/
  | bytes
  | string
  | vec (t : AbiType)
  | array (t : AbiType) (n : Nat)
  /-- A struct with `#[derive(ABIVariable)]`, by its fields' types. -/
  | struct (fields : List AbiType)

/-- Values of those types; `HasType` says which value belongs to which type. -/
inductive AbiValue where
  | address (a : Address)
  | u256 (x : U256)
  | h256 (h : H256)
  | bool (b : Bool)
  | uint (x : Nat)
  | fixedBytes (bs : List UInt8)
  | bytes (bs : List UInt8)
  | string (s : String)
  | vec (items : List AbiValue)
  | array (items : List AbiValue)
  | struct (fields : List AbiValue)

mutual

/-- The values of a Rust type: integers within their width, `[u8; N]` of `N` bytes, `[T; N]`
of `N` elements, and byte strings and vectors of fewer than `2 ^ 64` elements, as a `Vec`
holds. -/
inductive HasType : AbiValue → AbiType → Prop
  | address (a : Address) : HasType (.address a) .address
  | u256 (x : U256) : HasType (.u256 x) .u256
  | h256 (h : H256) : HasType (.h256 h) .h256
  | bool (b : Bool) : HasType (.bool b) .bool
  | uint {x : Nat} (ty : UIntType) (h : x < 256 ^ ty.byteCount) : HasType (.uint x) (.uint ty)
  | fixedBytes {bs : List UInt8} (n : Nat) (h : bs.length = n) :
      HasType (.fixedBytes bs) (.fixedBytes n)
  | bytes {bs : List UInt8} (h : bs.length < 2 ^ 64) : HasType (.bytes bs) .bytes
  | string {s : String} (h : s.toByteArray.data.toList.length < 2 ^ 64) :
      HasType (.string s) .string
  | vec {t : AbiType} {items : List AbiValue} (hlen : items.length < 2 ^ 64)
      (h : ∀ item ∈ items, HasType item t) : HasType (.vec items) (.vec t)
  | array {t : AbiType} {items : List AbiValue} (n : Nat) (hlen : items.length = n)
      (h : ∀ item ∈ items, HasType item t) : HasType (.array items) (.array t n)
  | struct {fields : List AbiType} {values : List AbiValue} (h : FieldsHaveTypes values fields) :
      HasType (.struct values) (.struct fields)

/-- Field after field, the values have the fields' types. -/
inductive FieldsHaveTypes : List AbiValue → List AbiType → Prop
  | nil : FieldsHaveTypes [] []
  | cons {v : AbiValue} {t : AbiType} {vs : List AbiValue} {ts : List AbiType} :
      HasType v t → FieldsHaveTypes vs ts → FieldsHaveTypes (v :: vs) (t :: ts)

end

namespace AbiType

mutual

/-- The types the crate implements: `[u8; N]` for `2 ≤ N ≤ 32` (the `SolidityBytes` marks),
and here `[T; N]` for `N ≥ 1`. -/
def isValid : AbiType → Bool
  | .fixedBytes n => 2 ≤ n && n ≤ 32
  | .vec t => t.isValid
  | .array t n => 1 ≤ n && t.isValid
  | .struct fields => fieldsValid fields
  | _ => true

def fieldsValid : List AbiType → Bool
  | [] => true
  | f :: fs => f.isValid && fieldsValid fs

end

@[simp] theorem isValid_fixedBytes (n : Nat) : (fixedBytes n).isValid = (2 ≤ n && n ≤ 32) := rfl

@[simp] theorem isValid_vec (t : AbiType) : (vec t).isValid = t.isValid := rfl

@[simp] theorem isValid_array (t : AbiType) (n : Nat) :
    (array t n).isValid = (1 ≤ n && t.isValid) := rfl

@[simp] theorem isValid_struct (fields : List AbiType) :
    (struct fields).isValid = fieldsValid fields := rfl

@[simp] theorem fieldsValid_nil : fieldsValid [] = true := rfl

@[simp] theorem fieldsValid_cons (f : AbiType) (fs : List AbiType) :
    fieldsValid (f :: fs) = (f.isValid && fieldsValid fs) := rfl

mutual

/-- `STATIC_LENGTH`: the encoded size of a static type, `none` for a dynamic one. -/
def staticLength : AbiType → Option Nat
  | .bytes | .string | .vec _ => none
  | .array t n => t.staticLength.map (· * n)
  | .struct fields => fieldsStaticLength fields (some 0)
  | _ => some 32

/-- The derived `STATIC_LENGTH`: the sum of the fields', `none` once one is dynamic. -/
def fieldsStaticLength : List AbiType → Option Nat → Option Nat
  | [], answer => answer
  | f :: fs, answer =>
    fieldsStaticLength fs
      (match answer, f.staticLength with
        | some x, some y => some (x + y)
        | _, _ => none)

end

@[simp] theorem staticLength_array (t : AbiType) (n : Nat) :
    (array t n).staticLength = t.staticLength.map (· * n) := rfl

@[simp] theorem staticLength_struct (fields : List AbiType) :
    (struct fields).staticLength = fieldsStaticLength fields (some 0) := rfl

@[simp] theorem fieldsStaticLength_nil (answer : Option Nat) :
    fieldsStaticLength [] answer = answer := rfl

theorem fieldsStaticLength_cons (f : AbiType) (fs : List AbiType) (answer : Option Nat) :
    fieldsStaticLength (f :: fs) answer =
      fieldsStaticLength fs
        (match answer, f.staticLength with
          | some x, some y => some (x + y)
          | _, _ => none) := rfl

/-- The `heads_length` of a list of elements: `STATIC_LENGTH.unwrap_or(32)` summed. -/
def headsLength (ts : List AbiType) : Nat := (ts.map fun t => t.staticLength.getD 32).sum

end AbiType

/-- `ABIListWriter`; `LinkedBytes` are modelled by the byte lists they stand for. -/
structure ABIListWriter where
  headsLength : Nat
  heads : List UInt8
  tails : List UInt8

namespace ABIListWriter

def withHeadsLength (headsLength : Nat) : ABIListWriter := ⟨headsLength, [], []⟩

/-- `write_down`, given the element type's `STATIC_LENGTH` and the element's `to_abi`. The
source's `assert_eq!` on a static element's length is proved to hold (`length_toAbi`). -/
def writeDown (w : ABIListWriter) (staticLength : Option Nat) (encoded : List UInt8) :
    ABIListWriter :=
  match staticLength with
  | some _ => { w with heads := w.heads ++ encoded }
  | none =>
    { w with
      heads := w.heads ++ paddedBigEndian (w.tails.length + w.headsLength)
      tails := w.tails ++ encoded }

/-- `into_linked_bytes`: the heads, then the tails. -/
def intoLinkedBytes (w : ABIListWriter) : List UInt8 := w.heads ++ w.tails

end ABIListWriter

/-- `to_abi` of `Bytes`: the length word, the bytes, and zeros up to a multiple of 32. -/
def bytesToAbi (bs : List UInt8) : List UInt8 :=
  paddedBigEndian bs.length ++ bs ++ List.replicate (31 - (bs.length + 31) % 32) 0

/-- `to_abi` of `[u8; N]`: the bytes, padded with zeros to 32. -/
def fixedBytesToAbi (n : Nat) (bs : List UInt8) : List UInt8 := bs ++ List.replicate (32 - n) 0

namespace AbiType

mutual

/-- `to_abi`. An argument outside its type (which the Rust types exclude) encodes to nothing. -/
def toAbi : AbiType → AbiValue → List UInt8
  | .address, .address a => List.replicate 12 0 ++ a.bytes
  | .u256, .u256 x => beBytes 32 x.val
  | .h256, .h256 h => fixedBytesToAbi 32 h.bytes
  | .bool, .bool b => List.replicate 31 0 ++ [if b then 1 else 0]
  | .uint ty, .uint x => List.replicate (32 - ty.byteCount) 0 ++ beBytes ty.byteCount x
  | .fixedBytes n, .fixedBytes bs => fixedBytesToAbi n bs
  | .bytes, .bytes bs => bytesToAbi bs
  | .string, .string s => bytesToAbi s.toByteArray.data.toList
  | .vec t, .vec items =>
    paddedBigEndian items.length ++
      (items.foldl (fun (w : ABIListWriter) item => w.writeDown t.staticLength (t.toAbi item))
        (ABIListWriter.withHeadsLength (t.staticLength.getD 32 * items.length))).intoLinkedBytes
  | .array t n, .array items =>
    (items.foldl (fun (w : ABIListWriter) item => w.writeDown t.staticLength (t.toAbi item))
      (ABIListWriter.withHeadsLength (t.staticLength.getD 32 * n))).intoLinkedBytes
  | .struct fields, .struct values =>
    (fieldsWriteDown fields values (ABIListWriter.withHeadsLength (headsLength fields))).intoLinkedBytes
  | _, _ => []

/-- The derived `to_abi`'s `recorder.write_down(&self.field)`, field after field. -/
def fieldsWriteDown : List AbiType → List AbiValue → ABIListWriter → ABIListWriter
  | f :: fs, v :: vs, w => fieldsWriteDown fs vs (w.writeDown f.staticLength (f.toAbi v))
  | _, _, w => w

end

/-! One equation per impl, so that proofs never unfold `toAbi` itself. -/

@[simp] theorem toAbi_address (a : Address) :
    toAbi .address (.address a) = List.replicate 12 0 ++ a.bytes := rfl

@[simp] theorem toAbi_u256 (x : U256) : toAbi .u256 (.u256 x) = beBytes 32 x.val := rfl

@[simp] theorem toAbi_h256 (h : H256) : toAbi .h256 (.h256 h) = fixedBytesToAbi 32 h.bytes := rfl

@[simp] theorem toAbi_bool (b : Bool) :
    toAbi .bool (.bool b) = List.replicate 31 0 ++ [if b then 1 else 0] := rfl

@[simp] theorem toAbi_uint (ty : UIntType) (x : Nat) :
    toAbi (.uint ty) (.uint x) = List.replicate (32 - ty.byteCount) 0 ++ beBytes ty.byteCount x :=
  rfl

@[simp] theorem toAbi_fixedBytes (n : Nat) (bs : List UInt8) :
    toAbi (.fixedBytes n) (.fixedBytes bs) = fixedBytesToAbi n bs := rfl

@[simp] theorem toAbi_bytes (bs : List UInt8) : toAbi .bytes (.bytes bs) = bytesToAbi bs := rfl

@[simp] theorem toAbi_string (s : String) :
    toAbi .string (.string s) = bytesToAbi s.toByteArray.data.toList := rfl

theorem toAbi_vec (t : AbiType) (items : List AbiValue) :
    toAbi (.vec t) (.vec items) =
      paddedBigEndian items.length ++
        (items.foldl (fun (w : ABIListWriter) item => w.writeDown t.staticLength (t.toAbi item))
          (ABIListWriter.withHeadsLength (t.staticLength.getD 32 * items.length))).intoLinkedBytes :=
  rfl

theorem toAbi_array (t : AbiType) (n : Nat) (items : List AbiValue) :
    toAbi (.array t n) (.array items) =
      (items.foldl (fun (w : ABIListWriter) item => w.writeDown t.staticLength (t.toAbi item))
        (ABIListWriter.withHeadsLength (t.staticLength.getD 32 * n))).intoLinkedBytes := rfl

theorem toAbi_struct (fields : List AbiType) (values : List AbiValue) :
    toAbi (.struct fields) (.struct values) =
      (fieldsWriteDown fields values (ABIListWriter.withHeadsLength (headsLength fields))).intoLinkedBytes :=
  rfl

@[simp] theorem fieldsWriteDown_cons (f : AbiType) (fs : List AbiType) (v : AbiValue)
    (vs : List AbiValue) (w : ABIListWriter) :
    fieldsWriteDown (f :: fs) (v :: vs) w = fieldsWriteDown fs vs (w.writeDown f.staticLength (f.toAbi v)) :=
  rfl

@[simp] theorem fieldsWriteDown_nil_left (vs : List AbiValue) (w : ABIListWriter) :
    fieldsWriteDown [] vs w = w := rfl

@[simp] theorem fieldsWriteDown_nil_right (fs : List AbiType) (w : ABIListWriter) :
    fieldsWriteDown fs [] w = w := by
  cases fs <;> rfl

end AbiType

/-- `read_abi_list`, given the element type's `STATIC_LENGTH` and its `from_abi`: a static
element is read in place, a dynamic one at the location its head word gives in `data`. -/
def readAbiList (staticLength : Option Nat) (fromAbi : List UInt8 → Except ABIDecodeError AbiValue)
    (data pointer : List UInt8) : Except ABIDecodeError (AbiValue × List UInt8) :=
  match staticLength with
  | some len =>
    pullSlice pointer len "Incomplete static input parameter" >>= fun (res, pointer) =>
      (fromAbi res).map (·, pointer)
  | none =>
    pullSlice pointer 32 "Incomplete location for dynamic input parameter" >>=
      fun (location, pointer) =>
        abiRequire (decide (ofBeBytes location < data.length)) "Location out of bounds" >>= fun () =>
          (fromAbi (data.drop (ofBeBytes location))).map (·, pointer)

/-- The loops of `Vec<T>::from_abi` and `[T; N]::from_abi`: `count` elements, in order. -/
def readAbiListN (staticLength : Option Nat)
    (fromAbi : List UInt8 → Except ABIDecodeError AbiValue) (data : List UInt8) :
    Nat → List UInt8 → Except ABIDecodeError (List AbiValue × List UInt8)
  | 0, pointer => .ok ([], pointer)
  | count + 1, pointer =>
    readAbiList staticLength fromAbi data pointer >>= fun (item, pointer) =>
      readAbiListN staticLength fromAbi data count pointer >>= fun (items, pointer) =>
        .ok (item :: items, pointer)

/-- `from_abi` of `Bytes`. -/
def bytesFromAbi (data : List UInt8) : Except ABIDecodeError (List UInt8) :=
  pullSlice data 32 "Incomplete length for byte array" >>= fun (expectedLength, dataWithoutLength) =>
    if dataWithoutLength.length < ofBeBytes expectedLength then
      .error ⟨"Invalid length in byte array"⟩
    else .ok (dataWithoutLength.take (ofBeBytes expectedLength))

/-- `from_abi` of `[u8; N]`: the first `N` bytes. -/
def fixedBytesFromAbi (n : Nat) (data : List UInt8) : Except ABIDecodeError (FixedBytes n) :=
  if h : data.length < n then .error ⟨"Invalid length in byte array"⟩
  else .ok ⟨data.take n, by simp only [List.length_take]; omega⟩

/-- `from_utf8`, on the bytes `from_abi` of `Bytes` read. -/
def stringFromUtf8 (bs : List UInt8) : Except ABIDecodeError String :=
  match String.fromUTF8? bs.toByteArray with
  | some s => .ok s
  | none => .error ⟨"Utf8 decoding error"⟩

namespace AbiType

mutual

/-- `from_abi`. The basic types' impls take exactly the 32 bytes `read_abi_list` hands them. -/
def fromAbi : AbiType → List UInt8 → Except ABIDecodeError AbiValue
  | .address, data =>
    if h : data.length = 32 then .ok (.address ⟨(data.drop 12).take 20, by simp [h]⟩)
    else .error ⟨"Invalid call data length"⟩
  | .u256, data =>
    abiRequire (data.length == 32) "Invalid call data length" >>= fun () =>
      .ok (.u256 (Fin.ofNat _ (ofBeBytes data)))
  | .h256, data => (fixedBytesFromAbi 32 data).map .h256
  | .bool, data =>
    abiRequire (data.length == 32) "Invalid call data length" >>= fun () =>
      .ok (.bool (data.getD 31 0 != 0))
  | .uint ty, data =>
    abiRequire (data.length == 32) "Invalid call data length" >>= fun () =>
      .ok (.uint (ofBeBytes (data.drop (32 - ty.byteCount))))
  | .fixedBytes n, data => (fixedBytesFromAbi n data).map fun bs => .fixedBytes bs.bytes
  | .bytes, data => (bytesFromAbi data).map .bytes
  | .string, data => bytesFromAbi data >>= fun bs => (stringFromUtf8 bs).map .string
  | .vec t, data =>
    pullSlice data 32 "Incomplete length for dynamic input parameter" >>=
      fun (expectedLength, dataWithoutLength) =>
        (readAbiListN t.staticLength t.fromAbi dataWithoutLength (ofBeBytes expectedLength)
          dataWithoutLength).map fun (items, _) => .vec items
  | .array t n, data => (readAbiListN t.staticLength t.fromAbi data n data).map fun (items, _) =>
    .array items
  | .struct fields, data => (fieldsFromAbi fields data data).map fun (values, _) => .struct values

/-- The derived `from_abi`'s `read_abi_list(data, &mut pointer)?`, field after field. -/
def fieldsFromAbi : List AbiType → List UInt8 → List UInt8 →
    Except ABIDecodeError (List AbiValue × List UInt8)
  | [], _, pointer => .ok ([], pointer)
  | f :: fs, data, pointer =>
    readAbiList f.staticLength f.fromAbi data pointer >>= fun (value, pointer) =>
      fieldsFromAbi fs data pointer >>= fun (values, pointer) => .ok (value :: values, pointer)

end

theorem fromAbi_address (data : List UInt8) :
    fromAbi .address data =
      if h : data.length = 32 then .ok (.address ⟨(data.drop 12).take 20, by simp [h]⟩)
      else .error ⟨"Invalid call data length"⟩ := rfl

theorem fromAbi_u256 (data : List UInt8) :
    fromAbi .u256 data =
      (abiRequire (data.length == 32) "Invalid call data length" >>= fun () =>
        .ok (.u256 (Fin.ofNat _ (ofBeBytes data)))) := rfl

theorem fromAbi_h256 (data : List UInt8) :
    fromAbi .h256 data = (fixedBytesFromAbi 32 data).map .h256 := rfl

theorem fromAbi_bool (data : List UInt8) :
    fromAbi .bool data =
      (abiRequire (data.length == 32) "Invalid call data length" >>= fun () =>
        .ok (.bool (data.getD 31 0 != 0))) := rfl

theorem fromAbi_uint (ty : UIntType) (data : List UInt8) :
    fromAbi (.uint ty) data =
      (abiRequire (data.length == 32) "Invalid call data length" >>= fun () =>
        .ok (.uint (ofBeBytes (data.drop (32 - ty.byteCount))))) := rfl

theorem fromAbi_fixedBytes (n : Nat) (data : List UInt8) :
    fromAbi (.fixedBytes n) data = (fixedBytesFromAbi n data).map fun bs => .fixedBytes bs.bytes :=
  rfl

theorem fromAbi_bytes (data : List UInt8) : fromAbi .bytes data = (bytesFromAbi data).map .bytes :=
  rfl

theorem fromAbi_string (data : List UInt8) :
    fromAbi .string data = (bytesFromAbi data >>= fun bs => (stringFromUtf8 bs).map .string) := rfl

theorem fromAbi_vec (t : AbiType) (data : List UInt8) :
    fromAbi (.vec t) data =
      (pullSlice data 32 "Incomplete length for dynamic input parameter" >>=
        fun (expectedLength, dataWithoutLength) =>
          (readAbiListN t.staticLength t.fromAbi dataWithoutLength (ofBeBytes expectedLength)
            dataWithoutLength).map fun (items, _) => .vec items) := rfl

theorem fromAbi_array (t : AbiType) (n : Nat) (data : List UInt8) :
    fromAbi (.array t n) data =
      (readAbiListN t.staticLength t.fromAbi data n data).map fun (items, _) => .array items := rfl

theorem fromAbi_struct (fields : List AbiType) (data : List UInt8) :
    fromAbi (.struct fields) data =
      (fieldsFromAbi fields data data).map fun (values, _) => .struct values := rfl

@[simp] theorem fieldsFromAbi_nil (data pointer : List UInt8) :
    fieldsFromAbi [] data pointer = .ok ([], pointer) := rfl

theorem fieldsFromAbi_cons (f : AbiType) (fs : List AbiType) (data pointer : List UInt8) :
    fieldsFromAbi (f :: fs) data pointer =
      (readAbiList f.staticLength f.fromAbi data pointer >>= fun (value, pointer) =>
        fieldsFromAbi fs data pointer >>= fun (values, pointer) => .ok (value :: values, pointer)) :=
  rfl

end AbiType

/-- `abi_encode` of a value (`impl<T: ABIVariable> ABIEncodable for T`) and of a tuple
(`impl_abi_serde!`), given the element types: one heads/tails list. -/
def abiEncode (ts : List AbiType) (vs : List AbiValue) : List UInt8 :=
  (AbiType.fieldsWriteDown ts vs (.withHeadsLength (AbiType.headsLength ts))).intoLinkedBytes

/-- `abi_decode` of a value and of a tuple: the elements read with one pointer. -/
def abiDecode (ts : List AbiType) (data : List UInt8) : Except ABIDecodeError (List AbiValue) :=
  (AbiType.fieldsFromAbi ts data data).map Prod.fst

end Hemvm.SolidityAbi
