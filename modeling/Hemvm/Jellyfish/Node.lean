import Mathlib
import Hemvm.Bits.Word
import Hemvm.Jellyfish.NodeKey

/-! `Node` of `jellyfish-merkle` (`storage/jellyfish-merkle/src/node_type/mod.rs`) and its
storage encoding: a tag byte, then for an internal node its existence and leaf bitmaps and one
record per child in the order of the bitmap (the version as a varint, the hash, and for a child
that is not a leaf its leaf count as a varint), and for a leaf node its BCS serialization, which
enters as a parameter. Every node the tree can build (`Null`, a leaf, an internal node that
`new_impl` accepts) decodes back from its encoding when the leaf's BCS codec round-trips. -/
namespace Hemvm.Jellyfish
open Codec

/-! ### Varints

`serialize_u64_varint` writes seven bits a byte, least significant first, with the high bit
set while more bytes follow; after eight such bytes the rest of the number, at most eight bits,
is written raw. -/

section Varint

/-- The bytes `serialize_u64_varint` pushes in its last `fuel` rounds, then the raw byte. -/
def serializeU64VarintLoop : Nat → UInt64 → Except Failure (List UInt8)
  | 0, num => do
    assertion (num ≠ 0) "assertion `left != right` failed"
    assertion (num ≤ 0xFF) "assertion failed: num <= 0xFF"
    pure [num.toUInt8]
  | fuel + 1, num =>
    let lowBits := num.toUInt8 &&& 0x7F
    let num := num >>> 7
    let more : UInt8 := if num = 0 then 0 else 0x80
    if more = 0 then pure [lowBits ||| more]
    else ([lowBits ||| more] ++ ·) <$> serializeU64VarintLoop fuel num

/-- `serialize_u64_varint(num, binary)`. -/
def serializeU64Varint (num : UInt64) (binary : List UInt8) : Except Failure (List UInt8) :=
  (binary ++ ·) <$> serializeU64VarintLoop 8 num

/-- `deserialize_u64_varint` from round `i` on, with `fuel` rounds left and `num` read so far:
seven bits a byte at shift `7 i` while the high bit is set, then a raw byte at shift 56. -/
def deserializeU64VarintLoop :
    Nat → Nat → UInt64 → List UInt8 → Except Failure (UInt64 × List UInt8)
  | 0, _, num, input => do
    let (byte, rest) ← readU8 input
    pure (num ||| byte.toUInt64 <<< 56, rest)
  | fuel + 1, i, num, input => do
    let (byte, rest) ← readU8 input
    let num := num ||| (byte &&& 0x7F).toUInt64 <<< (i * 7).toUInt64
    if byte &&& 0x80 = 0 then pure (num, rest)
    else deserializeU64VarintLoop fuel (i + 1) num rest

/-- `deserialize_u64_varint`. -/
def deserializeU64Varint (input : List UInt8) : Except Failure (UInt64 × List UInt8) :=
  deserializeU64VarintLoop 8 0 0 input

theorem toNat_lowBits (x : UInt64) : (x.toUInt8 &&& 0x7F).toNat = x.toNat % 128 := by
  rw [UInt8.toNat_and, UInt64.toNat_toUInt8, show (0x7F : UInt8).toNat = 2 ^ 7 - 1 from rfl,
    Nat.and_two_pow_sub_one_eq_mod, Nat.mod_mod_of_dvd _ (by decide)]

theorem toNat_shiftRight_seven (x : UInt64) : (x >>> 7).toNat = x.toNat / 128 := by
  rw [UInt64.toNat_shiftRight, Nat.shiftRight_eq_div_pow]
  rfl

theorem toNat_or_more {b : UInt8} (hb : b.toNat < 128) : (b ||| 0x80).toNat = b.toNat + 128 := by
  rw [UInt8.toNat_or, show (0x80 : UInt8).toNat = 2 ^ 7 * 1 from rfl, Nat.or_comm,
    ← Nat.two_pow_add_eq_or_of_lt hb]
  omega

theorem toNat_and_0x7F (b : UInt8) : (b &&& 0x7F).toNat = b.toNat % 128 := by
  rw [UInt8.toNat_and, show (0x7F : UInt8).toNat = 2 ^ 7 - 1 from rfl,
    Nat.and_two_pow_sub_one_eq_mod]

theorem and_0x80_eq_zero_iff (b : UInt8) : b &&& 0x80 = 0 ↔ b.toNat < 128 := by
  have hbyte : ∀ a : Fin 256, (a.val &&& 128 = 0) ↔ a.val < 128 := by decide +kernel
  rw [← UInt8.toNat_inj, UInt8.toNat_and]
  exact hbyte ⟨b.toNat, b.toNat_lt⟩

/-- Or-ing seven or eight bits in above the bits read so far adds them. -/
theorem toNat_or_shiftLeft {acc : UInt64} {y : UInt8} {k : Nat} (hk : k < 64)
    (hacc : acc.toNat < 2 ^ k) (hfit : 2 ^ k * y.toNat < 2 ^ 64) :
    (acc ||| y.toUInt64 <<< k.toUInt64).toNat = acc.toNat + 2 ^ k * y.toNat := by
  have hshift : (y.toUInt64 <<< k.toUInt64).toNat = 2 ^ k * y.toNat := by
    rw [UInt64.toNat_shiftLeft, UInt8.toNat_toUInt64, Nat.shiftLeft_eq, Nat.toUInt64_eq,
      UInt64.toNat_ofNat', Nat.mod_eq_of_lt (by omega : k < 2 ^ 64), Nat.mod_eq_of_lt hk,
      Nat.mul_comm, Nat.mod_eq_of_lt hfit]
  rw [UInt64.toNat_or, hshift, Nat.or_comm, ← Nat.two_pow_add_eq_or_of_lt hacc]
  omega

/-- The round trip of the varint loops, round by round: with the bits of `V` below `7 i`
read into `acc` and those above still to write in `x`, the bytes the writer pushes are read
back as `V`, past any bytes that follow. -/
theorem deserializeU64VarintLoop_serialize {V : Nat} (hV : V < 2 ^ 64) :
    ∀ fuel i (x acc : UInt64), i + fuel = 8 → x.toNat = V / 2 ^ (7 * i) →
      acc.toNat = V % 2 ^ (7 * i) → (fuel = 0 → x ≠ 0) →
      ∃ bytes, serializeU64VarintLoop fuel x = .ok bytes ∧
        ∀ rest, deserializeU64VarintLoop fuel i acc (bytes ++ rest) = .ok (UInt64.ofNat V, rest)
  | 0, i, x, acc, hi, hx, hacc, hne => by
    -- the raw ninth byte holds the top eight bits
    obtain rfl : i = 8 := by omega
    rw [show 7 * 8 = 56 from rfl] at hx hacc
    have hsplit := Nat.div_add_mod V (2 ^ 56)
    have htop : x.toNat < 256 := by rw [hx]; omega
    have hbyte : x.toUInt8.toNat = x.toNat := by simpa using htop
    refine ⟨[x.toUInt8], ?_, fun rest => ?_⟩
    · simp [serializeU64VarintLoop, assertion_of_pos (hne rfl),
        assertion_of_pos ((UInt64.le_iff_toNat_le (a := x) (b := 0xFF)).mpr
          (show x.toNat ≤ 255 by omega))]
    · have hout := toNat_or_shiftLeft (y := x.toUInt8) (k := 56) (by omega)
        (show acc.toNat < 2 ^ 56 by omega) (by rw [hbyte, hx]; omega)
      rw [show ((56 : Nat).toUInt64) = 56 from rfl] at hout
      have hvalue : acc ||| x.toUInt8.toUInt64 <<< 56 = UInt64.ofNat V :=
        UInt64.toNat_inj.mp (by
          rw [hout, UInt64.toNat_ofNat', Nat.mod_eq_of_lt hV, hbyte, hx, hacc]
          omega)
      simp only [deserializeU64VarintLoop, List.singleton_append, readU8_cons, Control.ok_bind,
        hvalue]
      rfl
  | fuel + 1, i, x, acc, hi, hx, hacc, _ => by
    have hpow : 2 ^ (7 * (i + 1)) = 2 ^ (7 * i) * 128 := by
      rw [show 7 * (i + 1) = 7 * i + 7 by omega, Nat.pow_add]
    have hpos : 0 < 2 ^ (7 * i) := Nat.two_pow_pos _
    have hlow := toNat_lowBits x
    have hnext : (x >>> 7).toNat = V / 2 ^ (7 * (i + 1)) := by
      rw [toNat_shiftRight_seven, hx, hpow, Nat.div_div_eq_div_mul]
    -- the seven bits of this round go in at shift `7 i`
    have hfit : 2 ^ (7 * i) * (x.toNat % 128) ≤ V := by
      have h1 := Nat.mul_le_mul_left (2 ^ (7 * i)) (Nat.mod_le x.toNat 128)
      have h2 := Nat.div_mul_le_self V (2 ^ (7 * i))
      rw [hx] at h1 ⊢
      rw [Nat.mul_comm] at h2
      omega
    have hread : ∀ b : UInt8, (b &&& 0x7F).toNat = x.toNat % 128 →
        (acc ||| (b &&& 0x7F).toUInt64 <<< (i * 7).toUInt64).toNat = V % 2 ^ (7 * (i + 1)) := by
      intro b hb
      have hlt : acc.toNat < 2 ^ (7 * i) := by
        rw [hacc]
        exact Nat.mod_lt _ hpos
      rw [show i * 7 = 7 * i by omega, toNat_or_shiftLeft (by omega) hlt (by rw [hb]; omega), hb,
        hacc, hpow, Nat.mod_mul, hx]
    by_cases hlast : x >>> 7 = 0
    · -- the last byte: no continuation bit
      have hsmall : V < 2 ^ (7 * (i + 1)) := by
        rw [hlast, UInt64.toNat_zero, eq_comm, Nat.div_eq_zero_iff] at hnext
        omega
      have hcont : x.toUInt8 &&& 0x7F &&& 0x80 = 0 :=
        (and_0x80_eq_zero_iff _).mpr (by rw [hlow]; omega)
      have hvalue : acc ||| (x.toUInt8 &&& 0x7F &&& 0x7F).toUInt64 <<< (i * 7).toUInt64 =
          UInt64.ofNat V :=
        UInt64.toNat_inj.mp (by
          rw [hread _ (by rw [toNat_and_0x7F, hlow]; omega), Nat.mod_eq_of_lt hsmall,
            UInt64.toNat_ofNat', Nat.mod_eq_of_lt hV])
      refine ⟨[x.toUInt8 &&& 0x7F], by simp [serializeU64VarintLoop, hlast]; rfl, fun rest => ?_⟩
      simp only [deserializeU64VarintLoop, List.singleton_append, readU8_cons, Control.ok_bind,
        if_pos hcont, hvalue]
      rfl
    · -- a continuation byte, then the rest of the number
      have hbval : (x.toUInt8 &&& 0x7F ||| 0x80).toNat = x.toNat % 128 + 128 := by
        rw [toNat_or_more (by rw [hlow]; omega), hlow]
      have hb7 : ((x.toUInt8 &&& 0x7F ||| 0x80) &&& 0x7F).toNat = x.toNat % 128 := by
        rw [toNat_and_0x7F, hbval]
        omega
      have hcont : ¬ (x.toUInt8 &&& 0x7F ||| 0x80) &&& 0x80 = 0 := by
        rw [and_0x80_eq_zero_iff, hbval]
        omega
      obtain ⟨bytes, hser, hde⟩ := deserializeU64VarintLoop_serialize hV fuel (i + 1) (x >>> 7)
        _ (by omega) hnext (hread _ hb7) (fun _ => hlast)
      refine ⟨(x.toUInt8 &&& 0x7F ||| 0x80) :: bytes, ?_, fun rest => ?_⟩
      · simp [serializeU64VarintLoop, hlast, hser]
      · simp only [deserializeU64VarintLoop, List.cons_append, readU8_cons, Control.ok_bind,
          if_neg hcont]
        exact hde rest

/-- Every `u64` has a varint encoding, which `deserialize_u64_varint` reads back past any bytes
that follow it. -/
theorem serializeU64Varint_spec (num : UInt64) :
    ∃ bytes, (∀ binary, serializeU64Varint num binary = .ok (binary ++ bytes)) ∧
      ∀ rest, deserializeU64Varint (bytes ++ rest) = .ok (num, rest) := by
  obtain ⟨bytes, hser, hde⟩ := deserializeU64VarintLoop_serialize num.toNat_lt 8 0 num 0 rfl
    (by simp) (by simp [Nat.mod_one]) (by omega)
  refine ⟨bytes, fun binary => by rw [serializeU64Varint, hser]; rfl, fun rest => ?_⟩
  rw [deserializeU64Varint, hde rest, UInt64.ofNat_toNat]

end Varint

/-! ### Internal nodes -/

/-- `NodeType`; `usize` is 64 bits wide. -/
inductive NodeType where
  | leaf
  | null
  | internal (leafCount : UInt64)
deriving DecidableEq, Repr

/-- `Child`. -/
structure Child where
  hash : H256
  version : UInt64
  nodeType : NodeType
deriving DecidableEq

namespace Child

/-- `Child::is_leaf`. -/
def isLeaf (child : Child) : Bool :=
  match child.nodeType with
  | .leaf => true
  | _ => false

/-- `Child::leaf_count`, unreachable for a `Null` child. -/
def leafCount (child : Child) : Except Failure UInt64 :=
  match child.nodeType with
  | .leaf => .ok 1
  | .internal leafCount => .ok leafCount
  | .null => .error (.panic "internal error: entered unreachable code: Child cannot be Null")

end Child

/-- `InternalNode`: the children at each nibble and the number of leaves under them. -/
structure InternalNode where
  children : Nibble → Option Child
  leafCount : UInt64
deriving DecidableEq

/-- `usize + usize`, which panics on overflow. -/
def addUsize (a b : UInt64) : Except Failure UInt64 :=
  if a.toNat + b.toNat < 2 ^ 64 then .ok (a + b) else .error (.panic "attempt to add with overflow")

/-- The children of a map, in increasing order of their nibbles. -/
def childValues (children : Nibble → Option Child) : List Child := Nibble.all.filterMap children

/-- The check of `new_impl` on an only child. -/
def checkOnlyChild : List Child → Except Failure Unit
  | [only] => ensure (only.isLeaf = false) "If there's only one child, it must not be a leaf."
  | _ => .ok ()

/-- `1u16 << next_child`, which panics past the width. -/
def shiftLeftOne (shift : UInt8) : Except Failure UInt16 :=
  if shift < 16 then .ok ((1 : UInt16) <<< shift.toUInt16)
  else .error (.panic "attempt to shift left with overflow")

/-- `self.children[&nibble]`, which panics on a missing key. -/
def indexChildren (children : Nibble → Option Child) (nibble : Nibble) : Except Failure Child :=
  match children nibble with
  | some child => .ok child
  | none => .error (.panic "no entry found for key")

/-- `HashValue::from_slice`. -/
def hashValueFromSlice (bytes : List UInt8) : Except Failure H256 :=
  if h : bytes.length = 32 then .ok ⟨bytes, h⟩ else .error (.error "unable to parse HashValue")

/-- The bit of a nibble in a bitmap. -/
def nibbleBit (nibble : Nibble) : UInt16 := (1 : UInt16) <<< nibble.val.toUInt16

/-- One round of the loop of `generate_bitmaps`. -/
def addChildBits (children : Nibble → Option Child) (bitmaps : UInt16 × UInt16) (nibble : Nibble) :
    UInt16 × UInt16 :=
  match children nibble with
  | some child => (bitmaps.1 ||| nibbleBit nibble,
      if child.isLeaf then bitmaps.2 ||| nibbleBit nibble else bitmaps.2)
  | none => bitmaps

namespace InternalNode

/-- `InternalNode::new_impl`: at least one child, not a lone leaf, and the leaf counts summed. -/
def newImpl (children : Nibble → Option Child) : Except Failure InternalNode := do
  let values := childValues children
  ensure (values ≠ []) "Children must not be empty"
  checkOnlyChild values
  let counts ← values.mapM Child.leafCount
  let leafCount ← counts.foldlM addUsize 0
  pure ⟨children, leafCount⟩

/-- `generate_bitmaps`. -/
def generateBitmaps (node : InternalNode) : Except Failure (UInt16 × UInt16) := do
  let (existenceBitmap, leafBitmap) := Nibble.all.foldl (addChildBits node.children) (0, 0)
  assertion (existenceBitmap ||| leafBitmap = existenceBitmap) "assertion `left == right` failed"
  pure (existenceBitmap, leafBitmap)

/-- The record `serialize` writes for one child: the version, the hash, and the leaf count of a
child that is not a leaf. -/
def serializeChild (child : Child) (binary : List UInt8) : Except Failure (List UInt8) := do
  let binary ← serializeU64Varint child.version binary
  let binary := binary ++ child.hash.bytes
  match child.nodeType with
  | .leaf => pure binary
  | .internal leafCount => serializeU64Varint leafCount binary
  | .null => .error (.panic "internal error: entered unreachable code: Child cannot be Null")

/-- The loop of `serialize`: `k` rounds, each writing the child at the lowest bit still set in
`existenceBitmap` and clearing that bit. -/
def serializeChildren (children : Nibble → Option Child) :
    Nat → UInt16 → List UInt8 → Except Failure (List UInt8)
  | 0, _, binary => pure binary
  | k + 1, existenceBitmap, binary => do
    let nextChild := (Bits.ctz 16 existenceBitmap.toNat).toUInt8
    let nibble ← Nibble.from nextChild
    let child ← indexChildren children nibble
    let binary ← serializeChild child binary
    serializeChildren children k (existenceBitmap &&& ~~~((1 : UInt16) <<< nextChild.toUInt16))
      binary

/-- `InternalNode::serialize`: the two bitmaps in little-endian order, then the records. -/
def serialize (node : InternalNode) (binary : List UInt8) : Except Failure (List UInt8) := do
  let (existenceBitmap, leafBitmap) ← node.generateBitmaps
  let binary := binary ++ leBytes 2 existenceBitmap.toNat ++ leBytes 2 leafBitmap.toNat
  serializeChildren node.children (Bits.countOnes 16 existenceBitmap.toNat) existenceBitmap binary

/-- The record `deserialize` reads for the child at `nextChild`, with `childrenLeft` bits still
set for its error message. -/
def deserializeChild (leafBitmap : UInt16) (nextChild : UInt8) (childrenLeft : Nat)
    (input : List UInt8) : Except Failure (Child × List UInt8) := do
  let (version, rest) ← deserializeU64Varint input
  let remaining := rest.length
  ensure (remaining ≥ 32)
    ("not enough bytes left, children: " ++ toString childrenLeft ++ ", bytes: " ++
      toString remaining)
  let hash ← hashValueFromSlice (rest.take 32)
  let rest := rest.drop 32
  let childBit ← shiftLeftOne nextChild
  let (nodeType, rest) ← if leafBitmap &&& childBit ≠ 0 then pure (NodeType.leaf, rest)
    else do
      let (leafCount, rest) ← deserializeU64Varint rest
      pure (NodeType.internal leafCount, rest)
  pure (⟨hash, version, nodeType⟩, rest)

/-- The loop of `deserialize`: `k` rounds, each reading the child at the lowest bit still set
in `existenceBitmap` and clearing that bit. -/
def deserializeChildren (leafBitmap : UInt16) :
    Nat → UInt16 → (Nibble → Option Child) → List UInt8 →
      Except Failure ((Nibble → Option Child) × UInt16)
  | 0, existenceBitmap, children, _ => pure (children, existenceBitmap)
  | k + 1, existenceBitmap, children, input => do
    let nextChild := (Bits.ctz 16 existenceBitmap.toNat).toUInt8
    let (child, rest) ← deserializeChild leafBitmap nextChild
      (Bits.countOnes 16 existenceBitmap.toNat) input
    let nibble ← Nibble.from nextChild
    deserializeChildren leafBitmap k (existenceBitmap &&& ~~~((1 : UInt16) <<< nextChild.toUInt16))
      (Function.update children nibble (some child)) rest

/-- The checks of `deserialize` on the two bitmaps. -/
def checkBitmaps (existenceBitmap leafBitmap : UInt16) : Except Failure Unit :=
  if existenceBitmap = 0 then .error (.error "No children found in internal node")
  else if existenceBitmap &&& leafBitmap ≠ leafBitmap then
    .error (.error ("Non-existent leaf bits set, existing: " ++ toString existenceBitmap ++
      ", leaves: " ++ toString leafBitmap))
  else .ok ()

/-- `InternalNode::deserialize`; bytes after the last record are not read. -/
def deserialize (data : List UInt8) : Except Failure InternalNode := do
  let (existenceBitmap, rest) ← readU16Le data
  let (leafBitmap, rest) ← readU16Le rest
  checkBitmaps existenceBitmap leafBitmap
  let (children, existenceBitmap) ← deserializeChildren leafBitmap
    (Bits.countOnes 16 existenceBitmap.toNat) existenceBitmap (fun _ => none) rest
  assertion (existenceBitmap = 0) "assertion `left == right` failed"
  newImpl children

end InternalNode

/-! ### Bitmaps

A bitmap of sixteen bits has one bit per nibble. -/

section Bitmaps

theorem toNat_one_shiftLeft {x : UInt8} (hx : x.toNat < 16) :
    ((1 : UInt16) <<< x.toUInt16).toNat = 2 ^ x.toNat := by
  rw [UInt16.toNat_shiftLeft, UInt8.toNat_toUInt16, Nat.mod_eq_of_lt hx,
    show (1 : UInt16).toNat = 1 from rfl, Nat.one_shiftLeft,
    Nat.mod_eq_of_lt (Nat.pow_lt_pow_right (by decide) hx)]

theorem toNat_nibbleBit (n : Nibble) : (nibbleBit n).toNat = 2 ^ n.val.toNat :=
  toNat_one_shiftLeft n.toNat_lt

/-- Two bitmaps are equal when they agree at every nibble. -/
theorem bitmap_ext {x y : UInt16}
    (h : ∀ n : Nibble, x.toNat.testBit n.val.toNat = y.toNat.testBit n.val.toNat) : x = y :=
  UInt16.toNat_inj.mp (Bits.eq_of_testBit_lt x.toNat_lt y.toNat_lt fun i hi => by
    simpa using h (Nibble.ofFin ⟨i, hi⟩))

/-- Clearing the bit at `t` keeps the others. -/
theorem testBit_clear (e : UInt16) {t : Nat} (ht : t < 16) (i : Nat) :
    (e &&& ~~~((1 : UInt16) <<< t.toUInt8.toUInt16)).toNat.testBit i =
      (e.toNat.testBit i && decide (i ≠ t)) := by
  have htoNat : t.toUInt8.toNat = t := by simp; omega
  have hbit := toNat_one_shiftLeft (x := t.toUInt8) (by omega)
  rw [htoNat] at hbit
  rw [UInt16.toNat_and, UInt16.toNat_not, hbit, show UInt16.size = 2 ^ 16 from rfl,
    Nat.testBit_and, Bits.testBit_two_pow_sub_one_sub (Nat.pow_lt_pow_right (by decide) ht),
    Nat.testBit_two_pow]
  by_cases hi : i < 16
  · rcases eq_or_ne i t with rfl | hit
    · simp
    · simp [hi, hit, Ne.symm hit]
  · simp [hi, Nat.testBit_lt_two_pow (Nat.lt_of_lt_of_le e.toNat_lt
      (Nat.pow_le_pow_right (by decide : 0 < 2) (show 16 ≤ i by omega)))]

/-- The leaf bit of a child decides how its record is read. -/
theorem and_nibbleBit_ne_zero_iff (l : UInt16) {x : UInt8} (hx : x.toNat < 16) :
    l &&& (1 : UInt16) <<< x.toUInt16 ≠ 0 ↔ l.toNat.testBit x.toNat = true := by
  rw [ne_eq, ← UInt16.toNat_inj, UInt16.toNat_and, toNat_one_shiftLeft hx, Nat.land_comm,
    Nat.two_pow_and, show (0 : UInt16).toNat = 0 from rfl]
  cases l.toNat.testBit x.toNat <;> simp

theorem addChildBits_testBit (children : Nibble → Option Child) (acc : UInt16 × UInt16)
    (n : Nibble) (i : Nat) :
    (addChildBits children acc n).1.toNat.testBit i =
        (acc.1.toNat.testBit i || (decide (n.val.toNat = i) && (children n).isSome)) ∧
      (addChildBits children acc n).2.toNat.testBit i =
        (acc.2.toNat.testBit i || (decide (n.val.toNat = i) && (children n).any Child.isLeaf)) := by
  unfold addChildBits
  cases hc : children n with
  | none => simp
  | some child =>
    cases hleaf : child.isLeaf <;>
      simp [hleaf, UInt16.toNat_or, Nat.testBit_or, toNat_nibbleBit, Nat.testBit_two_pow]

theorem foldl_addChildBits_testBit (children : Nibble → Option Child) (i : Nat) :
    ∀ (L : List Nibble) (acc : UInt16 × UInt16),
      (L.foldl (addChildBits children) acc).1.toNat.testBit i =
          (acc.1.toNat.testBit i || L.any fun n => decide (n.val.toNat = i) && (children n).isSome) ∧
        (L.foldl (addChildBits children) acc).2.toNat.testBit i =
          (acc.2.toNat.testBit i ||
            L.any fun n => decide (n.val.toNat = i) && (children n).any Child.isLeaf)
  | [], acc => by simp
  | n :: L, acc => by
    obtain ⟨h1, h2⟩ := foldl_addChildBits_testBit children i L (addChildBits children acc n)
    obtain ⟨h1', h2'⟩ := addChildBits_testBit children acc n i
    rw [List.foldl_cons, h1, h2, h1', h2', List.any_cons, List.any_cons, Bool.or_assoc,
      Bool.or_assoc]
    exact ⟨rfl, rfl⟩

/-- The nibble of a position is the only one there. -/
theorem any_all_toNat (P : Nibble → Bool) (n : Nibble) :
    (Nibble.all.any fun m => decide (m.val.toNat = n.val.toNat) && P m) = P n := by
  rw [Bool.eq_iff_iff, List.any_eq_true]
  constructor
  · rintro ⟨m, -, hm⟩
    simp only [Bool.and_eq_true, decide_eq_true_eq] at hm
    rw [← Nibble.eq_of_toNat hm.1]
    exact hm.2
  · intro hn
    exact ⟨n, Nibble.mem_all n, by simp [hn]⟩

/-- `generate_bitmaps` sets the bit of each child, and the leaf bit of each leaf child. -/
theorem generateBitmaps_spec (node : InternalNode) :
    ∃ e l, node.generateBitmaps = .ok (e, l) ∧
      (∀ n : Nibble, e.toNat.testBit n.val.toNat = (node.children n).isSome) ∧
      (∀ n : Nibble, l.toNat.testBit n.val.toNat = (node.children n).any Child.isLeaf) := by
  have hbits := fun n : Nibble => foldl_addChildBits_testBit node.children n.val.toNat Nibble.all (0, 0)
  have he : ∀ n : Nibble,
      (Nibble.all.foldl (addChildBits node.children) (0, 0)).1.toNat.testBit n.val.toNat =
        (node.children n).isSome := fun n => by
    rw [(hbits n).1, any_all_toNat (fun m => (node.children m).isSome) n]
    simp
  have hl : ∀ n : Nibble,
      (Nibble.all.foldl (addChildBits node.children) (0, 0)).2.toNat.testBit n.val.toNat =
        (node.children n).any Child.isLeaf := fun n => by
    rw [(hbits n).2, any_all_toNat (fun m => (node.children m).any Child.isLeaf) n]
    simp
  -- the leaf bits are among the existence bits
  have hsub : (Nibble.all.foldl (addChildBits node.children) (0, 0)).1 |||
      (Nibble.all.foldl (addChildBits node.children) (0, 0)).2 =
        (Nibble.all.foldl (addChildBits node.children) (0, 0)).1 := bitmap_ext fun n => by
    rw [UInt16.toNat_or, Nat.testBit_or, he n, hl n]
    cases node.children n <;> simp
  refine ⟨_, _, ?_, he, hl⟩
  simp only [InternalNode.generateBitmaps, assertion_of_pos hsub]
  rfl

end Bitmaps

/-! ### One child's record -/

section Record

theorem hashValueFromSlice_bytes (h : H256) : hashValueFromSlice h.bytes = .ok h := by
  rw [hashValueFromSlice, dif_pos h.length_eq]

theorem shiftLeftOne_of_lt {x : UInt8} (hx : x.toNat < 16) :
    shiftLeftOne x = .ok ((1 : UInt16) <<< x.toUInt16) :=
  if_pos (UInt8.lt_iff_toNat_lt.mpr hx)

/-- The record of a child that is not `Null` is read back as the child, past any bytes that
follow, by a reader whose leaf bit for the child says whether it is a leaf. -/
theorem serializeChild_spec {child : Child} (hnull : child.nodeType ≠ .null) :
    ∃ bytes, (∀ binary, InternalNode.serializeChild child binary = .ok (binary ++ bytes)) ∧
      ∀ (leafBitmap : UInt16) (x : UInt8), x.toNat < 16 →
        leafBitmap.toNat.testBit x.toNat = child.isLeaf → ∀ childrenLeft rest,
          InternalNode.deserializeChild leafBitmap x childrenLeft (bytes ++ rest) = .ok (child, rest) := by
  obtain ⟨hash, version, nodeType⟩ := child
  obtain ⟨vbytes, hvs, hvd⟩ := serializeU64Varint_spec version
  have hlen : ∀ rest : List UInt8, (hash.bytes ++ rest).length ≥ 32 := fun rest => by
    simp [hash.length_eq]
  cases nodeType with
  | null => exact absurd rfl hnull
  | leaf =>
    refine ⟨vbytes ++ hash.bytes, fun binary => ?_, fun leafBitmap x hx hleaf childrenLeft rest => ?_⟩
    · simp [InternalNode.serializeChild, hvs]
    · have hbit : leafBitmap &&& (1 : UInt16) <<< x.toUInt16 ≠ 0 :=
        (and_nibbleBit_ne_zero_iff leafBitmap hx).mpr hleaf
      simp only [InternalNode.deserializeChild, List.append_assoc, hvd, Control.ok_bind,
        ensure_of_pos (hlen rest), List.take_left' hash.length_eq, hashValueFromSlice_bytes,
        List.drop_left' hash.length_eq, shiftLeftOne_of_lt hx, if_pos hbit]
      rfl
  | internal leafCount =>
    obtain ⟨lbytes, hls, hld⟩ := serializeU64Varint_spec leafCount
    refine ⟨vbytes ++ hash.bytes ++ lbytes, fun binary => ?_,
      fun leafBitmap x hx hleaf childrenLeft rest => ?_⟩
    · simp [InternalNode.serializeChild, hvs, hls]
    · have hbit : ¬ leafBitmap &&& (1 : UInt16) <<< x.toUInt16 ≠ 0 := by
        rw [and_nibbleBit_ne_zero_iff leafBitmap hx, hleaf]
        simp [Child.isLeaf]
      simp only [InternalNode.deserializeChild, List.append_assoc, hvd, Control.ok_bind,
        ensure_of_pos (hlen _), List.take_left' hash.length_eq, hashValueFromSlice_bytes,
        List.drop_left' hash.length_eq, shiftLeftOne_of_lt hx, if_neg hbit, hld]
      rfl

end Record

/-! ### The records of all children

The writer and the reader run their loops in step: each round takes the lowest bit still set in
the same existence bitmap and clears it, so the reader meets the records in the order they were
written and rebuilds the map of children. -/

section Records

variable {children : Nibble → Option Child} {leafBitmap : UInt16}

theorem ctz_of_countOnes_eq_succ {e : UInt16} {k : Nat} (h : Bits.countOnes 16 e.toNat = k + 1) :
    Bits.ctz 16 e.toNat < 16 ∧ e.toNat.testBit (Bits.ctz 16 e.toNat) = true := by
  have hpos : 0 < e.toNat := by
    have := Bits.countOnes_le 16 e.toNat
    omega
  have hlt := Bits.ctz_lt hpos e.toNat_lt
  exact ⟨hlt, Bits.testBit_ctz hlt⟩

/-- The loops of `serialize` and `deserialize` over the bits of `e`: the reader puts back each
child whose bit is set, and ends with the bitmap cleared. -/
theorem deserializeChildren_serializeChildren
    (hnull : ∀ n c, children n = some c → c.nodeType ≠ .null)
    (hleaf : ∀ n : Nibble, leafBitmap.toNat.testBit n.val.toNat = (children n).any Child.isLeaf) :
    ∀ k (e : UInt16), Bits.countOnes 16 e.toNat = k →
      (∀ n : Nibble, e.toNat.testBit n.val.toNat = true → (children n).isSome) →
      ∃ out, (∀ binary,
          InternalNode.serializeChildren children k e binary = .ok (binary ++ out)) ∧
        ∀ acc rest, InternalNode.deserializeChildren leafBitmap k e acc (out ++ rest) =
          .ok (fun n => if e.toNat.testBit n.val.toNat then children n else acc n, 0) := by
  intro k
  induction k with
  | zero =>
    intro e hk _
    obtain rfl : e = 0 := UInt16.toNat_inj.mp (Bits.eq_zero_of_countOnes_eq_zero e.toNat_lt hk)
    refine ⟨[], fun binary => by rw [List.append_nil]; rfl, fun acc rest => ?_⟩
    simp only [InternalNode.deserializeChildren]
    congr
    funext n
    simp
  | succ k ih =>
    intro e hk hchildren
    obtain ⟨ht, hset⟩ := ctz_of_countOnes_eq_succ hk
    obtain ⟨t, htdef⟩ : ∃ t, t = Bits.ctz 16 e.toNat := ⟨_, rfl⟩
    rw [← htdef] at ht hset
    have htoNat : t.toUInt8.toNat = t := by simp; omega
    have hlt : t.toUInt8.toNat < 16 := by rw [htoNat]; exact ht
    -- the child at the lowest set bit
    have hfrom := Nibble.from_of_lt hlt
    obtain ⟨child, hchild⟩ := Option.isSome_iff_exists.mp
      (hchildren ⟨t.toUInt8, UInt8.lt_iff_toNat_lt.mpr hlt⟩ (by simpa [htoNat] using hset))
    have hclear := testBit_clear e ht
    have hk' : Bits.countOnes 16 (e &&& ~~~((1 : UInt16) <<< t.toUInt8.toUInt16)).toNat = k := by
      have := Bits.countOnes_of_clear ht hset hclear
      omega
    obtain ⟨bytes, hser, hde⟩ := serializeChild_spec (hnull _ child hchild)
    obtain ⟨out, hsers, hdes⟩ := ih _ hk'
      fun n hn => hchildren n (by rw [hclear, Bool.and_eq_true] at hn; exact hn.1)
    refine ⟨bytes ++ out, fun binary => ?_, fun acc rest => ?_⟩
    · simp only [InternalNode.serializeChildren, ← htdef, hfrom, Control.ok_bind, indexChildren,
        hchild, hser, hsers, List.append_assoc]
    · have hleafBit : leafBitmap.toNat.testBit t.toUInt8.toNat = child.isLeaf := by
        have := hleaf ⟨t.toUInt8, UInt8.lt_iff_toNat_lt.mpr hlt⟩
        rwa [hchild, Option.any_some] at this
      simp only [InternalNode.deserializeChildren, ← htdef, List.append_assoc,
        hde leafBitmap _ hlt hleafBit, Control.ok_bind, hfrom, hdes]
      -- the map rebuilt so far, with this child put back
      congr
      funext n
      rw [hclear, Function.update_apply]
      by_cases hn : n = ⟨t.toUInt8, UInt8.lt_iff_toNat_lt.mpr hlt⟩
      · subst hn
        simp [htoNat, hset, hchild]
      · have hne : n.val.toNat ≠ t := fun h => hn (Nibble.eq_of_toNat (by rw [h, htoNat]))
        simp [hn, hne]

end Records

/-! ### Internal nodes round trip -/

section InternalRoundTrip

variable {children : Nibble → Option Child} {node : InternalNode}

theorem mem_childValues {c : Child} : c ∈ childValues children ↔ ∃ n, children n = some c := by
  rw [childValues, List.mem_filterMap]
  exact ⟨fun ⟨n, _, h⟩ => ⟨n, h⟩, fun ⟨n, h⟩ => ⟨n, Nibble.mem_all n, h⟩⟩

/-- What `new_impl` accepts: the node holds the map it was given, the map has a child, and no
child is `Null` (its leaf count would be unreachable). -/
theorem newImpl_spec (h : InternalNode.newImpl children = .ok node) :
    node.children = children ∧ (∃ n, (children n).isSome) ∧
      ∀ n c, children n = some c → c.nodeType ≠ .null := by
  obtain ⟨⟨⟩, hne, h⟩ := Control.bind_eq_ok_iff.mp h
  obtain ⟨⟨⟩, -, h⟩ := Control.bind_eq_ok_iff.mp h
  obtain ⟨counts, hcounts, h⟩ := Control.bind_eq_ok_iff.mp h
  obtain ⟨leafCount, -, h⟩ := Control.bind_eq_ok_iff.mp h
  cases h
  refine ⟨rfl, ?_, fun n c hc hnull => ?_⟩
  · obtain ⟨c, hc⟩ := List.exists_mem_of_ne_nil _ (of_ensure_eq_ok hne)
    obtain ⟨n, hn⟩ := mem_childValues.mp hc
    exact ⟨n, by simp [hn]⟩
  · obtain ⟨y, hy⟩ := Control.ok_of_mapM_eq_ok hcounts c (mem_childValues.mpr ⟨n, hc⟩)
    simp [Child.leafCount, hnull] at hy

/-- An internal node that `new_impl` built is written without a panic and read back, whatever
bytes follow its records. -/
theorem InternalNode.deserialize_serialize (h : InternalNode.newImpl children = .ok node) :
    ∃ bytes, (∀ binary, node.serialize binary = .ok (binary ++ bytes)) ∧
      ∀ rest, InternalNode.deserialize (bytes ++ rest) = .ok node := by
  obtain ⟨hnode, ⟨m, hm⟩, hnull⟩ := newImpl_spec h
  subst hnode
  obtain ⟨e, l, hgen, he, hl⟩ := generateBitmaps_spec node
  obtain ⟨out, hser, hde⟩ := deserializeChildren_serializeChildren hnull hl
    (Bits.countOnes 16 e.toNat) e rfl fun n hn => (he n) ▸ hn
  refine ⟨leBytes 2 e.toNat ++ leBytes 2 l.toNat ++ out, fun binary => ?_, fun rest => ?_⟩
  · simp only [InternalNode.serialize, hgen, Control.ok_bind, hser, List.append_assoc]
  · -- the bitmaps pass the checks: a child exists, and every leaf bit is an existence bit
    have hbits : InternalNode.checkBitmaps e l = .ok () := by
      have he0 : e ≠ 0 := fun he0 => by
        have hbit := he m
        rw [he0, hm] at hbit
        simp at hbit
      have hsub : e &&& l = l := bitmap_ext fun n => by
        rw [UInt16.toNat_and, Nat.testBit_and, he n, hl n]
        cases node.children n <;> simp
      simp [InternalNode.checkBitmaps, he0, hsub]
    have hmerged : (fun n => if e.toNat.testBit n.val.toNat then node.children n else none) =
        node.children := funext fun n => by
      rw [he n]
      cases node.children n <;> simp
    simp only [InternalNode.deserialize, List.append_assoc, readU16Le_append, Control.ok_bind,
      hbits, hde, hmerged, h]
    rfl

end InternalRoundTrip

/-! ### Leaf nodes

A leaf is stored as its BCS bytes, `bcs::to_bytes(&leaf_node)`, and read with `bcs::from_bytes`.
The two enter as parameters; `LeafRoundTrips` is what BCS documents of them, that a value is read
back from its serialization. -/

section Leaf

/-- `LeafNode<K>`. -/
structure LeafNode (K : Type) where
  accountKey : H256
  valueHash : H256
  valueIndex : K × UInt64
deriving DecidableEq

variable {K α : Type}

/-- A leaf codec whose reader reads back what its writer wrote. -/
def LeafRoundTrips (serializeLeaf : LeafNode K → Except Failure (List UInt8))
    (deserializeLeaf : List UInt8 → Except Failure (LeafNode K)) : Prop :=
  ∀ leaf bytes, serializeLeaf leaf = .ok bytes → deserializeLeaf bytes = .ok leaf

/-! BCS writes a `LeafNode` field by field: each `HashValue` is a struct of one `[u8; 32]`, so
its 32 bytes with no length, then the key by its own serialization, then the version as eight
little-endian bytes. Over a key codec that round-trips, that layout is a leaf codec that
round-trips (`leafRoundTrips_fields`), so the hypothesis can be met. -/

/-- The fields of a leaf, written one after the other. -/
def LeafNode.fieldBytes (serializeKey : K → Except Failure (List UInt8)) (leaf : LeafNode K) :
    Except Failure (List UInt8) := do
  let key ← serializeKey leaf.valueIndex.1
  pure (leaf.accountKey.bytes ++ leaf.valueHash.bytes ++ key ++ leBytes 8 leaf.valueIndex.2.toNat)

/-- Reads a `[u8; 32]` byte by byte; a short input is the deserializer's `Eof`. -/
def readHashValue (input : List UInt8) : Except Failure (H256 × List UInt8) :=
  if h : 32 ≤ input.length then .ok (⟨input.take 32, by simp [h]⟩, input.drop 32)
  else .error (.error "unexpected end of input")

/-- Reads a `u64` as eight little-endian bytes. -/
def readU64Le (input : List UInt8) : Except Failure (UInt64 × List UInt8) := do
  let (bytes, rest) ← takeExact "unexpected end of input" 8 input
  pure (UInt64.ofNat (ofLeBytes bytes), rest)

/-- Reads the fields of a leaf, one after the other. -/
def LeafNode.readFields (deserializeKey : List UInt8 → Except Failure (K × List UInt8))
    (input : List UInt8) : Except Failure (LeafNode K × List UInt8) := do
  let (accountKey, rest) ← readHashValue input
  let (valueHash, rest) ← readHashValue rest
  let (key, rest) ← deserializeKey rest
  let (version, rest) ← readU64Le rest
  pure (⟨accountKey, valueHash, (key, version)⟩, rest)

/-- A reader that must take up the whole input. -/
def readAll (read : List UInt8 → Except Failure (α × List UInt8)) (input : List UInt8) :
    Except Failure α := do
  let (value, rest) ← read input
  ensure (rest = []) "remaining input"
  pure value

/-- A key codec whose reader reads back what its writer wrote, past any bytes that follow. -/
def KeyRoundTrips (serializeKey : K → Except Failure (List UInt8))
    (deserializeKey : List UInt8 → Except Failure (K × List UInt8)) : Prop :=
  ∀ k bytes rest, serializeKey k = .ok bytes → deserializeKey (bytes ++ rest) = .ok (k, rest)

theorem readHashValue_append (h : H256) (rest : List UInt8) :
    readHashValue (h.bytes ++ rest) = .ok (h, rest) := by
  have hlen : 32 ≤ (h.bytes ++ rest).length := by simp [h.length_eq]
  rw [readHashValue, dif_pos hlen]
  congr 2
  · exact FixedBytes.ext (List.take_left' h.length_eq)
  · exact List.drop_left' h.length_eq

theorem readU64Le_append (x : UInt64) (rest : List UInt8) :
    readU64Le (leBytes 8 x.toNat ++ rest) = .ok (x, rest) := by
  have hlt : x.toNat < 256 ^ 8 := x.toNat_lt
  simp only [readU64Le, takeExact_append _ (length_leBytes 8 _), Control.ok_bind,
    ofLeBytes_leBytes, Nat.mod_eq_of_lt hlt, UInt64.ofNat_toNat]
  rfl

variable {serializeKey : K → Except Failure (List UInt8)}
  {deserializeKey : List UInt8 → Except Failure (K × List UInt8)}

/-- A leaf is read back from its fields, past any bytes that follow. -/
theorem LeafNode.readFields_fieldBytes (hkey : KeyRoundTrips serializeKey deserializeKey)
    {leaf : LeafNode K} {bytes : List UInt8} (h : leaf.fieldBytes serializeKey = .ok bytes)
    (rest : List UInt8) : LeafNode.readFields deserializeKey (bytes ++ rest) = .ok (leaf, rest) := by
  obtain ⟨accountKey, valueHash, key, version⟩ := leaf
  obtain ⟨keyBytes, hk, h⟩ := Control.bind_eq_ok_iff.mp h
  cases h
  simp only [LeafNode.readFields, List.append_assoc, readHashValue_append, Control.ok_bind,
    hkey _ _ _ hk, readU64Le_append]
  rfl

theorem leafRoundTrips_fields (hkey : KeyRoundTrips serializeKey deserializeKey) :
    LeafRoundTrips (LeafNode.fieldBytes serializeKey) (readAll (LeafNode.readFields deserializeKey)) := by
  intro leaf bytes h
  have hread := LeafNode.readFields_fieldBytes hkey h []
  rw [List.append_nil] at hread
  simp [readAll, hread, ensure]

/-- A `u64` key written as its eight little-endian bytes, as BCS writes one. -/
def serializeU64Key (k : UInt64) : Except Failure (List UInt8) := .ok (leBytes 8 k.toNat)

theorem keyRoundTrips_u64 : KeyRoundTrips serializeU64Key readU64Le := by
  intro k bytes rest h
  cases h
  exact readU64Le_append k rest

end Leaf

/-! ### Nodes

A stored node is a tag byte, then the internal node's serialization or the leaf's BCS bytes;
`Null` is the tag alone. -/

section Nodes

/-- `NodeTag`. -/
inductive NodeTag where
  | leaf
  | internal
  | null
deriving DecidableEq, Repr

/-- `NodeTag as u8`. -/
def NodeTag.toU8 : NodeTag → UInt8
  | .leaf => 1
  | .internal => 2
  | .null => 3

/-- `NodeTag::from_u8`. -/
def NodeTag.fromU8 (tag : UInt8) : Option NodeTag :=
  if tag = 1 then some .leaf
  else if tag = 2 then some .internal
  else if tag = 3 then some .null
  else none

@[simp] theorem NodeTag.fromU8_toU8 (tag : NodeTag) : NodeTag.fromU8 tag.toU8 = some tag := by
  cases tag <;> rfl

/-- `Node<K>`. -/
inductive Node (K : Type) where
  | internal (node : InternalNode)
  | leaf (leaf : LeafNode K)
  | null

/-- `Node::is_leaf`. -/
def Node.isLeaf {K : Type} : Node K → Bool
  | .leaf _ => true
  | _ => false

/-- `Node::node_type`, the type a `Child` records. -/
def Node.nodeType {K : Type} : Node K → NodeType
  | .leaf _ => .leaf
  | .internal node => .internal node.leafCount
  | .null => .null

/-- `InternalNode::new`: `new_impl`, whose error is a panic here. -/
def InternalNode.new (children : Nibble → Option Child) : Except Failure InternalNode :=
  match InternalNode.newImpl children with
  | .ok node => .ok node
  | .error (.error msg) => .error (.panic ("Input children are logical.: " ++ msg))
  | .error (.panic msg) => .error (.panic msg)

variable {K : Type} (serializeLeaf : LeafNode K → Except Failure (List UInt8))
  (deserializeLeaf : List UInt8 → Except Failure (LeafNode K))

/-- `Node::encode`, with `bcs::to_bytes` for the leaf. -/
def Node.encode : Node K → Except Failure (List UInt8)
  | .internal node => node.serialize [NodeTag.internal.toU8]
  | .leaf leafNode => do
    let bytes ← serializeLeaf leafNode
    pure (NodeTag.leaf.toU8 :: bytes)
  | .null => .ok [NodeTag.null.toU8]

/-- `Node::decode`, with `bcs::from_bytes` for the leaf. -/
def Node.decode : List UInt8 → Except Failure (Node K)
  | [] => .error (.error "Missing tag due to empty input")
  | tag :: rest =>
    match NodeTag.fromU8 tag with
    | some .internal => Node.internal <$> InternalNode.deserialize rest
    | some .leaf => Node.leaf <$> deserializeLeaf rest
    | some .null => .ok .null
    | none => .error (.error ("lead tag byte is unknown: " ++ toString tag))

/-- The nodes the tree builds: `Null`, any leaf, and an internal node that `new_impl`
accepted, which `InternalNode::new` and `InternalNode::deserialize` both go through. -/
inductive Node.Buildable : Node K → Prop
  | internal {children : Nibble → Option Child} {node : InternalNode}
      (h : InternalNode.newImpl children = .ok node) : Node.Buildable (.internal node)
  | leaf (leaf : LeafNode K) : Node.Buildable (.leaf leaf)
  | null : Node.Buildable .null

variable {serializeLeaf deserializeLeaf} {node : Node K}

/-- Every node the tree builds is stored without a panic; its encoding fails only for a leaf
whose serialization fails, with that error; and `Node::decode` reads back what `Node::encode`
wrote. -/
theorem Node.decode_encode_of_buildable (hleaf : LeafRoundTrips serializeLeaf deserializeLeaf)
    (h : node.Buildable) :
    (∀ e, node.encode serializeLeaf = .error e →
        ∃ leaf, node = .leaf leaf ∧ serializeLeaf leaf = .error e) ∧
      ∀ bytes, node.encode serializeLeaf = .ok bytes →
        Node.decode deserializeLeaf bytes = .ok node := by
  cases h with
  | @internal children inode hnew =>
    obtain ⟨out, hser, hde⟩ := InternalNode.deserialize_serialize hnew
    have henc : (Node.internal inode : Node K).encode serializeLeaf =
        .ok (NodeTag.internal.toU8 :: out) := hser _
    refine ⟨fun e he => ?_, fun bytes hbytes => ?_⟩
    · rw [henc] at he
      cases he
    · rw [henc] at hbytes
      cases hbytes
      simpa [Node.decode] using congrArg (Node.internal <$> ·) (hde [])
  | leaf leaf =>
    refine ⟨fun e he => ?_, fun bytes hbytes => ?_⟩
    · -- the leaf's own serialization is the only step that can fail
      cases hser : serializeLeaf leaf with
      | error err =>
        rw [Node.encode, hser, Control.error_bind] at he
        cases he
        exact ⟨leaf, rfl, hser⟩
      | ok leafBytes =>
        rw [Node.encode, hser, Control.ok_bind] at he
        cases he
    · obtain ⟨leafBytes, hser, hbytes⟩ := Control.bind_eq_ok_iff.mp hbytes
      cases hbytes
      simp [Node.decode, hleaf leaf leafBytes hser]
  | null =>
    refine ⟨fun e he => ?_, fun bytes hbytes => ?_⟩
    · cases he
    · cases hbytes
      rfl

/-- The leaf codec of a `u64` key's BCS layout round-trips, and a leaf under it is stored and
read back. -/
theorem Node.decode_encode_of_buildable_u64 :
    LeafRoundTrips (LeafNode.fieldBytes serializeU64Key) (readAll (LeafNode.readFields readU64Le)) ∧
      (Node.leaf ⟨⟨List.replicate 32 0, rfl⟩, ⟨List.replicate 32 1, rfl⟩, (7, 1)⟩ :
        Node UInt64).Buildable ∧
      ((∀ e, (Node.leaf ⟨⟨List.replicate 32 0, rfl⟩, ⟨List.replicate 32 1, rfl⟩, (7, 1)⟩ :
          Node UInt64).encode (LeafNode.fieldBytes serializeU64Key) = .error e →
          ∃ leaf, (Node.leaf ⟨⟨List.replicate 32 0, rfl⟩, ⟨List.replicate 32 1, rfl⟩, (7, 1)⟩ :
            Node UInt64) = .leaf leaf ∧ LeafNode.fieldBytes serializeU64Key leaf = .error e) ∧
        ∀ bytes, (Node.leaf ⟨⟨List.replicate 32 0, rfl⟩, ⟨List.replicate 32 1, rfl⟩, (7, 1)⟩ :
          Node UInt64).encode (LeafNode.fieldBytes serializeU64Key) = .ok bytes →
          Node.decode (readAll (LeafNode.readFields readU64Le)) bytes =
            .ok (Node.leaf ⟨⟨List.replicate 32 0, rfl⟩, ⟨List.replicate 32 1, rfl⟩, (7, 1)⟩)) :=
  ⟨leafRoundTrips_fields keyRoundTrips_u64, .leaf _,
    Node.decode_encode_of_buildable (leafRoundTrips_fields keyRoundTrips_u64) (.leaf _)⟩

end Nodes

end Hemvm.Jellyfish
