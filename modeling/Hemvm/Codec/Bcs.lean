import Hemvm.Codec.Bytes

/-! Binary Canonical Serialization, as derived `Serialize` implementations drive it: an enum
variant is written as its index and then its payload, and a `Vec<u8>` as a sequence, its length
and then its bytes, where a sequence longer than `MAX_SEQUENCE_LENGTH` is refused. How the
serializer writes the two integers is the crate's own; it enters as a `Serializer`, and
`Serializer.Lawful` states what the format documents of it: a variant index, and a sequence
length, each determine both itself and where it ends. The crate writes both as ULEB128
(`serialize_u32_as_uleb128`); that serializer, at the end, is lawful. Nothing here is specific
to one program. -/
namespace Bcs

/-- `MAX_SEQUENCE_LENGTH`: longer sequences are refused by the serializer. -/
def maxSequenceLength : Nat := 2 ^ 31 - 1

/-- The serializer's errors that the serializations below can raise. -/
inductive Error where
  | exceededMaxLen (len : Nat)
deriving DecidableEq

/-- The serializer, by the integers it writes in front of data. -/
structure Serializer where
  /-- `output_variant_index`. -/
  variantIndex : Nat → List UInt8
  /-- `output_seq_len`, past its length check. -/
  seqLen : Nat → List UInt8

namespace Serializer

variable (bcs : Serializer)

/-- `serialize_unit_variant` and `serialize_newtype_variant`: the variant index, then the
payload's serialization. -/
def variant (index : Nat) (payload : Except Error (List UInt8)) : Except Error (List UInt8) :=
  payload.map (bcs.variantIndex index ++ ·)

/-- The bytes of a sequence of bytes: its length, then one byte for each element. -/
def seqBytes (bs : List UInt8) : List UInt8 := bcs.seqLen bs.length ++ bs

/-- A `Vec<u8>`, which serde writes as a sequence: `serialize_seq` refuses one longer than
`MAX_SEQUENCE_LENGTH`. -/
def byteSeq (bs : List UInt8) : Except Error (List UInt8) :=
  if maxSequenceLength < bs.length then .error (.exceededMaxLen bs.length) else .ok (bcs.seqBytes bs)

/-- What the format documents of the serializer: the integers it writes in front of data are
read back from the front of the output, whatever follows. -/
structure Lawful : Prop where
  variantIndex_append_inj : ∀ {i j : Nat} {r s : List UInt8},
    bcs.variantIndex i ++ r = bcs.variantIndex j ++ s → i = j ∧ r = s
  seqLen_append_inj : ∀ {m n : Nat} {r s : List UInt8},
    bcs.seqLen m ++ r = bcs.seqLen n ++ s → m = n ∧ r = s

variable {bcs}

@[simp] theorem variant_ok (index : Nat) (payload : List UInt8) :
    bcs.variant index (.ok payload) = .ok (bcs.variantIndex index ++ payload) := rfl

theorem variant_eq_ok_iff {index : Nat} {payload : Except Error (List UInt8)} {out : List UInt8} :
    bcs.variant index payload = .ok out ↔ ∃ p, payload = .ok p ∧ out = bcs.variantIndex index ++ p := by
  cases payload with
  | error e => simp [variant, Except.map]
  | ok p =>
    simp only [variant_ok, Except.ok.injEq, exists_eq_left']
    exact eq_comm

theorem byteSeq_eq_ok_iff {bs out : List UInt8} :
    bcs.byteSeq bs = .ok out ↔ bs.length ≤ maxSequenceLength ∧ out = bcs.seqBytes bs := by
  unfold byteSeq
  split
  · case isTrue h =>
    simp only [reduceCtorEq, false_iff, not_and]
    omega
  · case isFalse h =>
    simp only [Except.ok.injEq]
    constructor
    · intro hout
      exact ⟨by omega, hout.symm⟩
    · rintro ⟨-, rfl⟩
      rfl

section Lawful

variable (h : bcs.Lawful)
include h

/-- A sequence of bytes determines both itself and where it ends: its length is read back, and
then as many bytes. -/
theorem seqBytes_append_inj {bs cs r s : List UInt8}
    (heq : bcs.seqBytes bs ++ r = bcs.seqBytes cs ++ s) : bs = cs ∧ r = s := by
  rw [seqBytes, seqBytes, List.append_assoc, List.append_assoc] at heq
  obtain ⟨hlen, hrest⟩ := h.seqLen_append_inj heq
  exact List.append_inj hrest hlen

theorem seqBytes_injective : Function.Injective bcs.seqBytes := by
  intro bs cs heq
  have heq' : bcs.seqBytes bs ++ [] = bcs.seqBytes cs ++ [] := by
    rw [heq]
  exact (seqBytes_append_inj h heq').1

/-- Two variants' serializations agree only for one index and one payload. -/
theorem variant_inj {i j : Nat} {p q : Except Error (List UInt8)} {out : List UInt8}
    (hi : bcs.variant i p = .ok out) (hj : bcs.variant j q = .ok out) :
    i = j ∧ ∃ bytes, p = .ok bytes ∧ q = .ok bytes := by
  obtain ⟨bp, rfl, hout⟩ := variant_eq_ok_iff.mp hi
  obtain ⟨bq, rfl, hout'⟩ := variant_eq_ok_iff.mp hj
  obtain ⟨rfl, rfl⟩ := h.variantIndex_append_inj (hout.symm.trans hout')
  exact ⟨rfl, bp, rfl, rfl⟩

end Lawful

end Serializer

/-! ### ULEB128

The crate writes variant indices and sequence lengths with `serialize_u32_as_uleb128`. -/

section Uleb128

/-- `serialize_u32_as_uleb128`: seven bits at a time, least significant first, with the high
bit set on every byte but the last. -/
def uleb128 (value : Nat) : List UInt8 :=
  if value < 0x80 then [UInt8.ofNat value]
  else UInt8.ofNat (value % 0x80 + 0x80) :: uleb128 (value / 0x80)
termination_by value
decreasing_by omega

/-- Reads a ULEB128 integer from the front of the input. -/
def decodeUleb128 : List UInt8 → Option (Nat × List UInt8)
  | [] => none
  | b :: rest =>
    if b < 0x80 then some (b.toNat, rest)
    else (decodeUleb128 rest).map fun (v, rest) => (b.toNat - 0x80 + 0x80 * v, rest)

theorem uleb128_of_lt {value : Nat} (h : value < 0x80) : uleb128 value = [UInt8.ofNat value] := by
  rw [uleb128, if_pos h]

theorem uleb128_of_ge {value : Nat} (h : ¬ value < 0x80) :
    uleb128 value = UInt8.ofNat (value % 0x80 + 0x80) :: uleb128 (value / 0x80) := by
  rw [uleb128, if_neg h]

/-- The reader inverts the writer, whatever follows. The induction is the writer's own. -/
theorem decodeUleb128_uleb128_append (value : Nat) (rest : List UInt8) :
    decodeUleb128 (uleb128 value ++ rest) = some (value, rest) := by
  induction value using Nat.strong_induction_on with
  | _ value ih =>
    by_cases h : value < 0x80
    · have hb : (UInt8.ofNat value).toNat = value := by
        rw [UInt8.toNat_ofNat']
        omega
      rw [uleb128_of_lt h, List.singleton_append, decodeUleb128,
        if_pos (UInt8.lt_iff_toNat_lt.mpr (by simpa [hb] using h)), hb]
    · have hb : (UInt8.ofNat (value % 0x80 + 0x80)).toNat = value % 0x80 + 0x80 := by
        rw [UInt8.toNat_ofNat']
        omega
      have hge : ¬ UInt8.ofNat (value % 0x80 + 0x80) < 0x80 := by
        rw [UInt8.lt_iff_toNat_lt, hb]
        simp
      rw [uleb128_of_ge h, List.cons_append, decodeUleb128, if_neg hge,
        ih (value / 0x80) (by omega), Option.map_some]
      simp only [hb, Option.some.injEq, Prod.mk.injEq, and_true]
      omega

/-- A ULEB128 integer determines both itself and where it ends. -/
theorem uleb128_append_inj {a b : Nat} {r s : List UInt8} (h : uleb128 a ++ r = uleb128 b ++ s) :
    a = b ∧ r = s := by
  have hdec := congrArg decodeUleb128 h
  rw [decodeUleb128_uleb128_append, decodeUleb128_uleb128_append] at hdec
  simpa using hdec

/-- The crate's serializer. -/
def uleb128Serializer : Serializer := ⟨uleb128, uleb128⟩

theorem uleb128Serializer_lawful : uleb128Serializer.Lawful :=
  ⟨uleb128_append_inj, uleb128_append_inj⟩

end Uleb128

end Bcs
