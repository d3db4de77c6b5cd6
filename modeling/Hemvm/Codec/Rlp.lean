import Hemvm.Codec.Bytes

/-! Recursive Length Prefix, as the program's encoders and decoders drive it: they build and read
items, byte strings and lists of items, and the crate writes an item as bytes, reads one back
from the head of some bytes, and gives the `Encodable` and `Decodable` of integers and fixed
hashes. The crate enters as a `Codec`; `Codec.Lawful` states what RLP documents of it: the
framing law, that an item reads back from the head of any bytes that start with its encoding
when its lengths fit RLP's eight length bytes, and a round trip for each type's codec. The
encoding of the format with the canonical-form checks of a strict reader, at the end, is a lawful
codec. Nothing here is specific to one program. -/
namespace Rlp
open Codec Control

/-- An RLP item: a byte string or a list of items. -/
inductive Item where
  | bytes (data : List UInt8)
  | list (items : List Item)

/-- The reasons a strict RLP reader rejects its input. -/
inductive DecoderError where
  | rlpIsTooBig
  | rlpIsTooShort
  | rlpExpectedToBeList
  | rlpExpectedToBeData
  | rlpIncorrectListLen
  | rlpDataLenWithZeroPrefix
  | rlpInvalidIndirection
  | rlpInvalidLength
  | custom (msg : String)
deriving DecidableEq

/-! ### Reading an item -/

namespace Item

/-- The payload of a byte-string item. -/
def decodeValue : Item → Except DecoderError (List UInt8)
  | .bytes bs => .ok bs
  | .list _ => .error .rlpExpectedToBeData

def itemCount : Item → Except DecoderError Nat
  | .list items => .ok items.length
  | .bytes _ => .error .rlpExpectedToBeList

/-- The `n`-th element of a list item. -/
def atIndex : Item → Nat → Except DecoderError Item
  | .list items, n =>
    match items[n]? with
    | some i => .ok i
    | none => .error .rlpIsTooShort
  | .bytes _, _ => .error .rlpExpectedToBeList

/-- The empty string and the empty list. -/
def isEmpty : Item → Bool
  | .bytes [] => true
  | .list [] => true
  | _ => false

end Item

/-! ### The crate -/

/-- The RLP crate, by what encoders and decoders call of it. -/
structure Codec where
  /-- `rlp::encode` of an item. -/
  encode : Item → List UInt8
  /-- `Rlp::new`: the item at the head of the bytes, and the bytes after it. -/
  decode : List UInt8 → Except DecoderError (Item × List UInt8)
  /-- `Encodable` of an unsigned integer. -/
  encodeUint : Nat → Item
  /-- `Decodable` of an unsigned integer of at most `width` bytes. -/
  decodeUint : Nat → Item → Except DecoderError Nat
  /-- `Encodable` of a hash of `n` bytes. -/
  encodeFixed : (n : Nat) → FixedBytes n → Item
  /-- `Decodable` of a hash of `n` bytes. -/
  decodeFixed : (n : Nat) → Item → Except DecoderError (FixedBytes n)

/-- What RLP documents of the crate. -/
structure Codec.Lawful (rlp : Codec) : Prop where
  /-- The framing law: an item reads back from the head of any bytes that start with its
  encoding, when that encoding is shorter than `2 ^ 64` bytes. -/
  decode_encode_append : ∀ (i : Item) (rest : List UInt8), (rlp.encode i).length < 2 ^ 64 →
    rlp.decode (rlp.encode i ++ rest) = .ok (i, rest)
  decodeUint_encodeUint : ∀ {width n : Nat}, n < 256 ^ width →
    rlp.decodeUint width (rlp.encodeUint n) = .ok n
  decodeFixed_encodeFixed : ∀ {n : Nat} (a : FixedBytes n),
    rlp.decodeFixed n (rlp.encodeFixed n a) = .ok a
  /-- A hash of some bytes is no empty item. -/
  isEmpty_encodeFixed : ∀ {n : Nat} (a : FixedBytes n), 0 < n →
    (rlp.encodeFixed n a).isEmpty = false

theorem Codec.Lawful.decode_encode {rlp : Codec} (h : rlp.Lawful) (i : Item)
    (hfit : (rlp.encode i).length < 2 ^ 64) : rlp.decode (rlp.encode i) = .ok (i, []) := by
  simpa using h.decode_encode_append i [] hfit

/-! ### A lawful codec

The encoding of the format: a byte below `0x80` is its own encoding, a longer payload follows a
header of its length, and the reader checks the canonical form of what it reads. -/

namespace Reference

/-- The header of a payload of `len` bytes: `offset + len` below 56, else `offset + 55 + k`
followed by the `k` minimal big-endian digits of `len`. -/
def header (offset len : Nat) : List UInt8 :=
  if len < 56 then [UInt8.ofNat (offset + len)]
  else UInt8.ofNat (offset + 55 + (minimalBe len).length) :: minimalBe len

/-- A string of one byte below `0x80` is its own encoding. -/
def isSingleByte : List UInt8 → Bool
  | [b] => b.toNat < 128
  | _ => false

def encodeBytes (bs : List UInt8) : List UInt8 :=
  if isSingleByte bs then bs else header 128 bs.length ++ bs

mutual
def encode : Item → List UInt8
  | .bytes bs => encodeBytes bs
  | .list items => header 192 (encodeList items).length ++ encodeList items

def encodeList : List Item → List UInt8
  | [] => []
  | i :: is => encode i ++ encodeList is
end

/-- A long-form length of `k` digits: no leading zero digit, at most eight digits, above 55. -/
def longLength (k : Nat) (rest : List UInt8) : Except DecoderError Nat :=
  if rest.head? = some 0 then .error .rlpDataLenWithZeroPrefix
  else if rest.length < k then .error .rlpIsTooShort
  else if 8 < k then .error .rlpIsTooBig
  else if ofBeBytes (rest.take k) ≤ 55 then .error .rlpInvalidIndirection
  else .ok (ofBeBytes (rest.take k))

/-- Where the item at the head of `bs` lies: whether it is a list, its header length and its
payload length. -/
def payloadInfo : List UInt8 → Except DecoderError (Bool × Nat × Nat)
  | [] => .error .rlpIsTooShort
  | l :: rest =>
    if l.toNat < 0x80 then .ok (false, 0, 1)
    else if l.toNat ≤ 0xb7 then .ok (false, 1, l.toNat - 0x80)
    else if l.toNat ≤ 0xbf then
      (longLength (l.toNat - 0xb7) rest).map fun vl => (false, 1 + (l.toNat - 0xb7), vl)
    else if l.toNat ≤ 0xf7 then .ok (true, 1, l.toNat - 0xc0)
    else (longLength (l.toNat - 0xf7) rest).map fun vl => (true, 1 + (l.toNat - 0xf7), vl)

/-- Reads the item at the head of `bs`, splitting a list payload with `payloadItems`. -/
def parseHead (payloadItems : List UInt8 → Except DecoderError (List Item))
    (bs : List UInt8) : Except DecoderError (Item × List UInt8) :=
  match payloadInfo bs with
  | .error e => .error e
  | .ok (isList, hl, vl) =>
    if bs.length < hl + vl then .error .rlpIsTooShort
    else if isList then
      (payloadItems ((bs.drop hl).take vl)).map fun items => (.list items, bs.drop (hl + vl))
    else if hl = 1 ∧ isSingleByte ((bs.drop hl).take vl) = true then
      .error .rlpInvalidIndirection
    else .ok (.bytes ((bs.drop hl).take vl), bs.drop (hl + vl))

/-- Splits a whole payload into items; `fuel` bounds the nesting and the item count. -/
def parseItems : Nat → List UInt8 → Except DecoderError (List Item)
  | 0, _ => .error .rlpIsTooShort
  | _ + 1, [] => .ok []
  | fuel + 1, b :: bs =>
    match parseHead (parseItems fuel) (b :: bs) with
    | .error e => .error e
    | .ok (item, rest) => (parseItems fuel rest).map (item :: ·)

/-- The item at the head of `bs`, and the bytes after it. -/
def decode (bs : List UInt8) : Except DecoderError (Item × List UInt8) :=
  parseHead (parseItems bs.length) bs

/-- An unsigned integer: its minimal big-endian digits. -/
def encodeUint (n : Nat) : Item := .bytes (minimalBe n)

/-- The digits of an unsigned integer of at most `width` bytes, rejecting a leading zero. -/
def uintOfBytes (width : Nat) (bs : List UInt8) : Except DecoderError Nat :=
  if bs.head? = some 0 then .error .rlpInvalidIndirection
  else if bs.length ≤ width then .ok (ofBeBytes bs)
  else .error .rlpIsTooBig

def decodeUint (width : Nat) (i : Item) : Except DecoderError Nat :=
  i.decodeValue >>= uintOfBytes width

/-- The bytes of a hash of exactly `n` bytes. -/
def fixedOfBytes (n : Nat) (bs : List UInt8) : Except DecoderError (FixedBytes n) :=
  if h : bs.length = n then .ok ⟨bs, h⟩
  else if bs.length < n then .error .rlpIsTooShort
  else .error .rlpIsTooBig

def decodeFixed (n : Nat) (i : Item) : Except DecoderError (FixedBytes n) :=
  i.decodeValue >>= fixedOfBytes n

variable {n w : Nat} {bs rest : List UInt8}

/-- Minimal digits never start with a zero digit. -/
theorem minimalBe_head_ne_some_zero (n : Nat) : (minimalBe n).head? ≠ some 0 := by
  rcases Nat.eq_zero_or_pos n with rfl | hn
  · simp [minimalBe]
  · have hne : minimalBe n ≠ [] := by simpa [minimalBe_eq_nil_iff] using hn.ne'
    intro h
    apply minimalBe_head_ne_zero hn hne
    simpa [List.head?_eq_some_head hne] using h

theorem decodeUint_encodeUint (h : n < 256 ^ w) : decodeUint w (encodeUint n) = .ok n := by
  have hlen : (minimalBe n).length ≤ w := minimalBe_length_le h
  simp only [decodeUint, encodeUint, Item.decodeValue, bind, Except.bind, uintOfBytes,
    if_neg (minimalBe_head_ne_some_zero n), if_pos hlen, ofBeBytes_minimalBe]

theorem decodeFixed_bytes (a : FixedBytes n) : decodeFixed n (.bytes a.bytes) = .ok a := by
  simp only [decodeFixed, Item.decodeValue, bind, Except.bind, fixedOfBytes, dif_pos a.length_eq]

/-! ### The framing law -/

theorem encodeBytes_ne_nil (bs : List UInt8) : encodeBytes bs ≠ [] := by
  unfold encodeBytes header
  split
  · rename_i h
    cases bs with
    | nil => simp [isSingleByte] at h
    | cons _ _ => simp
  · split <;> simp

theorem encode_ne_nil (i : Item) : encode i ≠ [] := by
  cases i with
  | bytes bs => simpa [encode] using encodeBytes_ne_nil bs
  | list items =>
    simp only [encode, header]
    split <;> simp

theorem minimalBe_length_pos (h : 0 < n) : 0 < (minimalBe n).length := by
  have : minimalBe n ≠ [] := by simpa [minimalBe_eq_nil_iff] using h.ne'
  exact List.length_pos_of_ne_nil this

/-- A long-form length written by `header` reads back. -/
theorem longLength_minimalBe (rest : List UInt8) (h56 : 56 ≤ n) (h64 : n < 2 ^ 64) :
    longLength (minimalBe n).length (minimalBe n ++ rest) = .ok n := by
  have hpos : 0 < n := by omega
  have hne : minimalBe n ≠ [] := by simpa [minimalBe_eq_nil_iff] using hpos.ne'
  have hk : (minimalBe n).length ≤ 8 := minimalBe_length_le (by simpa using h64)
  have hhead : (minimalBe n ++ rest).head? ≠ some 0 := by
    rw [List.head?_append_of_ne_nil _ hne]
    exact minimalBe_head_ne_some_zero n
  have htake : (minimalBe n ++ rest).take (minimalBe n).length = minimalBe n := by simp
  have hlen : ¬ (minimalBe n ++ rest).length < (minimalBe n).length := by simp
  rw [longLength, if_neg hhead, if_neg hlen, if_neg (by omega), htake, ofBeBytes_minimalBe,
    if_neg (by omega)]

/-- The header of a payload of `len` bytes, for either offset, reads back as that payload. -/
theorem payloadInfo_header (off len : Nat) (rest : List UInt8) (hoff : off = 128 ∨ off = 192)
    (hlen : len < 2 ^ 64) :
    payloadInfo (header off len ++ rest) =
      .ok (off = 192, (header off len).length, len) := by
  unfold header
  by_cases hs : len < 56
  · have hb : (UInt8.ofNat (off + len)).toNat = off + len := by
      rw [UInt8.toNat_ofNat']; omega
    simp only [hs, if_true, List.singleton_append, payloadInfo, hb, List.length_singleton]
    rcases hoff with rfl | rfl
    · rw [if_neg (by omega), if_pos (by omega)]
      simp
    · rw [if_neg (by omega), if_neg (by omega), if_neg (by omega), if_pos (by omega)]
      simp
  · have hk : (minimalBe len).length ≤ 8 := minimalBe_length_le (by simpa using hlen)
    have hk1 : 0 < (minimalBe len).length := minimalBe_length_pos (by omega)
    have hb : (UInt8.ofNat (off + 55 + (minimalBe len).length)).toNat =
        off + 55 + (minimalBe len).length := by
      rw [UInt8.toNat_ofNat']; omega
    have hll := longLength_minimalBe rest (by omega : 56 ≤ len) hlen
    simp only [hs, if_false, List.cons_append, payloadInfo, hb, List.length_cons]
    rcases hoff with rfl | rfl
    · rw [if_neg (by omega), if_neg (by omega), if_pos (by omega),
        show 128 + 55 + (minimalBe len).length - 0xb7 = (minimalBe len).length by omega, hll]
      simp [Except.map]
      omega
    · rw [if_neg (by omega), if_neg (by omega), if_neg (by omega), if_neg (by omega),
        show 192 + 55 + (minimalBe len).length - 0xf7 = (minimalBe len).length by omega, hll]
      simp [Except.map]
      omega

theorem length_header_pos (off len : Nat) : 0 < (header off len).length := by
  unfold header
  split <;> simp

/-- Reading at a header splits off the payload after it and hands a list payload on. -/
theorem parseHead_header (p : List UInt8 → Except DecoderError (List Item)) (off : Nat)
    (pl : List UInt8) (hoff : off = 128 ∨ off = 192) (hlen : pl.length < 2 ^ 64) :
    parseHead p (header off pl.length ++ pl ++ rest) =
      if off = 192 then (p pl).map fun items => (.list items, rest)
      else if (header off pl.length).length = 1 ∧ isSingleByte pl = true then
        .error .rlpInvalidIndirection
      else .ok (.bytes pl, rest) := by
  have hinfo := payloadInfo_header off pl.length (pl ++ rest) hoff hlen
  have hdrop : (header off pl.length ++ pl ++ rest).drop (header off pl.length).length =
      pl ++ rest := by simp
  have hdrop' : (header off pl.length ++ pl ++ rest).drop
      ((header off pl.length).length + pl.length) = rest := by
    rw [List.append_assoc, List.drop_append]; simp
  have htake : (pl ++ rest).take pl.length = pl := by simp
  have hshort : ¬ (header off pl.length ++ pl ++ rest).length <
      (header off pl.length).length + pl.length := by simp
  rw [parseHead, List.append_assoc, hinfo, ← List.append_assoc]
  dsimp only
  rw [if_neg hshort, hdrop, htake, hdrop']
  by_cases h : off = 192 <;> simp [h]

/-- An item reads back from the head of its encoding, given that list payloads split back. -/
theorem parseHead_encode (p : List UInt8 → Except DecoderError (List Item)) (i : Item)
    (hp : ∀ items, i = .list items → p (encodeList items) = .ok items)
    (hfit : (encode i).length < 2 ^ 64) :
    parseHead p (encode i ++ rest) = .ok (i, rest) := by
  cases i with
  | bytes bs =>
    by_cases hs : isSingleByte bs = true
    · -- a single small byte is its own header-less encoding
      obtain ⟨b, rfl⟩ : ∃ b, bs = [b] := by
        cases bs with
        | nil => simp [isSingleByte] at hs
        | cons b t => cases t with
          | nil => exact ⟨b, rfl⟩
          | cons _ _ => simp [isSingleByte] at hs
      have hb : b.toNat < 128 := by simpa [isSingleByte] using hs
      simp [parseHead, encode, encodeBytes, hs, payloadInfo, hb]
    · have hlen : bs.length < 2 ^ 64 := by
        simp only [encode, encodeBytes, hs, Bool.false_eq_true, if_false,
          List.length_append] at hfit
        omega
      simp only [encode, encodeBytes, hs, Bool.false_eq_true, if_false]
      rw [parseHead_header p 128 bs (.inl rfl) hlen]
      simp [hs]
  | list items =>
    have hh := length_header_pos 192 (encodeList items).length
    have hlen : (encodeList items).length < 2 ^ 64 := by
      simp only [encode, List.length_append] at hfit
      omega
    simp only [encode]
    rw [parseHead_header p 192 _ (.inr rfl) hlen, hp items rfl]
    rfl

theorem length_encodeList_cons (i : Item) (is : List Item) :
    (encodeList (i :: is)).length = (encode i).length + (encodeList is).length := by
  simp [encodeList]

theorem length_encodeList_lt_encode (items : List Item) :
    (encodeList items).length < (encode (.list items)).length := by
  have := length_header_pos 192 (encodeList items).length
  simp only [encode, List.length_append]
  omega

/-- The framing law for payloads: with fuel above the payload's length, a payload splits into
the items it was made of. -/
theorem parseItems_encodeList (fuel : Nat) (is : List Item)
    (hfuel : (encodeList is).length < fuel) (hfit : (encodeList is).length < 2 ^ 64) :
    parseItems fuel (encodeList is) = .ok is := by
  induction fuel generalizing is with
  | zero => omega
  | succ fuel ih =>
    cases is with
    | nil => simp [encodeList, parseItems]
    | cons i is =>
      rw [length_encodeList_cons] at hfuel hfit
      have hpos : 0 < (encode i).length := List.length_pos_of_ne_nil (encode_ne_nil i)
      -- the payload of a list item is shorter than the item, so it runs on the fuel left
      have hhead : parseHead (parseItems fuel) (encode i ++ encodeList is) =
          .ok (i, encodeList is) := by
        apply parseHead_encode _ i _ (by omega)
        rintro items rfl
        have := length_encodeList_lt_encode items
        exact ih items (by omega) (by omega)
      obtain ⟨b, bs, hb⟩ := List.exists_cons_of_ne_nil (encode_ne_nil i)
      have htail := ih is (by omega) (by omega)
      simp only [encodeList, hb, List.cons_append, parseItems]
      rw [← List.cons_append, ← hb, hhead]
      simp [htail, Except.map]

/-- The framing law for one item: it reads back from the head of any byte string that starts
with its encoding. -/
theorem decode_encode_append (i : Item) (rest : List UInt8) (hfit : (encode i).length < 2 ^ 64) :
    decode (encode i ++ rest) = .ok (i, rest) := by
  apply parseHead_encode _ i _ hfit
  rintro items rfl
  have := length_encodeList_lt_encode items
  exact parseItems_encodeList _ items (by rw [List.length_append]; omega) (by omega)

/-! ### Sizes of encodings -/

theorem length_header_le (off len : Nat) (h : len < 2 ^ 64) : (header off len).length ≤ 9 := by
  unfold header
  split
  · simp
  · have := minimalBe_length_le (w := 8) (n := len) (by simpa using h)
    simp only [List.length_cons]
    omega

theorem length_encode_bytes_le (bs : List UInt8) (h : bs.length < 2 ^ 64) :
    (encode (.bytes bs)).length ≤ bs.length + 9 := by
  have := length_header_le 128 bs.length h
  simp only [encode, encodeBytes]
  split
  · omega
  · simp only [List.length_append]
    omega

theorem length_encode_encodeUint_le (h : n < 2 ^ 256) :
    (encode (encodeUint n)).length ≤ 41 := by
  have hm : (minimalBe n).length ≤ 32 := minimalBe_length_le (by simpa using h)
  have := length_encode_bytes_le (minimalBe n) (by omega)
  simp only [encodeUint] at this ⊢
  omega


/-- The encoding of the format, with a hash written as its bytes. -/
def codec : Codec where
  encode := encode
  decode := decode
  encodeUint := encodeUint
  decodeUint := decodeUint
  encodeFixed _ a := .bytes a.bytes
  decodeFixed := decodeFixed

@[simp] theorem codec_encode : codec.encode = encode := rfl

@[simp] theorem codec_encodeUint : codec.encodeUint = encodeUint := rfl

@[simp] theorem codec_encodeFixed (a : FixedBytes n) : codec.encodeFixed n a = .bytes a.bytes := rfl

theorem codec_lawful : codec.Lawful where
  decode_encode_append := decode_encode_append
  decodeUint_encodeUint := decodeUint_encodeUint
  decodeFixed_encodeFixed := decodeFixed_bytes
  isEmpty_encodeFixed a hn := by
    obtain ⟨bs, hlen⟩ := a
    cases bs with
    | nil => simp at hlen; omega
    | cons _ _ => rfl

end Reference

end Rlp
