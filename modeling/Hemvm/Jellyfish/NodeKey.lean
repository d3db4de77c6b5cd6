import Mathlib
import Hemvm.Jellyfish.NibblePath

/-! `NodeKey` of `jellyfish-merkle` (`storage/jellyfish-merkle/src/node_type/mod.rs`): the
version a node was written at and its nibble path. Its storage key is the big-endian version,
one byte of `num_nibbles` and the packed bytes of the path. Decoding reads that layout back
through a `Cursor`, with an error for each check it makes. For keys whose paths keep their
invariant, decoding inverts encoding, and comparing encodings as byte strings agrees with the
derived order on keys, version first. -/
namespace Hemvm.Jellyfish
open Codec

/-! ### Reading from a `Cursor`

The cursor over a byte slice is the list of bytes it has not read yet. -/

section Cursor

/-- The next `n` bytes and what follows them, or the error `eof` of a short read. -/
def takeExact (eof : String) (n : Nat) (input : List UInt8) :
    Except Failure (List UInt8 × List UInt8) :=
  if n ≤ input.length then .ok (input.take n, input.drop n) else .error (.error eof)

/-- `read_exact`, whose short read is the `UnexpectedEof` error. -/
def readExact (n : Nat) (input : List UInt8) : Except Failure (List UInt8 × List UInt8) :=
  takeExact "failed to fill whole buffer" n input

/-- `read_u8`. -/
def readU8 : List UInt8 → Except Failure (UInt8 × List UInt8)
  | [] => .error (.error "failed to fill whole buffer")
  | b :: rest => .ok (b, rest)

/-- `read_u16::<LittleEndian>`. -/
def readU16Le (input : List UInt8) : Except Failure (UInt16 × List UInt8) := do
  let (bytes, rest) ← readExact 2 input
  pure (UInt16.ofNat (ofLeBytes bytes), rest)

/-- `read_u64::<BigEndian>`. -/
def readU64Be (input : List UInt8) : Except Failure (UInt64 × List UInt8) := do
  let (bytes, rest) ← readExact 8 input
  pure (UInt64.ofNat (ofBeBytes bytes), rest)

variable {bs rest : List UInt8}

theorem takeExact_append (eof : String) (h : bs.length = n) :
    takeExact eof n (bs ++ rest) = .ok (bs, rest) := by
  simp [takeExact, ← h]

theorem readExact_append (h : bs.length = n) : readExact n (bs ++ rest) = .ok (bs, rest) :=
  takeExact_append _ h

@[simp] theorem readU8_cons (b : UInt8) (rest : List UInt8) : readU8 (b :: rest) = .ok (b, rest) :=
  rfl

theorem readU16Le_append (x : UInt16) (rest : List UInt8) :
    readU16Le (leBytes 2 x.toNat ++ rest) = .ok (x, rest) := by
  have hlt : x.toNat < 256 ^ 2 := x.toNat_lt
  simp only [readU16Le, readExact_append (length_leBytes 2 _), Control.ok_bind, ofLeBytes_leBytes,
    Nat.mod_eq_of_lt hlt, UInt16.ofNat_toNat]
  rfl

theorem readU64Be_append (x : UInt64) (rest : List UInt8) :
    readU64Be (beBytes 8 x.toNat ++ rest) = .ok (x, rest) := by
  have hlt : x.toNat < 256 ^ 8 := x.toNat_lt
  simp only [readU64Be, readExact_append (length_beBytes 8 _), Control.ok_bind, ofBeBytes_beBytes,
    Nat.mod_eq_of_lt hlt, UInt64.ofNat_toNat]
  rfl

theorem takeExact_noPanic (eof : String) (n : Nat) (input : List UInt8) :
    NoPanic (takeExact eof n input) := by
  unfold takeExact
  split
  · exact noPanic_ok _
  · exact noPanic_error _

theorem readExact_noPanic (n : Nat) (input : List UInt8) : NoPanic (readExact n input) :=
  takeExact_noPanic _ n input

theorem readU8_noPanic (input : List UInt8) : NoPanic (readU8 input) := by
  cases input with
  | nil => exact noPanic_error _
  | cons b rest => exact noPanic_ok _

theorem readU16Le_noPanic (input : List UInt8) : NoPanic (readU16Le input) :=
  (readExact_noPanic 2 input).bind fun _ _ => noPanic_ok _

theorem readU64Be_noPanic (input : List UInt8) : NoPanic (readU64Be input) :=
  (readExact_noPanic 8 input).bind fun _ _ => noPanic_ok _

end Cursor

/-- `NodeKey`. The derived order compares the version first, then the nibble path. -/
structure NodeKey where
  version : UInt64
  nibblePath : NibblePath
deriving DecidableEq, Ord

namespace NodeKey

/-- `gen_child_node_key`: the child at nibble `n`, written at `version`. -/
def genChildNodeKey (k : NodeKey) (version : UInt64) (n : Nibble) : Except Failure NodeKey := do
  let nodeNibblePath ← k.nibblePath.push n
  pure ⟨version, nodeNibblePath⟩

/-- `gen_parent_node_key`: the parent at the same version, which the root does not have. -/
def genParentNodeKey (k : NodeKey) : Except Failure NodeKey := do
  let (nodeNibblePath, popped) ← k.nibblePath.pop
  assertion (popped.isSome = true) "Current node key is root."
  pure ⟨k.version, nodeNibblePath⟩

/-- `NodeKey::encode`: the version in big-endian order, `num_nibbles as u8`, then the bytes of
the path. Writing into a vector cannot fail. -/
def encode (k : NodeKey) : List UInt8 :=
  beBytes 8 k.version.toNat ++ [UInt8.ofNat k.nibblePath.numNibbles] ++ k.nibblePath.bytes

/-- The path that `NodeKey::decode` builds from the bytes after the length byte: `new_even`,
or for an odd length the check of the padding nibble and `new_odd`. -/
def decodeNibblePath (numNibbles : Nat) (nibbleBytes : List UInt8) : Except Failure NibblePath :=
  if numNibbles % 2 = 0 then NibblePath.newEven nibbleBytes
  else do
    let last ← unwrap nibbleBytes.getLast?
    let padding := last &&& 0x0F
    ensure (padding = 0) ("Padding nibble expected to be 0, got: " ++ toString padding)
    NibblePath.newOdd nibbleBytes

/-- `NodeKey::decode`. -/
def decode (val : List UInt8) : Except Failure NodeKey := do
  let (version, rest) ← readU64Be val
  let (numNibblesByte, nibbleBytes) ← readU8 rest
  let numNibbles := numNibblesByte.toNat
  ensure (numNibbles ≤ rootNibbleHeight) ("Invalid number of nibbles: " ++ toString numNibbles)
  ensure ((numNibbles + 1) / 2 = nibbleBytes.length)
    ("encoded num_nibbles " ++ toString numNibbles ++ " mismatches nibble path bytes " ++
      toString (nibbleBytes.map UInt8.toNat))
  let nibblePath ← decodeNibblePath numNibbles nibbleBytes
  pure ⟨version, nibblePath⟩

/-- The keys reachable from keys over built paths by `gen_child_node_key` and
`gen_parent_node_key`, each call returning without a panic. -/
inductive Reachable : NodeKey → Prop
  | new (version : UInt64) {p : NibblePath} : p.Built → Reachable ⟨version, p⟩
  | genChild {k k' : NodeKey} {version : UInt64} {n : Nibble} :
      Reachable k → k.genChildNodeKey version n = .ok k' → Reachable k'
  | genParent {k k' : NodeKey} : Reachable k → k.genParentNodeKey = .ok k' → Reachable k'

variable {k k' : NodeKey}

theorem nibblePath_of_genChildNodeKey {version : UInt64} {n : Nibble}
    (h : k.genChildNodeKey version n = .ok k') : k.nibblePath.push n = .ok k'.nibblePath := by
  obtain ⟨p, hpush, hk⟩ := Control.bind_eq_ok_iff.mp h
  cases hk
  exact hpush

theorem nibblePath_of_genParentNodeKey (h : k.genParentNodeKey = .ok k') :
    ∃ popped, k.nibblePath.pop = .ok (k'.nibblePath, popped) := by
  obtain ⟨⟨p, popped⟩, hpop, hrest⟩ := Control.bind_eq_ok_iff.mp h
  obtain ⟨⟨⟩, -, hk⟩ := Control.bind_eq_ok_iff.mp hrest
  cases hk
  exact ⟨popped, hpop⟩

/-- The path of every reachable key is built, so it keeps the invariant. -/
theorem Reachable.built (h : k.Reachable) : k.nibblePath.Built := by
  induction h with
  | new _ hp => exact hp
  | genChild _ hk ih => exact .push ih (nibblePath_of_genChildNodeKey hk)
  | genParent _ hk ih =>
    obtain ⟨popped, hpop⟩ := nibblePath_of_genParentNodeKey hk
    exact .pop ih hpop

/-- Every key reachable from built paths through `gen_child_node_key` and `gen_parent_node_key`
has a path that keeps the representation invariant. -/
theorem Reachable.nibblePath_wellFormed (h : k.Reachable) : k.nibblePath.WellFormed :=
  NibblePath.Built.wellFormed h.built

theorem Reachable.nibblePath_wellFormed_sample :
    (⟨0, ⟨1, [16]⟩⟩ : NodeKey).Reachable ∧ (⟨0, ⟨1, [16]⟩⟩ : NodeKey).nibblePath.WellFormed :=
  have hroot : (⟨0, ⟨0, []⟩⟩ : NodeKey).Reachable :=
    .new 0 (.newEven (show NibblePath.newEven [] = .ok ⟨0, []⟩ by decide))
  have hchild : (⟨0, ⟨1, [16]⟩⟩ : NodeKey).Reachable := .genChild hroot
    (show (⟨0, ⟨0, []⟩⟩ : NodeKey).genChildNodeKey 0 (Nibble.ofFin 1) = .ok ⟨0, ⟨1, [16]⟩⟩ by decide)
  ⟨hchild, Reachable.nibblePath_wellFormed hchild⟩

theorem compare_def (k₁ k₂ : NodeKey) :
    compare k₁ k₂ = (compare k₁.version k₂.version).then (compare k₁.nibblePath k₂.nibblePath) := by
  cases k₁
  cases k₂
  show (compare _ _).then ((compare _ _).then .eq) = _
  rw [Ordering.then_eq]

theorem toNat_ofNat_numNibbles {p : NibblePath} (h : p.numNibbles < 256) :
    (UInt8.ofNat p.numNibbles).toNat = p.numNibbles := by
  rw [UInt8.toNat_ofNat']
  exact Nat.mod_eq_of_lt h

/-- Encodings compare as bytes the way the derived order compares keys: the big-endian
version first, then the length byte, then the bytes of the path. This needs only that the
length fits in its byte. -/
theorem compare_encode {k₁ k₂ : NodeKey} (h₁ : k₁.nibblePath.numNibbles < 256)
    (h₂ : k₂.nibblePath.numNibbles < 256) : compare k₁.encode k₂.encode = compare k₁ k₂ := by
  have hversion : compare (beBytes 8 k₁.version.toNat) (beBytes 8 k₂.version.toNat) =
      compare k₁.version k₂.version := by
    have hlt₁ : k₁.version.toNat < 256 ^ 8 := k₁.version.toNat_lt
    have hlt₂ : k₂.version.toNat < 256 ^ 8 := k₂.version.toNat_lt
    rw [compare_beBytes, Nat.mod_eq_of_lt hlt₁, Nat.mod_eq_of_lt hlt₂,
      UInt64.compare_eq_toNat_compare_toNat]
  have hlength : compare (UInt8.ofNat k₁.nibblePath.numNibbles) (UInt8.ofNat k₂.nibblePath.numNibbles) =
      compare k₁.nibblePath.numNibbles k₂.nibblePath.numNibbles := by
    rw [UInt8.compare_eq_toNat_compare_toNat, toNat_ofNat_numNibbles h₁, toNat_ofNat_numNibbles h₂]
  rw [compare_def, NibblePath.compare_def, encode, encode, List.append_assoc, List.append_assoc]
  show List.compareLex compare _ _ = _
  rw [compareLex_append_of_length_eq (by simp), List.singleton_append, List.singleton_append,
    List.compareLex_cons_cons]
  rw [show List.compareLex compare (beBytes 8 k₁.version.toNat) (beBytes 8 k₂.version.toNat) = _
    from hversion, hlength]
  rfl

theorem compare_encode_sample :
    (⟨7, ⟨1, [16]⟩⟩ : NodeKey).nibblePath.numNibbles < 256 ∧
      (⟨7, ⟨2, [0x12]⟩⟩ : NodeKey).nibblePath.numNibbles < 256 ∧
      compare (⟨7, ⟨1, [16]⟩⟩ : NodeKey).encode (⟨7, ⟨2, [0x12]⟩⟩ : NodeKey).encode =
        compare (⟨7, ⟨1, [16]⟩⟩ : NodeKey) ⟨7, ⟨2, [0x12]⟩⟩ :=
  ⟨by decide, by decide, compare_encode (by decide) (by decide)⟩

theorem decodeNibblePath_bytes {p : NibblePath} (h : p.WellFormed) :
    decodeNibblePath p.numNibbles p.bytes = .ok p := by
  rcases Nat.mod_two_eq_zero_or_one p.numNibbles with heven | hodd
  · rw [decodeNibblePath, if_pos heven, h.newEven_bytes heven]
  · obtain ⟨init, last, hbytes, -, hlast⟩ := h.odd_shape hodd
    have hpad : last &&& 0x0F = 0 := (and_0F_eq_zero_iff last).mpr hlast
    rw [decodeNibblePath, if_neg (by omega), hbytes, List.getLast?_concat]
    simp only [unwrap, Control.ok_bind]
    rw [ensure_of_pos hpad, Control.ok_bind, ← hbytes, h.newOdd_bytes hodd]

/-- Once the length checks of `decode` pass, building the path does not panic. -/
theorem decodeNibblePath_noPanic {numNibbles : Nat} {nibbleBytes : List UInt8}
    (hle : numNibbles ≤ rootNibbleHeight) (hlen : (numNibbles + 1) / 2 = nibbleBytes.length) :
    NoPanic (decodeNibblePath numNibbles nibbleBytes) := by
  have hbound : nibbleBytes.length ≤ rootNibbleHeight / 2 := by
    unfold rootNibbleHeight at *
    omega
  unfold decodeNibblePath
  split
  · rw [NibblePath.newEven_eq_ok_iff.mpr ⟨hbound, rfl⟩]
    exact noPanic_ok _
  · -- an odd length has a last byte, whose padding is checked before `new_odd` asserts it
    obtain ⟨init, last, hbytes⟩ : ∃ init last, nibbleBytes = init ++ [last] :=
      ⟨_, _, (List.dropLast_concat_getLast (List.ne_nil_of_length_pos (by omega))).symm⟩
    rw [hbytes, List.getLast?_concat, unwrap, Control.ok_bind]
    refine (ensure_noPanic _ _).bind fun _ hzero => ?_
    rw [NibblePath.newOdd_eq_ok_iff.mpr ⟨hbytes ▸ hbound, init, last, rfl, of_ensure_eq_ok hzero,
      rfl⟩]
    exact noPanic_ok _

/-- Decoding the encoding of a key whose path keeps the invariant gives the key back. -/
theorem decode_encode_of_wellFormed (h : k.nibblePath.WellFormed) : decode k.encode = .ok k := by
  have hle := h.numNibbles_le
  have hnum := toNat_ofNat_numNibbles (p := k.nibblePath) (by unfold rootNibbleHeight at hle; omega)
  simp only [decode, encode, List.append_assoc, readU64Be_append, Control.ok_bind,
    List.singleton_append, readU8_cons, hnum, ensure_of_pos hle, ensure_of_pos h.length_bytes.symm,
    decodeNibblePath_bytes h]
  rfl

theorem decode_encode_of_wellFormed_sample :
    (⟨7, ⟨3, [0x12, 0x30]⟩⟩ : NodeKey).nibblePath.WellFormed ∧
      decode (⟨7, ⟨3, [0x12, 0x30]⟩⟩ : NodeKey).encode = .ok ⟨7, ⟨3, [0x12, 0x30]⟩⟩ :=
  have h : (⟨7, ⟨3, [0x12, 0x30]⟩⟩ : NodeKey).nibblePath.WellFormed := by decide
  ⟨h, decode_encode_of_wellFormed h⟩

/-- Decoding returns or fails with an error, and never panics, whatever the bytes: the checks
it makes before building the path are those the constructors of the path assert. -/
theorem decode_noPanic (val : List UInt8) : NoPanic (decode val) := by
  refine (readU64Be_noPanic val).bind fun ⟨version, rest⟩ _ => ?_
  refine (readU8_noPanic rest).bind fun ⟨numNibblesByte, nibbleBytes⟩ _ => ?_
  refine (ensure_noPanic _ _).bind fun _ hle => ?_
  refine (ensure_noPanic _ _).bind fun _ hlen => ?_
  exact (decodeNibblePath_noPanic (of_ensure_eq_ok hle) (of_ensure_eq_ok hlen)).bind
    fun _ _ => noPanic_ok _

end NodeKey

end Hemvm.Jellyfish
