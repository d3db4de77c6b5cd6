import Mathlib
import Hemvm.Codec.Lex
import Hemvm.Jellyfish.NibbleRange

/-! `NibblePath` (`types/src/nibble/nibble_path/mod.rs`): a path of the Jellyfish Merkle tree,
`num_nibbles` four-bit nibbles packed two to a byte, high half first, with the low half of the
last byte zero when `num_nibbles` is odd. The abstract view of a path is the list of nibbles
its bytes hold (`toNibbles`). Every operation that builds a path (`new_even`, `new_odd`,
`push`, `pop`, `truncate`) keeps the representation invariant and acts on that list as a
list operation, and under the invariant the derived equality and order of paths are those of
their nibble lists, shorter lists first. -/
namespace Hemvm.Jellyfish
open Codec

/-- How a call of the storage encodings ends when it does not return `Ok`: with an error it
returns (`ensure!`, a short read, a decoding error), or in a panic (a failed `assert!`, an index
out of bounds, an `expect`), with the text it prints. -/
inductive Failure where
  | error (msg : String)
  | panic (msg : String)
deriving DecidableEq, Repr

/-- `assert!(cond, ..)`, with the text its panic prints. -/
def assertion (cond : Prop) [Decidable cond] (text : String) : Except Failure Unit :=
  if cond then .ok () else .error (.panic text)

/-- `ensure!(cond, ..)`: an error that the caller sees, not a panic. -/
def ensure (cond : Prop) [Decidable cond] (msg : String) : Except Failure Unit :=
  if cond then .ok () else .error (.error msg)

/-- `Option::unwrap`, which panics on `None`. -/
def unwrap {α : Type} : Option α → Except Failure α
  | some a => .ok a
  | none => .error (.panic "called `Option::unwrap()` on a `None` value")

/-- The text of the panic of `v[index]` past the end. -/
def indexOutOfBounds (len index : Nat) : String :=
  "index out of bounds: the len is " ++ toString len ++ " but the index is " ++ toString index

@[simp] theorem assertion_of_pos {cond : Prop} [Decidable cond] (h : cond) (text : String) :
    assertion cond text = .ok () := if_pos h

@[simp] theorem ensure_of_pos {cond : Prop} [Decidable cond] (h : cond) (msg : String) :
    ensure cond msg = .ok () := if_pos h

theorem of_ensure_eq_ok {cond : Prop} [Decidable cond] {msg : String} {u : Unit}
    (h : ensure cond msg = .ok u) : cond := by
  unfold ensure at h
  split at h
  · assumption
  · cases h

/-- A computation that does not end in a panic: it returns, or fails with an error. -/
def NoPanic {α : Type} (x : Except Failure α) : Prop := ∀ msg, x ≠ .error (.panic msg)

section NoPanic

variable {α β : Type}

theorem noPanic_ok (a : α) : NoPanic (.ok a : Except Failure α) := fun _ h => by cases h

theorem noPanic_error (msg : String) : NoPanic (.error (.error msg) : Except Failure α) :=
  fun _ h => by cases h

/-- A bind does not panic when its first computation does not, and the continuation does not
on what it returns. -/
theorem NoPanic.bind {x : Except Failure α} {f : α → Except Failure β} (hx : NoPanic x)
    (hf : ∀ a, x = .ok a → NoPanic (f a)) : NoPanic (x >>= f) := by
  intro msg h
  cases hx' : x with
  | error e =>
    rw [hx', Control.error_bind] at h
    rw [hx'] at hx
    exact hx msg (congrArg Except.error (Except.error.inj h))
  | ok a =>
    rw [hx', Control.ok_bind] at h
    exact hf a hx' msg h

theorem ensure_noPanic (cond : Prop) [Decidable cond] (msg : String) : NoPanic (ensure cond msg) := by
  unfold ensure
  split
  · exact noPanic_ok _
  · exact noPanic_error _

end NoPanic

/-- `Nibble`: a byte below 16. -/
structure Nibble where
  val : UInt8
  lt : val < 16
deriving DecidableEq

/-- The derived order of `Nibble` compares its byte. -/
instance : Ord Nibble := ⟨fun a b => compare a.val b.val⟩

/-- `Nibble::from(u8)`, which asserts that the byte is below 16. -/
def Nibble.from (nibble : UInt8) : Except Failure Nibble :=
  if h : nibble < 16 then .ok ⟨nibble, h⟩
  else .error (.panic ("Nibble out of range: " ++ toString nibble))

namespace Nibble

@[ext] theorem ext {a b : Nibble} (h : a.val = b.val) : a = b := by
  cases a
  cases b
  simp_all

theorem toNat_lt (n : Nibble) : n.val.toNat < 16 := UInt8.lt_iff_toNat_lt.mp n.lt

theorem compare_eq (a b : Nibble) : compare a b = compare a.val.toNat b.val.toNat :=
  UInt8.compare_eq_toNat_compare_toNat a.val b.val

theorem from_of_lt {x : UInt8} (h : x.toNat < 16) : Nibble.from x = .ok ⟨x, UInt8.lt_iff_toNat_lt.mpr h⟩ :=
  dif_pos (UInt8.lt_iff_toNat_lt.mpr h)

/-- The high half of a byte. -/
def high (b : UInt8) : Nibble :=
  ⟨b >>> 4, UInt8.lt_iff_toNat_lt.mpr (by
    rw [UInt8.toNat_shiftRight, Nat.shiftRight_eq_div_pow]
    have := b.toNat_lt
    simp only [UInt8.reduceToNat, Nat.reduceMod]
    omega)⟩

/-- The low half of a byte. -/
def low (b : UInt8) : Nibble :=
  ⟨b &&& 0x0F, UInt8.lt_iff_toNat_lt.mpr (by
    rw [UInt8.toNat_and, show (0x0F : UInt8).toNat = 2 ^ 4 - 1 from rfl,
      Nat.and_two_pow_sub_one_eq_mod]
    simp only [UInt8.reduceToNat]
    omega)⟩

@[simp] theorem toNat_high (b : UInt8) : (high b).val.toNat = b.toNat / 16 := by
  simp only [high, UInt8.toNat_shiftRight, Nat.shiftRight_eq_div_pow]
  rfl

@[simp] theorem toNat_low (b : UInt8) : (low b).val.toNat = b.toNat % 16 := by
  simp only [low, UInt8.toNat_and, show (0x0F : UInt8).toNat = 2 ^ 4 - 1 from rfl,
    Nat.and_two_pow_sub_one_eq_mod]

theorem eq_of_toNat {a b : Nibble} (h : a.val.toNat = b.val.toNat) : a = b :=
  ext (UInt8.toNat_inj.mp h)

instance : Inhabited Nibble := ⟨⟨0, by decide⟩⟩

instance : Std.LawfulEqOrd Nibble where
  compare_self {a} := by rw [compare_eq, Std.ReflOrd.compare_self]
  eq_of_compare {a b} h := by
    rw [compare_eq, Std.LawfulEqOrd.compare_eq_iff_eq] at h
    exact eq_of_toNat h

/-- The nibble of value `i`. -/
def ofFin (i : Fin 16) : Nibble :=
  ⟨UInt8.ofNat i.val, UInt8.lt_iff_toNat_lt.mpr (by
    rw [UInt8.toNat_ofNat', Nat.mod_eq_of_lt (by omega)]
    exact i.isLt)⟩

@[simp] theorem toNat_ofFin (i : Fin 16) : (ofFin i).val.toNat = i.val := by
  rw [ofFin, UInt8.toNat_ofNat', Nat.mod_eq_of_lt (by omega)]

/-- The value of a nibble. -/
def toFin (n : Nibble) : Fin 16 := ⟨n.val.toNat, n.toNat_lt⟩

/-- Nibbles are the numbers below 16. -/
def equivFin : Nibble ≃ Fin 16 where
  toFun := toFin
  invFun := ofFin
  left_inv n := eq_of_toNat (by simp [toFin])
  right_inv i := Fin.ext (by simp [toFin])

instance : Fintype Nibble := Fintype.ofEquiv (Fin 16) equivFin.symm

/-- The sixteen nibbles in increasing order. -/
def all : List Nibble := (List.finRange 16).map ofFin

theorem mem_all (n : Nibble) : n ∈ all :=
  List.mem_map.mpr ⟨n.toFin, List.mem_finRange _, equivFin.left_inv n⟩

/-- A byte compares as its high half, then its low half. -/
theorem compare_halves (b c : UInt8) :
    compare b c = (compare (high b) (high c)).then (compare (low b) (low c)) := by
  rw [compare_eq, compare_eq, toNat_high, toNat_high, toNat_low, toNat_low, ← compare_mul_add
    (Nat.mod_lt _ (by omega)) (Nat.mod_lt _ (by omega)), Nat.div_add_mod, Nat.div_add_mod]
  exact UInt8.compare_eq_toNat_compare_toNat b c

end Nibble

/-! ### Bytes and their halves

The byte operations of `push`, `pop` and `truncate` on the two halves. -/

section Halves

theorem toNat_and_F0 (b : UInt8) : (b &&& 0xF0).toNat = b.toNat / 16 * 16 := by
  have hmask : ∀ a : Fin 256, a.val &&& 240 = a.val / 16 * 16 := by decide +kernel
  rw [UInt8.toNat_and]
  exact hmask ⟨b.toNat, b.toNat_lt⟩

theorem toNat_shiftLeft_four {n : UInt8} (h : n.toNat < 16) : (n <<< 4).toNat = n.toNat * 16 := by
  rw [UInt8.toNat_shiftLeft, Nat.shiftLeft_eq]
  simp only [UInt8.reduceToNat, Nat.reduceMod]
  omega

theorem toNat_or_of_low {b n : UInt8} (hb : b.toNat % 16 = 0) (hn : n.toNat < 16) :
    (b ||| n).toNat = b.toNat + n.toNat := by
  have hdecomp : b.toNat = 2 ^ 4 * (b.toNat / 16) := by omega
  rw [UInt8.toNat_or, hdecomp, ← Nat.two_pow_add_eq_or_of_lt hn]

theorem and_0F_eq_zero_iff (b : UInt8) : b &&& 0x0F = 0 ↔ b.toNat % 16 = 0 := by
  rw [← UInt8.toNat_inj, UInt8.toNat_and, show (0x0F : UInt8).toNat = 2 ^ 4 - 1 from rfl,
    Nat.and_two_pow_sub_one_eq_mod]
  rfl

theorem Nibble.high_shiftLeft (nibble : Nibble) : Nibble.high (nibble.val <<< 4) = nibble :=
  Nibble.eq_of_toNat (by
    rw [Nibble.toNat_high, toNat_shiftLeft_four nibble.toNat_lt]
    omega)

theorem Nibble.high_or {b : UInt8} (hb : b.toNat % 16 = 0) (nibble : Nibble) :
    Nibble.high (b ||| nibble.val) = Nibble.high b :=
  Nibble.eq_of_toNat (by
    have := nibble.toNat_lt
    rw [Nibble.toNat_high, Nibble.toNat_high, toNat_or_of_low hb nibble.toNat_lt]
    omega)

theorem Nibble.low_or {b : UInt8} (hb : b.toNat % 16 = 0) (nibble : Nibble) :
    Nibble.low (b ||| nibble.val) = nibble :=
  Nibble.eq_of_toNat (by
    have := nibble.toNat_lt
    rw [Nibble.toNat_low, toNat_or_of_low hb nibble.toNat_lt]
    omega)

theorem Nibble.high_and_F0 (b : UInt8) : Nibble.high (b &&& 0xF0) = Nibble.high b :=
  Nibble.eq_of_toNat (by
    rw [Nibble.toNat_high, Nibble.toNat_high, toNat_and_F0]
    omega)

theorem Nibble.from_low (b : UInt8) : Nibble.from (b &&& 0x0F) = .ok (Nibble.low b) :=
  dif_pos (Nibble.low b).lt

theorem Nibble.from_high (b : UInt8) : Nibble.from (b >>> 4) = .ok (Nibble.high b) :=
  dif_pos (Nibble.high b).lt

/-- The mask of `get_nibble` on a high half changes nothing. -/
theorem shiftRight_four_and (b : UInt8) : (b >>> 4) &&& (0xF : UInt8) = b >>> 4 := by
  have hhigh := (Nibble.high b).toNat_lt
  rw [← UInt8.toNat_inj, UInt8.toNat_and, show (0xF : UInt8).toNat = 2 ^ 4 - 1 from rfl,
    Nat.and_two_pow_sub_one_eq_mod]
  exact Nat.mod_eq_of_lt hhigh

/-- The nibbles of a byte, high half first. -/
def splitByte (b : UInt8) : List Nibble := [Nibble.high b, Nibble.low b]

@[simp] theorem length_flatMap_splitByte (bs : List UInt8) :
    (bs.flatMap splitByte).length = 2 * bs.length := by
  induction bs with
  | nil => rfl
  | cons b bs ih =>
    simp only [List.flatMap_cons, List.length_append, ih, List.length_cons]
    simp [splitByte]
    omega

/-- The nibble at position `i` of a byte string is a half of byte `i / 2`. -/
theorem getElem?_flatMap_splitByte (bs : List UInt8) (i : Nat) :
    (bs.flatMap splitByte)[i]? =
      bs[i / 2]?.map fun b => if i % 2 = 1 then Nibble.low b else Nibble.high b := by
  induction bs generalizing i with
  | nil => simp
  | cons b bs ih =>
    rw [List.flatMap_cons]
    match i with
    | 0 => rfl
    | 1 => rfl
    | i + 2 =>
      have hhalf : (i + 2) / 2 = i / 2 + 1 := by omega
      rw [show splitByte b ++ bs.flatMap splitByte = Nibble.high b :: Nibble.low b ::
        bs.flatMap splitByte from rfl, List.getElem?_cons_succ, List.getElem?_cons_succ, ih,
        hhalf, List.getElem?_cons_succ, Nat.add_mod_right]

/-- Byte strings compare as the nibble strings they hold. -/
theorem compare_flatMap_splitByte (bs cs : List UInt8) :
    compare (bs.flatMap splitByte) (cs.flatMap splitByte) = compare bs cs :=
  compareLex_flatMap (fun _ _ => rfl) (fun _ => List.cons_ne_nil _ _)
    (fun b c => by
      rw [Nibble.compare_halves]
      simp [List.compareLex_cons_cons, List.compareLex_nil_nil]) bs cs

end Halves

/-- `NibblePath`: `num_nibbles` nibbles in `bytes`, two to a byte. The derived order compares
`num_nibbles` first, then the bytes. -/
structure NibblePath where
  numNibbles : Nat
  bytes : List UInt8
deriving DecidableEq, Ord

namespace NibblePath

/-- The representation invariant that the comments of `NibblePath` state. -/
structure WellFormed (p : NibblePath) : Prop where
  numNibbles_le : p.numNibbles ≤ rootNibbleHeight
  length_bytes : p.bytes.length = (p.numNibbles + 1) / 2
  padding : p.numNibbles % 2 = 1 → p.bytes.getLastD 0 &&& 0x0F = 0

instance (p : NibblePath) : Decidable p.WellFormed :=
  decidable_of_iff (p.numNibbles ≤ rootNibbleHeight ∧ p.bytes.length = (p.numNibbles + 1) / 2 ∧
      (p.numNibbles % 2 = 1 → p.bytes.getLastD 0 &&& 0x0F = 0))
    ⟨fun ⟨h1, h2, h3⟩ => ⟨h1, h2, h3⟩, fun ⟨h1, h2, h3⟩ => ⟨h1, h2, h3⟩⟩

/-- The nibbles a path holds: the halves of its bytes, up to `num_nibbles`. -/
def toNibbles (p : NibblePath) : List Nibble :=
  (p.bytes.flatMap splitByte).take p.numNibbles

/-- `NibblePath::new_even`. -/
def newEven (bytes : List UInt8) : Except Failure NibblePath := do
  assertion (bytes.length ≤ rootNibbleHeight / 2)
    "assertion failed: bytes.len() <= ROOT_NIBBLE_HEIGHT / 2"
  pure ⟨bytes.length * 2, bytes⟩

/-- `NibblePath::new_odd`: the last byte must exist and have a zero low half. -/
def newOdd (bytes : List UInt8) : Except Failure NibblePath := do
  assertion (bytes.length ≤ rootNibbleHeight / 2)
    "assertion failed: bytes.len() <= ROOT_NIBBLE_HEIGHT / 2"
  match bytes.getLast? with
  | none => .error (.panic "Should have odd number of nibbles.")
  | some last =>
    assertion (last &&& 0x0F = 0) "assertion `left == right` failed: Last nibble must be 0."
    pure ⟨bytes.length * 2 - 1, bytes⟩

/-- `self.bytes[i] |= value`, which panics past the end. -/
def orAt (bytes : List UInt8) (i : Nat) (value : UInt8) : Except Failure (List UInt8) :=
  if i < bytes.length then .ok (bytes.modify i (· ||| value))
  else .error (.panic (indexOutOfBounds bytes.length i))

/-- `NibblePath::push`: a new byte for an even length, the low half of the last byte for an
odd one. -/
def push (p : NibblePath) (nibble : Nibble) : Except Failure NibblePath := do
  assertion (rootNibbleHeight > p.numNibbles)
    "assertion failed: ROOT_NIBBLE_HEIGHT > self.num_nibbles"
  let bytes ← if p.numNibbles % 2 = 0 then pure (p.bytes ++ [nibble.val <<< 4])
    else orAt p.bytes (p.numNibbles / 2) nibble.val
  pure ⟨p.numNibbles + 1, bytes⟩

/-- `self.num_nibbles -= 1`, which panics at zero. -/
def decrement (n : Nat) : Except Failure Nat :=
  if 1 ≤ n then .ok (n - 1) else .error (.panic "attempt to subtract with overflow")

/-- `NibblePath::pop`: for an even length the low half of the last byte, which is cleared; for
an odd one the high half of the last byte, which is removed. -/
def pop (p : NibblePath) : Except Failure (NibblePath × Option Nibble) := do
  let (bytes, poppedNibble) ← if p.numNibbles % 2 = 0 then
      match p.bytes.getLast? with
      | none => pure (p.bytes, none)
      | some lastByte => do
        let nibble ← Nibble.from (lastByte &&& 0x0F)
        pure (p.bytes.dropLast ++ [lastByte &&& 0xF0], some nibble)
    else
      match p.bytes.getLast? with
      | none => pure (p.bytes, none)
      | some byte => do
        let nibble ← Nibble.from (byte >>> 4)
        pure (p.bytes.dropLast, some nibble)
  match poppedNibble with
  | none => pure (⟨p.numNibbles, bytes⟩, none)
  | some nibble => do
    let numNibbles ← decrement p.numNibbles
    pure (⟨numNibbles, bytes⟩, some nibble)

/-- `NibblePath::truncate`: the first `len` nibbles, with the low half of the last byte cleared
for an odd `len`. -/
def truncate (p : NibblePath) (len : Nat) : Except Failure NibblePath := do
  assertion (len ≤ p.numNibbles) "assertion failed: len <= self.num_nibbles"
  let bytes := p.bytes.take ((len + 1) / 2)
  if len % 2 ≠ 0 then
    match bytes.getLast? with
    | none => .error (.panic "must exist.")
    | some last => pure ⟨len, bytes.dropLast ++ [last &&& 0xF0]⟩
  else pure ⟨len, bytes⟩

/-- `self.bytes[i]`, which panics past the end. -/
def byteAt (bytes : List UInt8) (i : Nat) : Except Failure UInt8 :=
  match bytes[i]? with
  | some b => .ok b
  | none => .error (.panic (indexOutOfBounds bytes.length i))

/-- `NibblePath::get_nibble`. -/
def getNibble (p : NibblePath) (i : Nat) : Except Failure Nibble := do
  assertion (i < p.numNibbles) "assertion failed: i < self.num_nibbles"
  let byte ← byteAt p.bytes (i / 2)
  Nibble.from ((byte >>> (if i % 2 = 1 then 0 else 4)) &&& 0xF)

/-- `nibbles()`: the iterator reads `get_nibble` at each position in turn. -/
def nibbles (p : NibblePath) : Except Failure (List Nibble) :=
  (List.range p.numNibbles).mapM p.getNibble

/-! ### The two shapes of a well-formed path

An even path holds exactly the halves of its bytes; an odd one ends in a byte whose low half is
the zero padding. -/

section Shapes

variable {p : NibblePath}

theorem flatMap_splitByte_concat (init : List UInt8) (b : UInt8) :
    (init ++ [b]).flatMap splitByte = init.flatMap splitByte ++ [Nibble.high b, Nibble.low b] := by
  simp [List.flatMap_append, splitByte]

theorem take_flatMap_splitByte (bs : List UInt8) (k : Nat) :
    (bs.flatMap splitByte).take (2 * k) = (bs.take k).flatMap splitByte := by
  induction bs generalizing k with
  | nil => simp
  | cons b bs ih =>
    cases k with
    | zero => simp
    | succ k =>
      rw [show 2 * (k + 1) = 2 * k + 2 by omega, List.flatMap_cons, List.take_succ_cons,
        List.flatMap_cons, ← ih]
      rfl

theorem WellFormed.even_length (h : p.WellFormed) (heven : p.numNibbles % 2 = 0) :
    p.numNibbles = 2 * p.bytes.length := by
  have := h.length_bytes
  omega

theorem modify_concat {α : Type} (init : List α) (last : α) (f : α → α) :
    (init ++ [last]).modify init.length f = init ++ [f last] := by
  rw [List.modify_eq_take_cons_drop (by simp)]
  simp

theorem WellFormed.odd_shape (h : p.WellFormed) (hodd : p.numNibbles % 2 = 1) :
    ∃ init last, p.bytes = init ++ [last] ∧ p.numNibbles = 2 * init.length + 1 ∧
      last.toNat % 16 = 0 := by
  have hlen := h.length_bytes
  have hne : p.bytes ≠ [] := by
    intro he
    rw [he, List.length_nil] at hlen
    omega
  obtain ⟨init, last, hbytes⟩ : ∃ init last, p.bytes = init ++ [last] :=
    ⟨_, _, (List.dropLast_concat_getLast hne).symm⟩
  have hpad := h.padding hodd
  rw [hbytes, List.getLastD_concat] at hpad
  rw [hbytes, List.length_append, List.length_singleton] at hlen
  exact ⟨init, last, hbytes, by omega, (and_0F_eq_zero_iff last).mp hpad⟩

theorem take_flatMap_splitByte_concat (init : List UInt8) (last : UInt8) :
    ((init ++ [last]).flatMap splitByte).take (2 * init.length + 1) =
      init.flatMap splitByte ++ [Nibble.high last] := by
  rw [flatMap_splitByte_concat, List.take_append,
    List.take_of_length_le (by rw [length_flatMap_splitByte]; omega), length_flatMap_splitByte]
  simp

theorem toNibbles_of_odd_shape {init : List UInt8} {last : UInt8}
    (hbytes : p.bytes = init ++ [last]) (hnum : p.numNibbles = 2 * init.length + 1) :
    p.toNibbles = init.flatMap splitByte ++ [Nibble.high last] := by
  rw [toNibbles, hbytes, hnum, take_flatMap_splitByte_concat]

/-- A path of `2 k + 1` nibbles whose last byte has a zero low half is well formed. -/
theorem wellFormed_of_odd_shape {init : List UInt8} {last : UInt8}
    (hbytes : p.bytes = init ++ [last]) (hnum : p.numNibbles = 2 * init.length + 1)
    (hlast : last.toNat % 16 = 0) (hle : p.numNibbles ≤ rootNibbleHeight) : p.WellFormed where
  numNibbles_le := hle
  length_bytes := by
    rw [hbytes, List.length_append, List.length_singleton]
    omega
  padding := fun _ => by rw [hbytes, List.getLastD_concat, and_0F_eq_zero_iff]; exact hlast

/-- A path of `2 k` nibbles in `k` bytes is well formed. -/
theorem wellFormed_of_even_shape (hnum : p.numNibbles = 2 * p.bytes.length)
    (hle : p.numNibbles ≤ rootNibbleHeight) : p.WellFormed where
  numNibbles_le := hle
  length_bytes := by omega
  padding := fun hodd => by omega

theorem toNibbles_of_even_shape (hnum : p.numNibbles = 2 * p.bytes.length) :
    p.toNibbles = p.bytes.flatMap splitByte := by
  rw [toNibbles, List.take_of_length_le (by rw [length_flatMap_splitByte, hnum])]

theorem WellFormed.length_toNibbles (h : p.WellFormed) : p.toNibbles.length = p.numNibbles := by
  rw [toNibbles, List.length_take, length_flatMap_splitByte, h.length_bytes]
  omega

/-- The halves past `num_nibbles`: none for an even path, the zero padding for an odd one. -/
theorem WellFormed.drop_flatMap_splitByte (h : p.WellFormed) :
    (p.bytes.flatMap splitByte).drop p.numNibbles =
      if p.numNibbles % 2 = 1 then [Nibble.low 0] else [] := by
  rcases Nat.mod_two_eq_zero_or_one p.numNibbles with heven | hodd
  · rw [if_neg (by omega), List.drop_eq_nil_of_le
      (by rw [length_flatMap_splitByte, h.even_length heven])]
  · obtain ⟨init, last, hbytes, hnum, hlast⟩ := h.odd_shape hodd
    have hlow : Nibble.low last = Nibble.low 0 := Nibble.eq_of_toNat (by simp [hlast])
    rw [if_pos hodd, hbytes, flatMap_splitByte_concat, List.drop_append, List.drop_of_length_le
      (by rw [length_flatMap_splitByte]; omega), length_flatMap_splitByte, hnum, hlow]
    simp [show 2 * init.length + 1 - 2 * init.length = 1 by omega]

end Shapes

/-! ### Order and equality

Under the invariant a path's bytes are its nibbles and a padding that depends only on
`num_nibbles`, so the derived comparison of paths is that of their nibble lists. -/

section Order

variable {p q : NibblePath}

theorem compare_def (p q : NibblePath) :
    compare p q = (compare p.numNibbles q.numNibbles).then (compare p.bytes q.bytes) := by
  cases p
  cases q
  show (compare _ _).then ((compare _ _).then .eq) = _
  rw [Ordering.then_eq]

/-- Well-formed paths of one length compare their bytes as their nibbles: the paddings after
the nibbles are equal. -/
theorem compare_bytes_of_numNibbles_eq (hp : p.WellFormed) (hq : q.WellFormed)
    (hnum : p.numNibbles = q.numNibbles) :
    compare p.bytes q.bytes = compare p.toNibbles q.toNibbles := by
  have hdrop : (p.bytes.flatMap splitByte).drop p.numNibbles =
      (q.bytes.flatMap splitByte).drop q.numNibbles := by
    rw [hp.drop_flatMap_splitByte, hq.drop_flatMap_splitByte, hnum]
  have hlen : p.toNibbles.length = q.toNibbles.length := by
    rw [hp.length_toNibbles, hq.length_toNibbles, hnum]
  rw [← compare_flatMap_splitByte, ← List.take_append_drop p.numNibbles (p.bytes.flatMap _),
    ← List.take_append_drop q.numNibbles (q.bytes.flatMap _), hdrop]
  have hself : ∀ xs : List Nibble, List.compareLex compare xs xs = .eq :=
    fun xs => Std.ReflOrd.compare_self (a := xs)
  show List.compareLex compare (p.toNibbles ++ _) (q.toNibbles ++ _) = _
  rw [compareLex_append_of_length_eq hlen, hself, Ordering.then_eq]
  rfl

/-- The derived order of well-formed paths is the order of their nibble lists, the shorter
list first and lists of one length lexicographically. -/
theorem compare_eq_compare_toNibbles (hp : p.WellFormed) (hq : q.WellFormed) :
    compare p q = (compare p.toNibbles.length q.toNibbles.length).then
      (compare p.toNibbles q.toNibbles) := by
  rw [compare_def, hp.length_toNibbles, hq.length_toNibbles]
  by_cases hnum : p.numNibbles = q.numNibbles
  · rw [compare_bytes_of_numNibbles_eq hp hq hnum]
  · have hne : compare p.numNibbles q.numNibbles ≠ .eq :=
      fun he => hnum (Std.LawfulEqOrd.compare_eq_iff_eq.mp he)
    cases hc : compare p.numNibbles q.numNibbles
    · rfl
    · exact absurd hc hne
    · rfl

theorem compare_eq_compare_toNibbles_sample :
    (⟨3, [0x12, 0x30]⟩ : NibblePath).WellFormed ∧ (⟨2, [0x12]⟩ : NibblePath).WellFormed ∧
      compare (⟨3, [0x12, 0x30]⟩ : NibblePath) ⟨2, [0x12]⟩ =
        (compare (⟨3, [0x12, 0x30]⟩ : NibblePath).toNibbles.length
            (⟨2, [0x12]⟩ : NibblePath).toNibbles.length).then
          (compare (⟨3, [0x12, 0x30]⟩ : NibblePath).toNibbles (⟨2, [0x12]⟩ : NibblePath).toNibbles) :=
  have hp : (⟨3, [0x12, 0x30]⟩ : NibblePath).WellFormed := by decide
  have hq : (⟨2, [0x12]⟩ : NibblePath).WellFormed := by decide
  ⟨hp, hq, compare_eq_compare_toNibbles hp hq⟩

/-- Well-formed paths are equal exactly when their nibble lists are. -/
theorem eq_iff_toNibbles_eq (hp : p.WellFormed) (hq : q.WellFormed) :
    p = q ↔ p.toNibbles = q.toNibbles := by
  refine ⟨fun h => h ▸ rfl, fun h => ?_⟩
  have hnum : p.numNibbles = q.numNibbles := by
    rw [← hp.length_toNibbles, ← hq.length_toNibbles, h]
  have hbytes : compare p.bytes q.bytes = .eq := by
    rw [compare_bytes_of_numNibbles_eq hp hq hnum, h]
    exact Std.ReflOrd.compare_self
  rw [Std.LawfulEqOrd.compare_eq_iff_eq] at hbytes
  cases p
  cases q
  simp_all

end Order

/-! ### Each operation on the abstract view

One equation per branch of each operation, then its effect on the nibble list: `push` appends,
`pop` removes the last nibble and returns it, `truncate` keeps a prefix, `get_nibble` indexes. -/

section Operations

variable {p q : NibblePath} {bytes : List UInt8} {nibble : Nibble}

theorem newEven_eq_ok_iff :
    newEven bytes = .ok p ↔ bytes.length ≤ rootNibbleHeight / 2 ∧ ⟨bytes.length * 2, bytes⟩ = p := by
  unfold newEven assertion
  split <;> simp_all

theorem newEven_spec (h : newEven bytes = .ok p) :
    p.WellFormed ∧ p.toNibbles = bytes.flatMap splitByte := by
  obtain ⟨hlen, rfl⟩ := newEven_eq_ok_iff.mp h
  have hnum : bytes.length * 2 = 2 * bytes.length := Nat.mul_comm _ _
  exact ⟨wellFormed_of_even_shape hnum (show bytes.length * 2 ≤ 64 by
    unfold rootNibbleHeight at hlen; omega), toNibbles_of_even_shape hnum⟩

theorem newOdd_eq_ok_iff : newOdd bytes = .ok p ↔ bytes.length ≤ rootNibbleHeight / 2 ∧
    ∃ init last, bytes = init ++ [last] ∧ last &&& 0x0F = 0 ∧ ⟨bytes.length * 2 - 1, bytes⟩ = p := by
  unfold newOdd
  by_cases hlen : bytes.length ≤ rootNibbleHeight / 2
  · rw [assertion_of_pos hlen, Control.ok_bind]
    cases hlast : bytes.getLast? with
    | none =>
      rw [List.getLast?_eq_none_iff] at hlast
      simp [hlast]
    | some last =>
      obtain ⟨init, rfl⟩ := List.getLast?_eq_some_iff.mp hlast
      simp only [List.length_append, List.length_singleton] at hlen
      by_cases hpad : last &&& 0x0F = 0
      · simp [assertion, hpad]
        intro
        omega
      · simp [assertion, hpad]
  · simp [assertion, hlen]

theorem newOdd_spec (h : newOdd bytes = .ok p) :
    p.WellFormed ∧ p.toNibbles = (bytes.flatMap splitByte).dropLast := by
  obtain ⟨hlen, init, last, rfl, hlast, rfl⟩ := newOdd_eq_ok_iff.mp h
  have hnum : (init ++ [last]).length * 2 - 1 = 2 * init.length + 1 := by simp; omega
  rw [and_0F_eq_zero_iff] at hlast
  refine ⟨wellFormed_of_odd_shape rfl hnum hlast (show (init ++ [last]).length * 2 - 1 ≤ 64 by
    unfold rootNibbleHeight at hlen; omega), ?_⟩
  rw [toNibbles_of_odd_shape rfl hnum, flatMap_splitByte_concat,
    show [Nibble.high last, Nibble.low last] = [Nibble.high last] ++ [Nibble.low last] from rfl,
    ← List.append_assoc, List.dropLast_concat]

theorem push_of_even (hn : p.numNibbles < rootNibbleHeight) (heven : p.numNibbles % 2 = 0) :
    p.push nibble = .ok ⟨p.numNibbles + 1, p.bytes ++ [nibble.val <<< 4]⟩ := by
  simp [push, assertion_of_pos (show rootNibbleHeight > p.numNibbles from hn), heven]

theorem push_of_odd (hn : p.numNibbles < rootNibbleHeight) (hodd : p.numNibbles % 2 = 1)
    (hi : p.numNibbles / 2 < p.bytes.length) :
    p.push nibble =
      .ok ⟨p.numNibbles + 1, p.bytes.modify (p.numNibbles / 2) (· ||| nibble.val)⟩ := by
  simp [push, assertion_of_pos (show rootNibbleHeight > p.numNibbles from hn), hodd, orAt, hi]

theorem numNibbles_lt_of_push (h : p.push nibble = .ok q) : p.numNibbles < rootNibbleHeight := by
  by_contra hn
  simp [push, assertion, show ¬ rootNibbleHeight > p.numNibbles from hn] at h

/-- `push` appends the nibble, and keeps the invariant while the path is not full. -/
theorem push_spec (h : p.WellFormed) (hn : p.numNibbles < rootNibbleHeight) (nibble : Nibble) :
    ∃ q, p.push nibble = .ok q ∧ q.WellFormed ∧ q.toNibbles = p.toNibbles ++ [nibble] := by
  rcases Nat.mod_two_eq_zero_or_one p.numNibbles with heven | hodd
  · -- the nibble is the high half of a new byte
    have hnum := h.even_length heven
    have hnum' : p.numNibbles + 1 = 2 * p.bytes.length + 1 := by omega
    refine ⟨_, push_of_even hn heven, wellFormed_of_odd_shape rfl hnum'
      (by rw [toNat_shiftLeft_four nibble.toNat_lt]; omega) hn, ?_⟩
    rw [toNibbles_of_odd_shape rfl hnum', Nibble.high_shiftLeft, toNibbles_of_even_shape hnum]
  · -- the nibble is the low half of the last byte, which was the padding
    obtain ⟨init, last, hbytes, hnum, hlast⟩ := h.odd_shape hodd
    have hi : p.numNibbles / 2 = init.length := by omega
    rw [push_of_odd hn hodd (by rw [hbytes, hi]; simp)]
    have hnum' : p.numNibbles + 1 = 2 * (init ++ [last ||| nibble.val]).length := by simp; omega
    refine ⟨_, rfl, wellFormed_of_even_shape (by rw [hbytes, hi, modify_concat]; exact hnum') hn, ?_⟩
    rw [toNibbles_of_even_shape (by rw [hbytes, hi, modify_concat]; exact hnum'), hbytes, hi,
      modify_concat, flatMap_splitByte_concat, toNibbles_of_odd_shape hbytes hnum,
      Nibble.high_or hlast, Nibble.low_or hlast]
    simp

theorem pop_of_nil (hb : p.bytes = []) : p.pop = .ok (p, none) := by
  obtain ⟨n, bytes⟩ := p
  obtain rfl : bytes = [] := hb
  unfold pop
  split <;> rfl

theorem pop_of_even (heven : p.numNibbles % 2 = 0) {init : List UInt8} {last : UInt8}
    (hb : p.bytes = init ++ [last]) (hpos : 1 ≤ p.numNibbles) :
    p.pop = .ok (⟨p.numNibbles - 1, init ++ [last &&& 0xF0]⟩, some (Nibble.low last)) := by
  simp [pop, heven, hb, Nibble.from_low, decrement, hpos]

theorem pop_of_odd (hodd : p.numNibbles % 2 = 1) {init : List UInt8} {last : UInt8}
    (hb : p.bytes = init ++ [last]) (hpos : 1 ≤ p.numNibbles) :
    p.pop = .ok (⟨p.numNibbles - 1, init⟩, some (Nibble.high last)) := by
  simp [pop, hb, Nibble.from_high, decrement, hpos, show p.numNibbles % 2 ≠ 0 by omega]

/-- `pop` returns the last nibble and removes it, and keeps the invariant; on the empty path it
returns `None`. -/
theorem pop_spec (h : p.WellFormed) :
    ∃ q, p.pop = .ok (q, p.toNibbles.getLast?) ∧ q.WellFormed ∧
      q.toNibbles = p.toNibbles.dropLast := by
  rcases Nat.mod_two_eq_zero_or_one p.numNibbles with heven | hodd
  · have hnum := h.even_length heven
    rcases List.eq_nil_or_concat' p.bytes with hnil | ⟨init, last, hbytes⟩
    · -- the empty path
      have hempty : p.toNibbles = [] := by rw [toNibbles_of_even_shape hnum, hnil]; rfl
      exact ⟨p, by rw [pop_of_nil hnil, hempty]; rfl, h, by rw [hempty]; rfl⟩
    · -- the low half of the last byte is cleared
      rw [hbytes, List.length_append, List.length_singleton] at hnum
      have hodd' : p.numNibbles - 1 = 2 * init.length + 1 := by omega
      have hfull : p.toNibbles = init.flatMap splitByte ++ [Nibble.high last, Nibble.low last] := by
        rw [toNibbles_of_even_shape (by rw [hbytes]; simp; omega), hbytes, flatMap_splitByte_concat]
      have hgetLast : p.toNibbles.getLast? = some (Nibble.low last) := by
        rw [hfull]
        simp
      rw [hgetLast, pop_of_even heven hbytes (by omega)]
      refine ⟨_, rfl, wellFormed_of_odd_shape rfl hodd' (by rw [toNat_and_F0]; omega)
        (Nat.le_trans (Nat.sub_le _ _) h.numNibbles_le), ?_⟩
      rw [toNibbles_of_odd_shape rfl hodd', Nibble.high_and_F0, hfull]
      simp
  · obtain ⟨init, last, hbytes, hnum, hlast⟩ := h.odd_shape hodd
    have hnum' : p.numNibbles - 1 = 2 * init.length := by omega
    have hshape := toNibbles_of_odd_shape hbytes hnum
    rw [pop_of_odd hodd hbytes (by omega), hshape, List.getLast?_concat]
    refine ⟨_, rfl, wellFormed_of_even_shape hnum' (Nat.le_trans (Nat.sub_le _ _) h.numNibbles_le),
      ?_⟩
    rw [toNibbles_of_even_shape hnum', List.dropLast_concat]

theorem truncate_of_even {len : Nat} (hlen : len ≤ p.numNibbles) (heven : len % 2 = 0) :
    p.truncate len = .ok ⟨len, p.bytes.take ((len + 1) / 2)⟩ := by
  simp [truncate, hlen, heven]

theorem truncate_of_odd {len : Nat} (hlen : len ≤ p.numNibbles) (hodd : len % 2 = 1)
    {init : List UInt8} {last : UInt8} (htake : p.bytes.take ((len + 1) / 2) = init ++ [last]) :
    p.truncate len = .ok ⟨len, init ++ [last &&& 0xF0]⟩ := by
  simp [truncate, hlen, htake, show len % 2 ≠ 0 by omega]

theorem le_of_truncate {len : Nat} (h : p.truncate len = .ok q) : len ≤ p.numNibbles := by
  by_contra hn
  simp [truncate, assertion, hn] at h

/-- `truncate` keeps the first `len` nibbles, and keeps the invariant. -/
theorem truncate_spec (h : p.WellFormed) {len : Nat} (hlen : len ≤ p.numNibbles) :
    ∃ q, p.truncate len = .ok q ∧ q.WellFormed ∧ q.toNibbles = p.toNibbles.take len := by
  have hbytes := h.length_bytes
  have htakeBytes : p.toNibbles.take len = (p.bytes.flatMap splitByte).take len := by
    rw [toNibbles, List.take_take, Nat.min_eq_left hlen]
  rcases Nat.mod_two_eq_zero_or_one len with heven | hodd
  · -- whole bytes are kept
    have hk : (len + 1) / 2 = len / 2 := by omega
    have hnum : len = 2 * (p.bytes.take ((len + 1) / 2)).length := by
      rw [List.length_take]
      omega
    refine ⟨_, truncate_of_even hlen heven, wellFormed_of_even_shape hnum
      (Nat.le_trans hlen h.numNibbles_le), ?_⟩
    rw [toNibbles_of_even_shape hnum, htakeBytes, hk, show len = 2 * (len / 2) by omega,
      take_flatMap_splitByte, show 2 * (len / 2) / 2 = len / 2 by omega]
  · -- the last byte kept loses its low half
    have hk : (p.bytes.take ((len + 1) / 2)).length = len / 2 + 1 := by
      rw [List.length_take]
      omega
    obtain ⟨init, last, htake⟩ : ∃ init last, p.bytes.take ((len + 1) / 2) = init ++ [last] :=
      ⟨_, _, (List.dropLast_concat_getLast (List.ne_nil_of_length_pos (by omega))).symm⟩
    have hinit : init.length = len / 2 := by
      have := congrArg List.length htake
      simp only [List.length_append, List.length_singleton] at this
      omega
    have hnum : len = 2 * init.length + 1 := by omega
    refine ⟨_, truncate_of_odd hlen hodd htake, wellFormed_of_odd_shape rfl (by simpa using hnum)
      (by rw [toNat_and_F0]; omega) (Nat.le_trans hlen h.numNibbles_le), ?_⟩
    have hwhole : (p.bytes.flatMap splitByte).take len =
        ((p.bytes.take ((len + 1) / 2)).flatMap splitByte).take len := by
      rw [← take_flatMap_splitByte, List.take_take, Nat.min_eq_left (by omega)]
    rw [toNibbles_of_odd_shape rfl (by simpa using hnum), Nibble.high_and_F0, htakeBytes, hwhole,
      htake, hnum, take_flatMap_splitByte_concat]

theorem getNibble_spec (h : p.WellFormed) {i : Nat} (hi : i < p.numNibbles) :
    p.getNibble i = .ok (p.toNibbles.getD i default) := by
  have hbyte : i / 2 < p.bytes.length := by have := h.length_bytes; omega
  have hget : p.toNibbles[i]? = some (if i % 2 = 1 then Nibble.low p.bytes[i / 2]
      else Nibble.high p.bytes[i / 2]) := by
    rw [toNibbles, List.getElem?_take, if_pos hi, getElem?_flatMap_splitByte,
      List.getElem?_eq_getElem hbyte]
    rfl
  rw [List.getD_eq_getElem?_getD, hget, Option.getD_some]
  simp only [getNibble, assertion_of_pos hi, Control.ok_bind, byteAt, List.getElem?_eq_getElem hbyte]
  split
  · rw [UInt8.shiftRight_zero, Nibble.from_low]
  · rw [shiftRight_four_and, Nibble.from_high]

/-- The nibbles `get_nibble` reads of a well-formed path are its nibble list. -/
theorem nibbles_eq (h : p.WellFormed) : p.nibbles = .ok p.toNibbles := by
  have hlen := h.length_toNibbles
  rw [nibbles, Control.mapM_eq_ok_of_forall (g := fun i => p.toNibbles.getD i default) _
    fun i hi => by
      rw [List.mem_range] at hi
      rw [getNibble_spec h hi]]
  congr 1
  apply List.ext_getElem (by simp [hlen])
  intro i h1 h2
  simp [List.getElem?_eq_getElem h2]

/-- `new_even` rebuilds an even well-formed path from its bytes. -/
theorem WellFormed.newEven_bytes (h : p.WellFormed) (heven : p.numNibbles % 2 = 0) :
    newEven p.bytes = .ok p := by
  have hnum := h.even_length heven
  refine newEven_eq_ok_iff.mpr ⟨?_, ?_⟩
  · have := h.numNibbles_le
    unfold rootNibbleHeight at *
    omega
  · rw [Nat.mul_comm, ← hnum]

/-- `new_odd` rebuilds an odd well-formed path from its bytes. -/
theorem WellFormed.newOdd_bytes (h : p.WellFormed) (hodd : p.numNibbles % 2 = 1) :
    newOdd p.bytes = .ok p := by
  obtain ⟨init, last, hbytes, hnum, hlast⟩ := h.odd_shape hodd
  refine newOdd_eq_ok_iff.mpr ⟨?_, init, last, hbytes, (and_0F_eq_zero_iff last).mpr hlast, ?_⟩
  · have := h.numNibbles_le
    rw [hbytes, List.length_append, List.length_singleton]
    unfold rootNibbleHeight at *
    omega
  · have hlen : p.bytes.length * 2 - 1 = p.numNibbles := by
      rw [hbytes, List.length_append, List.length_singleton]
      omega
    rw [hlen]

end Operations

/-- The paths that `new_even` and `new_odd` build and `push`, `pop` and `truncate` change, each
call returning without a panic. -/
inductive Built : NibblePath → Prop
  | newEven {bytes : List UInt8} {p : NibblePath} : newEven bytes = .ok p → Built p
  | newOdd {bytes : List UInt8} {p : NibblePath} : newOdd bytes = .ok p → Built p
  | push {p q : NibblePath} {nibble : Nibble} : Built p → p.push nibble = .ok q → Built q
  | pop {p q : NibblePath} {popped : Option Nibble} : Built p → p.pop = .ok (q, popped) → Built q
  | truncate {p q : NibblePath} {len : Nat} : Built p → p.truncate len = .ok q → Built q

/-- Every path the operations build keeps the representation invariant. -/
theorem Built.wellFormed {p : NibblePath} (h : p.Built) : p.WellFormed := by
  induction h with
  | newEven hp => exact (newEven_spec hp).1
  | newOdd hp => exact (newOdd_spec hp).1
  | push _ hq ih =>
    obtain ⟨q', hq', hwf, -⟩ := push_spec ih (numNibbles_lt_of_push hq) _
    rw [hq, Except.ok.injEq] at hq'
    exact hq' ▸ hwf
  | pop _ hq ih =>
    obtain ⟨q', hq', hwf, -⟩ := pop_spec ih
    rw [hq, Except.ok.injEq, Prod.mk.injEq] at hq'
    exact hq'.1 ▸ hwf
  | truncate _ hq ih =>
    obtain ⟨q', hq', hwf, -⟩ := truncate_spec ih (le_of_truncate hq)
    rw [hq, Except.ok.injEq] at hq'
    exact hq' ▸ hwf

end NibblePath

end Hemvm.Jellyfish
