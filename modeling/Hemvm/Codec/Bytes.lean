import Hemvm.Control.Except

/-! Base-256 digit strings of natural numbers, fixed-width and minimal, and byte strings of a
fixed length. Nothing here is specific to one program. -/
namespace Codec

/-- `w` little-endian base-256 digits of `n`; digits past `w` are dropped. -/
def leBytes : Nat → Nat → List UInt8
  | 0, _ => []
  | w + 1, n => UInt8.ofNat (n % 256) :: leBytes w (n / 256)

/-- `w` big-endian base-256 digits of `n`. -/
def beBytes (w n : Nat) : List UInt8 := (leBytes w n).reverse

/-- The number a little-endian digit string denotes. -/
def ofLeBytes : List UInt8 → Nat
  | [] => 0
  | b :: bs => b.toNat + 256 * ofLeBytes bs

/-- The number a big-endian digit string denotes. -/
def ofBeBytes (bs : List UInt8) : Nat := ofLeBytes bs.reverse

/-- Little-endian digits of `n` with no trailing zero digit; `0` has none. -/
def minimalLe (n : Nat) : List UInt8 :=
  if h : n = 0 then [] else UInt8.ofNat (n % 256) :: minimalLe (n / 256)
termination_by n
decreasing_by omega

/-- Big-endian digits of `n` with no leading zero digit. -/
def minimalBe (n : Nat) : List UInt8 := (minimalLe n).reverse

variable {w n : Nat} {bs cs : List UInt8}

@[simp] theorem length_leBytes (w n : Nat) : (leBytes w n).length = w := by
  induction w generalizing n with
  | zero => rfl
  | succ w ih => simp [leBytes, ih]

@[simp] theorem length_beBytes (w n : Nat) : (beBytes w n).length = w := by
  simp [beBytes]

@[simp] theorem ofLeBytes_nil : ofLeBytes [] = 0 := rfl

@[simp] theorem ofLeBytes_cons (b : UInt8) (bs : List UInt8) :
    ofLeBytes (b :: bs) = b.toNat + 256 * ofLeBytes bs := rfl

theorem ofLeBytes_append (bs cs : List UInt8) :
    ofLeBytes (bs ++ cs) = ofLeBytes bs + 256 ^ bs.length * ofLeBytes cs := by
  induction bs with
  | nil => simp
  | cons b bs ih =>
    simp only [List.cons_append, ofLeBytes_cons, ih, List.length_cons, pow_succ]
    ring

theorem ofBeBytes_append (bs cs : List UInt8) :
    ofBeBytes (bs ++ cs) = ofBeBytes bs * 256 ^ cs.length + ofBeBytes cs := by
  simp only [ofBeBytes, List.reverse_append, ofLeBytes_append, List.length_reverse]
  ring

theorem ofLeBytes_lt (bs : List UInt8) : ofLeBytes bs < 256 ^ bs.length := by
  induction bs with
  | nil => simp
  | cons b bs ih =>
    have hb : b.toNat < 256 := b.toNat_lt
    simp only [ofLeBytes_cons, List.length_cons, pow_succ]
    omega

theorem ofBeBytes_lt (bs : List UInt8) : ofBeBytes bs < 256 ^ bs.length := by
  simpa [ofBeBytes] using ofLeBytes_lt bs.reverse

theorem ofLeBytes_leBytes (w n : Nat) : ofLeBytes (leBytes w n) = n % 256 ^ w := by
  induction w generalizing n with
  | zero => simp [leBytes, Nat.mod_one]
  | succ w ih =>
    have hd : n % 256 ^ (w + 1) = n % 256 + 256 * (n / 256 % 256 ^ w) := by
      rw [pow_succ, Nat.mul_comm, Nat.mod_mul]
    simp only [leBytes, ofLeBytes_cons, UInt8.toNat_ofNat', ih, hd]
    omega

@[simp] theorem ofBeBytes_beBytes (w n : Nat) : ofBeBytes (beBytes w n) = n % 256 ^ w := by
  simp [ofBeBytes, beBytes, ofLeBytes_leBytes]

theorem ofBeBytes_beBytes_of_lt (h : n < 256 ^ w) : ofBeBytes (beBytes w n) = n := by
  rw [ofBeBytes_beBytes, Nat.mod_eq_of_lt h]

theorem leBytes_ofLeBytes (bs : List UInt8) : leBytes bs.length (ofLeBytes bs) = bs := by
  induction bs with
  | nil => rfl
  | cons b bs ih =>
    have hb : b.toNat < 256 := b.toNat_lt
    have hmod : (b.toNat + 256 * ofLeBytes bs) % 256 = b.toNat := by omega
    have hdiv : (b.toNat + 256 * ofLeBytes bs) / 256 = ofLeBytes bs := by omega
    simp only [List.length_cons, leBytes, ofLeBytes_cons, hmod, hdiv, ih, UInt8.ofNat_toNat]

theorem beBytes_ofBeBytes (bs : List UInt8) : beBytes bs.length (ofBeBytes bs) = bs := by
  have h := leBytes_ofLeBytes bs.reverse
  rw [List.length_reverse] at h
  simp [beBytes, ofBeBytes, h]

/-- Leading zero digits do not change the number a big-endian string denotes. -/
theorem ofBeBytes_replicate_append (k : Nat) (bs : List UInt8) :
    ofBeBytes (List.replicate k 0 ++ bs) = ofBeBytes bs := by
  induction k with
  | zero => rfl
  | succ k ih =>
    rw [List.replicate_succ, List.cons_append, ← List.singleton_append, ofBeBytes_append, ih]
    simp [ofBeBytes]

@[simp] theorem minimalLe_zero : minimalLe 0 = [] := by
  simp [minimalLe]

theorem minimalLe_of_pos (h : 0 < n) :
    minimalLe n = UInt8.ofNat (n % 256) :: minimalLe (n / 256) := by
  rw [minimalLe, dif_neg (by omega)]

theorem ofLeBytes_minimalLe (n : Nat) : ofLeBytes (minimalLe n) = n := by
  induction n using Nat.strong_induction_on with
  | _ n ih =>
    rcases Nat.eq_zero_or_pos n with rfl | hn
    · simp
    · rw [minimalLe_of_pos hn, ofLeBytes_cons, ih (n / 256) (by omega), UInt8.toNat_ofNat']
      omega

@[simp] theorem ofBeBytes_minimalBe (n : Nat) : ofBeBytes (minimalBe n) = n := by
  simp [ofBeBytes, minimalBe, ofLeBytes_minimalLe]

theorem minimalLe_length_le (h : n < 256 ^ w) : (minimalLe n).length ≤ w := by
  induction w generalizing n with
  | zero =>
    have : n = 0 := by simpa using h
    simp [this]
  | succ w ih =>
    rcases Nat.eq_zero_or_pos n with rfl | hn
    · simp
    · rw [minimalLe_of_pos hn, List.length_cons]
      have : n / 256 < 256 ^ w := by
        rw [pow_succ] at h
        omega
      exact Nat.succ_le_succ (ih this)

theorem minimalBe_length_le (h : n < 256 ^ w) : (minimalBe n).length ≤ w := by
  simpa [minimalBe] using minimalLe_length_le h

theorem minimalBe_eq_nil_iff : minimalBe n = [] ↔ n = 0 := by
  constructor
  · intro h
    have := ofBeBytes_minimalBe n
    rw [h] at this
    simpa [ofBeBytes] using this.symm
  · rintro rfl
    simp [minimalBe]

/-- The last little-endian digit of a positive number is not zero. -/
theorem minimalLe_getLast_ne_zero (hn : 0 < n) (hne : minimalLe n ≠ []) :
    (minimalLe n).getLast hne ≠ 0 := by
  induction n using Nat.strong_induction_on with
  | _ n ih =>
    have hcons := minimalLe_of_pos hn
    by_cases hq : n / 256 = 0
    · have hlast : (minimalLe n).getLast hne = UInt8.ofNat (n % 256) := by
        simp [hcons, hq]
      rw [hlast]
      intro h
      have := congrArg UInt8.toNat h
      simp only [UInt8.toNat_ofNat', UInt8.toNat_zero] at this
      omega
    · have hne' : minimalLe (n / 256) ≠ [] := by
        rw [minimalLe_of_pos (by omega)]
        exact List.cons_ne_nil _ _
      have hlast : (minimalLe n).getLast hne = (minimalLe (n / 256)).getLast hne' := by
        simp only [hcons]
        exact List.getLast_cons hne'
      rw [hlast]
      exact ih (n / 256) (by omega) (by omega) hne'

/-- The first big-endian digit of a positive number is not zero. -/
theorem minimalBe_head_ne_zero (hn : 0 < n) (hne : minimalBe n ≠ []) :
    (minimalBe n).head hne ≠ 0 := by
  have hne' : minimalLe n ≠ [] := by simpa [minimalBe] using hne
  simpa [minimalBe, List.head_reverse] using minimalLe_getLast_ne_zero hn hne'

/-- A byte string of exactly `n` bytes, as a Rust `[u8; n]` or a fixed hash. -/
structure FixedBytes (n : Nat) where
  bytes : List UInt8
  length_eq : bytes.length = n
deriving DecidableEq

/-- A fixed-length byte string hashes as its bytes. -/
instance {n : Nat} : Hashable (FixedBytes n) := ⟨fun b => hash b.bytes⟩

@[ext] theorem FixedBytes.ext {a b : FixedBytes n} (h : a.bytes = b.bytes) : a = b := by
  cases a
  cases b
  simp_all

/-- A byte array is rebuilt from the list of its bytes. -/
theorem toByteArray_data_toList (b : ByteArray) : b.data.toList.toByteArray = b := by
  apply ByteArray.ext
  apply Array.toList_inj.mp
  simp

end Codec
