import Mathlib
import Hemvm.Codec.Bytes

/-! Lexicographic comparison of lists, the `Ord` of lists as of Rust's vectors and slices: how
it splits over concatenations whose first parts have one length, how it passes through a
flattening whose pieces have one length, and the comparison of two digits in a base, so that
fixed-width big-endian encodings compare as the numbers they encode. Nothing here is specific
to one program. -/
namespace Codec

variable {α β : Type} {cmp : α → α → Ordering}

/-- Concatenations whose first parts have the same length compare by their first parts, then
by their second parts. -/
theorem compareLex_append_of_length_eq {xs ys : List α} (h : xs.length = ys.length)
    (zs ws : List α) :
    List.compareLex cmp (xs ++ zs) (ys ++ ws) =
      (List.compareLex cmp xs ys).then (List.compareLex cmp zs ws) := by
  induction xs generalizing ys with
  | nil =>
    obtain rfl := List.length_eq_zero_iff.mp h.symm
    simp [List.compareLex_nil_nil]
  | cons x xs ih =>
    obtain ⟨y, ys, rfl⟩ := List.exists_cons_of_length_eq_add_one h.symm
    simp only [List.cons_append, List.compareLex_cons_cons, ih (by simpa using h),
      Ordering.then_assoc]

/-- Flattening lists into pieces of one length, none of them empty, keeps a lexicographic
comparison when the pieces compare as the elements they come from. -/
theorem compareLex_flatMap {f : β → List α} {cmp' : β → β → Ordering}
    (hlen : ∀ a b, (f a).length = (f b).length) (hne : ∀ a, f a ≠ [])
    (hf : ∀ a b, List.compareLex cmp (f a) (f b) = cmp' a b) :
    ∀ xs ys : List β,
      List.compareLex cmp (xs.flatMap f) (ys.flatMap f) = List.compareLex cmp' xs ys
  | [], [] => rfl
  | [], y :: ys => by
    obtain ⟨a, as, ha⟩ := List.exists_cons_of_ne_nil (hne y)
    simp [ha, List.compareLex_nil_cons]
  | x :: xs, [] => by
    obtain ⟨a, as, ha⟩ := List.exists_cons_of_ne_nil (hne x)
    simp [ha, List.compareLex_cons_nil]
  | x :: xs, y :: ys => by
    rw [List.flatMap_cons, List.flatMap_cons, compareLex_append_of_length_eq (hlen x y),
      hf x y, compareLex_flatMap hlen hne hf xs ys, List.compareLex_cons_cons]

/-- Two digits in base `k` compare as their high digits, then their low digits. -/
theorem compare_mul_add {k a b c d : Nat} (hb : b < k) (hd : d < k) :
    compare (k * a + b) (k * c + d) = (compare a c).then (compare b d) := by
  rcases Nat.lt_trichotomy a c with hac | rfl | hac
  · have hstep := Nat.mul_le_mul_left k (Nat.succ_le_of_lt hac)
    rw [Nat.mul_succ] at hstep
    rw [compare_lt_iff_lt.mpr hac, compare_lt_iff_lt.mpr (by omega)]
    rfl
  · rw [compare_eq_iff_eq.mpr rfl, Ordering.eq_then]
    rcases Nat.lt_trichotomy b d with hbd | rfl | hbd
    · rw [compare_lt_iff_lt.mpr hbd, compare_lt_iff_lt.mpr (by omega)]
    · rw [compare_eq_iff_eq.mpr rfl, compare_eq_iff_eq.mpr rfl]
    · rw [compare_gt_iff_gt.mpr hbd, compare_gt_iff_gt.mpr (by omega)]
  · have hstep := Nat.mul_le_mul_left k (Nat.succ_le_of_lt hac)
    rw [Nat.mul_succ] at hstep
    rw [compare_gt_iff_gt.mpr hac, compare_gt_iff_gt.mpr (by omega)]
    rfl

theorem beBytes_succ (w n : Nat) :
    beBytes (w + 1) n = beBytes w (n / 256) ++ [UInt8.ofNat (n % 256)] := by
  simp [beBytes, leBytes]

/-- Big-endian encodings of one width compare as the numbers they encode. -/
theorem compare_beBytes (w a b : Nat) :
    compare (beBytes w a) (beBytes w b) = compare (a % 256 ^ w) (b % 256 ^ w) := by
  induction w generalizing a b with
  | zero => simp [beBytes, leBytes, Nat.mod_one]
  | succ w ih =>
    have hsplit : ∀ n, n % 256 ^ (w + 1) = 256 * (n / 256 % 256 ^ w) + n % 256 := fun n => by
      rw [Nat.pow_succ', Nat.mod_mul, Nat.add_comm]
    have hbyte : ∀ n, (UInt8.ofNat (n % 256)).toNat = n % 256 := fun n => by simp
    show List.compareLex compare _ _ = _
    rw [beBytes_succ, beBytes_succ, compareLex_append_of_length_eq (by simp),
      List.compareLex_cons_cons, List.compareLex_nil_nil, Ordering.then_eq]
    rw [show List.compareLex compare (beBytes w (a / 256)) (beBytes w (b / 256)) = _ from ih _ _,
      UInt8.compare_eq_toNat_compare_toNat, hbyte, hbyte, hsplit a, hsplit b,
      compare_mul_add (Nat.mod_lt _ (by omega)) (Nat.mod_lt _ (by omega))]

end Codec
