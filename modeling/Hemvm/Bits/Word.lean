import Mathlib

/-! Counting bits of a fixed-width word held as a natural number: trailing zeros, set bits, and
the bits a sequence of `x |= x >> m` steps spreads below the highest set bit. Nothing here is
specific to one program. -/
namespace Bits

/-- `trailing_zeros` of the `w`-bit word `v`: how many of its low bits are clear, `w` when all
of them are. -/
def ctz : Nat → Nat → Nat
  | 0, _ => 0
  | w + 1, v => if v.testBit 0 then 0 else ctz w (v / 2) + 1

/-- `count_ones` of the `w`-bit word `v`. -/
def countOnes : Nat → Nat → Nat
  | 0, _ => 0
  | w + 1, v => v % 2 + countOnes w (v / 2)

section Ctz

/-- The lowest set bit of a word below its width is its number of trailing zeros. -/
theorem ctz_eq_of_testBit {w t v : Nat} (ht : t < w) (hlow : ∀ i < t, v.testBit i = false)
    (hbit : v.testBit t = true) : ctz w v = t := by
  induction t generalizing w v with
  | zero =>
    obtain ⟨w, rfl⟩ : ∃ w', w = w' + 1 := ⟨w - 1, by omega⟩
    simp [ctz, hbit]
  | succ t ih =>
    obtain ⟨w, rfl⟩ : ∃ w', w = w' + 1 := ⟨w - 1, by omega⟩
    have h0 : v.testBit 0 = false := hlow 0 (by omega)
    -- the word shifted right by one has its lowest set bit one place lower
    have hrest : ctz w (v / 2) = t := by
      refine ih (by omega) (fun i hi => ?_) ?_
      · rw [← Nat.testBit_succ]
        exact hlow (i + 1) (by omega)
      · rw [← Nat.testBit_succ]
        exact hbit
    simp [ctz, h0, hrest]

/-- A word whose bits below its width are all clear has as many trailing zeros as its width. -/
theorem ctz_eq_width {w v : Nat} (hlow : ∀ i < w, v.testBit i = false) : ctz w v = w := by
  induction w generalizing v with
  | zero => rfl
  | succ w ih =>
    have h0 : v.testBit 0 = false := hlow 0 (by omega)
    have hrest : ctz w (v / 2) = w := ih fun i hi => by
      rw [← Nat.testBit_succ]
      exact hlow (i + 1) (by omega)
    simp [ctz, h0, hrest]

theorem ctz_le (w v : Nat) : ctz w v ≤ w := by
  induction w generalizing v with
  | zero => exact Nat.le_refl 0
  | succ w ih =>
    have := ih (v / 2)
    simp only [ctz]
    split <;> omega

/-- The bits below the trailing-zero count are clear. -/
theorem testBit_of_lt_ctz {w v i : Nat} (hi : i < ctz w v) : v.testBit i = false := by
  induction w generalizing v i with
  | zero => exact absurd hi (Nat.not_lt_zero i)
  | succ w ih =>
    simp only [ctz] at hi
    split at hi
    · exact absurd hi (Nat.not_lt_zero i)
    · cases i with
      | zero => simpa using ‹¬ v.testBit 0 = true›
      | succ i =>
        rw [Nat.testBit_succ]
        exact ih (by omega)

/-- Below the width, the bit at the trailing-zero count is set. -/
theorem testBit_ctz {w v : Nat} (h : ctz w v < w) : v.testBit (ctz w v) = true := by
  induction w generalizing v with
  | zero => exact absurd h (Nat.not_lt_zero _)
  | succ w ih =>
    by_cases h0 : v.testBit 0 = true
    · simp [ctz, h0]
    · have hlt : ctz w (v / 2) < w := by
        simp only [ctz, if_neg h0] at h
        omega
      simp only [ctz, if_neg h0]
      rw [Nat.testBit_succ]
      exact ih hlt

end Ctz

section CountOnes

@[simp] theorem countOnes_zero_right (w : Nat) : countOnes w 0 = 0 := by
  induction w with
  | zero => rfl
  | succ w ih => simp [countOnes, ih]

/-- The set bits of a word of width `k + w` are those of its low `k` bits and those of the
`w` bits above them. -/
theorem countOnes_add (k w v : Nat) :
    countOnes (k + w) v = countOnes k v + countOnes w (v / 2 ^ k) := by
  induction k generalizing v with
  | zero => simp [countOnes]
  | succ k ih =>
    have hdiv : v / 2 / 2 ^ k = v / 2 ^ (k + 1) := by rw [Nat.div_div_eq_div_mul, Nat.pow_succ']
    rw [Nat.add_right_comm, countOnes, ih, countOnes, hdiv, Nat.add_assoc]

/-- Only the low `k` bits count in a word of width `k`. -/
theorem countOnes_mod_two_pow (k v : Nat) : countOnes k (v % 2 ^ k) = countOnes k v := by
  induction k generalizing v with
  | zero => rfl
  | succ k ih =>
    have hmod : v % 2 ^ (k + 1) % 2 = v % 2 := by
      rw [Nat.mod_mod_of_dvd v (Nat.dvd_of_mod_eq_zero (by simp [Nat.pow_succ]))]
    have hdiv : v % 2 ^ (k + 1) / 2 = v / 2 % 2 ^ k := by
      rw [Nat.pow_succ', Nat.mod_mul_right_div_self]
    simp only [countOnes, hmod, hdiv, ih]

/-- A word below `2 ^ k` has no set bit above its low `k`. -/
theorem countOnes_of_lt_two_pow {k w v : Nat} (hk : k ≤ w) (hv : v < 2 ^ k) :
    countOnes w v = countOnes k v := by
  obtain ⟨d, rfl⟩ : ∃ d, w = k + d := ⟨w - k, by omega⟩
  rw [countOnes_add, Nat.div_eq_of_lt hv, countOnes_zero_right, Nat.add_zero]

theorem countOnes_two_pow_sub_one (k : Nat) : countOnes k (2 ^ k - 1) = k := by
  induction k with
  | zero => rfl
  | succ k ih =>
    have hpos : 0 < 2 ^ k := Nat.two_pow_pos k
    have hodd : (2 ^ (k + 1) - 1) % 2 = 1 := by rw [Nat.pow_succ]; omega
    have hhalf : (2 ^ (k + 1) - 1) / 2 = 2 ^ k - 1 := by rw [Nat.pow_succ]; omega
    rw [countOnes, hodd, hhalf, ih]
    omega

theorem countOnes_two_pow {i w : Nat} (hi : i < w) : countOnes w (2 ^ i) = 1 := by
  obtain ⟨d, rfl⟩ : ∃ d, w = i + (d + 1) := ⟨w - i - 1, by omega⟩
  rw [countOnes_add, ← countOnes_mod_two_pow i, Nat.mod_self, countOnes_zero_right,
    Nat.div_self (Nat.two_pow_pos i), countOnes, countOnes_zero_right]

/-- A word has no more set bits than its value. -/
theorem countOnes_le (w v : Nat) : countOnes w v ≤ v := by
  induction w generalizing v with
  | zero => exact Nat.zero_le v
  | succ w ih =>
    have := ih (v / 2)
    simp only [countOnes]
    omega

/-- A bit appended below a word adds its value to the count. -/
theorem countOnes_two_mul_add {b : Nat} (hb : b < 2) (w p : Nat) :
    countOnes (w + 1) (2 * p + b) = countOnes w p + b := by
  have hmod : (2 * p + b) % 2 = b := by omega
  have hdiv : (2 * p + b) / 2 = p := by omega
  rw [countOnes, hmod, hdiv, Nat.add_comm]

/-- Adding one sets at most one more bit: the carry clears every bit it passes. -/
theorem countOnes_succ_le (w m : Nat) : countOnes w (m + 1) ≤ countOnes w m + 1 := by
  induction w generalizing m with
  | zero => exact Nat.zero_le 1
  | succ w ih =>
    have hcarry := ih (m / 2)
    have hhalf : (m + 1) / 2 = m / 2 ∨ (m + 1) / 2 = m / 2 + 1 := by omega
    simp only [countOnes]
    rcases hhalf with h | h <;> rw [h] <;> omega

/-- A word whose low `k` bits are all set has `k` more set bits than the word above them. -/
theorem countOnes_of_low_ones {k w v : Nat} (hk : k ≤ w) (hlow : v % 2 ^ k = 2 ^ k - 1) :
    countOnes w v = k + countOnes (w - k) (v / 2 ^ k) := by
  obtain ⟨d, rfl⟩ : ∃ d, w = k + d := ⟨w - k, by omega⟩
  rw [countOnes_add, ← countOnes_mod_two_pow k v, hlow, countOnes_two_pow_sub_one,
    Nat.add_sub_cancel_left]

end CountOnes

section Width

/-- Two words of width `w` are equal when their bits below `w` are. -/
theorem eq_of_testBit_lt {w x y : Nat} (hx : x < 2 ^ w) (hy : y < 2 ^ w)
    (h : ∀ i < w, x.testBit i = y.testBit i) : x = y := by
  apply Nat.eq_of_testBit_eq
  intro i
  by_cases hi : i < w
  · exact h i hi
  · have hw : 2 ^ w ≤ 2 ^ i := Nat.pow_le_pow_right Nat.two_pos (by omega)
    rw [Nat.testBit_lt_two_pow (Nat.lt_of_lt_of_le hx hw),
      Nat.testBit_lt_two_pow (Nat.lt_of_lt_of_le hy hw)]

/-- A nonzero word of width `w` has a set bit below `w`. -/
theorem ctz_lt {w v : Nat} (hv0 : 0 < v) (hv : v < 2 ^ w) : ctz w v < w := by
  refine Nat.lt_of_not_le fun hge => ?_
  have : v = 0 := eq_of_testBit_lt hv (Nat.two_pow_pos w) fun i hi => by
    rw [testBit_of_lt_ctz (show i < ctz w v by omega), Nat.zero_testBit]
  omega

/-- The count of set bits is the number of positions below the width whose bit is set. -/
theorem countOnes_eq_card (w v : Nat) :
    countOnes w v = ((Finset.range w).filter fun i => v.testBit i = true).card := by
  induction w with
  | zero => rfl
  | succ w ih =>
    have htop : countOnes 1 (v / 2 ^ w) = if v.testBit w = true then 1 else 0 := by
      rw [Nat.testBit_eq_decide_div_mod_eq]
      simp only [countOnes, decide_eq_true_eq]
      split <;> omega
    rw [countOnes_add w 1, ih, htop, Finset.range_add_one, Finset.filter_insert]
    split
    · rw [Finset.card_insert_of_notMem (by simp)]
    · rfl

/-- Clearing one set bit below the width removes one from the count. -/
theorem countOnes_of_clear {w v v' t : Nat} (ht : t < w) (hset : v.testBit t = true)
    (hclear : ∀ i, v'.testBit i = (v.testBit i && decide (i ≠ t))) :
    countOnes w v' + 1 = countOnes w v := by
  have hfilter : ((Finset.range w).filter fun i => v'.testBit i = true) =
      ((Finset.range w).filter fun i => v.testBit i = true).erase t := by
    ext i
    simp only [Finset.mem_filter, Finset.mem_range, Finset.mem_erase, hclear, Bool.and_eq_true,
      decide_eq_true_eq]
    tauto
  rw [countOnes_eq_card, countOnes_eq_card, hfilter,
    Finset.card_erase_add_one (by simp [ht, hset])]

/-- A word of width `w` with no set bit is zero. -/
theorem eq_zero_of_countOnes_eq_zero {w v : Nat} (hv : v < 2 ^ w) (h : countOnes w v = 0) :
    v = 0 := by
  rw [countOnes_eq_card, Finset.card_eq_zero, Finset.filter_eq_empty_iff] at h
  exact eq_of_testBit_lt hv (Nat.two_pow_pos w) fun i hi => by
    simpa [Nat.zero_testBit] using h (Finset.mem_range.mpr hi)

end Width

section Complement

/-- The bitwise complement of a word of width `w`. -/
theorem testBit_two_pow_sub_one_sub {w x : Nat} (hx : x < 2 ^ w) (i : Nat) :
    (2 ^ w - 1 - x).testBit i = (decide (i < w) && !x.testBit i) := by
  rw [show 2 ^ w - 1 - x = 2 ^ w - (x + 1) by omega]
  exact Nat.testBit_two_pow_sub_succ hx i

/-- Below `2 ^ w - 1` a word has a clear bit below `w`: the trailing zeros of its complement
count its trailing ones, and its low bits up to the first clear one are ones. -/
theorem ctz_complement {w x : Nat} (hx : x < 2 ^ w - 1) :
    ctz w (2 ^ w - 1 - x) < w ∧ x % 2 ^ (ctz w (2 ^ w - 1 - x) + 1) = 2 ^ ctz w (2 ^ w - 1 - x) - 1 := by
  have hc := testBit_two_pow_sub_one_sub (w := w) (x := x) (by omega)
  have ht : ctz w (2 ^ w - 1 - x) < w := by
    rcases Nat.lt_or_ge (ctz w (2 ^ w - 1 - x)) w with h | h
    · exact h
    · have hall : 2 ^ w - 1 ≤ x := Nat.le_of_testBit fun i hi => by
        rw [Nat.testBit_two_pow_sub_one, decide_eq_true_iff] at hi
        have := testBit_of_lt_ctz (show i < ctz w (2 ^ w - 1 - x) by omega)
        rw [hc] at this
        simpa [hi] using this
      omega
  refine ⟨ht, ?_⟩
  obtain ⟨t, ht_def⟩ : ∃ t, t = ctz w (2 ^ w - 1 - x) := ⟨_, rfl⟩
  rw [← ht_def] at ht ⊢
  apply Nat.eq_of_testBit_eq
  intro i
  rw [Nat.testBit_mod_two_pow, Nat.testBit_two_pow_sub_one]
  rcases Nat.lt_trichotomy i t with hi | rfl | hi
  · have := testBit_of_lt_ctz (ht_def ▸ hi)
    rw [hc] at this
    simp [hi, show i < t + 1 by omega, show i < w by omega] at this ⊢
    exact this
  · have := testBit_ctz (ht_def ▸ ht)
    rw [← ht_def, hc] at this
    simp at this ⊢
    exact this.2
  · simp [show ¬ i < t + 1 by omega, show ¬ i < t by omega]

end Complement

section Smear

end Smear

end Bits
