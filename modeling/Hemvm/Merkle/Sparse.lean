import Mathlib
import Hemvm.Bits.Word

/-! Sparse Merkle trees with hoisted leaves. Positions hold an optional value, given by its hash
and whether it may be hoisted. The range `[start, start + 2 ^ h)` hashes to the `empty` hash when
it holds no value, to the value's own hash when it holds a single hoisted value or is a single
position, and otherwise to the node over its two halves. A proof for a position walks down from
a range towards it, keeping the hash of the half it does not take, and stops at the first half
that needs no further hashing; folding the kept hashes back over the hash where it stopped gives
the range's hash. Nothing here is specific to one program. -/
namespace SparseMerkle

variable {α β : Type}

section Entries

/-- The occupied positions of `[start, start + 2 ^ h)` and what they hold, in increasing order. -/
def entries (f : Nat → Option β) (h start : Nat) : List (Nat × β) :=
  (List.range (2 ^ h)).filterMap fun i => (f (start + i)).map fun b => (start + i, b)

variable {f : Nat → Option β} {h start : Nat}

theorem mem_entries {i : Nat} {b : β} :
    (i, b) ∈ entries f h start ↔ start ≤ i ∧ i < start + 2 ^ h ∧ f i = some b := by
  simp only [entries, List.mem_filterMap, List.mem_range, Option.map_eq_some_iff, Prod.mk.injEq]
  constructor
  · rintro ⟨j, hj, b', hb', rfl, rfl⟩
    exact ⟨by omega, by omega, hb'⟩
  · rintro ⟨hlo, hhi, hb⟩
    exact ⟨i - start, by omega, b, by rw [Nat.add_sub_cancel' hlo]; exact hb,
      Nat.add_sub_cancel' hlo, rfl⟩

theorem entries_eq_nil_iff :
    entries f h start = [] ↔ ∀ i, start ≤ i → i < start + 2 ^ h → f i = none := by
  rw [List.eq_nil_iff_forall_not_mem]
  constructor
  · intro hnone i hlo hhi
    cases hi : f i with
    | none => rfl
    | some b => exact absurd (mem_entries.mpr ⟨hlo, hhi, hi⟩) (hnone (i, b))
  · rintro hnone ⟨i, b⟩ hmem
    obtain ⟨hlo, hhi, hb⟩ := mem_entries.mp hmem
    rw [hnone i hlo hhi] at hb
    cases hb

/-- The positions come in increasing order. -/
theorem pairwise_entries : (entries f h start).Pairwise fun x y => x.1 < y.1 := by
  unfold entries
  refine List.Pairwise.filterMap _ ?_ (List.pairwise_lt_range)
  intro i j hij x hx y hy
  obtain ⟨b, -, rfl⟩ := Option.map_eq_some_iff.mp hx
  obtain ⟨c, -, rfl⟩ := Option.map_eq_some_iff.mp hy
  show start + i < start + j
  omega

/-- The first entry is the least occupied position of the range. -/
theorem lt_of_entries_eq_cons {t : Nat} {x : β} {rest : List (Nat × β)}
    (he : entries f h start = (t, x) :: rest) {i : Nat} (hlo : start ≤ i) (hi : i < t) :
    f i = none := by
  cases hfi : f i with
  | none => rfl
  | some b =>
    have ht : (t, x) ∈ entries f h start := by rw [he]; exact List.mem_cons_self
    have hhi : i < start + 2 ^ h := by have := (mem_entries.mp ht).2.1; omega
    have hmem := mem_entries.mpr ⟨hlo, hhi, hfi⟩
    have hpair : (entries f h start).Pairwise fun x y => x.1 < y.1 := pairwise_entries
    rw [he] at hmem hpair
    rcases List.mem_cons.mp hmem with heq | hrest
    · cases heq
      omega
    · have := List.rel_of_pairwise_cons hpair hrest
      simp only at this
      omega

/-- A range whose only entry is at `t` holds nothing elsewhere. -/
theorem eq_of_entries_eq_singleton {t : Nat} {x : β} (he : entries f h start = [(t, x)])
    {i : Nat} {b : β} (hlo : start ≤ i) (hhi : i < start + 2 ^ h) (hb : f i = some b) :
    i = t ∧ b = x := by
  have hmem := mem_entries.mpr ⟨hlo, hhi, hb⟩
  rw [he, List.mem_singleton, Prod.mk.injEq] at hmem
  exact hmem

theorem entries_zero : entries f 0 start = ((f start).map fun b => (start, b)).toList := by
  cases hf : f start <;> simp [entries, hf]

end Entries

/-! ### Bitmaps of ranges

A word can mark the occupied positions of a range by its set bits; it is then zero exactly when
the range is empty, its count of set bits is the number of entries, and its trailing zeros reach
the first entry. -/

section Bitmaps

/-- The set bits of `v` are the occupied positions of `[start, start + 2 ^ h)`. -/
def Marks (f : Nat → Option β) (h start v : Nat) : Prop :=
  ∀ i, v.testBit i = decide (start ≤ i ∧ i < start + 2 ^ h ∧ (f i).isSome)

variable {f : Nat → Option β} {h start v w : Nat}

theorem lt_of_testBit (hv : v < 2 ^ w) {i : Nat} (hbit : v.testBit i = true) : i < w := by
  refine Nat.lt_of_not_le fun hle => ?_
  rw [Nat.testBit_lt_two_pow (Nat.lt_of_lt_of_le hv (Nat.pow_le_pow_right Nat.two_pos hle))] at hbit
  cases hbit

theorem Marks.eq_zero_iff (hm : Marks f h start v) : v = 0 ↔ entries f h start = [] := by
  rw [entries_eq_nil_iff]
  constructor
  · rintro rfl i hlo hhi
    have hbit := hm i
    rw [Nat.zero_testBit] at hbit
    simpa [hlo, hhi] using hbit
  · intro hnone
    apply Nat.eq_of_testBit_eq
    intro i
    rw [hm i, Nat.zero_testBit, decide_eq_false_iff_not]
    rintro ⟨hlo, hhi, hsome⟩
    rw [hnone i hlo hhi] at hsome
    cases hsome

theorem Marks.countOnes_eq (hm : Marks f h start v) (hv : v < 2 ^ w) :
    Bits.countOnes w v = (entries f h start).length := by
  have hnodup : ((entries f h start).map Prod.fst).Nodup :=
    (List.pairwise_map.mpr pairwise_entries).imp Nat.ne_of_lt
  rw [Bits.countOnes_eq_card, ← List.length_map Prod.fst, ← List.toFinset_card_of_nodup hnodup]
  congr 1
  ext i
  simp only [Finset.mem_filter, Finset.mem_range, List.mem_toFinset, List.mem_map, Prod.exists,
    exists_and_right, exists_eq_right, hm i, decide_eq_true_eq]
  constructor
  · rintro ⟨-, hlo, hhi, hsome⟩
    obtain ⟨b, hb⟩ := Option.isSome_iff_exists.mp hsome
    exact ⟨b, mem_entries.mpr ⟨hlo, hhi, hb⟩⟩
  · rintro ⟨b, hmem⟩
    obtain ⟨hlo, hhi, hb⟩ := mem_entries.mp hmem
    have hbit : v.testBit i = true := by simp [hm i, hlo, hhi, hb]
    exact ⟨lt_of_testBit hv hbit, hlo, hhi, by simp [hb]⟩

theorem Marks.ctz_eq (hm : Marks f h start v) (hv : v < 2 ^ w) {t : Nat} {x : β}
    {rest : List (Nat × β)} (he : entries f h start = (t, x) :: rest) : Bits.ctz w v = t := by
  have hmem : (t, x) ∈ entries f h start := by rw [he]; exact List.mem_cons_self
  obtain ⟨hlo, hhi, hx⟩ := mem_entries.mp hmem
  have hbit : v.testBit t = true := by simp [hm t, hlo, hhi, hx]
  refine Bits.ctz_eq_of_testBit ?_ (fun i hi => ?_) hbit
  · exact lt_of_testBit hv hbit
  · rw [hm i, decide_eq_false_iff_not]
    rintro ⟨hilo, -, hsome⟩
    rw [lt_of_entries_eq_cons he hilo hi] at hsome
    cases hsome

end Bitmaps

section Hash

variable (node : α → α → α) (empty : α)

/-- The hash a range stands for without hashing its halves: `empty` when it holds no value, and
the value's hash when it holds a single hoisted value. -/
def collapse : List (Nat × (α × Bool)) → Option α
  | [] => some empty
  | [(_, (a, true))] => some a
  | _ => none

/-- The hash of the range `[start, start + 2 ^ h)`. -/
def subtree (f : Nat → Option (α × Bool)) : Nat → Nat → α
  | 0, start => ((f start).map Prod.fst).getD empty
  | h + 1, start =>
    match collapse empty (entries f (h + 1) start) with
    | some a => a
    | none => node (subtree f h start) (subtree f h (start + 2 ^ h))

/-- The node over a hash and its sibling, on the side that `bit` says. -/
def combine (bit : Bool) (sibling acc : α) : α := if bit then node sibling acc else node acc sibling

/-- Folds a path, top first, back over the hash where it stops, as a proof verifier does. -/
def climb (path : List (Bool × α)) (cur : α) : α :=
  path.foldr (fun step acc => combine node step.1 step.2 acc) cur

/-- The half of `[start, start + 2 ^ (h + 1))` that `bit` names: the upper one for `true`. -/
def half (bit : Bool) (h start : Nat) : Nat := if bit then start + 2 ^ h else start

/-- A range a proof stops at: a single position, or a range that collapses. -/
def stops (f : Nat → Option (α × Bool)) (h start : Nat) : Bool :=
  h == 0 || (collapse empty (entries f h start)).isSome

/-- Where a proof stops: the path down to it, top first, and its range. -/
structure Cut (α : Type) where
  path : List (Bool × α)
  height : Nat
  start : Nat

/-- The proof for position `p` from the range `[start, start + 2 ^ h)`: each level takes the half
that the next bit of `p` names and keeps the other half's hash, down to the first half it stops
at. -/
def descend (f : Nat → Option (α × Bool)) (p : Nat) : Nat → Nat → Cut α
  | 0, start => ⟨[], 0, start⟩
  | h + 1, start =>
    let bit := p.testBit h
    let sibling := subtree node empty f h (half (!bit) h start)
    if stops empty f h (half bit h start) then ⟨[(bit, sibling)], h, half bit h start⟩
    else
      let cut := descend f p h (half bit h start)
      ⟨(bit, sibling) :: cut.path, cut.height, cut.start⟩

/-- Whichever half the path takes, the node over it and its sibling is the node over the two
halves. -/
theorem combine_halves (f : Nat → Option (α × Bool)) (h start : Nat) (bit : Bool) :
    combine node bit (subtree node empty f h (half (!bit) h start))
        (subtree node empty f h (half bit h start)) =
      node (subtree node empty f h start) (subtree node empty f h (start + 2 ^ h)) := by
  cases bit <;> rfl

variable {node empty} {f : Nat → Option (α × Bool)} {p h start : Nat}

@[simp] theorem climb_nil (cur : α) : climb node [] cur = cur := rfl

@[simp] theorem climb_cons (bit : Bool) (sibling : α) (path : List (Bool × α)) (cur : α) :
    climb node ((bit, sibling) :: path) cur = combine node bit sibling (climb node path cur) := rfl

theorem climb_append (path path' : List (Bool × α)) (cur : α) :
    climb node (path ++ path') cur = climb node path (climb node path' cur) :=
  List.foldr_append

/-- The verifier's fold, over the siblings from the bottom and the bits from the last, is `climb`
over the path from the top. -/
theorem foldl_reverse_zip_eq_climb :
    ∀ (bits : List Bool) (siblings : List α), bits.length = siblings.length → ∀ cur,
      (siblings.reverse.zip bits.reverse).foldl (fun acc step => combine node step.2 step.1 acc)
          cur = climb node (bits.zip siblings) cur
  | [], [], _, _ => rfl
  | bit :: bits, sibling :: siblings, hlen, cur => by
    have hlen' : siblings.reverse.length = bits.reverse.length := by simpa using hlen.symm
    rw [List.reverse_cons, List.reverse_cons, List.zip_append hlen', List.foldl_append,
      foldl_reverse_zip_eq_climb bits siblings (by simpa using hlen) cur]
    rfl

theorem subtree_of_collapse_eq_none (hc : collapse empty (entries f (h + 1) start) = none) :
    subtree node empty f (h + 1) start =
      node (subtree node empty f h start) (subtree node empty f h (start + 2 ^ h)) := by
  simp only [subtree, hc]

theorem subtree_of_collapse_eq_some {a : α} (hc : collapse empty (entries f (h + 1) start) = some a) :
    subtree node empty f (h + 1) start = a := by
  simp only [subtree, hc]

/-- A nonempty range collapses only to its single hoisted value. -/
theorem collapse_cons_isSome_iff {t : Nat} {x : α × Bool} {rest : List (Nat × (α × Bool))} :
    (collapse empty ((t, x) :: rest)).isSome = true ↔ rest = [] ∧ x.2 = true := by
  obtain ⟨a, b⟩ := x
  cases rest with
  | nil => cases b <;> simp [collapse]
  | cons y rest => simp [collapse]

/-- A range holding a value is one a proof stops at when it is one position or its only value is
hoisted. -/
theorem stops_iff_of_cons {t : Nat} {x : α × Bool} {rest : List (Nat × (α × Bool))}
    (he : entries f h start = (t, x) :: rest) :
    stops empty f h start = true ↔ h = 0 ∨ (rest = [] ∧ x.2 = true) := by
  rw [stops, Bool.or_eq_true, beq_iff_eq, he, collapse_cons_isSome_iff]

theorem collapse_eq_none_of_not_stops (hs : stops empty f h start = false) :
    collapse empty (entries f h start) = none := by
  simp only [stops, Bool.or_eq_false_iff, Option.isSome_eq_false_iff] at hs
  exact Option.isNone_iff_eq_none.mp hs.2

theorem subtree_of_entries_eq_nil (he : entries f h start = []) :
    subtree node empty f h start = empty := by
  cases h with
  | zero =>
    rw [entries_zero] at he
    cases hf : f start with
    | none => simp [subtree, hf]
    | some x => simp [hf] at he
  | succ h => rw [subtree_of_collapse_eq_some (by rw [he]; rfl)]

/-- A range that a proof stops at and that holds a value hashes to its first value. -/
theorem subtree_of_stops {t : Nat} {x : α × Bool} {rest : List (Nat × (α × Bool))}
    (hs : stops empty f h start = true) (he : entries f h start = (t, x) :: rest) :
    subtree node empty f h start = x.1 := by
  cases h with
  | zero =>
    rw [entries_zero] at he
    cases hf : f start with
    | none => simp [hf] at he
    | some y =>
      simp only [hf, Option.map_some, Option.toList_some, List.cons.injEq, Prod.mk.injEq] at he
      simp [subtree, hf, he.1.2]
  | succ h =>
    have hc : (collapse empty (entries f (h + 1) start)).isSome = true := by simpa [stops] using hs
    rw [he] at hc
    obtain ⟨rfl, hleaf⟩ := collapse_cons_isSome_iff.mp hc
    obtain ⟨a, b⟩ := x
    simp only at hleaf
    subst hleaf
    exact subtree_of_collapse_eq_some (by rw [he]; rfl)

theorem descend_of_stops (hs : stops empty f h (half (p.testBit h) h start) = true) :
    descend node empty f p (h + 1) start =
      ⟨[(p.testBit h, subtree node empty f h (half (!p.testBit h) h start))], h,
        half (p.testBit h) h start⟩ := by
  simp only [descend, hs, if_true]

theorem descend_of_not_stops (hs : stops empty f h (half (p.testBit h) h start) = false) :
    descend node empty f p (h + 1) start =
      ⟨(p.testBit h, subtree node empty f h (half (!p.testBit h) h start)) ::
          (descend node empty f p h (half (p.testBit h) h start)).path,
        (descend node empty f p h (half (p.testBit h) h start)).height,
        (descend node empty f p h (half (p.testBit h) h start)).start⟩ := by
  simp only [descend, hs, Bool.false_eq_true, if_false]

/-- Below a range that does not stop there is a level more. -/
theorem pos_of_not_stops (hs : stops empty f h start = false) : 0 < h := by
  unfold stops at hs
  cases h with
  | zero => simp at hs
  | succ h => omega

/-- Folding a proof back over the hash where it stops gives the hash of the range it started
from, when that range does not collapse. -/
theorem climb_descend (p : Nat) :
    ∀ h start, collapse empty (entries f (h + 1) start) = none →
      climb node (descend node empty f p (h + 1) start).path
          (subtree node empty f (descend node empty f p (h + 1) start).height
            (descend node empty f p (h + 1) start).start) =
        subtree node empty f (h + 1) start := by
  intro h
  induction h using Nat.strong_induction_on with
  | _ h ih =>
    intro start hc
    rw [subtree_of_collapse_eq_none hc, ← combine_halves node empty f h start (p.testBit h)]
    cases hs : stops empty f h (half (p.testBit h) h start) with
    | true => rw [descend_of_stops hs, climb_cons, climb_nil]
    | false =>
      -- the half the path takes hashes its own halves: the induction goes on below it
      obtain ⟨h', rfl⟩ := Nat.exists_eq_add_one_of_ne_zero (pos_of_not_stops hs).ne'
      have hnone : collapse empty (entries f (h' + 1) (half (p.testBit (h' + 1)) (h' + 1) start)) =
          none := by
        simpa [stops] using hs
      rw [descend_of_not_stops hs, climb_cons, ih h' (by omega) _ hnone]

/-- A proof stops at a single position or at a range that collapses. -/
theorem stops_descend (p : Nat) :
    ∀ h start, stops empty f (descend node empty f p (h + 1) start).height
      (descend node empty f p (h + 1) start).start = true := by
  intro h
  induction h using Nat.strong_induction_on with
  | _ h ih =>
    intro start
    cases hs : stops empty f h (half (p.testBit h) h start) with
    | true => rw [descend_of_stops hs]; exact hs
    | false =>
      obtain ⟨h', rfl⟩ := Nat.exists_eq_add_one_of_ne_zero (pos_of_not_stops hs).ne'
      rw [descend_of_not_stops hs]
      exact ih h' (by omega) _

/-- In an aligned range, bit `h` of a position says which half of `[start, start + 2 ^ (h + 1))`
it is in. -/
theorem testBit_iff_of_aligned (halign : start % 2 ^ (h + 1) = 0) (hlo : start ≤ p)
    (hhi : p < start + 2 ^ (h + 1)) : p.testBit h = true ↔ start + 2 ^ h ≤ p := by
  obtain ⟨q, rfl⟩ := Nat.dvd_of_mod_eq_zero halign
  have hpow : 2 ^ (h + 1) = 2 ^ h * 2 := Nat.pow_succ 2 h
  have hpos : 0 < 2 ^ h := Nat.two_pow_pos h
  obtain ⟨r, rfl⟩ := Nat.exists_eq_add_of_le hlo
  have hdiv : (2 ^ (h + 1) * q + r) / 2 ^ h = r / 2 ^ h + 2 * q := by
    rw [hpow, Nat.mul_assoc, Nat.add_comm, Nat.add_mul_div_left _ _ hpos]
  have hr : r / 2 ^ h < 2 := Nat.div_lt_of_lt_mul (by rw [← hpow]; omega : r < 2 ^ h * 2)
  rw [Nat.testBit_eq_decide_div_mod_eq, hdiv, decide_eq_true_iff, Nat.add_mul_mod_self_left]
  have hiff : 1 ≤ r / 2 ^ h ↔ 1 * 2 ^ h ≤ r := Nat.le_div_iff_mul_le hpos
  -- the quotient is the bit, 0 or 1
  generalize r / 2 ^ h = d at hr hiff ⊢
  omega

/-- The half that bit `h` of `p` names is aligned and holds `p`. -/
theorem half_testBit_mem (halign : start % 2 ^ (h + 1) = 0) (hlo : start ≤ p)
    (hhi : p < start + 2 ^ (h + 1)) :
    half (p.testBit h) h start % 2 ^ h = 0 ∧ half (p.testBit h) h start ≤ p ∧
      p < half (p.testBit h) h start + 2 ^ h := by
  have hbit := testBit_iff_of_aligned halign hlo hhi
  have hdvd : start % 2 ^ h = 0 :=
    Nat.mod_eq_zero_of_dvd (Nat.dvd_trans (Nat.pow_dvd_pow 2 (Nat.le_succ h))
      (Nat.dvd_of_mod_eq_zero halign))
  have hpow : 2 ^ (h + 1) = 2 ^ h + 2 ^ h := by rw [Nat.pow_succ]; omega
  cases hb : p.testBit h with
  | true =>
    have hle := hbit.mp hb
    show (start + 2 ^ h) % 2 ^ h = 0 ∧ start + 2 ^ h ≤ p ∧ p < start + 2 ^ h + 2 ^ h
    exact ⟨by rw [Nat.add_mod_right, hdvd], hle, by omega⟩
  | false =>
    have hlt : ¬ start + 2 ^ h ≤ p := fun hle => by simp [hbit.mpr hle] at hb
    show start % 2 ^ h = 0 ∧ start ≤ p ∧ p < start + 2 ^ h
    exact ⟨hdvd, hlo, by omega⟩

/-- The aligned range of height `k` around `p` starts at `p / 2 ^ k * 2 ^ k`. -/
theorem lt_aligned_add (p k : Nat) : p < p / 2 ^ k * 2 ^ k + 2 ^ k :=
  Nat.lt_div_mul_add (Nat.two_pow_pos k)

/-- The positions of an aligned range of width `2 ^ k` agree above bit `k`. -/
theorem div_eq_of_mem_aligned {k : Nat} (halign : start % 2 ^ k = 0) (hlo : start ≤ p)
    (hhi : p < start + 2 ^ k) : p / 2 ^ k = start / 2 ^ k := by
  obtain ⟨q, rfl⟩ := Nat.dvd_of_mod_eq_zero halign
  rw [Nat.mul_div_cancel_left q (Nat.two_pow_pos k)]
  refine Nat.div_eq_of_lt_le ?_ ?_
  · rw [Nat.mul_comm]
    exact hlo
  · rw [Nat.succ_mul, Nat.mul_comm]
    exact hhi

/-- The aligned ranges around a position below `2 ^ m` end by `2 ^ m`. -/
theorem aligned_add_le {p k m : Nat} (hp : p < 2 ^ m) (hk : k ≤ m) :
    p / 2 ^ k * 2 ^ k + 2 ^ k ≤ 2 ^ m := by
  have hsplit : 2 ^ m = 2 ^ (m - k) * 2 ^ k := by rw [← Nat.pow_add, Nat.sub_add_cancel hk]
  have hq : p / 2 ^ k < 2 ^ (m - k) := (Nat.div_lt_iff_lt_mul (Nat.two_pow_pos k)).mpr (hsplit ▸ hp)
  calc p / 2 ^ k * 2 ^ k + 2 ^ k = (p / 2 ^ k + 1) * 2 ^ k := by rw [Nat.succ_mul]
    _ ≤ 2 ^ (m - k) * 2 ^ k := Nat.mul_le_mul_right _ hq
    _ = 2 ^ m := hsplit.symm

/-- Both halves of an aligned range are aligned and lie inside it. -/
theorem half_mem (bit : Bool) (halign : start % 2 ^ (h + 1) = 0) :
    half bit h start % 2 ^ h = 0 ∧ start ≤ half bit h start ∧
      half bit h start + 2 ^ h ≤ start + 2 ^ (h + 1) := by
  have hdvd : start % 2 ^ h = 0 :=
    Nat.mod_eq_zero_of_dvd (Nat.dvd_trans (Nat.pow_dvd_pow 2 (Nat.le_succ h))
      (Nat.dvd_of_mod_eq_zero halign))
  have hpow : 2 ^ (h + 1) = 2 ^ h + 2 ^ h := by rw [Nat.pow_succ]; omega
  cases bit with
  | true => exact ⟨by rw [half, if_pos rfl, Nat.add_mod_right, hdvd], by simp [half], by simp [half]; omega⟩
  | false => exact ⟨hdvd, le_rfl, by simp [half]; omega⟩

/-- Of the aligned range of height `h + 1` around `p`, bit `h` of `p` names the aligned range of
height `h` around `p`. -/
theorem half_testBit_div (p h : Nat) :
    half (p.testBit h) h (p / 2 ^ (h + 1) * 2 ^ (h + 1)) = p / 2 ^ h * 2 ^ h := by
  have hdiv : p / 2 ^ (h + 1) = p / 2 ^ h / 2 := by rw [Nat.pow_succ, Nat.div_div_eq_div_mul]
  rw [Nat.testBit_eq_decide_div_mod_eq, hdiv, half, Nat.pow_succ]
  generalize p / 2 ^ h = q
  -- the quotient by `2 ^ h` is twice the quotient by `2 ^ (h + 1)`, plus the bit
  rcases Nat.even_or_odd' q with ⟨a, rfl | rfl⟩
  · have ha : 2 * a / 2 = a := by omega
    simp only [ha, Nat.mul_mod_right, zero_ne_one, decide_false, Bool.false_eq_true, if_false]
    ring
  · have ha : (2 * a + 1) / 2 = a := by omega
    have hb : (2 * a + 1) % 2 = 1 := by omega
    simp only [ha, hb, decide_true, if_true]
    ring

/-- The bits of `p` that a path from height `h` takes, top first: `h - 1`, `h - 2`, ... -/
def bitsDown (p h k : Nat) : List Bool := (List.range k).map fun j => p.testBit (h - 1 - j)

/-- Positions that agree above bit `h - k` agree on their top `k` bits below `h`. -/
theorem bitsDown_eq_of_div_eq {p q h k : Nat} (hk : k ≤ h)
    (heq : p / 2 ^ (h - k) = q / 2 ^ (h - k)) : bitsDown p h k = bitsDown q h k := by
  refine List.map_congr_left fun j hj => ?_
  have hj : j < k := List.mem_range.mp hj
  have hp := Nat.testBit_div_two_pow (n := h - k) p (h - 1 - j - (h - k))
  have hq := Nat.testBit_div_two_pow (n := h - k) q (h - 1 - j - (h - k))
  rw [show h - 1 - j - (h - k) + (h - k) = h - 1 - j by omega] at hp hq
  rw [← hp, ← hq, heq]

theorem take_bitsDown (p h k m : Nat) : (bitsDown p h k).take m = bitsDown p h (min m k) := by
  rw [bitsDown, ← List.map_take, List.take_range]
  rfl

theorem bitsDown_succ (p h k : Nat) :
    bitsDown p (h + 1) (k + 1) = p.testBit h :: bitsDown p h k := by
  simp only [bitsDown, List.range_succ_eq_map, List.map_cons, List.map_map]
  congr 2
  funext j
  simp only [Function.comp_apply]
  congr 1
  omega

/-- What a proof for `p` from height `h` ends with: an aligned range holding `p`, reached by one
step of the path per level, each step on the side of the next bit of `p`. -/
structure Reaches (p h : Nat) (cut : Cut α) : Prop where
  aligned : cut.start % 2 ^ cut.height = 0
  start_le : cut.start ≤ p
  lt_end : p < cut.start + 2 ^ cut.height
  length_add : cut.path.length + cut.height = h
  bits : cut.path.map Prod.fst = bitsDown p h cut.path.length

theorem reaches_descend (p : Nat) :
    ∀ h start, start % 2 ^ (h + 1) = 0 → start ≤ p → p < start + 2 ^ (h + 1) →
      Reaches p (h + 1) (descend node empty f p (h + 1) start) := by
  intro h
  induction h using Nat.strong_induction_on with
  | _ h ih =>
    intro start halign hlo hhi
    obtain ⟨hchild, hclo, hchi⟩ := half_testBit_mem halign hlo hhi
    cases hs : stops empty f h (half (p.testBit h) h start) with
    | true =>
      rw [descend_of_stops hs]
      exact ⟨hchild, hclo, hchi, by simp; omega, by simp [bitsDown]⟩
    | false =>
      obtain ⟨h', rfl⟩ := Nat.exists_eq_add_one_of_ne_zero (pos_of_not_stops hs).ne'
      obtain ⟨haligned, hle, hlt, hlen, hbits⟩ := ih h' (by omega) _ hchild hclo hchi
      rw [descend_of_not_stops hs]
      refine ⟨haligned, hle, hlt, by simp only [List.length_cons]; omega, ?_⟩
      simp only [List.map_cons, List.length_cons, bitsDown_succ, hbits]

end Hash

end SparseMerkle
