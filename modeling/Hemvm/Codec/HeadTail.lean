import Hemvm.Codec.Bytes

/-! Head/tail layout of a list of encoded parts: a static part sits in the head section, a
dynamic part leaves a 32-byte big-endian offset word there and its bytes go to the tail
section, in order. Nothing here is specific to one program. -/
namespace HeadTail
open Codec

/-- One element of a head/tail list: its encoded bytes and whether it is dynamic. -/
structure Part where
  isDyn : Bool
  bytes : List UInt8

namespace Part

def headSize (p : Part) : Nat := if p.isDyn then 32 else p.bytes.length

def tailSize (p : Part) : Nat := if p.isDyn then p.bytes.length else 0

end Part

def headSizes (ps : List Part) : Nat := (ps.map Part.headSize).sum

def tailSizes (ps : List Part) : Nat := (ps.map Part.tailSize).sum

/-- The head section; `offset` is where the next dynamic part's bytes start. -/
def heads (offset : Nat) : List Part → List UInt8
  | [] => []
  | p :: ps =>
    if p.isDyn then beBytes 32 offset ++ heads (offset + p.bytes.length) ps
    else p.bytes ++ heads offset ps

/-- The tail section: the dynamic parts' bytes, in order. -/
def tails : List Part → List UInt8
  | [] => []
  | p :: ps => if p.isDyn then p.bytes ++ tails ps else tails ps

/-- The whole list: heads with offsets counted from its own start, then tails. -/
def layout (ps : List Part) : List UInt8 := heads (headSizes ps) ps ++ tails ps

@[simp] theorem headSizes_nil : headSizes [] = 0 := rfl

@[simp] theorem headSizes_cons (p : Part) (ps : List Part) :
    headSizes (p :: ps) = p.headSize + headSizes ps := by
  simp [headSizes]

@[simp] theorem tailSizes_nil : tailSizes [] = 0 := rfl

@[simp] theorem tailSizes_cons (p : Part) (ps : List Part) :
    tailSizes (p :: ps) = p.tailSize + tailSizes ps := by
  simp [tailSizes]

theorem tailSizes_append (xs ys : List Part) :
    tailSizes (xs ++ ys) = tailSizes xs + tailSizes ys := by
  simp [tailSizes]

@[simp] theorem heads_nil (offset : Nat) : heads offset [] = [] := rfl

theorem heads_cons_static {p : Part} (h : p.isDyn = false) (offset : Nat) (ps : List Part) :
    heads offset (p :: ps) = p.bytes ++ heads offset ps := by
  simp [heads, h]

theorem heads_cons_dynamic {p : Part} (h : p.isDyn = true) (offset : Nat) (ps : List Part) :
    heads offset (p :: ps) = beBytes 32 offset ++ heads (offset + p.bytes.length) ps := by
  simp [heads, h]

@[simp] theorem tails_nil : tails [] = [] := rfl

theorem tails_cons_static {p : Part} (h : p.isDyn = false) (ps : List Part) :
    tails (p :: ps) = tails ps := by
  simp [tails, h]

theorem tails_cons_dynamic {p : Part} (h : p.isDyn = true) (ps : List Part) :
    tails (p :: ps) = p.bytes ++ tails ps := by
  simp [tails, h]

theorem tails_append (xs ys : List Part) : tails (xs ++ ys) = tails xs ++ tails ys := by
  induction xs with
  | nil => rfl
  | cons p xs ih =>
    cases hp : p.isDyn
    · rw [List.cons_append, tails_cons_static hp, tails_cons_static hp, ih]
    · rw [List.cons_append, tails_cons_dynamic hp, tails_cons_dynamic hp, ih, List.append_assoc]

@[simp] theorem length_heads (offset : Nat) (ps : List Part) :
    (heads offset ps).length = headSizes ps := by
  induction ps generalizing offset with
  | nil => rfl
  | cons p ps ih =>
    cases hp : p.isDyn
    · simp [heads_cons_static hp, ih, Part.headSize, hp]
    · simp [heads_cons_dynamic hp, ih, Part.headSize, hp]

@[simp] theorem length_tails (ps : List Part) : (tails ps).length = tailSizes ps := by
  induction ps with
  | nil => rfl
  | cons p ps ih =>
    cases hp : p.isDyn
    · simp [tails_cons_static hp, ih, Part.tailSize, hp]
    · simp [tails_cons_dynamic hp, ih, Part.tailSize, hp]

theorem length_layout (ps : List Part) : (layout ps).length = headSizes ps + tailSizes ps := by
  simp [layout]

/-- Dropping a list's head section and the tails of the parts before `rest` lands on the
tails of `rest`: this is where an offset word points. -/
theorem drop_layout_append (pre rest : List Part) (suffix : List UInt8) :
    (layout (pre ++ rest) ++ suffix).drop (headSizes (pre ++ rest) + tailSizes pre) =
      tails rest ++ suffix := by
  have hlen : (heads (headSizes (pre ++ rest)) (pre ++ rest) ++ tails pre).length =
      headSizes (pre ++ rest) + tailSizes pre := by
    simp
  rw [layout, tails_append, ← hlen, List.append_assoc, List.append_assoc, ← List.append_assoc _ (tails pre),
    List.drop_left]

/-- An offset word of the head section is below the length of the whole list when the part it
points to is not empty. -/
theorem tailOffset_lt_length_layout (pre : List Part) {p : Part} (rest : List Part)
    (hp : p.isDyn = true) (hne : p.bytes ≠ []) :
    headSizes (pre ++ p :: rest) + tailSizes pre < (layout (pre ++ p :: rest)).length := by
  have hpos : 0 < p.bytes.length := List.length_pos_iff.mpr hne
  simp only [length_layout, tailSizes_append, tailSizes_cons, Part.tailSize, hp, if_true]
  omega

/-- A list of static parts has no tail section. -/
theorem tails_eq_nil_of_static {ps : List Part} (h : ∀ p ∈ ps, p.isDyn = false) : tails ps = [] := by
  induction ps with
  | nil => rfl
  | cons p ps ih =>
    rw [tails_cons_static (h p List.mem_cons_self)]
    exact ih fun q hq => h q (List.mem_cons_of_mem p hq)

/-- Each part's bytes fit in the list: in the heads if static, in the tails if dynamic. -/
theorem length_bytes_le {p : Part} {ps : List Part} (hp : p ∈ ps) :
    p.bytes.length ≤ headSizes ps + tailSizes ps := by
  induction ps with
  | nil => exact absurd hp List.not_mem_nil
  | cons q ps ih =>
    rcases List.mem_cons.mp hp with rfl | hp
    · cases hq : p.isDyn
      · simp [Part.headSize, hq]
        omega
      · simp [Part.tailSize, hq]
        omega
    · have := ih hp
      simp only [headSizes_cons, tailSizes_cons]
      omega

end HeadTail
