import Hemvm.SolidityAbi.Codec

/-! The ABI round trip. The writer lays a list of elements out as a head/tail list
(`HeadTail.layout`); the reader walks the head section with its pointer and follows the offset
words into the tails. Both directions are proved once for a list of elements, and the impls
for vectors, arrays, structs and tuples are such lists. -/
namespace Hemvm.SolidityAbi
open Codec Control HeadTail

@[simp] theorem length_paddedBigEndian (n : Nat) : (paddedBigEndian n).length = 32 := by
  simp [paddedBigEndian]

theorem ofBeBytes_paddedBigEndian {n : Nat} (h : n < 2 ^ 256) : ofBeBytes (paddedBigEndian n) = n :=
  ofBeBytes_beBytes_of_lt (by simpa using h)

theorem pullSlice_append {bs : List UInt8} {n : Nat} (h : bs.length = n) (rest : List UInt8)
    (errDesc : String) : pullSlice (bs ++ rest) n errDesc = .ok (bs, rest) := by
  subst h
  simp [pullSlice, abiRequire]

theorem abiRequire_of_true {claim : Bool} (h : claim = true) (desc : String) :
    abiRequire claim desc = .ok () := by
  simp [abiRequire, h]

theorem FieldsHaveTypes.length_eq {vs : List AbiValue} {ts : List AbiType} :
    FieldsHaveTypes vs ts → ts.length = vs.length
  | .nil => rfl
  | .cons _ h => by simp [h.length_eq]

namespace AbiType

/-- An element as a part of a head/tail list: dynamic exactly when its type has no
`STATIC_LENGTH`. -/
def toPart (t : AbiType) (v : AbiValue) : Part := ⟨t.staticLength.isNone, t.toAbi v⟩

/-- The parts of a list of elements. -/
def parts (ts : List AbiType) (vs : List AbiValue) : List Part := List.zipWith toPart ts vs

@[simp] theorem toPart_bytes (t : AbiType) (v : AbiValue) : (toPart t v).bytes = t.toAbi v := rfl

@[simp] theorem parts_cons (t : AbiType) (ts : List AbiType) (v : AbiValue) (vs : List AbiValue) :
    parts (t :: ts) (v :: vs) = toPart t v :: parts ts vs := rfl

theorem toPart_isDyn_of_some {t : AbiType} {len : Nat} (h : t.staticLength = some len)
    (v : AbiValue) : (toPart t v).isDyn = false := by
  simp [toPart, h]

theorem toPart_isDyn_of_none {t : AbiType} (h : t.staticLength = none) (v : AbiValue) :
    (toPart t v).isDyn = true := by
  simp [toPart, h]

/-- One `write_down` adds the element's part to the heads and tails laid out so far. -/
theorem writeDown_toPart (w : ABIListWriter) (t : AbiType) (v : AbiValue) (rest : List Part) :
    let w' := w.writeDown t.staticLength (t.toAbi v)
    w'.headsLength = w.headsLength ∧
      w'.heads ++ heads (w'.tails.length + w.headsLength) rest =
        w.heads ++ heads (w.tails.length + w.headsLength) (toPart t v :: rest) ∧
      w'.tails ++ tails rest = w.tails ++ tails (toPart t v :: rest) := by
  cases hs : t.staticLength with
  | some len =>
    rw [heads_cons_static (toPart_isDyn_of_some hs v), tails_cons_static (toPart_isDyn_of_some hs v)]
    simp [ABIListWriter.writeDown, hs, toPart]
  | none =>
    have hoff : w.tails.length + (t.toAbi v).length + w.headsLength =
        w.tails.length + w.headsLength + (t.toAbi v).length := by
      omega
    rw [heads_cons_dynamic (toPart_isDyn_of_none hs v), tails_cons_dynamic (toPart_isDyn_of_none hs v)]
    simp [ABIListWriter.writeDown, hs, hoff, toPart, paddedBigEndian]

/-- Writing a list of elements down lays out their parts after what was written before. -/
theorem fieldsWriteDown_eq : ∀ (ts : List AbiType) (vs : List AbiValue) (w : ABIListWriter),
    ts.length = vs.length →
    (fieldsWriteDown ts vs w).headsLength = w.headsLength ∧
      (fieldsWriteDown ts vs w).heads = w.heads ++ heads (w.tails.length + w.headsLength) (parts ts vs) ∧
      (fieldsWriteDown ts vs w).tails = w.tails ++ tails (parts ts vs)
  | [], [], w, _ => by simp [parts]
  | [], _ :: _, _, h => absurd h (by simp)
  | _ :: _, [], _, h => absurd h (by simp)
  | t :: ts, v :: vs, w, h => by
    obtain ⟨hH, hheads, htails⟩ :=
      fieldsWriteDown_eq ts vs (w.writeDown t.staticLength (t.toAbi v)) (by simpa using h)
    obtain ⟨hH', hstep, hstep'⟩ := writeDown_toPart w t v (parts ts vs)
    rw [fieldsWriteDown_cons]
    refine ⟨hH.trans hH', ?_, ?_⟩
    · rw [hheads, hH', parts_cons, ← hstep]
    · rw [htails, parts_cons, ← hstep']

/-- The writer's output is the head/tail layout of the elements, once the heads length it was
given is the size of their head section. -/
theorem intoLinkedBytes_fieldsWriteDown {ts : List AbiType} {vs : List AbiValue}
    (hlen : ts.length = vs.length) (hH : headSizes (parts ts vs) = headsLength ts) :
    (fieldsWriteDown ts vs (ABIListWriter.withHeadsLength (headsLength ts))).intoLinkedBytes =
      layout (parts ts vs) := by
  obtain ⟨-, hheads, htails⟩ :=
    fieldsWriteDown_eq ts vs (ABIListWriter.withHeadsLength (headsLength ts)) hlen
  rw [ABIListWriter.intoLinkedBytes, hheads, htails]
  simp [ABIListWriter.withHeadsLength, layout, hH]

/-- The loop of `Vec<T>::to_abi` and `[T; N]::to_abi` writes the items as fields of one type. -/
theorem foldl_writeDown (t : AbiType) (items : List AbiValue) (w : ABIListWriter) :
    items.foldl (fun (w : ABIListWriter) item => w.writeDown t.staticLength (t.toAbi item)) w =
      fieldsWriteDown (List.replicate items.length t) items w := by
  induction items generalizing w with
  | nil => simp
  | cons item items ih =>
    rw [List.foldl_cons, ih, List.length_cons, List.replicate_succ, fieldsWriteDown_cons]

/-- The loop of `Vec<T>::from_abi` and `[T; N]::from_abi` reads the items as fields of one
type. -/
theorem readAbiListN_eq_fieldsFromAbi (t : AbiType) (data : List UInt8) :
    ∀ (count : Nat) (pointer : List UInt8),
      readAbiListN t.staticLength t.fromAbi data count pointer =
        fieldsFromAbi (List.replicate count t) data pointer
  | 0, pointer => by simp [readAbiListN]
  | count + 1, pointer => by
    rw [readAbiListN, List.replicate_succ, fieldsFromAbi_cons]
    simp only [readAbiListN_eq_fieldsFromAbi t data count]

theorem headsLength_replicate (t : AbiType) (n : Nat) :
    headsLength (List.replicate n t) = t.staticLength.getD 32 * n := by
  simp [headsLength, Nat.mul_comm]

/-- What a list reader needs of one element: a static one encodes to exactly its static length
and decodes from exactly those bytes; a dynamic one encodes to a nonempty string that decodes
whatever follows it. -/
def Decodes (t : AbiType) (v : AbiValue) : Prop :=
  match t.staticLength with
  | some len => (t.toAbi v).length = len ∧ t.fromAbi (t.toAbi v) = .ok v
  | none => t.toAbi v ≠ [] ∧ ∀ suffix, t.fromAbi (t.toAbi v ++ suffix) = .ok v

theorem Decodes.of_some {t : AbiType} {v : AbiValue} {len : Nat} (h : Decodes t v)
    (hs : t.staticLength = some len) :
    (t.toAbi v).length = len ∧ t.fromAbi (t.toAbi v) = .ok v := by
  simpa [Decodes, hs] using h

theorem Decodes.of_none {t : AbiType} {v : AbiValue} (h : Decodes t v)
    (hs : t.staticLength = none) :
    t.toAbi v ≠ [] ∧ ∀ suffix, t.fromAbi (t.toAbi v ++ suffix) = .ok v := by
  simpa [Decodes, hs] using h

/-- One `read_abi_list` step over a laid-out list: the pointer stands at the element's head,
and moves past it. -/
theorem readAbiList_layout {t : AbiType} {v : AbiValue} (hd : Decodes t v) (pre rest : List Part)
    (suffix : List UInt8) (hlen : (layout (pre ++ toPart t v :: rest)).length < 2 ^ 256) :
    readAbiList t.staticLength t.fromAbi (layout (pre ++ toPart t v :: rest) ++ suffix)
        (heads (headSizes (pre ++ toPart t v :: rest) + tailSizes pre) (toPart t v :: rest) ++
          tails (pre ++ toPart t v :: rest) ++ suffix) =
      .ok (v, heads (headSizes (pre ++ toPart t v :: rest) + tailSizes (pre ++ [toPart t v])) rest ++
          tails (pre ++ toPart t v :: rest) ++ suffix) := by
  cases hs : t.staticLength with
  | some len =>
    obtain ⟨hlen', hdec⟩ := hd.of_some hs
    have hstatic := toPart_isDyn_of_some hs v
    have htail : tailSizes (pre ++ [toPart t v]) = tailSizes pre := by
      simp [tailSizes_append, Part.tailSize, hstatic]
    rw [htail, heads_cons_static hstatic]
    simp only [readAbiList, List.append_assoc, toPart_bytes]
    rw [pullSlice_append hlen', ok_bind]
    dsimp only
    rw [hdec, exceptMap_ok]
  | none =>
    obtain ⟨hne, hdec⟩ := hd.of_none hs
    have hdyn := toPart_isDyn_of_none hs v
    have hoff := tailOffset_lt_length_layout pre rest hdyn hne
    have hword : ofBeBytes (beBytes 32 (headSizes (pre ++ toPart t v :: rest) + tailSizes pre)) =
        headSizes (pre ++ toPart t v :: rest) + tailSizes pre :=
      ofBeBytes_beBytes_of_lt (by simp only [Nat.reducePow]; omega)
    have hdrop : (layout (pre ++ toPart t v :: rest) ++ suffix).drop
        (headSizes (pre ++ toPart t v :: rest) + tailSizes pre) =
          t.toAbi v ++ (tails rest ++ suffix) := by
      rw [drop_layout_append, tails_cons_dynamic hdyn, List.append_assoc]
      rfl
    have htail : tailSizes (pre ++ [toPart t v]) = tailSizes pre + (toPart t v).bytes.length := by
      simp [tailSizes_append, Part.tailSize, hdyn]
    have hbound : headSizes (pre ++ toPart t v :: rest) + tailSizes pre <
        (layout (pre ++ toPart t v :: rest) ++ suffix).length := by
      simp only [List.length_append]
      omega
    rw [htail, heads_cons_dynamic hdyn, ← Nat.add_assoc]
    simp only [readAbiList, List.append_assoc]
    rw [pullSlice_append (by simp), ok_bind]
    dsimp only
    rw [hword, abiRequire_of_true (decide_eq_true hbound), ok_bind, hdrop, hdec, exceptMap_ok]

/-- Reading a laid-out list from any element on: each element is read at its head, and the
pointer ends at the tail section. The induction is on the elements left, with those already
read in `pre`. -/
theorem fieldsFromAbi_layout {ts : List AbiType} {vs : List AbiValue}
    (hd : List.Forall₂ Decodes ts vs) (pre : List Part) (suffix : List UInt8)
    (hlen : (layout (pre ++ parts ts vs)).length < 2 ^ 256) :
    fieldsFromAbi ts (layout (pre ++ parts ts vs) ++ suffix)
        (heads (headSizes (pre ++ parts ts vs) + tailSizes pre) (parts ts vs) ++
          tails (pre ++ parts ts vs) ++ suffix) =
      .ok (vs, tails (pre ++ parts ts vs) ++ suffix) := by
  induction hd generalizing pre with
  | nil => simp [parts]
  | @cons t v ts vs hdv _ ih =>
    have hassoc : pre ++ toPart t v :: parts ts vs = (pre ++ [toPart t v]) ++ parts ts vs := by
      simp
    rw [parts_cons] at hlen ⊢
    have hih := ih (pre ++ [toPart t v]) (by rw [← hassoc]; exact hlen)
    rw [← hassoc] at hih
    rw [fieldsFromAbi_cons, readAbiList_layout hdv pre (parts ts vs) suffix hlen, ok_bind]
    dsimp only
    rw [hih, ok_bind]

theorem headSizes_parts {ts : List AbiType} {vs : List AbiValue}
    (hd : List.Forall₂ Decodes ts vs) : headSizes (parts ts vs) = headsLength ts := by
  induction hd with
  | nil => rfl
  | @cons t v ts vs hdv _ ih =>
    have hhead : (toPart t v).headSize = t.staticLength.getD 32 := by
      cases hs : t.staticLength with
      | some len => simp [Part.headSize, toPart_isDyn_of_some hs, (hdv.of_some hs).1]
      | none => simp [Part.headSize, toPart_isDyn_of_none hs]
    rw [parts_cons, headSizes_cons, ih, hhead]
    simp [headsLength]

/-- A list of elements that each decode is read back from its layout, whatever follows. -/
theorem fieldsFromAbi_layout_parts {ts : List AbiType} {vs : List AbiValue}
    (hd : List.Forall₂ Decodes ts vs) (suffix : List UInt8)
    (hlen : (layout (parts ts vs)).length < 2 ^ 256) :
    fieldsFromAbi ts (layout (parts ts vs) ++ suffix) (layout (parts ts vs) ++ suffix) =
      .ok (vs, tails (parts ts vs) ++ suffix) := by
  have hread := fieldsFromAbi_layout hd [] suffix hlen
  simp only [List.nil_append, tailSizes_nil, Nat.add_zero] at hread
  rwa [layout] at hread ⊢

/-- The writer's output holds every element's bytes. -/
theorem length_bytes_le_abiEncode {ts : List AbiType} {vs : List AbiValue} {p : Part}
    (hlen : ts.length = vs.length) (hp : p ∈ parts ts vs) :
    p.bytes.length ≤ (abiEncode ts vs).length := by
  obtain ⟨-, hheads, htails⟩ :=
    fieldsWriteDown_eq ts vs (ABIListWriter.withHeadsLength (headsLength ts)) hlen
  rw [abiEncode, ABIListWriter.intoLinkedBytes, hheads, htails]
  simpa [ABIListWriter.withHeadsLength] using length_bytes_le hp

theorem parts_replicate (t : AbiType) (items : List AbiValue) :
    parts (List.replicate items.length t) items = items.map (toPart t) := by
  induction items with
  | nil => rfl
  | cons item items ih => rw [List.length_cons, List.replicate_succ, parts_cons, ih, List.map_cons]

theorem forall₂_replicate {t : AbiType} {items : List AbiValue} (h : ∀ v ∈ items, Decodes t v) :
    List.Forall₂ Decodes (List.replicate items.length t) items := by
  induction items with
  | nil => exact .nil
  | cons item items ih =>
    rw [List.length_cons, List.replicate_succ]
    exact .cons (h item List.mem_cons_self) (ih fun v hv => h v (List.mem_cons_of_mem item hv))

theorem exists_toPart_of_mem_parts {ts : List AbiType} {vs : List AbiValue} {p : Part}
    (hp : p ∈ parts ts vs) : ∃ t ∈ ts, ∃ v, p = toPart t v := by
  induction ts generalizing vs with
  | nil => exact absurd hp (by simp [parts])
  | cons t ts ih =>
    cases vs with
    | nil => exact absurd hp (by simp [parts])
    | cons v vs =>
      rcases List.mem_cons.mp (by simpa using hp) with rfl | hp
      · exact ⟨t, List.mem_cons_self, v, rfl⟩
      · obtain ⟨t', ht', v', rfl⟩ := ih hp
        exact ⟨t', List.mem_cons_of_mem t ht', v', rfl⟩

/-! The derived `STATIC_LENGTH` is the fields' sum when all are static. -/

theorem fieldsStaticLength_none : ∀ fs : List AbiType, fieldsStaticLength fs none = none
  | [] => rfl
  | f :: fs => by rw [fieldsStaticLength_cons, fieldsStaticLength_none fs]

theorem fieldsStaticLength_eq_some : ∀ (fs : List AbiType) (a b : Nat),
    fieldsStaticLength fs (some a) = some b →
      (∀ f ∈ fs, f.staticLength ≠ none) ∧ b = a + headsLength fs
  | [], a, b, h => by
    simp only [fieldsStaticLength_nil, Option.some.injEq] at h
    simp [h, headsLength]
  | f :: fs, a, b, h => by
    cases hf : f.staticLength with
    | none =>
      rw [fieldsStaticLength_cons, hf, fieldsStaticLength_none] at h
      cases h
    | some l =>
      rw [fieldsStaticLength_cons, hf] at h
      obtain ⟨hall, hb⟩ := fieldsStaticLength_eq_some fs (a + l) b h
      refine ⟨fun g hg => ?_, ?_⟩
      · rcases List.mem_cons.mp hg with rfl | hg
        · simp [hf]
        · exact hall g hg
      · simp [headsLength, hf] at hb ⊢
        omega

theorem exists_dynamic_of_fieldsStaticLength : ∀ (fs : List AbiType) (a : Nat),
    fieldsStaticLength fs (some a) = none → ∃ f ∈ fs, f.staticLength = none
  | [], a, h => by simp at h
  | f :: fs, a, h => by
    cases hf : f.staticLength with
    | none => exact ⟨f, List.mem_cons_self, hf⟩
    | some l =>
      rw [fieldsStaticLength_cons, hf] at h
      obtain ⟨g, hg, hgs⟩ := exists_dynamic_of_fieldsStaticLength fs (a + l) h
      exact ⟨g, List.mem_cons_of_mem f hg, hgs⟩

theorem decodes_of_some {t : AbiType} {v : AbiValue} {len : Nat} (hs : t.staticLength = some len)
    (hlen : (t.toAbi v).length = len) (hdec : t.fromAbi (t.toAbi v) = .ok v) : Decodes t v := by
  simpa [Decodes, hs] using ⟨hlen, hdec⟩

theorem decodes_of_none {t : AbiType} {v : AbiValue} (hs : t.staticLength = none)
    (hne : t.toAbi v ≠ []) (hdec : ∀ suffix, t.fromAbi (t.toAbi v ++ suffix) = .ok v) :
    Decodes t v := by
  simpa [Decodes, hs] using ⟨hne, hdec⟩

/-! The basic impls: each round trip is a computation on its 32 bytes. -/

theorem decodes_address (a : Address) : Decodes .address (.address a) := by
  have hlen : (toAbi .address (.address a)).length = 32 := by
    simp [a.length_eq]
  refine decodes_of_some rfl hlen ?_
  rw [fromAbi_address, dif_pos hlen]
  congr 2
  ext1
  simp [a.length_eq]

theorem decodes_u256 (x : U256) : Decodes .u256 (.u256 x) := by
  have hlen : (toAbi .u256 (.u256 x)).length = 32 := by
    simp
  refine decodes_of_some rfl hlen ?_
  have hx : ofBeBytes (beBytes 32 x.val) = x.val := ofBeBytes_beBytes_of_lt (by simp)
  rw [fromAbi_u256, abiRequire_of_true (beq_iff_eq.mpr hlen), ok_bind, toAbi_u256, hx,
    Fin.ofNat_val_eq_self]

theorem fixedBytesFromAbi_fixedBytesToAbi {n : Nat} (bs : FixedBytes n) :
    fixedBytesFromAbi n (fixedBytesToAbi n bs.bytes) = .ok bs := by
  have hlen : ¬ (fixedBytesToAbi n bs.bytes).length < n := by
    simp [fixedBytesToAbi, bs.length_eq]
  rw [fixedBytesFromAbi, dif_neg hlen]
  congr 1
  ext1
  simp [fixedBytesToAbi, ← bs.length_eq]

theorem length_fixedBytesToAbi {n : Nat} {bs : List UInt8} (hbs : bs.length = n) (hn : n ≤ 32) :
    (fixedBytesToAbi n bs).length = 32 := by
  simp [fixedBytesToAbi, hbs]
  omega

theorem decodes_h256 (h : H256) : Decodes .h256 (.h256 h) := by
  refine decodes_of_some rfl (length_fixedBytesToAbi h.length_eq le_rfl) ?_
  rw [fromAbi_h256, toAbi_h256, fixedBytesFromAbi_fixedBytesToAbi h, exceptMap_ok]

theorem decodes_bool (b : Bool) : Decodes .bool (.bool b) := by
  have hlen : (toAbi .bool (.bool b)).length = 32 := by
    simp
  refine decodes_of_some rfl hlen ?_
  rw [fromAbi_bool, abiRequire_of_true (beq_iff_eq.mpr hlen), ok_bind, toAbi_bool]
  cases b <;> rfl

theorem decodes_uint (ty : UIntType) {x : Nat} (hx : x < 256 ^ ty.byteCount) :
    Decodes (.uint ty) (.uint x) := by
  have hk : ty.byteCount ≤ 32 := by
    cases ty <;> decide
  have hlen : (toAbi (.uint ty) (.uint x)).length = 32 := by
    simp
    omega
  refine decodes_of_some rfl hlen ?_
  have hdrop : (toAbi (.uint ty) (.uint x)).drop (32 - ty.byteCount) = beBytes ty.byteCount x := by
    rw [toAbi_uint, List.drop_left' (by simp)]
  rw [fromAbi_uint, abiRequire_of_true (beq_iff_eq.mpr hlen), ok_bind, hdrop, ofBeBytes_beBytes_of_lt hx]

theorem decodes_fixedBytes {n : Nat} {bs : List UInt8} (hbs : bs.length = n) (hn : n ≤ 32) :
    Decodes (.fixedBytes n) (.fixedBytes bs) := by
  refine decodes_of_some rfl (length_fixedBytesToAbi hbs hn) ?_
  rw [fromAbi_fixedBytes, toAbi_fixedBytes, fixedBytesFromAbi_fixedBytesToAbi ⟨bs, hbs⟩, exceptMap_ok]

theorem bytesFromAbi_bytesToAbi {bs : List UInt8} (h : bs.length < 2 ^ 256) (suffix : List UInt8) :
    bytesFromAbi (bytesToAbi bs ++ suffix) = .ok bs := by
  have hlen : ofBeBytes (paddedBigEndian bs.length) = bs.length := ofBeBytes_paddedBigEndian h
  rw [bytesToAbi, List.append_assoc, List.append_assoc, bytesFromAbi,
    pullSlice_append (length_paddedBigEndian _), ok_bind]
  dsimp only
  rw [hlen, if_neg (by simp), List.take_left' rfl]

theorem bytesToAbi_ne_nil (bs : List UInt8) : bytesToAbi bs ≠ [] := by
  apply List.ne_nil_of_length_pos
  simp [bytesToAbi]

theorem decodes_bytes {bs : List UInt8} (h : bs.length < 2 ^ 64) : Decodes .bytes (.bytes bs) := by
  refine decodes_of_none rfl (bytesToAbi_ne_nil bs) fun suffix => ?_
  rw [fromAbi_bytes, toAbi_bytes, bytesFromAbi_bytesToAbi (lt_trans h (by norm_num)) suffix,
    exceptMap_ok]

theorem stringFromUtf8_toByteArray (s : String) :
    stringFromUtf8 s.toByteArray.data.toList = .ok s := by
  rw [stringFromUtf8, toByteArray_data_toList]
  simp only [String.fromUTF8?, s.isValidUTF8, dite_true]
  rfl

theorem decodes_string {s : String} (h : s.toByteArray.data.toList.length < 2 ^ 64) :
    Decodes .string (.string s) := by
  refine decodes_of_none rfl (bytesToAbi_ne_nil _) fun suffix => ?_
  rw [fromAbi_string, toAbi_string, bytesFromAbi_bytesToAbi (lt_trans h (by norm_num)) suffix,
    ok_bind, stringFromUtf8_toByteArray, exceptMap_ok]

/-! The list impls: a vector, an array and a struct are each one head/tail list of elements,
written by `fieldsWriteDown` and read by `fieldsFromAbi`. -/

/-- A list of elements that each decode round-trips through `abi_encode`'s writer, with the
pointer left at the tail section. -/
theorem fieldsFromAbi_abiEncode {ts : List AbiType} {vs : List AbiValue}
    (hd : List.Forall₂ Decodes ts vs) (suffix : List UInt8)
    (hlen : (abiEncode ts vs).length < 2 ^ 256) :
    fieldsFromAbi ts (abiEncode ts vs ++ suffix) (abiEncode ts vs ++ suffix) =
      .ok (vs, tails (parts ts vs) ++ suffix) := by
  have henc : abiEncode ts vs = layout (parts ts vs) :=
    intoLinkedBytes_fieldsWriteDown hd.length_eq (headSizes_parts hd)
  rw [henc] at hlen ⊢
  exact fieldsFromAbi_layout_parts hd suffix hlen

theorem length_abiEncode {ts : List AbiType} {vs : List AbiValue}
    (hd : List.Forall₂ Decodes ts vs) :
    (abiEncode ts vs).length = headsLength ts + tailSizes (parts ts vs) := by
  rw [abiEncode, intoLinkedBytes_fieldsWriteDown hd.length_eq (headSizes_parts hd), length_layout,
    headSizes_parts hd]

/-- Static elements leave nothing in the tail section. -/
theorem tailSizes_parts_of_static {ts : List AbiType} (h : ∀ t ∈ ts, t.staticLength ≠ none)
    (vs : List AbiValue) : tailSizes (parts ts vs) = 0 := by
  have hnil : tails (parts ts vs) = [] := by
    apply tails_eq_nil_of_static
    intro p hp
    obtain ⟨t, ht, v, rfl⟩ := exists_toPart_of_mem_parts hp
    simpa [toPart, Option.isSome_iff_ne_none] using h t ht
  rw [← length_tails, hnil, List.length_nil]

/-- A dynamic element leaves a 32-byte offset word in the head section. -/
theorem headsLength_ge_of_dynamic {ts : List AbiType} {t : AbiType} (ht : t ∈ ts)
    (hs : t.staticLength = none) : 32 ≤ headsLength ts := by
  have hmem : t.staticLength.getD 32 ∈ ts.map fun t => t.staticLength.getD 32 :=
    List.mem_map_of_mem ht
  rw [hs, Option.getD_none] at hmem
  exact List.le_sum_of_mem hmem

theorem abiEncode_ne_nil_of_dynamic {ts : List AbiType} {vs : List AbiValue}
    (hd : List.Forall₂ Decodes ts vs) {t : AbiType} (ht : t ∈ ts) (hs : t.staticLength = none) :
    abiEncode ts vs ≠ [] := by
  apply List.ne_nil_of_length_pos
  have := headsLength_ge_of_dynamic ht hs
  rw [length_abiEncode hd]
  omega

/-- The loop of `Vec<T>::to_abi` and `[T; N]::to_abi` is `abi_encode` of the items as a tuple
of one type. -/
theorem intoLinkedBytes_foldl_writeDown (t : AbiType) (items : List AbiValue) :
    (items.foldl (fun (w : ABIListWriter) item => w.writeDown t.staticLength (t.toAbi item))
        (ABIListWriter.withHeadsLength (t.staticLength.getD 32 * items.length))).intoLinkedBytes =
      abiEncode (List.replicate items.length t) items := by
  rw [foldl_writeDown, ← headsLength_replicate, abiEncode]

theorem toAbi_vec_eq_abiEncode (t : AbiType) (items : List AbiValue) :
    toAbi (.vec t) (.vec items) =
      paddedBigEndian items.length ++ abiEncode (List.replicate items.length t) items := by
  rw [toAbi_vec, intoLinkedBytes_foldl_writeDown]

theorem toAbi_array_eq_abiEncode (t : AbiType) {n : Nat} {items : List AbiValue}
    (hcount : items.length = n) :
    toAbi (.array t n) (.array items) = abiEncode (List.replicate n t) items := by
  subst hcount
  rw [toAbi_array, intoLinkedBytes_foldl_writeDown]

theorem toAbi_struct_eq_abiEncode (fields : List AbiType) (values : List AbiValue) :
    toAbi (.struct fields) (.struct values) = abiEncode fields values := by
  rw [toAbi_struct, abiEncode]

theorem decodes_vec {t : AbiType} {items : List AbiValue} (hd : ∀ v ∈ items, Decodes t v)
    (hcount : items.length < 2 ^ 256)
    (hlen : (abiEncode (List.replicate items.length t) items).length < 2 ^ 256) :
    Decodes (.vec t) (.vec items) := by
  have hne : toAbi (.vec t) (.vec items) ≠ [] := by
    apply List.ne_nil_of_length_pos
    simp [toAbi_vec_eq_abiEncode]
  refine decodes_of_none rfl hne fun suffix => ?_
  rw [fromAbi_vec, toAbi_vec_eq_abiEncode, List.append_assoc, pullSlice_append (length_paddedBigEndian _), ok_bind]
  dsimp only
  rw [ofBeBytes_paddedBigEndian hcount, readAbiListN_eq_fieldsFromAbi,
    fieldsFromAbi_abiEncode (forall₂_replicate hd) suffix hlen, exceptMap_ok]

/-- `[T; N]` is static exactly when `T` is, and a dynamic one holds `N ≥ 1` offset words. -/
theorem decodes_array {t : AbiType} {n : Nat} {items : List AbiValue} (hn : 1 ≤ n)
    (hcount : items.length = n) (hd : ∀ v ∈ items, Decodes t v)
    (hlen : (abiEncode (List.replicate n t) items).length < 2 ^ 256) :
    Decodes (.array t n) (.array items) := by
  have hfields : List.Forall₂ Decodes (List.replicate n t) items := hcount ▸ forall₂_replicate hd
  have hread : ∀ suffix, fromAbi (.array t n) (abiEncode (List.replicate n t) items ++ suffix) =
      .ok (.array items) := by
    intro suffix
    rw [fromAbi_array, readAbiListN_eq_fieldsFromAbi, fieldsFromAbi_abiEncode hfields suffix hlen,
      exceptMap_ok]
  cases hs : t.staticLength with
  | some len =>
    have hstatic : ∀ t' ∈ List.replicate n t, t'.staticLength ≠ none := by
      intro t' ht'
      rw [List.eq_of_mem_replicate ht', hs]
      simp
    refine decodes_of_some (by rw [staticLength_array, hs, Option.map_some]) ?_ ?_
    · rw [toAbi_array_eq_abiEncode t hcount, length_abiEncode hfields, tailSizes_parts_of_static hstatic,
        headsLength_replicate, hs, Option.getD_some, Nat.add_zero]
    · rw [toAbi_array_eq_abiEncode t hcount, ← List.append_nil (abiEncode _ _)]
      exact hread []
  | none =>
    have hmem : t ∈ List.replicate n t := List.mem_replicate.mpr ⟨by omega, rfl⟩
    refine decodes_of_none (by rw [staticLength_array, hs, Option.map_none]) ?_ fun suffix => ?_
    · rw [toAbi_array_eq_abiEncode t hcount]
      exact abiEncode_ne_nil_of_dynamic hfields hmem hs
    · rw [toAbi_array_eq_abiEncode t hcount]
      exact hread suffix

/-- A derived struct is static exactly when all its fields are. -/
theorem decodes_struct {fields : List AbiType} {values : List AbiValue}
    (hd : List.Forall₂ Decodes fields values) (hlen : (abiEncode fields values).length < 2 ^ 256) :
    Decodes (.struct fields) (.struct values) := by
  have hread : ∀ suffix, fromAbi (.struct fields) (abiEncode fields values ++ suffix) =
      .ok (.struct values) := by
    intro suffix
    rw [fromAbi_struct, fieldsFromAbi_abiEncode hd suffix hlen, exceptMap_ok]
  cases hs : fieldsStaticLength fields (some 0) with
  | some len =>
    obtain ⟨hstatic, hlen'⟩ := fieldsStaticLength_eq_some fields 0 len hs
    refine decodes_of_some (by rw [staticLength_struct, hs]) ?_ ?_
    · rw [toAbi_struct_eq_abiEncode, length_abiEncode hd, tailSizes_parts_of_static hstatic, hlen']
      omega
    · rw [toAbi_struct_eq_abiEncode, ← List.append_nil (abiEncode _ _)]
      exact hread []
  | none =>
    obtain ⟨f, hf, hfs⟩ := exists_dynamic_of_fieldsStaticLength fields 0 hs
    refine decodes_of_none (by rw [staticLength_struct, hs]) ?_ fun suffix => ?_
    · rw [toAbi_struct_eq_abiEncode]
      exact abiEncode_ne_nil_of_dynamic hd hf hfs
    · rw [toAbi_struct_eq_abiEncode]
      exact hread suffix

/-- An element of a vector or an array is no longer than the list it is written in. -/
theorem length_toAbi_lt_of_mem {t : AbiType} {items : List AbiValue} {v : AbiValue}
    (hv : v ∈ items) (hlen : (abiEncode (List.replicate items.length t) items).length < 2 ^ 256) :
    (t.toAbi v).length < 2 ^ 256 := by
  have hp : toPart t v ∈ parts (List.replicate items.length t) items := by
    rw [parts_replicate]
    exact List.mem_map_of_mem hv
  exact lt_of_le_of_lt (length_bytes_le_abiEncode (by simp) hp) hlen

mutual

/-- Every value of a type the crate implements decodes, by recursion on the type: the basic
impls directly, the list impls from their elements. -/
theorem decodes_of_hasType : ∀ (t : AbiType) (v : AbiValue), t.isValid = true → HasType v t →
    (t.toAbi v).length < 2 ^ 256 → Decodes t v
  | .address, _, _, .address a, _ => decodes_address a
  | .u256, _, _, .u256 x, _ => decodes_u256 x
  | .h256, _, _, .h256 h, _ => decodes_h256 h
  | .bool, _, _, .bool b, _ => decodes_bool b
  | .uint ty, _, _, .uint _ hx, _ => decodes_uint ty hx
  | .fixedBytes n, _, hvalid, .fixedBytes _ hbs, _ => by
    simp only [isValid_fixedBytes, Bool.and_eq_true, decide_eq_true_eq] at hvalid
    exact decodes_fixedBytes hbs hvalid.2
  | .bytes, _, _, .bytes h, _ => decodes_bytes h
  | .string, _, _, .string h, _ => decodes_string h
  | .vec t, .vec items, hvalid, .vec hcount htyped, hbound => by
    rw [isValid_vec] at hvalid
    have hlen : (abiEncode (List.replicate items.length t) items).length < 2 ^ 256 := by
      rw [toAbi_vec_eq_abiEncode, List.length_append] at hbound
      omega
    refine decodes_vec (fun v hv => ?_) (lt_trans hcount (by norm_num)) hlen
    exact decodes_of_hasType t v hvalid (htyped v hv) (length_toAbi_lt_of_mem hv hlen)
  | .array t n, .array items, hvalid, .array _ hcount htyped, hbound => by
    simp only [isValid_array, Bool.and_eq_true, decide_eq_true_eq] at hvalid
    rw [toAbi_array_eq_abiEncode t hcount] at hbound
    subst hcount
    refine decodes_array hvalid.1 rfl (fun v hv => ?_) hbound
    exact decodes_of_hasType t v hvalid.2 (htyped v hv) (length_toAbi_lt_of_mem hv hbound)
  | .struct fields, .struct values, hvalid, .struct htyped, hbound => by
    rw [isValid_struct] at hvalid
    rw [toAbi_struct_eq_abiEncode] at hbound
    refine decodes_struct (fieldsDecodes fields values hvalid htyped fun p hp => ?_) hbound
    exact lt_of_le_of_lt (length_bytes_le_abiEncode htyped.length_eq hp) hbound

/-- Field after field, the values of a struct's or a tuple's types decode. -/
theorem fieldsDecodes : ∀ (fs : List AbiType) (vs : List AbiValue), fieldsValid fs = true →
    FieldsHaveTypes vs fs → (∀ p ∈ parts fs vs, p.bytes.length < 2 ^ 256) →
    List.Forall₂ Decodes fs vs
  | [], [], _, _, _ => .nil
  | f :: fs, v :: vs, hvalid, .cons hv hvs, hbound => by
    simp only [fieldsValid_cons, Bool.and_eq_true] at hvalid
    refine .cons (decodes_of_hasType f v hvalid.1 hv (hbound (toPart f v) (by simp))) ?_
    exact fieldsDecodes fs vs hvalid.2 hvs fun p hp => hbound p (by simp [hp])

end

end AbiType

/-- `abi_decode` reads back a list of elements that each decode. -/
theorem abiDecode_abiEncode_of_forall₂ {ts : List AbiType} {vs : List AbiValue}
    (hd : List.Forall₂ AbiType.Decodes ts vs) (hlen : (abiEncode ts vs).length < 2 ^ 256) :
    abiDecode ts (abiEncode ts vs) = .ok vs := by
  have hread := AbiType.fieldsFromAbi_abiEncode hd [] hlen
  rw [List.append_nil] at hread
  rw [abiDecode, hread, exceptMap_ok]

/-- Elements of the types the crate implements decode, once their encoding is a `Vec<u8>`. -/
theorem forall₂_decodes_of_hasType {ts : List AbiType} {vs : List AbiValue}
    (hvalid : AbiType.fieldsValid ts = true) (htyped : FieldsHaveTypes vs ts)
    (hlen : (abiEncode ts vs).length < 2 ^ 256) : List.Forall₂ AbiType.Decodes ts vs :=
  AbiType.fieldsDecodes ts vs hvalid htyped fun _ hp =>
    lt_of_le_of_lt (AbiType.length_bytes_le_abiEncode htyped.length_eq hp) hlen

/-- `abi_decode` inverts `abi_encode`, for a value and for a tuple, at every type the crate
implements; an encoding is a `Vec<u8>`, shorter than `2 ^ 64`. -/
theorem abiDecode_abiEncode (ts : List AbiType) (vs : List AbiValue)
    (hvalid : AbiType.fieldsValid ts = true) (htyped : FieldsHaveTypes vs ts)
    (hlen : (abiEncode ts vs).length < 2 ^ 64) : abiDecode ts (abiEncode ts vs) = .ok vs := by
  have hlen' : (abiEncode ts vs).length < 2 ^ 256 := lt_trans hlen (by norm_num)
  exact abiDecode_abiEncode_of_forall₂ (forall₂_decodes_of_hasType hvalid htyped hlen') hlen'

/-- `test_vector_in_vector`: the `Vec<Vec<U256>>` of the crate's tests. -/
theorem abiDecode_abiEncode_vectorInVector :
    AbiType.fieldsValid [.vec (.vec .u256)] = true ∧
      FieldsHaveTypes [.vec [.vec [.u256 17, .u256 18], .vec [.u256 19, .u256 20, .u256 21]]]
        [.vec (.vec .u256)] ∧
      (abiEncode [.vec (.vec .u256)]
        [.vec [.vec [.u256 17, .u256 18], .vec [.u256 19, .u256 20, .u256 21]]]).length < 2 ^ 64 ∧
      abiDecode [.vec (.vec .u256)]
          (abiEncode [.vec (.vec .u256)]
            [.vec [.vec [.u256 17, .u256 18], .vec [.u256 19, .u256 20, .u256 21]]]) =
        .ok [.vec [.vec [.u256 17, .u256 18], .vec [.u256 19, .u256 20, .u256 21]]] := by
  have hvalid : AbiType.fieldsValid [.vec (.vec .u256)] = true := by decide
  have htyped : FieldsHaveTypes [.vec [.vec [.u256 17, .u256 18], .vec [.u256 19, .u256 20, .u256 21]]]
      [.vec (.vec .u256)] := by
    refine .cons (.vec (by decide) fun item hitem => ?_) .nil
    simp only [List.mem_cons, List.not_mem_nil, or_false] at hitem
    rcases hitem with rfl | rfl
    · exact .vec (by decide) fun x hx => by
        simp only [List.mem_cons, List.not_mem_nil, or_false] at hx
        rcases hx with rfl | rfl <;> exact .u256 _
    · exact .vec (by decide) fun x hx => by
        simp only [List.mem_cons, List.not_mem_nil, or_false] at hx
        rcases hx with rfl | rfl | rfl <;> exact .u256 _
  have hlen : (abiEncode [.vec (.vec .u256)]
      [.vec [.vec [.u256 17, .u256 18], .vec [.u256 19, .u256 20, .u256 21]]]).length < 2 ^ 64 := by
    decide +kernel
  exact ⟨hvalid, htyped, hlen, abiDecode_abiEncode _ _ hvalid htyped hlen⟩

end Hemvm.SolidityAbi
