import Mathlib

/-! Rules for computations in `Except`: running a bind past a success or a failure, taking a
successful bind apart, and a loop of checks that succeeds exactly when each check does.
Nothing here is specific to one program. -/
namespace Control

variable {ε α β : Type}

@[simp] theorem ok_bind (x : α) (f : α → Except ε β) : (Except.ok x >>= f) = f x := rfl

@[simp] theorem error_bind (e : ε) (f : α → Except ε β) :
    (Except.error e >>= f : Except ε β) = Except.error e := rfl

@[simp] theorem map_ok (f : α → β) (x : α) :
    (f <$> (Except.ok x : Except ε α)) = Except.ok (f x) := rfl

@[simp] theorem exceptMap_ok (f : α → β) (x : α) :
    Except.map f (Except.ok x : Except ε α) = Except.ok (f x) := rfl

/-- A bind succeeds exactly when its first computation does and the continuation succeeds on
that value. -/
theorem bind_eq_ok_iff {x : Except ε α} {f : α → Except ε β} {b : β} :
    (x >>= f) = .ok b ↔ ∃ a, x = .ok a ∧ f a = .ok b := by
  cases x with
  | error e => simp
  | ok a => simp

/-- A bind succeeds when its first computation does and the continuation always does. -/
theorem exists_bind_eq_ok {x : Except ε α} {f : α → Except ε β} (hx : ∃ a, x = .ok a)
    (hf : ∀ a, ∃ b, f a = .ok b) : ∃ b, (x >>= f) = .ok b := by
  obtain ⟨a, rfl⟩ := hx
  exact hf a

/-- A map succeeds exactly when the computation it maps does. -/
theorem map_eq_ok_iff {x : Except ε α} {f : α → β} {b : β} :
    Except.map f x = .ok b ↔ ∃ a, x = .ok a ∧ f a = b := by
  cases x with
  | error e => simp [Except.map]
  | ok a => simp [Except.map]

/-- `for x in xs { f(x)?; }`: the loop succeeds exactly when every check does. -/
theorem forM_eq_ok_iff (xs : List α) (f : α → Except ε Unit) :
    forM xs f = .ok () ↔ ∀ x ∈ xs, f x = .ok () := by
  induction xs with
  | nil => exact ⟨fun _ _ h => absurd h List.not_mem_nil, fun _ => rfl⟩
  | cons x xs ih =>
    rw [List.forM_cons, bind_eq_ok_iff, List.forall_mem_cons, ← ih]
    constructor
    · rintro ⟨⟨⟩, hx, hs⟩
      exact ⟨hx, hs⟩
    · rintro ⟨hx, hs⟩
      exact ⟨_, hx, hs⟩

/-- A monadic map whose every step succeeds computes the plain map. -/
theorem mapM_eq_ok_of_forall {f : α → Except ε β} {g : α → β} :
    ∀ (xs : List α), (∀ x ∈ xs, f x = .ok (g x)) → xs.mapM f = .ok (xs.map g)
  | [], _ => rfl
  | x :: xs, h => by
    rw [List.mapM_cons, h x List.mem_cons_self, ok_bind,
      mapM_eq_ok_of_forall xs fun y hy => h y (List.mem_cons_of_mem x hy)]
    rfl

/-- A monadic filter-map whose every step succeeds computes the plain filter-map. -/
theorem filterMapM_eq_ok_of_forall {f : α → Except ε (Option β)} {g : α → Option β} :
    ∀ (xs : List α), (∀ x ∈ xs, f x = .ok (g x)) → xs.filterMapM f = .ok (xs.filterMap g)
  | [], _ => rfl
  | x :: xs, h => by
    have ih := filterMapM_eq_ok_of_forall xs fun y hy => h y (List.mem_cons_of_mem x hy)
    rw [List.filterMapM_cons, h x List.mem_cons_self, ok_bind, List.filterMap_cons]
    cases g x with
    | none => exact ih
    | some b =>
      rw [ih]
      rfl

/-- A monadic fold whose every step succeeds computes the plain fold. -/
theorem foldlM_eq_ok_of_forall {f : β → α → Except ε β} {g : β → α → β}
    (h : ∀ b a, f b a = .ok (g b a)) : ∀ (xs : List α) (b : β), xs.foldlM f b = .ok (xs.foldl g b)
  | [], _ => rfl
  | x :: xs, b => by
    rw [List.foldlM_cons, h b x, ok_bind, foldlM_eq_ok_of_forall h xs]
    rfl

/-- A monadic fold succeeds when every step from the invariant of the elements folded so far
succeeds and extends it to one more element; the invariant then holds of the whole list. -/
theorem foldlM_eq_ok_of_step {f : β → α → Except ε β} {xs : List α} (I : List α → β → Prop)
    (hstep : ∀ done x rest b, done ++ x :: rest = xs → I done b →
      ∃ b', f b x = .ok b' ∧ I (done ++ [x]) b')
    {b : β} (hb : I [] b) : ∃ b', xs.foldlM f b = .ok b' ∧ I xs b' := by
  -- the fold over what is left, from the invariant of what is done
  suffices h : ∀ ys done b, done ++ ys = xs → I done b → ∃ b', ys.foldlM f b = .ok b' ∧ I xs b' from
    h xs [] b rfl hb
  intro ys
  induction ys with
  | nil =>
    intro done b hdone hI
    rw [List.append_nil] at hdone
    exact ⟨b, rfl, hdone ▸ hI⟩
  | cons y ys ih =>
    intro done b hdone hI
    obtain ⟨b', hf, hI'⟩ := hstep done y ys b hdone hI
    rw [List.foldlM_cons, hf, ok_bind]
    exact ih (done ++ [y]) b' (by rw [List.append_assoc, List.singleton_append, hdone]) hI'

/-- A monadic map that succeeds succeeds at each element. -/
theorem ok_of_mapM_eq_ok {f : α → Except ε β} :
    ∀ {xs : List α} {ys : List β}, xs.mapM f = .ok ys → ∀ x ∈ xs, ∃ y, f x = .ok y
  | [], _, _ => by simp
  | x :: xs, ys, h => by
    rw [List.mapM_cons] at h
    obtain ⟨y, hx, hrest⟩ := bind_eq_ok_iff.mp h
    obtain ⟨zs, hzs, -⟩ := bind_eq_ok_iff.mp hrest
    intro x' hx'
    rcases List.mem_cons.mp hx' with rfl | hmem
    · exact ⟨y, hx⟩
    · exact ok_of_mapM_eq_ok hzs x' hmem

/-- A monadic filter-map that succeeds succeeds at each element. -/
theorem ok_of_filterMapM_eq_ok {f : α → Except ε (Option β)} :
    ∀ {xs : List α} {ys : List β}, xs.filterMapM f = .ok ys → ∀ x ∈ xs, ∃ y, f x = .ok y
  | [], _, _ => by simp
  | x :: xs, ys, h => by
    rw [List.filterMapM_cons] at h
    obtain ⟨y, hx, hrest⟩ := bind_eq_ok_iff.mp h
    intro x' hx'
    rcases List.mem_cons.mp hx' with rfl | hmem
    · exact ⟨y, hx⟩
    · cases y with
      | none => exact ok_of_filterMapM_eq_ok hrest x' hmem
      | some b =>
        obtain ⟨zs, hzs, -⟩ := bind_eq_ok_iff.mp hrest
        exact ok_of_filterMapM_eq_ok hzs x' hmem

end Control
