import Mathlib.Data.List.Basic

/-!
# Ordered sets with a comparator that may fault

An ordered set as the list of its elements in order. The comparator is a
computation: it may fault, which is what happens when it has to look
through a null pointer. `insertM` is insertion in order, an element that is
neither less nor greater than one already there being dropped, and
`insertAllM` a run of insertions.

Inserting into an empty set compares nothing. That is the one way a value
on which the comparator faults can get in.

- `insertM_perm` — all that an insertion does to the elements;
- `ordered_insertM` — insertion keeps the order, from transitivity alone;
- `Ordered.ext` — two ordered lists of the same elements are the same;
- `insertAllM_ordered` — elements that arrive in order are all kept, in order;
- `insertAllM_ok` — no fault on elements the comparator accepts;
- `insertM_fault` — no fault but those of the comparator.
-/

namespace Wire

variable {ε α : Type} (less : α → α → Except ε Bool)

/-- Insert an element in order; an equivalent element already there stays. -/
def insertM (x : α) : List α → Except ε (List α)
  | [] => .ok [x]
  | y :: ys => do
    if ← less x y then return x :: y :: ys
    if ← less y x then return y :: (← insertM x ys)
    return y :: ys

/-- Insert the elements of a list one after the other. -/
def insertAllM : List α → List α → Except ε (List α)
  | [], s => .ok s
  | x :: xs, s => do
    let s ← insertM less x s
    insertAllM xs s

/-- Every element is less than every later one. -/
def Ordered (l : List α) : Prop := l.Pairwise fun a b => less a b = .ok true

variable {less}

/-! ## One insertion -/

/-- The ways an insertion into a nonempty set can end. -/
theorem insertM_cons_cases {x y : α} {ys l : List α} (h : insertM less x (y :: ys) = .ok l) :
    (less x y = .ok true ∧ l = x :: y :: ys) ∨
    (less x y = .ok false ∧ less y x = .ok true ∧
      ∃ l', insertM less x ys = .ok l' ∧ l = y :: l') ∨
    (less x y = .ok false ∧ less y x = .ok false ∧ l = y :: ys) := by
  unfold insertM at h
  cases hxy : less x y with
  | error e => rw [hxy] at h; cases h
  | ok r =>
    cases r with
    | true => rw [hxy] at h; cases h; exact .inl ⟨rfl, rfl⟩
    | false =>
      rw [hxy] at h
      cases hyx : less y x with
      | error e => rw [hyx] at h; cases h
      | ok r' =>
        cases r' with
        | true =>
          rw [hyx] at h
          cases hrest : insertM less x ys with
          | error e => rw [hrest] at h; cases h
          | ok l' => rw [hrest] at h; cases h; exact .inr (.inl ⟨rfl, rfl, l', rfl, rfl⟩)
        | false => rw [hyx] at h; cases h; exact .inr (.inr ⟨rfl, rfl, rfl⟩)

/-- An insertion adds the element, or finds an equivalent one and changes
nothing. -/
theorem insertM_perm {x : α} : ∀ {s l : List α}, insertM less x s = .ok l →
    l.Perm (x :: s) ∨ (l = s ∧ ∃ y ∈ s, less x y = .ok false ∧ less y x = .ok false)
  | [], _, h => by
    cases h
    exact .inl (List.Perm.refl _)
  | y :: ys, l, h => by
    rcases insertM_cons_cases h with ⟨-, rfl⟩ | ⟨-, -, l', hrest, rfl⟩ | ⟨hxy, hyx, rfl⟩
    · exact .inl (List.Perm.refl _)
    · rcases insertM_perm hrest with hperm | ⟨rfl, z, hz, hless⟩
      · exact .inl ((hperm.cons y).trans (List.Perm.swap x y ys))
      · exact .inr ⟨rfl, z, List.mem_cons_of_mem _ hz, hless⟩
    · exact .inr ⟨rfl, y, List.mem_cons_self, hxy, hyx⟩

variable {x : α} {s l : List α}

/-- Nothing but the inserted element is new. -/
theorem mem_of_mem_insertM (h : insertM less x s = .ok l) : ∀ a ∈ l, a = x ∨ a ∈ s := by
  intro a ha
  rcases insertM_perm h with hperm | ⟨rfl, -⟩
  · exact List.mem_cons.mp (hperm.mem_iff.mp ha)
  · exact .inr ha

/-- Everything that was there stays. -/
theorem mem_insertM_of_mem (h : insertM less x s = .ok l) : ∀ a ∈ s, a ∈ l := by
  intro a ha
  rcases insertM_perm h with hperm | ⟨rfl, -⟩
  · exact hperm.mem_iff.mpr (List.mem_cons_of_mem _ ha)
  · exact ha

/-- The inserted element is in, unless an equivalent one was. -/
theorem mem_insertM_self (h : insertM less x s = .ok l) :
    x ∈ l ∨ ∃ y ∈ s, less x y = .ok false ∧ less y x = .ok false := by
  rcases insertM_perm h with hperm | ⟨-, found⟩
  · exact .inl (hperm.mem_iff.mpr List.mem_cons_self)
  · exact .inr found

/-- An insertion adds one element at most. -/
theorem insertM_length_le (h : insertM less x s = .ok l) : l.length ≤ s.length + 1 := by
  rcases insertM_perm h with hperm | ⟨rfl, -⟩
  · exact Nat.le_of_eq hperm.length_eq
  · exact Nat.le_succ _

/-- Insertion keeps the order. -/
theorem ordered_insertM
    (trans : ∀ a b c, less a b = .ok true → less b c = .ok true → less a c = .ok true) {x : α} :
    ∀ {s l : List α}, Ordered less s → insertM less x s = .ok l → Ordered less l
  | [], l, _, h => by
    cases h
    exact List.pairwise_singleton _ _
  | y :: ys, l, ho, h => by
    obtain ⟨hy, hys⟩ := List.pairwise_cons.mp ho
    rcases insertM_cons_cases h with ⟨hxy, rfl⟩ | ⟨-, hyx, l', hrest, rfl⟩ | ⟨-, -, rfl⟩
    · refine List.pairwise_cons.mpr ⟨fun a ha => ?_, ho⟩
      rcases List.mem_cons.mp ha with rfl | ha
      · exact hxy
      · exact trans _ _ _ hxy (hy a ha)
    · refine List.pairwise_cons.mpr ⟨fun a ha => ?_, ordered_insertM trans hys hrest⟩
      rcases mem_of_mem_insertM hrest a ha with rfl | hm
      · exact hyx
      · exact hy a hm
    · exact ho

/-- An element greater than every other goes to the end. -/
theorem insertM_last {x : α} : ∀ {s : List α},
    (∀ y ∈ s, less x y = .ok false ∧ less y x = .ok true) → insertM less x s = .ok (s ++ [x])
  | [], _ => rfl
  | y :: ys, h => by
    obtain ⟨hxy, hyx⟩ := h y List.mem_cons_self
    have hrest := insertM_last fun z hz => h z (List.mem_cons_of_mem _ hz)
    simp only [insertM, hxy, hyx, hrest]
    rfl

/-- An insertion among elements the comparator accepts does not fault. -/
theorem insertM_ok {P : α → Prop} (total : ∀ a b, P a → P b → ∃ r, less a b = .ok r) {x : α}
    (hx : P x) : ∀ {s : List α}, (∀ y ∈ s, P y) → ∃ l, insertM less x s = .ok l
  | [], _ => ⟨[x], rfl⟩
  | y :: ys, h => by
    obtain ⟨r, hr⟩ := total x y hx (h y List.mem_cons_self)
    obtain ⟨r', hr'⟩ := total y x (h y List.mem_cons_self) hx
    obtain ⟨l, hl⟩ := insertM_ok total hx fun z hz => h z (List.mem_cons_of_mem _ hz)
    cases r <;> cases r' <;> simp only [insertM, hr, hr', hl] <;> exact ⟨_, rfl⟩

/-- An insertion faults only where the comparator does. -/
theorem insertM_fault {E : ε → Prop} (fault : ∀ a b e, less a b = .error e → E e) {x : α} {e : ε} :
    ∀ {s : List α}, insertM less x s = .error e → E e
  | [], h => by cases h
  | y :: ys, h => by
    cases hxy : less x y with
    | error e' =>
      rw [insertM, hxy] at h
      cases h
      exact fault _ _ _ hxy
    | ok r =>
      cases r with
      | true => rw [insertM, hxy] at h; cases h
      | false =>
        cases hyx : less y x with
        | error e' =>
          rw [insertM, hxy, hyx] at h
          cases h
          exact fault _ _ _ hyx
        | ok r' =>
          cases r' with
          | false => rw [insertM, hxy, hyx] at h; cases h
          | true =>
            cases hrest : insertM less x ys with
            | error e' =>
              rw [insertM, hxy, hyx, hrest] at h
              cases h
              exact insertM_fault fault hrest
            | ok l => rw [insertM, hxy, hyx, hrest] at h; cases h

/-! ## Order -/

/-- No element occurs twice. -/
theorem Ordered.nodup (asymm : ∀ a b, less a b = .ok true → less b a = .ok false) {l : List α}
    (h : Ordered less l) : l.Nodup := by
  refine h.imp ?_
  rintro a _ hless rfl
  have hfalse := asymm _ _ hless
  rw [hless] at hfalse
  cases hfalse

/-- The order is all there is beyond the elements. -/
theorem Ordered.ext (asymm : ∀ a b, less a b = .ok true → less b a = .ok false) {l l' : List α}
    (h : Ordered less l) (h' : Ordered less l') (same : ∀ a, a ∈ l ↔ a ∈ l') : l = l' := by
  have perm := (List.perm_ext_iff_of_nodup (h.nodup asymm) (h'.nodup asymm)).mpr same
  refine perm.eq_of_pairwise (fun a b _ _ hab hba => ?_) h h'
  have hfalse := asymm _ _ hab
  rw [hba] at hfalse
  cases hfalse

/-! ## Runs of insertions -/

theorem insertAllM_cons {x : α} {xs s s' : List α} (h : insertM less x s = .ok s') :
    insertAllM less (x :: xs) s = insertAllM less xs s' := by
  rw [insertAllM, h]
  rfl

/-- Elements that arrive in order, all behind those already there, are all
kept in the order of arrival. -/
theorem insertAllM_ordered
    (asymm : ∀ a b, less a b = .ok true → less b a = .ok false) :
    ∀ {xs s : List α}, Ordered less (s ++ xs) → insertAllM less xs s = .ok (s ++ xs)
  | [], s, _ => by rw [List.append_nil]; rfl
  | x :: xs, s, h => by
    have before : ∀ y ∈ s, less y x = .ok true := fun y hy =>
      (List.pairwise_append.mp h).2.2 y hy x List.mem_cons_self
    have last := insertM_last fun y hy => ⟨asymm y x (before y hy), before y hy⟩
    have shifted : Ordered less ((s ++ [x]) ++ xs) := by
      simpa only [List.append_assoc, List.singleton_append] using h
    rw [insertAllM_cons last, insertAllM_ordered asymm shifted, List.append_assoc,
      List.singleton_append]

/-- Everything that was there stays. -/
theorem mem_insertAllM_of_mem : ∀ {xs s l : List α}, insertAllM less xs s = .ok l →
    ∀ a ∈ s, a ∈ l
  | [], _, _, h, _, ha => by
    cases h
    exact ha
  | x :: xs, s, l, h, a, ha => by
    cases hx : insertM less x s with
    | error e => rw [insertAllM, hx] at h; cases h
    | ok s' =>
      rw [insertAllM_cons hx] at h
      exact mem_insertAllM_of_mem h a (mem_insertM_of_mem hx a ha)

/-- Nothing but the inserted elements is new. -/
theorem mem_of_mem_insertAllM : ∀ {xs s l : List α}, insertAllM less xs s = .ok l →
    ∀ a ∈ l, a ∈ xs ∨ a ∈ s
  | [], _, _, h, _, ha => by
    cases h
    exact .inr ha
  | x :: xs, s, l, h, a, ha => by
    cases hx : insertM less x s with
    | error e => rw [insertAllM, hx] at h; cases h
    | ok s' =>
      rw [insertAllM_cons hx] at h
      rcases mem_of_mem_insertAllM h a ha with hm | hm
      · exact .inl (List.mem_cons_of_mem _ hm)
      · rcases mem_of_mem_insertM hx a hm with rfl | hs
        · exact .inl List.mem_cons_self
        · exact .inr hs

theorem insertAllM_length_le : ∀ {xs s l : List α}, insertAllM less xs s = .ok l →
    l.length ≤ s.length + xs.length
  | [], _, _, h => by
    cases h
    exact Nat.le_refl _
  | x :: xs, s, l, h => by
    cases hx : insertM less x s with
    | error e => rw [insertAllM, hx] at h; cases h
    | ok s' =>
      rw [insertAllM_cons hx] at h
      have rest := insertAllM_length_le h
      have first := insertM_length_le hx
      rw [List.length_cons]
      omega

theorem ordered_insertAllM
    (trans : ∀ a b c, less a b = .ok true → less b c = .ok true → less a c = .ok true) :
    ∀ {xs s l : List α}, Ordered less s → insertAllM less xs s = .ok l → Ordered less l
  | [], s, l, ho, h => by
    cases h
    exact ho
  | x :: xs, s, l, ho, h => by
    cases hx : insertM less x s with
    | error e => rw [insertAllM, hx] at h; cases h
    | ok s' =>
      rw [insertAllM_cons hx] at h
      exact ordered_insertAllM trans (ordered_insertM trans ho hx) h

/-- A run of insertions of elements the comparator accepts does not fault,
and puts nothing else in. -/
theorem insertAllM_ok {P : α → Prop} (total : ∀ a b, P a → P b → ∃ r, less a b = .ok r) :
    ∀ {xs s : List α}, (∀ x ∈ xs, P x) → (∀ y ∈ s, P y) →
      ∃ l, insertAllM less xs s = .ok l ∧ ∀ y ∈ l, P y
  | [], s, _, hs => ⟨s, rfl, hs⟩
  | x :: xs, s, hxs, hs => by
    have hx := hxs x List.mem_cons_self
    obtain ⟨s', hs'⟩ := insertM_ok total hx hs
    have hall : ∀ y ∈ s', P y := by
      intro y hy
      rcases mem_of_mem_insertM hs' y hy with rfl | hm
      · exact hx
      · exact hs y hm
    rw [insertAllM_cons hs']
    exact insertAllM_ok total (fun z hz => hxs z (List.mem_cons_of_mem _ hz)) hall

end Wire
