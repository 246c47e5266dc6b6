import Qblock.Wire.Slots
import Qblock.Laws.Sets

/-!
# Sets as maps

What an ordered set of pointers is for does not depend on its order: it is a
map from keys to elements, in which the first element of a key stays.
`PSet.slots` is that map. Insertions are insertions into the map, a search
reads it, and it tells the set.

`orderList` sorts a vector by the same keys, and leaves of a vector with no
key twice the elements of the set.
-/

namespace Qblock

open Wire Qt

/-! ## Sets as maps -/

namespace PSet

section Slots

variable {T : Type} [Keyed T] {s s' : PSet T} {x y : T} {k : Keyed.Key T}

/-- None of the pointers of a set is null. -/
def There (s : PSet T) : Prop := ∀ p ∈ s.elems, p.isSome

open Classical in
/-- What a set is for: its elements by their keys. -/
noncomputable def slots (s : PSet T) : Slots (Keyed.key : T → Keyed.Key T) where
  under k := if h : ∃ y, some y ∈ s.elems ∧ Keyed.key y = k then some h.choose else none
  keyed k y h := by
    split at h
    · next found =>
      cases h
      exact found.choose_spec.2
    · cases h

open Classical in
theorem under_slots : s.slots.under k = some y ↔ some y ∈ s.elems ∧ Keyed.key y = k := by
  constructor
  · intro h
    refine ⟨?_, s.slots.keyed k y h⟩
    simp only [slots] at h
    split at h
    · next found =>
      cases h
      exact found.choose_spec.1
    · cases h
  · intro h
    have found : ∃ y, some y ∈ s.elems ∧ Keyed.key y = k := ⟨y, h⟩
    have same := eq_of_key_eq found.choose_spec.1 h.1 (found.choose_spec.2.trans h.2.symm)
    show dite _ _ _ = some y
    rw [dif_pos found, same]

theorem under_slots_eq_none : s.slots.under k = none ↔ ¬ s.HasKey k := by
  rw [Option.eq_none_iff_forall_ne_some]
  simp only [ne_eq, under_slots, HasKey, not_exists]

theorem slots_empty : (empty : PSet T).slots = .empty := by
  ext k : 2
  refine under_slots_eq_none.mpr fun found => ?_
  obtain ⟨y, hy, -⟩ := found
  exact List.not_mem_nil hy

/-- An insertion puts the element under its key. -/
theorem slots_insert (h : s.insert (some x) = .ok s') : s'.slots = s.slots.put x := by
  ext k y : 3
  rw [under_slots, mem_insert h]
  by_cases hx : Keyed.key x = k
  · subst hx
    cases free : s.slots.under (Keyed.key x) with
    | none =>
      have absent := under_slots_eq_none.mp free
      rw [Slots.under_put_self free, Option.some_inj]
      constructor
      · intro both
        rcases both with ⟨hy | ⟨-, rfl⟩, hkey⟩
        · exact absurd ⟨y, hy, hkey⟩ absent
        · rfl
      · intro heq
        subst heq
        exact ⟨.inr ⟨absent, rfl⟩, rfl⟩
    | some z =>
      have there := under_slots.mp free
      rw [Slots.under_put_of_some free, ← free, under_slots]
      refine and_congr_left fun _ => or_iff_left fun hnew => ?_
      exact hnew.1 ⟨z, there⟩
  · rw [Slots.under_put_of_ne hx, under_slots]
    refine and_congr_left fun hkey => or_iff_left fun hnew => ?_
    exact hx (hnew.2 ▸ hkey)

theorem There.insert (there : s.There) (h : s.insert (some x) = .ok s') : s'.There := by
  intro p hp
  rcases mem_of_mem_insert h hp with rfl | hp
  · rfl
  · exact there p hp

/-- An insertion into a set without null pointers answers with such a set. -/
theorem There.insert_ok (there : s.There) (x : T) :
    ∃ s', s.insert (some x) = .ok s' ∧ s'.There ∧ s'.slots = s.slots.put x := by
  obtain ⟨s', h⟩ := PSet.insert_ok (x := x) there
  exact ⟨s', h, there.insert h, slots_insert h⟩

/-- A set is told by what is under each key. -/
theorem There.ext (there : s.There) (there' : s'.There) (h : s.slots = s'.slots) : s = s' := by
  have mem : ∀ y, some y ∈ s.elems ↔ some y ∈ s'.elems := by
    intro y
    have left := under_slots (s := s) (y := y) (k := Keyed.key y)
    have right := under_slots (s := s') (y := y) (k := Keyed.key y)
    rw [and_iff_left rfl] at left right
    rw [← left, ← right, h]
  refine PSet.ext (s.ordered.ext ptrLess_asymm s'.ordered fun p => ?_)
  cases p with
  | none => exact iff_of_false (fun hp => nomatch there _ hp) fun hp => nomatch there' _ hp
  | some y => exact mem y

/-- A search by key finds what is under it. -/
theorem There.findIf (there : s.There) {pred : T → Bool}
    (hpred : ∀ x, pred x = true ↔ Keyed.key x = k) :
    findIf pred s.elems = .ok (s.slots.under k) := by
  obtain ⟨ys, hys, -⟩ := exists_increasing there
  rw [hys, findIf_map_some]
  congr 1
  have mem : ∀ y, y ∈ ys ↔ some y ∈ s.elems := fun y => by
    rw [hys, List.mem_map_of_injective (Option.some_injective T)]
  cases found : ys.find? pred with
  | none =>
    refine (under_slots_eq_none.mpr fun present => ?_).symm
    obtain ⟨y, hy, hkey⟩ := present
    exact List.find?_eq_none.mp found y ((mem y).mpr hy) ((hpred y).mpr hkey)
  | some y =>
    have hy := (mem y).mp (List.mem_of_find?_eq_some found)
    exact (under_slots.mpr ⟨hy, (hpred y).mp (List.find?_some found)⟩).symm

end Slots

end PSet

/-! ## Ordered vectors -/

section Vectors

variable {T : Type} [Keyed T] {xs ys : List T} {s : PSet T}

/-- A set built from a list is the map of the list. -/
theorem PSet.slots_collected {s₀ : PSet T} (h : insertAll (xs.map some) s₀ = .ok s) :
    s.slots = s₀.slots.putAll xs := by
  induction xs generalizing s₀ with
  | nil =>
    cases h
    rfl
  | cons x xs ih =>
    obtain ⟨s₁, hx, hxs⟩ := bind_eq_ok.mp h
    rw [ih hxs, slots_insert hx, Slots.putAll]

/-- A set built from a list has the keys of the list. -/
theorem PSet.hasKey_collected (h : insertAll (xs.map some) .empty = .ok s) (k : Keyed.Key T) :
    s.HasKey k ↔ ∃ x ∈ xs, Keyed.key x = k := by
  rw [← not_iff_not, ← under_slots_eq_none, slots_collected h, slots_empty, Slots.under_putAll]
  simp [Slots.empty]

/-- Not coming behind is an order of the keys. -/
theorem not_lt_trans {a b c : Keyed.Key T} (hab : ¬ b < a) (hbc : ¬ c < b) : ¬ c < a := by
  intro hca
  by_cases hlt : a < b
  · exact hbc (Keyed.trans _ _ _ hca hlt)
  · cases Keyed.trichotomous _ _ hlt hab
    exact hbc hca

/-- Every vector without null pointers can be ordered. -/
theorem exists_orderList (xs : List T) : ∃ v, OrderList (xs.map some) v := by
  let le : T → T → Bool := fun x y => ¬ Keyed.key y < Keyed.key x
  have sorted : (xs.mergeSort le).Pairwise fun x y => le x y := by
    refine List.pairwise_mergeSort (fun x y z hxy hyz => ?_) (fun x y => ?_) xs
    · exact decide_eq_true (not_lt_trans (of_decide_eq_true hxy) (of_decide_eq_true hyz))
    · rw [Bool.or_eq_true, decide_eq_true_iff, decide_eq_true_iff, ← not_and_or]
      exact fun both => Keyed.asymm _ _ both.1 both.2
  refine ⟨(xs.mergeSort le).map some, (List.mergeSort_perm xs le).map some, ?_⟩
  refine List.pairwise_map.mpr (sorted.imp fun hle => ?_)
  rw [ptrLess_some, decide_eq_false (of_decide_eq_true hle)]

/-- An ordered vector is one of pointers that are there, if the vector was. -/
theorem OrderList.exists_map {v : List (Option T)} (h : OrderList (xs.map some) v) :
    ∃ ys : List T, v = ys.map some ∧ ys.Perm xs := by
  have lifted : v ∈ Set.range (List.map (some : T → Option T)) := by
    rw [Set.range_list_map]
    intro p hp
    obtain ⟨x, -, hx⟩ := List.mem_map.mp (h.1.mem_iff.mp hp)
    exact ⟨x, hx⟩
  obtain ⟨ys, rfl⟩ := lifted
  exact ⟨ys, rfl, (List.map_perm_map_iff (Option.some_injective T)).mp h.1⟩

/-- The keys of an ordered vector do not fall. -/
theorem OrderList.keys (h : OrderList (xs.map some) (ys.map some)) :
    ys.Pairwise fun x y => ¬ Keyed.key y < Keyed.key x :=
  (List.pairwise_map.mp h.2).imp fun hless => of_decide_eq_false (Except.ok.inj hless)

/-- They rise, if no key comes twice. -/
theorem OrderList.increasing (h : OrderList (xs.map some) (ys.map some)) (perm : ys.Perm xs)
    (distinct : DistinctKeys xs) : Increasing ys := by
  have distinct' : DistinctKeys ys := (perm.pairwise_iff Ne.symm).mpr distinct
  refine (h.keys.and distinct').imp fun both => ?_
  by_contra hnot
  exact both.2 (Keyed.trichotomous _ _ hnot both.1)

/-- Every vector without null pointers can be ordered, and its elements then
come with their keys not falling. The set built from the ordered vector has
the keys of the one built from the vector; and if no key comes twice, it is
that set, the ordered vector is the only one there is, and writing it in a
loop is writing the set. -/
theorem orderList_laws (xs : List T) :
    (∃ v, OrderList (xs.map some) v) ∧
    ∀ v, OrderList (xs.map some) v → ∃ (ys : List T) (s s' : PSet T), v = ys.map some ∧
      (ys.Pairwise fun x y => ¬ Keyed.key y < Keyed.key x) ∧
      PSet.insertAll (xs.map some) .empty = .ok s ∧ PSet.insertAll v .empty = .ok s' ∧
      (∀ k, s'.HasKey k ↔ s.HasKey k) ∧
      (DistinctKeys xs → s' = s ∧ s.elems = v ∧
        ∀ (σ : Type) [Scalar σ] (serialize : T → Except Fault Bytes),
          serializeCounted σ serialize v = serializeList σ serialize s) := by
  refine ⟨exists_orderList xs, fun v h => ?_⟩
  obtain ⟨ys, rfl, perm⟩ := h.exists_map
  obtain ⟨s, hs, there⟩ := PSet.insertAll_ok (show ∀ p ∈ xs.map some, p.isSome by simp)
  obtain ⟨s', hs', there'⟩ := PSet.insertAll_ok (show ∀ p ∈ ys.map some, p.isSome by simp)
  refine ⟨ys, s, s', rfl, h.keys, hs, hs', fun k => ?_, fun distinct => ?_⟩
  · rw [PSet.hasKey_collected hs, PSet.hasKey_collected hs']
    simp only [perm.mem_iff]
  · have same : s' = s := by
      apply PSet.There.ext there' there
      rw [PSet.slots_collected hs, PSet.slots_collected hs']
      exact (Slots.putAll_perm perm.symm distinct).symm
    subst same
    have elems := Codec.elems_of_increasing hs' (h.increasing perm distinct)
    refine ⟨rfl, elems, ?_⟩
    intro σ _ serialize
    rw [serializeList, elems]

end Vectors

end Qblock
