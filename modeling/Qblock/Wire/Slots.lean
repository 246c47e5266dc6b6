import Mathlib.Data.List.Pairwise
import Mathlib.Data.List.Perm.Basic
import Mathlib.Logic.Basic

/-!
# First come, first kept

What an ordered set is for, without its order: at most one value under each
key, and a value that comes to a key that is taken is dropped. `Slots` is
that as a function from keys, and a value is under its own key by
construction, so that two of them are equal if they are taken alike.

- `Slots.under_putAll` — under a key is the first value that came to it;
- `Slots.put_comm`, `Slots.putAll_perm` — values of different keys may come
  in any order.
-/

namespace Wire

/-- At most one value under each key. -/
@[ext] structure Slots {K T : Type} (key : T → K) where
  under : K → Option T
  keyed : ∀ k x, under k = some x → key x = k

namespace Slots

variable {K T : Type} {key : T → K} {m : Slots key} {x y : T} {k : K}

/-- Nothing is there. -/
def empty : Slots key := ⟨fun _ => none, fun _ _ h => nomatch h⟩

open Classical in
/-- Put a value under its key, if the key is free. -/
noncomputable def put (x : T) (m : Slots key) : Slots key where
  under k := if key x = k ∧ m.under k = none then some x else m.under k
  keyed k y h := by
    split at h
    · next free =>
      cases h
      exact free.1
    · exact m.keyed k y h

/-- A run of values. -/
noncomputable def putAll : List T → Slots key → Slots key
  | [], m => m
  | x :: xs, m => putAll xs (m.put x)

open Classical in
theorem under_put : (m.put x).under k =
    if key x = k ∧ m.under k = none then some x else m.under k := rfl

theorem under_put_self (free : m.under (key x) = none) : (m.put x).under (key x) = some x := by
  rw [under_put, if_pos ⟨rfl, free⟩]

theorem under_put_of_ne (h : key x ≠ k) : (m.put x).under k = m.under k := by
  rw [under_put, if_neg fun both => h both.1]

/-- What was there stays. -/
theorem under_put_of_some (h : m.under k = some y) : (m.put x).under k = some y := by
  have taken : ¬ (key x = k ∧ m.under k = none) := fun both => by
    rw [h] at both
    cases both.2
  rw [under_put, if_neg taken, h]

/-- Values of different keys may come in any order. -/
theorem put_comm (h : key x ≠ key y) : (m.put x).put y = (m.put y).put x := by
  ext k : 2
  by_cases hx : key x = k
  · have hy : key y ≠ k := fun hy => h (hx.trans hy.symm)
    rw [under_put_of_ne hy, under_put, under_put, under_put_of_ne hy]
  · have left : (m.put x).under k = m.under k := under_put_of_ne hx
    rw [under_put_of_ne (m := m.put y) hx, under_put (m := m.put x), left]
    rfl

open Classical in
/-- Under a key is what was there, or else the first value of that key. -/
theorem under_putAll {xs : List T} :
    (m.putAll xs).under k = (m.under k).or (xs.find? fun x => key x = k) := by
  induction xs generalizing m with
  | nil => rw [putAll, List.find?_nil, Option.or_none]
  | cons x xs ih =>
    rw [putAll, ih]
    by_cases hk : key x = k
    · subst hk
      rw [List.find?_cons_of_pos (by simp)]
      cases h : m.under (key x) with
      | none => rw [under_put_self h, Option.some_or, Option.none_or]
      | some y => rw [under_put_of_some h, Option.some_or, Option.some_or]
    · rw [List.find?_cons_of_neg (by simp [hk]), under_put_of_ne hk]

/-- Values of different keys may come in any order, as many as they are. -/
theorem putAll_perm {xs ys : List T} (perm : xs.Perm ys)
    (distinct : xs.Pairwise fun x y => key x ≠ key y) : m.putAll xs = m.putAll ys := by
  induction perm generalizing m with
  | nil => rfl
  | cons x _ ih => exact ih (List.pairwise_cons.mp distinct).2
  | swap x y l =>
    have ne := (List.pairwise_cons.mp distinct).1 x List.mem_cons_self
    rw [putAll, putAll, putAll, putAll, put_comm ne]
  | trans h _ ih ih' =>
    exact (ih distinct).trans (ih' ((h.pairwise_iff Ne.symm).mp distinct))

end Slots

end Wire
