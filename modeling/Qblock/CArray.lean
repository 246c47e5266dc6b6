import Qblock.Platform
import Qblock.Qt.Json
import Qblock.Wire.Truncation
import Qblock.Wire.OrderedSet
import Mathlib.Data.List.Pairwise
import Mathlib.Order.RelClasses

/-!
# Byte arrays and containers of pointers

`carray.hpp`: the byte arrays `c_array` and `fl_array`, and the two
containers of shared pointers, the vector `pvector` and the ordered set
`pset`, with the functions that write and read them.

A shared pointer is an `Option`. Dereferencing the null one is the fault
`nullPointer`, so a serializer is a computation that may fault, and so is
an insertion into a `pset`, whose comparator looks through both pointers.
-/

namespace Qblock

open Wire Qt

/-- A reader of the block types. -/
abbrev Read := Reader Fault

/-- A shared pointer looked through. -/
def deref {T : Type} : Option T → Except Fault T
  | some x => .ok x
  | none => .error .nullPointer

/-! ## Byte arrays -/

section ByteArrays

/-- `c_array(n, 0)` read from a stream. -/
def readArray (n : Nat) : Read Bytes := readRaw (List.replicate n 0)

/-- `fl_array::operator<<`: the size cast to `σ`, then all the bytes. -/
def writeFlArray (σ : Type) [Scalar σ] (obj : Bytes) : Bytes :=
  Scalar.put (Scalar.ofNat obj.length : σ) ++ obj

/-- `fl_array::operator>>`: the array is resized, which leaves it with
whatever the fresh memory holds, and then read over. -/
def readFlArray (σ : Type) [Scalar σ] [Platform] : Read Bytes := do
  let size : σ ← readScalar
  readRaw (Platform.uninitialized (Scalar.toNat size))

/-- `c_array::toHexString`. -/
def toHexString (obj : Bytes) : String := String.ofList ('0' :: 'x' :: toHex obj)

namespace CArray

/-- `c_array::fromHexString`: the first two characters are dropped unseen. -/
def fromHexString (hash : String) : Bytes := fromHex ((toLatin1 hash).drop 2)

/-- `c_array::append` of a number. -/
def append {σ : Type} [Scalar σ] (array : Bytes) (obj : σ) : Bytes := array ++ Scalar.put obj

/-- `c_array::from_object`: the object is written behind what the array
holds. -/
def fromObject {T : Type} (serialize : T → Except Fault Bytes) (array : Bytes) (obj : T) :
    Except Fault Bytes := do
  let serialized ← serialize obj
  return array ++ serialized

/-- `c_array::to_object`: the object is read off the front, and neither the
status of the stream nor what is left on it is looked at. -/
def toObject {T : Type} (ofQDataStream : Read T) (array : Bytes) : Except Fault T :=
  Prod.fst <$> ofQDataStream.run ⟨array, .ok⟩

end CArray

/-- `c_array(const QJsonValue&)`: the first two characters are dropped
unseen. -/
def ofHexValue (val : QJsonValue) : Bytes := fromHex ((toLatin1 val.toString).drop 2)

/-- `get_type<quint8>` of a JSON value: the `int` is cast down. -/
def getType8 (val : QJsonValue) : UInt8 := UInt8.ofInt (val.member "type").toInt

/-- `get_type<quint32>` of a JSON value. -/
def getType32 (val : QJsonValue) : UInt32 := UInt32.ofInt (val.member "type").toInt

/-- `operator>>` of a `quint256`. -/
def readQuint256 [Platform] : Read Quint256 := do
  let raw ← readArray 32
  return Platform.quint256OfBytes raw

end ByteArrays

/-! ## Containers -/

/-- What the `operator<` of an element type compares. -/
class Keyed (T : Type) where
  Key : Type
  [lt : LT Key]
  [decidableLt : DecidableLT Key]
  asymm : ∀ a b : Key, a < b → ¬ b < a
  trans : ∀ a b c : Key, a < b → b < c → a < c
  trichotomous : ∀ a b : Key, ¬ a < b → ¬ b < a → a = b
  key : T → Key

attribute [reducible, instance] Keyed.lt Keyed.decidableLt

section Containers

variable {T : Type}

/-- `ptrLess`: both pointers are looked through. -/
def ptrLess [Keyed T] (a b : Option T) : Except Fault Bool := do
  let x ← deref a
  let y ← deref b
  return decide (Keyed.key x < Keyed.key y)

/-- `pset`: a set of shared pointers, in the order of the pointees. -/
@[ext] structure PSet (T : Type) [Keyed T] where
  elems : List (Option T)
  ordered : Ordered ptrLess elems

/-- `serialize` of the elements of a container, one after the other. -/
def serializeAll (serialize : T → Except Fault Bytes) : List (Option T) → Except Fault Bytes
  | [] => .ok []
  | p :: ps => do
    let x ← deref p
    let head ← serialize x
    let rest ← serializeAll serialize ps
    return head ++ rest

/-- The size cast to `σ`, then the elements: the loop that writes a vector
and the body of `serializeList`. -/
def serializeCounted (σ : Type) [Scalar σ] (serialize : T → Except Fault Bytes)
    (ps : List (Option T)) : Except Fault Bytes := do
  let elems ← serializeAll serialize ps
  return Scalar.put (Scalar.ofNat ps.length : σ) ++ elems

/-- The loop that reads a vector: a count, then that many elements. -/
def deserializeVector (σ : Type) [Scalar σ] (from_ : Read (Option T)) :
    Read (List (Option T)) := do
  let length : σ ← readScalar
  repeatRead from_ (Scalar.toNat length)

/-- `get_Json` of the elements of a container. -/
def getJsonAll (getJson : T → Except Fault QJsonObject) :
    List (Option T) → Except Fault (List QJsonValue)
  | [] => .ok []
  | p :: ps => do
    let x ← deref p
    let head ← getJson x
    let rest ← getJsonAll getJson ps
    return .object head :: rest

/-- `get_Tvec`. -/
def getTvec (from_ : QJsonValue → Except Fault (Option T)) :
    List QJsonValue → Except Fault (List (Option T))
  | [] => .ok []
  | v :: vs => do
    let p ← from_ v
    let rest ← getTvec from_ vs
    return p :: rest

/-- `std::find_if` over a container: the pointers are looked through up to
the first that is found. -/
def findIf (pred : T → Bool) : List (Option T) → Except Fault (Option T)
  | [] => .ok none
  | p :: ps => do
    let x ← deref p
    if pred x then return some x else findIf pred ps

/-- No pointer of a container is null, and `nonNull` holds behind each. -/
def AllNonNull (nonNull : T → Prop) (ps : List (Option T)) : Prop :=
  ∀ p ∈ ps, ∃ x ∈ p, nonNull x

/-- What the pointers of a container point to fits. -/
def AllFit (fits : T → Prop) (ps : List (Option T)) : Prop := ∀ p ∈ ps, ∀ x ∈ p, fits x

variable [Keyed T]

theorem ptrLess_some (x y : T) :
    ptrLess (some x) (some y) = .ok (decide (Keyed.key x < Keyed.key y)) := rfl

/-- A comparison that answered looked through two pointers that are there. -/
theorem ptrLess_eq_ok {a b : Option T} {r : Bool} (h : ptrLess a b = .ok r) :
    ∃ x y, a = some x ∧ b = some y ∧ r = decide (Keyed.key x < Keyed.key y) := by
  cases a with
  | none => cases h
  | some x =>
    cases b with
    | none => cases h
    | some y =>
      cases h
      exact ⟨x, y, rfl, rfl, rfl⟩

theorem ptrLess_trans (a b c : Option T) (hab : ptrLess a b = .ok true)
    (hbc : ptrLess b c = .ok true) : ptrLess a c = .ok true := by
  obtain ⟨x, y, rfl, rfl, hxy⟩ := ptrLess_eq_ok hab
  obtain ⟨_, z, heq, rfl, hyz⟩ := ptrLess_eq_ok hbc
  cases heq
  have h := Keyed.trans _ _ _ (of_decide_eq_true hxy.symm) (of_decide_eq_true hyz.symm)
  rw [ptrLess_some, decide_eq_true h]

theorem ptrLess_asymm (a b : Option T) (hab : ptrLess a b = .ok true) :
    ptrLess b a = .ok false := by
  obtain ⟨x, y, rfl, rfl, hxy⟩ := ptrLess_eq_ok hab
  rw [ptrLess_some, decide_eq_false (Keyed.asymm _ _ (of_decide_eq_true hxy.symm))]

/-- Of two pointers neither of which is less, the pointees have one key. -/
theorem key_eq_of_ptrLess {p q : Option T} (hpq : ptrLess p q = .ok false)
    (hqp : ptrLess q p = .ok false) : ∃ x y, p = some x ∧ q = some y ∧ Keyed.key y = Keyed.key x := by
  obtain ⟨x, y, rfl, rfl, hxy⟩ := ptrLess_eq_ok hpq
  obtain ⟨_, _, heq, heq', hyx⟩ := ptrLess_eq_ok hqp
  cases heq
  cases heq'
  exact ⟨x, y, rfl, rfl, Keyed.trichotomous _ _ (of_decide_eq_false hyx.symm)
    (of_decide_eq_false hxy.symm)⟩

/-- A comparison faults only by looking through a null pointer. -/
theorem ptrLess_fault (a b : Option T) (e : Fault) (h : ptrLess a b = .error e) :
    e = .nullPointer := by
  cases a with
  | none => cases h; rfl
  | some x =>
    cases b with
    | none => cases h; rfl
    | some y => cases h

theorem ptrLess_total (a b : Option T) (ha : a.isSome) (hb : b.isSome) :
    ∃ r, ptrLess a b = .ok r := by
  obtain ⟨x, rfl⟩ := Option.isSome_iff_exists.mp ha
  obtain ⟨y, rfl⟩ := Option.isSome_iff_exists.mp hb
  exact ⟨_, rfl⟩

/-- What `orderList` may leave in a vector: what was in it, no element less
than one before it. `std::sort` says nothing of elements of one key, and
compares every pointer with some other. -/
def OrderList (ptrVector ordered : List (Option T)) : Prop :=
  ordered.Perm ptrVector ∧ ordered.Pairwise fun a b => ptrLess b a = .ok false

namespace PSet

/-- The empty set. -/
def empty : PSet T := ⟨[], List.Pairwise.nil⟩

/-- `std::set::insert`. -/
def insert (p : Option T) (s : PSet T) : Except Fault (PSet T) :=
  match h : insertM ptrLess p s.elems with
  | .ok l => .ok ⟨l, ordered_insertM ptrLess_trans s.ordered h⟩
  | .error e => .error e

/-- A run of insertions. -/
def insertAll : List (Option T) → PSet T → Except Fault (PSet T)
  | [], s => .ok s
  | p :: ps, s => do
    let s ← s.insert p
    insertAll ps s

theorem insert_eq_ok {p : Option T} {s s' : PSet T} :
    s.insert p = .ok s' ↔ insertM ptrLess p s.elems = .ok s'.elems := by
  unfold insert
  split
  · next l h =>
    constructor
    · intro heq
      cases heq
      exact h
    · intro heq
      exact congrArg Except.ok (PSet.ext (Except.ok.inj (h.symm.trans heq)))
  · next e h => simp [h]

theorem insert_eq_error {p : Option T} {s : PSet T} {e : Fault} :
    s.insert p = .error e ↔ insertM ptrLess p s.elems = .error e := by
  unfold insert
  split <;> simp_all

theorem insertAll_eq_ok {ps : List (Option T)} {s s' : PSet T} :
    insertAll ps s = .ok s' ↔ insertAllM ptrLess ps s.elems = .ok s'.elems := by
  induction ps generalizing s with
  | nil => simp [insertAll, insertAllM, PSet.ext_iff]
  | cons p ps ih =>
    cases h : s.insert p with
    | error e =>
      have h' := insert_eq_error.mp h
      simp [insertAll, insertAllM, h, h', bind, Except.bind]
    | ok t =>
      have h' := insert_eq_ok.mp h
      simp only [insertAll, insertAllM, h, h', bind, Except.bind]
      exact ih

theorem mem_insert_of_mem {p q : Option T} {s s' : PSet T} (h : s.insert p = .ok s')
    (hq : q ∈ s.elems) : q ∈ s'.elems := mem_insertM_of_mem (insert_eq_ok.mp h) q hq

theorem mem_of_mem_insert {p q : Option T} {s s' : PSet T} (h : s.insert p = .ok s')
    (hq : q ∈ s'.elems) : q = p ∨ q ∈ s.elems := mem_of_mem_insertM (insert_eq_ok.mp h) q hq

theorem mem_insertAll_of_mem {ps : List (Option T)} {q : Option T} {s s' : PSet T}
    (h : insertAll ps s = .ok s') (hq : q ∈ s.elems) : q ∈ s'.elems :=
  mem_insertAllM_of_mem (insertAll_eq_ok.mp h) q hq

theorem mem_of_mem_insertAll {ps : List (Option T)} {q : Option T} {s : PSet T}
    (h : insertAll ps empty = .ok s) (hq : q ∈ s.elems) : q ∈ ps :=
  (mem_of_mem_insertAllM (insertAll_eq_ok.mp h) q hq).resolve_right List.not_mem_nil

theorem insertAll_length_le {ps : List (Option T)} {s : PSet T}
    (h : insertAll ps empty = .ok s) : s.elems.length ≤ ps.length := by
  have := insertAllM_length_le (insertAll_eq_ok.mp h)
  rwa [empty, List.length_nil, Nat.zero_add] at this

/-- An inserted pointer is in the set, unless it is to an element of a key
that is already there. -/
theorem mem_insert_self {p : Option T} {s s' : PSet T} (h : s.insert p = .ok s') :
    p ∈ s'.elems ∨
      ∃ x y, p = some x ∧ some y ∈ s.elems ∧ Keyed.key y = Keyed.key x := by
  rcases mem_insertM_self (insert_eq_ok.mp h) with hp | ⟨q, hq, hpq, hqp⟩
  · exact .inl hp
  · obtain ⟨x, y, rfl, rfl, hkey⟩ := key_eq_of_ptrLess hpq hqp
    exact .inr ⟨x, y, rfl, hq, hkey⟩

/-- Of two elements of one key, a set holds one. -/
theorem eq_of_key_eq {s : PSet T} {x y : T} (hx : some x ∈ s.elems) (hy : some y ∈ s.elems)
    (h : Keyed.key x = Keyed.key y) : x = y := by
  by_contra hne
  let Apart : Option T → Option T → Prop := fun p q =>
    ptrLess p q = .ok true ∨ ptrLess q p = .ok true
  have symm : Std.Symm Apart := ⟨fun _ _ => Or.symm⟩
  have all : s.elems.Pairwise Apart := s.ordered.imp Or.inl
  have apart : Apart (some x) (some y) := all.forall hx hy fun heq => hne (Option.some.inj heq)
  have irrefl : ¬ Keyed.key y < Keyed.key y := fun hlt => Keyed.asymm _ _ hlt hlt
  simp [Apart, ptrLess_some, h, irrefl] at apart

/-- A pointer to an element greater than all others goes to the end. -/
theorem insert_last {x : T} {s : PSet T}
    (h : ∀ p ∈ s.elems, ∃ y, p = some y ∧ Keyed.key y < Keyed.key x) :
    ∃ s', s.insert (some x) = .ok s' ∧ s'.elems = s.elems ++ [some x] := by
  have last : insertM ptrLess (some x) s.elems = .ok (s.elems ++ [some x]) := by
    refine insertM_last fun p hp => ?_
    obtain ⟨y, rfl, hlt⟩ := h p hp
    rw [ptrLess_some, ptrLess_some, decide_eq_true hlt, decide_eq_false (Keyed.asymm _ _ hlt)]
    exact ⟨rfl, rfl⟩
  have ordered := ordered_insertM ptrLess_trans s.ordered last
  exact ⟨⟨_, ordered⟩, insert_eq_ok.mpr last, rfl⟩

/-- Inserting a pointer that is there into a set of such does not fault. -/
theorem insert_ok {x : T} {s : PSet T} (h : ∀ p ∈ s.elems, p.isSome) :
    ∃ s', s.insert (some x) = .ok s' := by
  obtain ⟨l, hl⟩ := insertM_ok ptrLess_total (x := some x) rfl h
  exact ⟨⟨l, ordered_insertM ptrLess_trans s.ordered hl⟩, insert_eq_ok.mpr hl⟩

/-- An insertion into a set that is not empty compares two pointers. -/
theorem isSome_of_insert {p q : Option T} {rest : List (Option T)} {s s' : PSet T}
    (h : s.insert p = .ok s') (hs : s.elems = q :: rest) : p.isSome ∧ q.isSome := by
  have inserted := insert_eq_ok.mp h
  rw [hs] at inserted
  have compared : ∃ b, ptrLess p q = .ok b := by
    rcases insertM_cons_cases inserted with ⟨hless, -⟩ | ⟨hless, -⟩ | ⟨hless, -⟩
    all_goals exact ⟨_, hless⟩
  obtain ⟨b, hb⟩ := compared
  obtain ⟨x, y, rfl, rfl, -⟩ := ptrLess_eq_ok hb
  exact ⟨rfl, rfl⟩

/-- A run of insertions into a set that is not empty compares every pointer
of it. -/
theorem isSome_of_insertAll_behind {ps : List (Option T)} {q : Option T} {s s' : PSet T}
    (h : insertAll ps s = .ok s') (hq : q ∈ s.elems) : ∀ p ∈ ps, p.isSome := by
  induction ps generalizing s with
  | nil => exact fun _ hp => absurd hp List.not_mem_nil
  | cons p ps ih =>
    obtain ⟨s₁, hp, hrest⟩ := bind_eq_ok.mp h
    obtain ⟨r, rest, hs⟩ := List.exists_cons_of_ne_nil (List.ne_nil_of_mem hq)
    have compared := isSome_of_insert hp hs
    exact List.forall_mem_cons.mpr ⟨compared.1, ih hrest (mem_insert_of_mem hp hq)⟩

/-- A null pointer is inserted into the empty set only, and nothing after
it. -/
theorem isSome_of_insertAll {ps : List (Option T)} {s : PSet T} (h : insertAll ps empty = .ok s) :
    ps.length ≤ 1 ∨ ∀ p ∈ ps, p.isSome := by
  match ps with
  | [] => exact .inl (Nat.zero_le 1)
  | [p] => exact .inl (Nat.le_refl 1)
  | p :: q :: ps =>
    right
    obtain ⟨s₁, hp, hrest⟩ := bind_eq_ok.mp h
    -- the pointer alone makes the set that the next one is compared with
    have alone : s₁.elems = [p] := (Except.ok.inj (insert_eq_ok.mp hp)).symm
    obtain ⟨s₂, hq, -⟩ := bind_eq_ok.mp hrest
    have compared := isSome_of_insert hq alone
    have there : p ∈ s₁.elems := by
      rw [alone]
      exact List.mem_cons_self
    exact List.forall_mem_cons.mpr ⟨compared.2, isSome_of_insertAll_behind hrest there⟩

/-- A run of insertions faults only by looking through a null pointer. -/
theorem insertAll_fault {ps : List (Option T)} {s : PSet T} {e : Fault}
    (h : insertAll ps s = .error e) : e = .nullPointer := by
  induction ps generalizing s with
  | nil => cases h
  | cons p ps ih =>
    cases hp : s.insert p with
    | error e' =>
      simp only [insertAll, hp, bind, Except.bind] at h
      cases h
      exact insertM_fault ptrLess_fault (insert_eq_error.mp hp)
    | ok s' =>
      simp only [insertAll, hp, bind, Except.bind] at h
      exact ih h

/-- A set is rebuilt from its elements in order. -/
theorem insertAll_elems (s : PSet T) : insertAll s.elems empty = .ok s := by
  rw [insertAll_eq_ok]
  exact insertAllM_ordered ptrLess_asymm (show Ordered ptrLess ([] ++ s.elems) from s.ordered)

/-- Inserting pointers that are there into a set of such does not fault. -/
theorem insertAll_ok {ps : List (Option T)} (h : ∀ p ∈ ps, p.isSome) :
    ∃ s, insertAll ps empty = .ok s ∧ ∀ p ∈ s.elems, p.isSome := by
  obtain ⟨l, hl, hall⟩ := insertAllM_ok ptrLess_total h
    (show ∀ y ∈ (empty : PSet T).elems, y.isSome from fun _ hy => absurd hy List.not_mem_nil)
  have ho := ordered_insertAllM ptrLess_trans (empty : PSet T).ordered hl
  exact ⟨⟨l, ho⟩, insertAll_eq_ok.mpr hl, hall⟩

/-- A run of insertions comes to its end exactly if there is at most one
pointer, which is compared with nothing, or none of them is null. -/
theorem insertAll_ok_iff {ps : List (Option T)} :
    (∃ s, insertAll ps empty = .ok s) ↔ ps.length ≤ 1 ∨ ∀ p ∈ ps, p.isSome := by
  constructor
  · intro h
    obtain ⟨s, hs⟩ := h
    exact isSome_of_insertAll hs
  · rintro (short | present)
    · match ps with
      | [] => exact ⟨empty, rfl⟩
      | [p] => exact ⟨_, rfl⟩
      | _ :: _ :: _ => exact absurd (Nat.le_of_succ_le_succ short) (Nat.not_succ_le_zero _)
    · exact (insertAll_ok present).imp fun _ => And.left

end PSet

/-- `get_T`, from the values of an array into a set that starts empty. -/
def getT (from_ : QJsonValue → Option T) : List QJsonValue → PSet T → Except Fault (PSet T)
  | [], s => .ok s
  | v :: vs, s => do
    let s ← s.insert (from_ v)
    getT from_ vs s

/-- The loop of `deserializeList`: an element is inserted as it is read. -/
def deserializeLoop (from_ : Read (Option T)) : Nat → PSet T → Read (PSet T)
  | 0, s => pure s
  | n + 1, s => do
    let p ← from_
    let s ← lift (s.insert p)
    deserializeLoop from_ n s

/-- `deserializeList`: a count, then that many elements into a set. -/
def deserializeList (σ : Type) [Scalar σ] (from_ : Read (Option T)) : Read (PSet T) := do
  let length : σ ← readScalar
  deserializeLoop from_ (Scalar.toNat length) .empty

/-- `serializeList`. -/
def serializeList (σ : Type) [Scalar σ] (serialize : T → Except Fault Bytes) (s : PSet T) :
    Except Fault Bytes := serializeCounted σ serialize s.elems

end Containers

end Qblock
