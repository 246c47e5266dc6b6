import Qblock.Laws.Json
import Mathlib.Data.Set.List

/-!
# What a set keeps of a list

The elements of a list go into a set one by one, whether they are read from
a stream or from a JSON array, and of those with one key the first stays:
that is the invariant of a run of insertions, and with the order it says
what the set is.

- `PSet.insert_cases` — all that an insertion can do;
- `PSet.mem_insert`, `PSet.mem_insertAll` — what is in a set after one, and
  after a run of them;
- `Codec.collects` — what the two readers make of a list, and what is
  written of it then;
- `sets_of_lists` — of unlock conditions, features and native tokens.
-/

namespace Qblock

open Wire Qt

/-! ## Keys -/

section Keys

variable {T : Type} [Keyed T]

/-- Two elements of one key. -/
def sameKey (x y : T) : Bool :=
  decide (¬ Keyed.key x < Keyed.key y ∧ ¬ Keyed.key y < Keyed.key x)

theorem sameKey_iff {x y : T} : sameKey x y = true ↔ Keyed.key x = Keyed.key y := by
  rw [sameKey, decide_eq_true_iff]
  constructor
  · intro h
    exact Keyed.trichotomous _ _ h.1 h.2
  · intro heq
    have irrefl : ¬ Keyed.key y < Keyed.key y := fun h => Keyed.asymm _ _ h h
    rw [heq]
    exact ⟨irrefl, irrefl⟩

/-- The elements of a list come in increasing order of their keys. -/
def Increasing (xs : List T) : Prop := xs.Pairwise fun x y => Keyed.key x < Keyed.key y

/-- No two elements of a list have one key. -/
def DistinctKeys (xs : List T) : Prop := xs.Pairwise fun x y => Keyed.key x ≠ Keyed.key y

/-- An element is the first of its key in a list. -/
def IsFirst (xs : List T) (x : T) : Prop := xs.find? (sameKey x) = some x

theorem IsFirst.mem {xs : List T} {x : T} (h : IsFirst xs x) : x ∈ xs := List.mem_of_find?_eq_some h

theorem isFirst_cons {x y : T} {xs : List T} :
    IsFirst (x :: xs) y ↔ y = x ∨ (Keyed.key x ≠ Keyed.key y ∧ IsFirst xs y) := by
  by_cases hsame : Keyed.key x = Keyed.key y
  · rw [IsFirst, List.find?_cons_of_pos (sameKey_iff.mpr hsame.symm), Option.some_inj, eq_comm,
      or_iff_left fun h => h.1 hsame]
  · have differs : ¬ sameKey y x = true := fun h => hsame (sameKey_iff.mp h).symm
    have hne : y ≠ x := fun heq => hsame (heq ▸ rfl)
    rw [IsFirst, List.find?_cons_of_neg differs, or_iff_right hne, and_iff_right hsame, IsFirst]

theorem isFirst_of_distinct {xs : List T} (h : DistinctKeys xs) {x : T} : IsFirst xs x ↔ x ∈ xs := by
  refine ⟨IsFirst.mem, fun hx => ?_⟩
  induction xs with
  | nil => cases hx
  | cons y ys ih =>
    obtain ⟨hy, hys⟩ := List.pairwise_cons.mp h
    rw [isFirst_cons]
    rcases List.mem_cons.mp hx with rfl | hx
    · exact .inl rfl
    · exact .inr ⟨hy x hx, ih hys hx⟩

/-- A search through pointers that are there is a search. -/
theorem findIf_map_some {T : Type} (pred : T → Bool) (xs : List T) :
    findIf pred (xs.map some) = .ok (xs.find? pred) := by
  induction xs with
  | nil => rfl
  | cons x xs ih =>
    cases hx : pred x with
    | true => simp [findIf, deref, hx, bind, Except.bind, pure, Except.pure]
    | false => simp [findIf, deref, hx, ih, bind, Except.bind]

/-! ## Insertions -/

namespace PSet

/-- A set has an element of the key. -/
def HasKey (s : PSet T) (k : Keyed.Key T) : Prop := ∃ y, some y ∈ s.elems ∧ Keyed.key y = k

section Insert

variable {x : T} {s s' : PSet T}

/-- An insertion adds the pointer, or finds an element of its key and
changes nothing. -/
theorem insert_cases (h : s.insert (some x) = .ok s') :
    (s'.elems.Perm (some x :: s.elems) ∧ ¬ s.HasKey (Keyed.key x)) ∨
    (s' = s ∧ s.HasKey (Keyed.key x)) := by
  rcases insertM_perm (insert_eq_ok.mp h) with hperm | ⟨heq, q, hq, hxq, hqx⟩
  · refine .inl ⟨hperm, fun present => ?_⟩
    obtain ⟨y, hy, hkey⟩ := present
    have hx' : some x ∈ s'.elems := hperm.mem_iff.mpr List.mem_cons_self
    have hy' : some y ∈ s'.elems := hperm.mem_iff.mpr (List.mem_cons_of_mem _ hy)
    have nodup := hperm.nodup_iff.mp (s'.ordered.nodup ptrLess_asymm)
    cases eq_of_key_eq hy' hx' hkey
    exact (List.nodup_cons.mp nodup).1 hy
  · obtain ⟨_, y, ⟨⟩, rfl, hkey⟩ := key_eq_of_ptrLess hxq hqx
    exact .inr ⟨PSet.ext heq, y, hq, hkey⟩

theorem mem_insert (h : s.insert (some x) = .ok s') (y : T) :
    some y ∈ s'.elems ↔ some y ∈ s.elems ∨ (¬ s.HasKey (Keyed.key x) ∧ y = x) := by
  rcases insert_cases h with ⟨hperm, fresh⟩ | ⟨rfl, present⟩
  · rw [hperm.mem_iff, List.mem_cons, Option.some_inj, and_iff_right fresh, or_comm]
  · exact (or_iff_left fun hnew => hnew.1 present).symm

theorem hasKey_insert (h : s.insert (some x) = .ok s') (k : Keyed.Key T) :
    s'.HasKey k ↔ s.HasKey k ∨ Keyed.key x = k := by
  rcases insert_cases h with ⟨hperm, -⟩ | ⟨rfl, present⟩
  · simp only [HasKey, hperm.mem_iff, List.mem_cons, Option.some_inj, or_and_right, exists_or,
      exists_eq_left]
    exact or_comm
  · refine (or_iff_left_of_imp fun hkey => ?_).symm
    rwa [← hkey]

end Insert

/-- Into a set a run of insertions puts the first element of each key that
is not there. -/
theorem mem_insertAll {xs : List T} {s s' : PSet T} (h : insertAll (xs.map some) s = .ok s') (y : T) :
    some y ∈ s'.elems ↔ some y ∈ s.elems ∨ (¬ s.HasKey (Keyed.key y) ∧ IsFirst xs y) := by
  induction xs generalizing s with
  | nil =>
    cases h
    simp [IsFirst]
  | cons x xs ih =>
    obtain ⟨s₁, hx, hxs⟩ := bind_eq_ok.mp h
    have head : ¬ s.HasKey (Keyed.key x) ∧ y = x ↔ ¬ s.HasKey (Keyed.key y) ∧ y = x :=
      and_congr_left fun heq => heq ▸ Iff.rfl
    rw [ih hxs, mem_insert hx, hasKey_insert hx, isFirst_cons, head, not_or]
    tauto

/-- A set built from a list has the first element of each key. -/
theorem mem_collected {xs : List T} {s : PSet T} (h : insertAll (xs.map some) .empty = .ok s)
    (y : T) : some y ∈ s.elems ↔ IsFirst xs y := by
  have nothing : ∀ z, some z ∉ (empty : PSet T).elems := fun _ => List.not_mem_nil
  rw [mem_insertAll h, or_iff_right (nothing y), and_iff_right]
  intro present
  obtain ⟨z, hz, -⟩ := present
  exact nothing z hz

/-- A set without null pointers is a list in increasing order. -/
theorem exists_increasing {s : PSet T} (h : ∀ p ∈ s.elems, p.isSome) :
    ∃ ys : List T, s.elems = ys.map some ∧ Increasing ys := by
  have lifted : s.elems ∈ Set.range (List.map (some : T → Option T)) := by
    rw [Set.range_list_map]
    intro p hp
    obtain ⟨y, hy⟩ := Option.isSome_iff_exists.mp (h p hp)
    exact ⟨y, hy.symm⟩
  obtain ⟨ys, hys⟩ := lifted
  refine ⟨ys, hys.symm, ?_⟩
  have ordered := s.ordered
  rw [← hys, Ordered, List.pairwise_map] at ordered
  exact ordered.imp fun hless => of_decide_eq_true (Except.ok.inj hless)

/-- Of a set that has the first element of each key of a list, a search by
key finds what it finds in the list. -/
theorem findIf_eq {xs : List T} {s : PSet T} (there : ∀ p ∈ s.elems, p.isSome)
    (firsts : ∀ y, some y ∈ s.elems ↔ IsFirst xs y) {pred : T → Bool} {k : Keyed.Key T}
    (hpred : ∀ x, pred x = true ↔ Keyed.key x = k) : findIf pred s.elems = .ok (xs.find? pred) := by
  obtain ⟨ys, hys, -⟩ := exists_increasing there
  have mem : ∀ y, y ∈ ys ↔ IsFirst xs y := by
    intro y
    rw [← firsts, hys, List.mem_map_of_injective (Option.some_injective T)]
  rw [hys, findIf_map_some]
  congr 1
  cases hx : xs.find? pred with
  | none =>
    rw [List.find?_eq_none] at hx ⊢
    exact fun y hy => hx y ((mem y).mp hy).mem
  | some x =>
    have holds := (hpred x).mp (List.find?_some hx)
    have same : sameKey x = pred := by
      funext y
      rw [Bool.eq_iff_iff, sameKey_iff, hpred, holds, eq_comm]
    have hmem : x ∈ ys := by rwa [mem, IsFirst, same]
    cases hy : ys.find? pred with
    | none => exact absurd ((hpred x).mpr holds) (List.find?_eq_none.mp hy x hmem)
    | some y =>
      have hy' : some y ∈ s.elems := hys ▸ List.mem_map_of_mem (List.mem_of_find?_eq_some hy)
      have hx' : some x ∈ s.elems := hys ▸ List.mem_map_of_mem hmem
      have hkey := (hpred y).mp (List.find?_some hy)
      rw [eq_of_key_eq hy' hx' (hkey.trans holds.symm)]

end PSet

end Keys

/-! ## Codecs -/

/-- What writes the elements of a set and reads them, from bytes and from
JSON. -/
structure Codec (T : Type) where
  serialize : T → Except Fault Bytes
  fromQDataStream : Read (Option T)
  getJson : T → Except Fault QJsonObject
  fromQJsonValue : QJsonValue → Option T
  NonNull : T → Prop
  Fits : T → Prop
  advances : Advances (fun _ => False) fromQDataStream
  serialize_ok : ∀ x, NonNull x → ∃ b, serialize x = .ok b
  reads : ∀ x b, Fits x → serialize x = .ok b → Reads fromQDataStream b (some x)
  getJson_ok : ∀ x, (∃ j, getJson x = .ok j) ↔ NonNull x
  fromJson : ∀ x j, getJson x = .ok j → fromQJsonValue (.object j) = some x

/-- What a list comes to as a set: what the readers make of it, and what is
written of it then. -/
structure Codec.Collects {T : Type} [Keyed T] (codec : Codec T) (xs : List T) (s : PSet T) :
    Prop where
  /-- The set is read from the count and the elements of the list, all of
  them, and these are its own bytes if the list is in order. -/
  stream : ∃ b, serializeCounted UInt8 codec.serialize (xs.map some) = .ok b ∧
    ((∀ x ∈ xs, codec.Fits x) →
      Reads (deserializeList UInt8 codec.fromQDataStream) b s ∧
      (serializeList UInt8 codec.serialize s = .ok b ↔ Increasing xs))
  /-- It is read from the array of the list. -/
  json : ∃ js, getJsonAll codec.getJson (xs.map some) = .ok js ∧
    getT codec.fromQJsonValue js .empty = .ok s
  /-- It holds the first element of each key. -/
  firsts : ∀ p, p ∈ s.elems ↔ ∃ x, p = some x ∧ IsFirst xs x
  /-- It is written in increasing order. -/
  written : ∃ ys bs, s.elems = ys.map some ∧ Increasing ys ∧
    List.Forall₂ (fun c y => codec.serialize y = .ok c) bs ys ∧
    serializeList UInt8 codec.serialize s =
      .ok (Scalar.put (Scalar.ofNat ys.length : UInt8) ++ bs.flatten)

namespace Codec

variable {T : Type} [Keyed T] {codec : Codec T} {xs : List T} {s : PSet T}

omit [Keyed T] in
theorem allNonNull_map (h : ∀ x ∈ xs, codec.NonNull x) : AllNonNull codec.NonNull (xs.map some) := by
  intro p hp
  obtain ⟨x, hx, rfl⟩ := List.mem_map.mp hp
  exact ⟨x, rfl, h x hx⟩

theorem mem_of_some_mem {x : T} (h : PSet.insertAll (xs.map some) .empty = .ok s)
    (hx : some x ∈ s.elems) : x ∈ xs := by
  obtain ⟨_, hmem, ⟨⟩⟩ := List.mem_map.mp (PSet.mem_of_mem_insertAll h hx)
  exact hmem

/-- A set built from a list in order has just that. -/
theorem elems_of_increasing (h : PSet.insertAll (xs.map some) .empty = .ok s)
    (increasing : Increasing xs) : s.elems = xs.map some := by
  have ordered : Ordered ptrLess ([] ++ xs.map some) := by
    rw [List.nil_append, Ordered, List.pairwise_map]
    refine increasing.imp fun hlt => ?_
    rw [ptrLess_some, decide_eq_true hlt]
  have kept := insertAllM_ordered ptrLess_asymm ordered
  exact Except.ok.inj ((PSet.insertAll_eq_ok.mp h).symm.trans kept)

/-- From a stream. -/
theorem collects_stream (h : PSet.insertAll (xs.map some) .empty = .ok s) (count : xs.length ≤ 255)
    (nonNull : ∀ x ∈ xs, codec.NonNull x) : ∃ b,
    serializeCounted UInt8 codec.serialize (xs.map some) = .ok b ∧
    ((∀ x ∈ xs, codec.Fits x) →
      Reads (deserializeList UInt8 codec.fromQDataStream) b s ∧
      (serializeList UInt8 codec.serialize s = .ok b ↔ Increasing xs)) := by
  obtain ⟨b, hb⟩ := serializeCounted_ok (σ := UInt8) codec.serialize_ok (codec.allNonNull_map nonNull)
  refine ⟨b, hb, fun fits => ?_⟩
  have small : (xs.map some).length < 256 ^ Scalar.width UInt8 := by
    rw [List.length_map]
    exact Nat.lt_succ_of_le count
  have list : Reads (deserializeVector UInt8 codec.fromQDataStream) b (xs.map some) := by
    refine reads_vector (fun p hp x hx c hc => codec.reads x c (fits x ?_) hc) small hb
    obtain ⟨_, hmem, rfl⟩ := List.mem_map.mp hp
    cases hx
    exact hmem
  refine ⟨?_, ?_, fun increasing => ?_⟩
  · rw [deserializeList_eq codec.advances, ← List.append_nil b]
    exact list.bind (Reads.lift h)
  · -- the same bytes are one vector
    intro hs
    have set : Reads (deserializeVector UInt8 codec.fromQDataStream) b s.elems := by
      refine reads_vector (fun p hp x hx c hc => codec.reads x c (fits x ?_) hc)
        (Nat.lt_of_le_of_lt (PSet.insertAll_length_le h) small) hs
      cases hx
      exact mem_of_some_mem h hp
    have elems : s.elems = xs.map some := (set.unique list (rfl : b ++ [] = b ++ [])).1
    obtain ⟨ys, hys, increasing⟩ := PSet.exists_increasing (s := s) (by simp [elems])
    rwa [List.map_injective_iff.mpr (Option.some_injective T) (elems.symm.trans hys)]
  · rw [serializeList, elems_of_increasing h increasing, hb]

/-- From an array. -/
theorem collects_json (h : PSet.insertAll (xs.map some) .empty = .ok s)
    (nonNull : ∀ x ∈ xs, codec.NonNull x) : ∃ js,
    getJsonAll codec.getJson (xs.map some) = .ok js ∧
    getT codec.fromQJsonValue js .empty = .ok s := by
  obtain ⟨js, hjs⟩ := (getJsonAll_ok codec.getJson_ok).mpr (codec.allNonNull_map nonNull)
  have read : getTvec (fun v => .ok (codec.fromQJsonValue v)) js = .ok (xs.map some) :=
    getTvec_getJsonAll (fun _ _ x _ j hj => congrArg Except.ok (codec.fromJson x j hj)) hjs
  rw [getTvec_map] at read
  exact ⟨js, hjs, by rw [getT_eq_insertAll, Except.ok.inj read, h]⟩

/-- In the order of the set. -/
theorem written_of_nonNull (there : ∀ p ∈ s.elems, p.isSome)
    (nonNull : ∀ x, some x ∈ s.elems → codec.NonNull x) :
    ∃ ys bs, s.elems = ys.map some ∧ Increasing ys ∧
      List.Forall₂ (fun c y => codec.serialize y = .ok c) bs ys ∧
      serializeList UInt8 codec.serialize s =
        .ok (Scalar.put (Scalar.ofNat ys.length : UInt8) ++ bs.flatten) := by
  obtain ⟨ys, hys, increasing⟩ := PSet.exists_increasing there
  have all : AllNonNull codec.NonNull (ys.map some) :=
    codec.allNonNull_map fun y hy => nonNull y (hys ▸ List.mem_map_of_mem hy)
  obtain ⟨b, hb⟩ := serializeAll_ok codec.serialize_ok all
  obtain ⟨bs, hbs, rfl⟩ := serializeAll_eq_ok.mp hb
  refine ⟨ys, bs, hys, increasing, ?_, ?_⟩
  · refine (List.forall₂_map_right_iff.mp hbs).imp ?_
    intro c y hy
    obtain ⟨_, ⟨⟩, hc⟩ := hy
    exact hc
  · rw [serializeList, hys]
    refine serializeCounted_eq_ok.mpr ⟨_, hb, ?_⟩
    rw [List.length_map]

/-- Every list is collected. -/
theorem collects (count : xs.length ≤ 255) (nonNull : ∀ x ∈ xs, codec.NonNull x) :
    ∃ s, codec.Collects xs s := by
  obtain ⟨s, hs, there⟩ := PSet.insertAll_ok
    (show ∀ p ∈ xs.map some, p.isSome by simp)
  refine ⟨s, codec.collects_stream hs count nonNull, codec.collects_json hs nonNull, ?_,
    codec.written_of_nonNull there fun x hx => nonNull x (mem_of_some_mem hs hx)⟩
  intro p
  constructor
  · intro hp
    obtain ⟨x, rfl⟩ := Option.isSome_iff_exists.mp (there p hp)
    exact ⟨x, rfl, (PSet.mem_collected hs x).mp hp⟩
  · intro first
    obtain ⟨x, rfl, hx⟩ := first
    exact (PSet.mem_collected hs x).mpr hx

theorem Collects.firsts_some (h : codec.Collects xs s) (x : T) :
    some x ∈ s.elems ↔ IsFirst xs x := by
  rw [h.firsts]
  constructor
  · intro first
    obtain ⟨_, ⟨⟩, hx⟩ := first
    exact hx
  · intro hx
    exact ⟨x, rfl, hx⟩

theorem Collects.there (h : codec.Collects xs s) : ∀ p ∈ s.elems, p.isSome := by
  intro p hp
  obtain ⟨x, rfl, -⟩ := (h.firsts p).mp hp
  rfl

/-- A search by key finds the first of the list. -/
theorem Collects.findIf_eq (h : codec.Collects xs s) {pred : T → Bool} {k : Keyed.Key T}
    (hpred : ∀ x, pred x = true ↔ Keyed.key x = k) : findIf pred s.elems = .ok (xs.find? pred) :=
  PSet.findIf_eq h.there h.firsts_some hpred

/-- Two sets whose lists are permutations of one another, no key occurring
twice. -/
def Rearranged (s s' : PSet T) : Prop :=
  ∃ xs ys, xs.Perm ys ∧ DistinctKeys xs ∧ codec.Collects xs s ∧ codec.Collects ys s'

/-- A set does not tell in which order its elements came. -/
theorem Rearranged.eq {s s' : PSet T} (h : codec.Rearranged s s') : s = s' := by
  obtain ⟨xs, ys, perm, distinct, hxs, hys⟩ := h
  have distinct' : DistinctKeys ys := (perm.pairwise_iff Ne.symm).mp distinct
  refine PSet.ext (s.ordered.ext ptrLess_asymm s'.ordered fun p => ?_)
  rw [hxs.firsts, hys.firsts]
  refine exists_congr fun x => and_congr_right fun _ => ?_
  rw [isFirst_of_distinct distinct, isFirst_of_distinct distinct', perm.mem_iff]

end Codec

/-- Unlock conditions. -/
def UnlockCondition.codec : Codec UnlockCondition where
  serialize := serialize
  fromQDataStream := fromQDataStream
  getJson := getJson
  fromQJsonValue := fromQJsonValue
  NonNull := NonNull
  Fits := Fits
  advances := advances_unlockCondition
  serialize_ok _ := serialize_ok
  reads _ _ := reads
  getJson_ok _ := getJson_ok
  fromJson _ _ := fromJson

section Lawful

variable [Platform] [LawfulPlatform]

/-- Features. -/
def Feature.codec : Codec Feature where
  serialize := serialize
  fromQDataStream := fromQDataStream
  getJson := getJson
  fromQJsonValue := fromQJsonValue
  NonNull := NonNull
  Fits := Fits
  advances := advances_feature
  serialize_ok _ := serialize_ok
  reads _ _ := reads
  getJson_ok _ := getJson_ok
  fromJson _ _ := fromJson

/-- Native tokens. -/
def NativeToken.codec : Codec NativeToken where
  serialize t := .ok t.serialize
  fromQDataStream := fromQDataStream
  getJson t := .ok t.getJson
  fromQJsonValue := fromQJsonValue
  NonNull _ := True
  Fits := Fits
  advances := advances_nativeToken
  serialize_ok t _ := ⟨t.serialize, rfl⟩
  reads := by
    intro t _ fits heq
    cases heq
    exact reads fits
  getJson_ok t := by simp
  fromJson := by
    intro t _ heq
    cases heq
    exact t.fromJson

end Lawful

/-! ## Of outputs -/

theorem UnlockCondition.Types.toUInt8_inj {a b : Types} : a.toUInt8 = b.toUInt8 ↔ a = b := by
  cases a <;> cases b <;> decide

theorem Feature.Types.toUInt8_inj {a b : Types} : a.toUInt8 = b.toUInt8 ↔ a = b := by
  cases a <;> cases b <;> decide

theorem UnlockCondition.type_iff (typ : Types) (c : UnlockCondition) :
    decide (c.type = typ) = true ↔ Keyed.key c = typ.toUInt8 := by
  rw [decide_eq_true_iff]
  exact Types.toUInt8_inj.symm

theorem Feature.type_iff (typ : Types) (f : Feature) :
    decide (f.type = typ) = true ↔ Keyed.key f = typ.toUInt8 := by
  rw [decide_eq_true_iff]
  exact Types.toUInt8_inj.symm

section Lawful

variable [Platform] [LawfulPlatform]

/-- Every list of elements without null pointers that the count can tell is
collected into a set, by both readers, and the sets of an output answer the
first element of the type they are asked for; the order of the lists is not
told by the output. -/
theorem sets_of_lists :
    (∀ xs : List UnlockCondition, xs.length ≤ 255 → (∀ c ∈ xs, c.NonNull) →
      ∃ s, UnlockCondition.codec.Collects xs s ∧
        ∀ o : Output, o.unlockConditions = s →
          ∀ typ, o.getUnlock typ = .ok (xs.find? fun c => c.type = typ)) ∧
    (∀ xs : List Feature, xs.length ≤ 255 → (∀ f ∈ xs, f.NonNull) →
      ∃ s, Feature.codec.Collects xs s ∧
        (∀ o : Output, o.features = s →
          ∀ typ, o.getFeature typ = .ok (xs.find? fun f => f.type = typ)) ∧
        ∀ o : Output, o.immutableFeatures = s →
          ∀ typ, o.getImmutableFeature typ = .ok (xs.find? fun f => f.type = typ)) ∧
    (∀ xs : List NativeToken, xs.length ≤ 255 → ∃ s, NativeToken.codec.Collects xs s) ∧
    (∀ o o' : Output, o.kind = o'.kind → o.amount = o'.amount →
      UnlockCondition.codec.Rearranged o.unlockConditions o'.unlockConditions →
      Feature.codec.Rearranged o.features o'.features →
      Feature.codec.Rearranged o.immutableFeatures o'.immutableFeatures →
      NativeToken.codec.Rearranged o.nativeTokens o'.nativeTokens →
      o.serialize = o'.serialize) := by
  refine ⟨fun xs count nonNull => ?_, fun xs count nonNull => ?_, fun xs count => ?_, ?_⟩
  · obtain ⟨s, hs⟩ := UnlockCondition.codec.collects count nonNull
    refine ⟨s, hs, ?_⟩
    intro o heq typ
    subst heq
    exact hs.findIf_eq (UnlockCondition.type_iff typ)
  · obtain ⟨s, hs⟩ := Feature.codec.collects count nonNull
    refine ⟨s, hs, ?_, ?_⟩
    · intro o heq typ
      subst heq
      exact hs.findIf_eq (Feature.type_iff typ)
    · intro o heq typ
      subst heq
      exact hs.findIf_eq (Feature.type_iff typ)
  · exact NativeToken.codec.collects count fun _ _ => trivial
  · rintro ⟨_, _, c, f, i, t⟩ ⟨_, _, c', f', i', t'⟩ ⟨⟩ ⟨⟩ conditions features immutable tokens
    obtain rfl : c = c' := conditions.eq
    obtain rfl : f = f' := features.eq
    obtain rfl : i = i' := immutable.eq
    obtain rfl : t = t' := tokens.eq
    rfl

end Lawful

/-! ## Of features -/

section Sample

open Plain

theorem sets_of_lists_sample :
    (∃ s, Feature.codec.Collects [.tag [2], .metadata [7], .tag [1]] s ∧
      ∀ o : Output, o.features = s →
        o.getFeature .tag = .ok (some (.tag [2])) ∧ o.getFeature .sender = .ok none) ∧
    ∃ o o' : Output, Feature.codec.Collects [.tag [2], .metadata [7]] o.features ∧
      Feature.codec.Collects [.metadata [7], .tag [2]] o'.features ∧
      o.serialize = o'.serialize := by
  constructor
  · obtain ⟨s, hs, found, -⟩ := sets_of_lists.2.1 [.tag [2], .metadata [7], .tag [1]] (by decide)
      (by simp [Feature.NonNull])
    exact ⟨s, hs, fun o ho => ⟨found o ho .tag, found o ho .sender⟩⟩
  · obtain ⟨c, hc, -⟩ := sets_of_lists.1 [] (by decide) (by simp)
    obtain ⟨i, hi, -⟩ := sets_of_lists.2.1 [] (by decide) (by simp)
    obtain ⟨t, ht⟩ := sets_of_lists.2.2.1 [] (by decide)
    obtain ⟨f, hf, -⟩ := sets_of_lists.2.1 [.tag [2], .metadata [7]] (by decide)
      (by simp [Feature.NonNull])
    obtain ⟨f', hf', -⟩ := sets_of_lists.2.1 [.metadata [7], .tag [2]] (by decide)
      (by simp [Feature.NonNull])
    have differ : Feature.Types.tag.toUInt8 ≠ Feature.Types.metadata.toUInt8 := by decide
    have distinct : DistinctKeys [Feature.tag [2], .metadata [7]] := List.pairwise_pair.mpr differ
    refine ⟨⟨.basic, 1, c, f, i, t⟩, ⟨.basic, 1, c, f', i, t⟩, hf, hf', ?_⟩
    exact sets_of_lists.2.2.2 _ _ rfl rfl ⟨[], [], .refl _, .nil, hc, hc⟩
      ⟨_, _, .swap _ _ [], distinct, hf, hf'⟩ ⟨[], [], .refl _, .nil, hi, hi⟩
      ⟨[], [], .refl _, .nil, ht, ht⟩

/-- A sender whose hash is empty. -/
def Feature.shortSender : Feature := .sender (some ⟨.ed25519, []⟩)

/-- The stream fills the hash up with zeros, and the array does not. -/
theorem Feature.shortSender_apart :
    ¬ ∃ b js s st, serializeCounted UInt8 serialize [some shortSender] = .ok b ∧
      getJsonAll getJson [some shortSender] = .ok js ∧
      (deserializeList UInt8 fromQDataStream).run ⟨b, .ok⟩ = .ok (s, st) ∧
      getT fromQJsonValue js .empty = .ok s := by
  intro both
  obtain ⟨b, js, s, st, hb, hjs, stream, array⟩ := both
  have kept : getT fromQJsonValue js .empty =
      .ok ⟨[some shortSender], List.pairwise_singleton _ _⟩ :=
    getT_getJsonAll (fun _ _ => Feature.fromJson) hjs
  cases array.symm.trans kept
  cases hb
  have answered : (((deserializeList UInt8 fromQDataStream).run ⟨[1, 0, 0], .ok⟩).toOption.map
      fun p => p.1.elems) = some [some shortSender] :=
    congrArg (fun r => r.toOption.map fun p => p.1.elems) stream
  exact absurd answered (by decide)

end Sample

end Qblock
