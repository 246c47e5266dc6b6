import Qblock.CArray
import Mathlib.Data.List.Perm.Subperm

/-!
# Laws of the containers

What the elements of a container obey carries over to the container: how it
is written, how it is read back and how its reader moves over a stream.

The reader of a set is the reader of a vector followed by a run of
insertions, as long as the reader of the elements itself never faults
(`deserializeList_eq`), so a set has no law of its own beyond the one of
insertion: a set is rebuilt from its elements in order.
-/

namespace Qblock

open Wire Qt

/-- There is nothing behind a null pointer. -/
theorem of_mem_none {T : Type} {P : T → Prop} : ∀ x ∈ (none : Option T), P x :=
  fun x h => absurd h (Option.not_mem_none x)

variable {σ T : Type} [Scalar σ]

/-! ## Writing -/

/-- The elements of a container are written if each is there and is written. -/
theorem serializeAll_eq_ok {serialize : T → Except Fault Bytes} {ps : List (Option T)}
    {b : Bytes} :
    serializeAll serialize ps = .ok b ↔
      ∃ bs, List.Forall₂ (fun c p => ∃ x, p = some x ∧ serialize x = .ok c) bs ps ∧
        b = bs.flatten := by
  induction ps generalizing b with
  | nil =>
    constructor
    · intro heq
      cases heq
      exact ⟨[], .nil, rfl⟩
    · intro h
      obtain ⟨_, ⟨⟩, rfl⟩ := h
      rfl
  | cons p ps ih =>
    constructor
    · intro h
      cases p with
      | none => cases h
      | some x =>
        cases hx : serialize x with
        | error e => simp [serializeAll, deref, hx, bind, Except.bind] at h
        | ok c =>
          cases hrest : serializeAll serialize ps with
          | error e => simp [serializeAll, deref, hx, hrest, bind, Except.bind] at h
          | ok rest =>
            simp only [serializeAll, deref, hx, hrest, bind, Except.bind] at h
            cases h
            obtain ⟨bs, hbs, rfl⟩ := ih.mp hrest
            exact ⟨c :: bs, .cons ⟨x, rfl, hx⟩ hbs, rfl⟩
    · intro h
      obtain ⟨_, hbs, rfl⟩ := h
      cases hbs with
      | cons head tail =>
        obtain ⟨x, rfl, hx⟩ := head
        have hrest := ih.mpr ⟨_, tail, rfl⟩
        simp only [serializeAll, deref, hx, hrest, bind, Except.bind]
        rfl

theorem serializeCounted_eq_ok {serialize : T → Except Fault Bytes} {ps : List (Option T)}
    {b : Bytes} :
    serializeCounted σ serialize ps = .ok b ↔
      ∃ c, serializeAll serialize ps = .ok c ∧
        b = Scalar.put (Scalar.ofNat ps.length : σ) ++ c := by
  unfold serializeCounted
  cases serializeAll serialize ps with
  | error e => simp [bind, Except.bind]
  | ok c =>
    constructor
    · intro heq
      cases heq
      exact ⟨c, rfl, rfl⟩
    · intro h
      obtain ⟨_, ⟨⟩, rfl⟩ := h
      rfl

theorem width_le_serializeCounted {serialize : T → Except Fault Bytes} {ps : List (Option T)}
    {b : Bytes} (h : serializeCounted σ serialize ps = .ok b) : Scalar.width σ ≤ b.length := by
  obtain ⟨c, -, rfl⟩ := serializeCounted_eq_ok.mp h
  rw [List.length_append, Scalar.put_length]
  exact Nat.le_add_right _ _

/-- A container is written exactly if each of its elements is there and is
written. -/
theorem serializeAll_ok_iff {serialize : T → Except Fault Bytes} {ps : List (Option T)} :
    (∃ b, serializeAll serialize ps = .ok b) ↔
      AllNonNull (fun x => ∃ b, serialize x = .ok b) ps := by
  induction ps with
  | nil => simp [serializeAll, AllNonNull]
  | cons p ps ih =>
    cases p with
    | none => simp [serializeAll, AllNonNull, deref, bind_eq_ok]
    | some x =>
      have tail : AllNonNull (fun x => ∃ b, serialize x = .ok b) (some x :: ps) ↔
          (∃ b, serialize x = .ok b) ∧ AllNonNull (fun x => ∃ b, serialize x = .ok b) ps := by
        simp [AllNonNull]
      rw [tail, ← ih]
      simp [serializeAll, deref, bind_eq_ok, map_eq_ok]

/-- A container without null pointers is written, if its elements are. -/
theorem serializeAll_ok {serialize : T → Except Fault Bytes} {nonNull : T → Prop}
    (h : ∀ x, nonNull x → ∃ b, serialize x = .ok b) {ps : List (Option T)}
    (hps : AllNonNull nonNull ps) : ∃ b, serializeAll serialize ps = .ok b := by
  refine serializeAll_ok_iff.mpr fun p hp => ?_
  obtain ⟨x, hx, nonNull⟩ := hps p hp
  exact ⟨x, hx, h x nonNull⟩

theorem serializeCounted_ok {serialize : T → Except Fault Bytes} {nonNull : T → Prop}
    (h : ∀ x, nonNull x → ∃ b, serialize x = .ok b) {ps : List (Option T)}
    (hps : AllNonNull nonNull ps) : ∃ b, serializeCounted σ serialize ps = .ok b := by
  obtain ⟨c, hc⟩ := serializeAll_ok h hps
  exact ⟨_, serializeCounted_eq_ok.mpr ⟨c, hc, rfl⟩⟩

/-! ## Reading what was written -/

/-- A vector whose elements read back up to `f` reads back up to `f`, if its
count is not cut off. -/
theorem reads_vector_map {serialize : T → Except Fault Bytes} {from_ : Read (Option T)}
    {f : T → T} {ps : List (Option T)} {b : Bytes}
    (h : ∀ p ∈ ps, ∀ x ∈ p, ∀ c, serialize x = .ok c → Reads from_ c (some (f x)))
    (hcount : ps.length < 256 ^ Scalar.width σ) (hb : serializeCounted σ serialize ps = .ok b) :
    Reads (deserializeVector σ from_) b (ps.map (·.map f)) := by
  obtain ⟨c, hc, rfl⟩ := serializeCounted_eq_ok.mp hb
  obtain ⟨bs, hbs, rfl⟩ := serializeAll_eq_ok.mp hc
  have elems : List.Forall₂ (Reads from_) bs (ps.map (·.map f)) := by
    clear hcount hb hc
    induction hbs with
    | nil => exact .nil
    | cons head _ ih =>
      obtain ⟨x, rfl, hx⟩ := head
      exact .cons (h _ List.mem_cons_self x rfl _ hx)
        (ih fun p hp => h p (List.mem_cons_of_mem _ hp))
  have read := Reads.repeat elems
  rw [List.length_map] at read
  apply (reads_scalar _).bind
  rwa [Scalar.toNat_ofNat_of_lt hcount]

/-- A vector reads back, if its elements do and its count is not cut off. -/
theorem reads_vector {serialize : T → Except Fault Bytes} {from_ : Read (Option T)}
    {ps : List (Option T)} {b : Bytes}
    (h : ∀ p ∈ ps, ∀ x ∈ p, ∀ c, serialize x = .ok c → Reads from_ c (some x))
    (hcount : ps.length < 256 ^ Scalar.width σ) (hb : serializeCounted σ serialize ps = .ok b) :
    Reads (deserializeVector σ from_) b ps := by
  have read := reads_vector_map (f := id) h hcount hb
  rwa [Option.map_id_fun, List.map_id_fun, id] at read

/-- The loop of `deserializeList`, with the insertions after the reads. -/
theorem deserializeLoop_eq [Keyed T] {from_ : Read (Option T)}
    (h : Advances (fun _ => False) from_) (n : Nat) (s : PSet T) :
    deserializeLoop from_ n s = repeatRead from_ n >>= fun ps => lift (PSet.insertAll ps s) := by
  induction n generalizing s with
  | zero => rfl
  | succ n ih =>
    funext st
    show (deserializeLoop from_ (n + 1) s).run st = (repeatRead from_ (n + 1) >>= _).run st
    obtain ⟨p, st', hp⟩ := h.answers st
    simp only [deserializeLoop, repeatRead, bind_assoc, pure_bind]
    rw [run_bind_ok hp, run_bind_ok hp]
    cases hins : s.insert p with
    | ok s' =>
      rw [run_bind_ok (run_lift_ok s' st'), ih]
      simp only [PSet.insertAll, hins, bind, Except.bind]
    | error e =>
      obtain ⟨ps, st'', hps⟩ := (Advances.repeat h n).answers st'
      rw [run_bind_error (run_lift_error e st'), run_bind_ok hps]
      simp only [PSet.insertAll, hins, bind, Except.bind, run_lift_error]

/-- The reader of a set reads a vector, and then inserts. -/
theorem deserializeList_eq [Keyed T] {from_ : Read (Option T)}
    (h : Advances (fun _ => False) from_) :
    deserializeList σ from_ =
      deserializeVector σ from_ >>= fun ps => lift (PSet.insertAll ps .empty) := by
  simp only [deserializeList, deserializeVector, bind_assoc, deserializeLoop_eq h]

/-- A set reads back, if its elements do and its count is not cut off. -/
theorem reads_list [Keyed T] {serialize : T → Except Fault Bytes} {from_ : Read (Option T)}
    (hfrom : Advances (fun _ => False) from_) {s : PSet T} {b : Bytes}
    (h : ∀ p ∈ s.elems, ∀ x ∈ p, ∀ c, serialize x = .ok c → Reads from_ c (some x))
    (hcount : s.elems.length < 256 ^ Scalar.width σ)
    (hb : serializeList σ serialize s = .ok b) : Reads (deserializeList σ from_) b s := by
  rw [deserializeList_eq hfrom]
  have vector := reads_vector h hcount hb
  have inserted : Reads (lift (PSet.insertAll s.elems .empty)) [] s :=
    Reads.lift (PSet.insertAll_elems s)
  rw [← List.append_nil b]
  exact vector.bind inserted

/-! ## Sizes -/

/-- A set has at most as many elements as there are keys. -/
theorem PSet.length_le [Keyed T] {n : Nat} (hn : 0 < n) (rank : Keyed.Key T → Nat)
    (mono : ∀ a b, a < b → rank a < rank b) (bound : ∀ x : T, rank (Keyed.key x) < n)
    (s : PSet T) : s.elems.length ≤ n := by
  let rankOf : Option T → Nat := fun p => p.elim 0 fun x => rank (Keyed.key x)
  have sorted : (s.elems.map rankOf).Pairwise (· < ·) := by
    refine List.pairwise_map.mpr (s.ordered.imp ?_)
    intro p q hpq
    obtain ⟨x, y, rfl, rfl, hlt⟩ := ptrLess_eq_ok hpq
    exact mono _ _ (of_decide_eq_true hlt.symm)
  have below : s.elems.map rankOf ⊆ List.range n := by
    intro r hr
    obtain ⟨p, -, rfl⟩ := List.mem_map.mp hr
    cases p with
    | none => exact List.mem_range.mpr hn
    | some x => exact List.mem_range.mpr (bound x)
  have counted := (List.subperm_of_subset (sorted.imp Nat.ne_of_lt) below).length_le
  rwa [List.length_map, List.length_range] at counted

/-! ## Moving over a stream -/

section Moving

variable {E : Fault → Prop}

theorem advances_array (n : Nat) : Advances E (readArray n) := advances_raw _

theorem advances_flArray [Platform] : Advances E (readFlArray σ) :=
  advances_scalar.bind fun _ => advances_raw _

theorem advances_quint256 [Platform] : Advances E readQuint256 :=
  (advances_array 32).bind fun _ => Advances.pure _

theorem advances_vector {from_ : Read (Option T)} (h : Advances E from_) :
    Advances E (deserializeVector σ from_) :=
  advances_scalar.bind fun _ => Advances.repeat h _

theorem advances_list [Keyed T] {from_ : Read (Option T)}
    (h : Advances (fun _ => False) from_) :
    Advances (· = .nullPointer) (deserializeList σ from_) := by
  rw [deserializeList_eq h]
  exact ((advances_vector h).imp fun _ => False.elim).bind fun _ =>
    Advances.lift fun _ => PSet.insertAll_fault

theorem takes_array (n : Nat) : Takes n (readArray n) := by
  have raw := takes_raw (ε := Fault) (List.replicate n 0)
  rwa [List.length_replicate] at raw

theorem takes_vector {from_ : Read (Option T)} (h : Advances (fun _ => True) from_) :
    Takes (Scalar.width σ) (deserializeVector σ from_) :=
  takes_scalar.bind fun _ => (Advances.repeat h _).takes

end Moving

end Qblock
