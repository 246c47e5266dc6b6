import Qblock.Laws.Layout

/-!
# The wire form

A basic output keeps its immutable features to itself: they are neither
written nor read as bytes, only as JSON. `wireForm` leaves them out, all
through a payload, and that is all the bytes can tell of an object:

- `…wireForm_serialize` — the wire form is written as the object is;
- `…wireForm_eq_self` — an object of which everything is written, that is,
  whose basic outputs have no immutable features, is its own wire form.
-/

namespace Qblock

open Wire Qt

/-! ## Containers -/

section Containers

variable {T : Type} {f : T → T}

/-- A container whose elements are replaced by others that are written alike. -/
theorem serializeAll_map {serialize : T → Except Fault Bytes}
    (h : ∀ x, serialize (f x) = serialize x) (ps : List (Option T)) :
    serializeAll serialize (ps.map (·.map f)) = serializeAll serialize ps := by
  induction ps with
  | nil => rfl
  | cons p ps ih =>
    cases p with
    | none => rfl
    | some x =>
      simp only [List.map_cons, Option.map_some, serializeAll, ih]
      show (do let head ← serialize (f x); _) = _
      rw [h x]
      rfl

/-- Containers of elements that are written alike, and of as many. -/
theorem serializeCounted_map {σ : Type} [Scalar σ] {serialize : T → Except Fault Bytes}
    (h : ∀ x, serialize (f x) = serialize x) (ps : List (Option T)) :
    serializeCounted σ serialize (ps.map (·.map f)) = serializeCounted σ serialize ps := by
  rw [serializeCounted, serializeCounted, serializeAll_map h, List.length_map]

/-- A container whose elements all stay as they are. -/
theorem map_eq_self {ps : List (Option T)} (h : AllFit (fun x => f x = x) ps) :
    ps.map (·.map f) = ps := by
  conv_rhs => rw [← List.map_id ps]
  refine List.map_congr_left fun p hp => ?_
  cases p with
  | none => rfl
  | some x => exact congrArg some (h _ hp x rfl)

end Containers

/-! ## Outputs -/

namespace Output

/-- Everything of the output is written: a basic one has no immutable features. -/
def AllWritten (o : Output) : Prop := o.kind = .basic → o.immutableFeatures = .empty

/-- Only a basic output with immutable features is not its own wire form. -/
theorem wireForm_eq_self {o : Output} (h : o.AllWritten) : o.wireForm = o := by
  obtain ⟨kind, _, _, _, _, _⟩ := o
  cases kind with
  | basic =>
    have empty := h rfl
    simp only at empty
    simp only [wireForm, empty]
  | nft _ | foundry _ _ | «alias» _ _ _ _ => rfl

/-- Leaving something out makes no null pointer. -/
theorem wireForm_nonNull {o : Output} (h : o.NonNull) : o.wireForm.NonNull := by
  obtain ⟨kind, _, _, _, _, _⟩ := o
  cases kind with
  | basic => exact ⟨h.kind, h.unlockConditions, h.features, nofun, h.nativeTokens⟩
  | nft _ | foundry _ _ | «alias» _ _ _ _ => exact h

/-- What is left of an output that fits does. -/
theorem wireForm_fits {o : Output} (h : o.Fits) : o.wireForm.Fits := by
  obtain ⟨kind, _, _, _, _, _⟩ := o
  cases kind with
  | basic =>
    exact ⟨h.kind, h.unlockConditions, h.features, nofun, h.nativeTokens, h.nativeTokens_count⟩
  | nft _ | foundry _ _ | «alias» _ _ _ _ => exact h

/-- A basic output with an immutable feature, as its JSON constructor makes
of an object with that member. -/
def withImmutableFeature : Output where
  kind := .basic
  amount := 1
  unlockConditions := .empty
  features := .empty
  immutableFeatures := ⟨[some (.tag [])], List.pairwise_singleton _ _⟩
  nativeTokens := .empty

/-- The wire form of the sample has lost its feature. -/
theorem withImmutableFeature_wireForm : withImmutableFeature.wireForm ≠ withImmutableFeature := by
  intro h
  have features := congrArg (fun o => o.immutableFeatures.elems) h
  exact absurd features (by decide)

/-- The immutable features of a basic output are not written anyway. -/
theorem wireForm_serialize [Platform] (o : Output) : o.wireForm.serialize = o.serialize := by
  obtain ⟨kind, _, _, _, _, _⟩ := o
  cases kind with
  | basic | nft _ | foundry _ _ | «alias» _ _ _ _ => rfl

end Output

/-! ## Essences and payloads -/

mutual

/-- Everything of the essence is written. -/
def Essence.AllWritten : Essence → Prop
  | .transaction _ _ _ outputs payload => AllFit Output.AllWritten outputs ∧
    match payload with
    | some p => p.AllWritten
    | none => True

/-- Everything of the payload is written. -/
def Payload.AllWritten : Payload → Prop
  | .taggedData _ _ => True
  | .transaction essence _ =>
    match essence with
    | some e => e.AllWritten
    | none => True

end

mutual

theorem Essence.wireForm_eq_self : ∀ {e : Essence}, e.AllWritten → e.wireForm = e
  | .transaction _ _ _ outputs none, h => by
    rw [Essence.AllWritten] at h
    rw [Essence.wireForm,
      map_eq_self fun p hp o ho => Output.wireForm_eq_self (h.1 p hp o ho)]
  | .transaction _ _ _ outputs (some p), h => by
    rw [Essence.AllWritten] at h
    rw [Essence.wireForm, Payload.wireForm_eq_self h.2,
      map_eq_self fun p hp o ho => Output.wireForm_eq_self (h.1 p hp o ho)]

theorem Payload.wireForm_eq_self : ∀ {p : Payload}, p.AllWritten → p.wireForm = p
  | .taggedData _ _, _ => by rw [Payload.wireForm]
  | .transaction none _, _ => by rw [Payload.wireForm]
  | .transaction (some e) _, h => by
    rw [Payload.AllWritten] at h
    rw [Payload.wireForm, Essence.wireForm_eq_self h]

end

section Writing

variable [Platform]

mutual

theorem Essence.wireForm_serialize : ∀ e : Essence, e.wireForm.serialize = e.serialize
  | .transaction _ _ _ outputs none => by
    rw [Essence.wireForm, Essence.serialize, Essence.serialize,
      serializeCounted_map Output.wireForm_serialize]
  | .transaction _ _ _ outputs (some p) => by
    simp only [Essence.wireForm, Essence.serialize,
      serializeCounted_map Output.wireForm_serialize, Payload.wireForm_serialize p]

theorem Payload.wireForm_serialize : ∀ p : Payload, p.wireForm.serialize = p.serialize
  | .taggedData _ _ => by rw [Payload.wireForm]
  | .transaction none _ => by rw [Payload.wireForm]
  | .transaction (some e) _ => by
    simp only [Payload.wireForm, Payload.serialize, Essence.wireForm_serialize e]

end

end Writing

/-! ## Blocks -/

namespace Block

/-- Everything of the block is written. -/
def AllWritten (b : Block) : Prop := ∀ p ∈ b.payload, p.AllWritten

theorem wireForm_eq_self {b : Block} (h : b.AllWritten) : b.wireForm = b := by
  obtain ⟨_, _, payload, _⟩ := b
  cases payload with
  | none => rfl
  | some p => rw [wireForm, Option.map_some, Payload.wireForm_eq_self (h p rfl)]

theorem wireForm_serialize [Platform] (b : Block) : b.wireForm.serialize = b.serialize := by
  obtain ⟨_, _, payload, _⟩ := b
  cases payload with
  | none => rfl
  | some p =>
    simp only [wireForm, Option.map_some, serialize, serializeHead, Payload.wireForm_serialize p]

end Block

end Qblock
