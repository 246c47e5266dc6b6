import Qblock.Laws.Budget
import Qblock.Laws.Canonical
import Qblock.Laws.Lifecycle
import Qblock.Laws.Locality

/-!
# The normal form of a decoded block

Decoding a byte string and writing what came out is a projection: it ends in
a canonical string, which is decoded into the same block and written as
itself, and which is no longer than the bytes decoded. So every byte string
that is decoded has a normal form, and it is in it exactly if it is
canonical.

The rest of the module is about the objects instead of the bytes: those that
survive being written and read back are those that fit and of which
everything is written, and they are what the decoders can answer.

- `Block.normal_form` — of the bytes of a block;
- `roundTrips_iff` — of outputs, payloads and blocks.
-/

namespace Qblock

open Wire Qt

section Platform

variable [Platform]

/-! ## What is decoded is all written -/

section Decoded

variable {get : Read (Option Payload)}

/-- If what is embedded is all written, so is an essence that was read. -/
theorem Essence.always_allWritten (h : AlwaysFits get Payload.AllWritten) :
    AlwaysFits (fromQDataStream get) AllWritten := by
  have slot : AlwaysFits (readSlot get) Payload.AllWritten :=
    Always.behind fun _ => Always.ite (fun _ => h) fun _ => AlwaysFits.null
  have vector : Always (deserializeVector UInt16 Output.fromQDataStream)
      (AllFit Output.AllWritten) := fun s ps s' hrun =>
    (always_vector Output.always_allWritten s ps s' hrun).1
  have transaction : Always (ofQDataStream get) AllWritten :=
    Always.behind fun _ => Always.behind fun _ => Always.behind fun _ => vector.bind fun _ ho =>
      slot.bind fun payload hp => Always.pure (by
        cases payload with
        | none => exact ⟨ho, trivial⟩
        | some p => exact ⟨ho, hp p rfl⟩)
  exact Always.behind fun _ =>
    Always.ite (fun _ => AlwaysFits.made transaction) fun _ => AlwaysFits.null

namespace Payload

/-- So is a payload that was read. -/
theorem always_allWritten_dispatch (h : AlwaysFits get AllWritten) :
    AlwaysFits (dispatchQDataStream get) AllWritten := by
  have transaction : Always (transactionOfQDataStream get) AllWritten :=
    (Essence.always_allWritten h).bind fun essence he => Always.behind fun _ => Always.pure (by
      cases essence with
      | none => trivial
      | some e => exact he e rfl)
  have taggedData : Always taggedDataOfQDataStream AllWritten :=
    Always.behind fun _ => Always.behind fun _ => Always.pure trivial
  exact Always.behind fun _ =>
    Always.ite (fun _ => AlwaysFits.made transaction) fun _ =>
    Always.ite (fun _ => AlwaysFits.made taggedData) fun _ => AlwaysFits.null

theorem always_allWritten : AlwaysFits fromQDataStream AllWritten :=
  always_fromQDataStream always_allWritten_dispatch

omit [Platform] in
theorem nesting_of_flat {p : Payload} (flat : p.Flat) : p.nesting = 0 := by
  cases p with
  | taggedData _ _ => rw [nesting]
  | transaction essence _ =>
    cases essence with
    | none => rw [nesting]
    | some e =>
      obtain ⟨_, _, _, _, payload⟩ := e
      have none : payload = none := flat _ rfl
      subst none
      rw [nesting, Essence.nesting]

end Payload

namespace Block

theorem always_allWritten : Always ofQDataStream AllWritten := by
  have slot : AlwaysFits (readSlot Payload.fromQDataStream) Payload.AllWritten :=
    Always.behind fun _ => Always.ite (fun _ => Payload.always_allWritten) fun _ => AlwaysFits.null
  exact Always.behind fun _ => Always.behind fun _ => slot.bind fun _ hp =>
    Always.behind fun _ => Always.pure hp

omit [Platform] in
theorem nesting_of_flat {b : Block} (flat : b.Flat) : b.nesting = 0 := by
  cases hp : b.payload with
  | none => rw [nesting, hp, Option.elim_none]
  | some p => rw [nesting, hp, Option.elim_some, Payload.nesting_of_flat (flat p hp)]

end Block

end Decoded

/-! ## The normal form -/

variable [LawfulPlatform]

namespace Block

/-- A decoded block without embedded payloads fits, as its payload is no
longer than the bytes it was decoded from. -/
theorem fits_of_decoded {bs rest : Bytes} {b : Block}
    (decoded : ofQDataStream.run ⟨bs, .ok⟩ = .ok (b, ⟨rest, .ok⟩)) (flat : b.Flat)
    (small : bs.length < 256 ^ 4) : b.Fits := by
  obtain ⟨⟨parents, count⟩, payload⟩ := always_fits _ _ _ decoded
  refine ⟨parents, count, fun p hp => payload p hp (Payload.slotsFit_of_flat (flat p hp)), fun p hp x hx => ?_⟩
  obtain ⟨bounded, -⟩ := decode_byteSize decoded
  have inside : x.length ≤ b.byteSize := by
    rw [Payload.serialize_length hx, byteSize, Option.mem_def.mp hp, byteSizeAt, Option.elim_some]
    omega
  rw [nesting_of_flat flat] at bounded
  omega

/-- The block decoded from a byte string is written in a canonical form that
is decoded into the same block, in front of anything, and is no longer than
the bytes decoded; these are that form exactly if they are canonical. -/
theorem normal_form {bs rest : Bytes} {b : Block}
    (decoded : ofQDataStream.run ⟨bs, .ok⟩ = .ok (b, ⟨rest, .ok⟩)) (nonNull : b.NonNull)
    (flat : b.Flat) (small : bs.length < 256 ^ 4) :
    ∃ x, b.serialize = .ok x ∧ Canonical x ∧ x.length + rest.length ≤ bs.length ∧
      (∀ s, ofQDataStream.run ⟨x ++ s, .ok⟩ = .ok (b, ⟨s, .ok⟩)) ∧
      ∀ w, bs = w ++ rest → (w = x ↔ Canonical w) := by
  obtain ⟨x, hx⟩ := serialize_ok nonNull
  have fits := fits_of_decoded decoded flat small
  have canonical := canonical_serialize nonNull fits flat hx
  have read := reads fits flat hx
  rw [wireForm_eq_self (always_allWritten _ _ _ decoded)] at read
  have shorter := (decode_byteSize decoded).2 x hx
  rw [nesting_of_flat flat] at shorter
  refine ⟨x, hx, canonical, shorter, fun s => read.run s .ok, fun w hw => ?_⟩
  constructor
  · intro heq
    rw [heq]
    exact canonical
  · intro hcanonical
    -- the bytes decoded are decoded alone, too
    obtain ⟨v, hv, readv, -⟩ := (resumes (SameButMemory.refl _)).settles.reads decoded
    have heq : w = v := List.append_cancel_right (hw.symm.trans hv)
    have run := readv.run [] .ok
    rw [List.append_nil, ← heq] at run
    exact Except.ok.inj ((serialize_decoded run hcanonical).2.symm.trans hx)

end Block

/-! ## What survives -/

/-- What `from_` can answer. -/
def Answers {T : Type} (from_ : Read (Option T)) (x : T) : Prop :=
  ∃ s s', from_.run s = .ok (some x, s')

namespace Output

/-- What the decoder of outputs can answer. -/
theorem answers_iff {o : Output} (nonNull : o.NonNull) :
    Answers fromQDataStream o ↔ o.Fits ∧ o.AllWritten := by
  constructor
  · intro h
    obtain ⟨s, s', hrun⟩ := h
    exact ⟨always_fits _ _ _ hrun o rfl, always_allWritten _ _ _ hrun o rfl⟩
  · intro h
    obtain ⟨fits, written⟩ := h
    obtain ⟨b, hb⟩ := serialize_ok nonNull
    have run := (reads fits hb).run [] .ok
    rw [wireForm_eq_self written] at run
    exact ⟨_, _, run⟩

/-- An output is its own clone exactly if it can be read at all. -/
theorem clone_eq_self_iff {o : Output} (nonNull : o.NonNull) :
    o.clone = .ok (some o) ↔ o.Fits ∧ o.AllWritten := by
  constructor
  · intro h
    obtain ⟨b, hb⟩ := serialize_ok nonNull
    rw [clone, hb] at h
    obtain ⟨⟨_, s'⟩, hrun, heq⟩ := map_eq_ok.mp h
    cases heq
    exact (answers_iff nonNull).mp ⟨_, s', hrun⟩
  · intro h
    obtain ⟨fits, written⟩ := h
    rw [clone_eq nonNull fits, wireForm_eq_self written]

end Output

/-- A payload that is written and embeds none, and the bytes it is written
as. -/
theorem Payload.survives_iff {p : Payload} {x : Bytes} (flat : p.Flat) (hx : p.serialize = .ok x) :
    (fromQDataStream.run ⟨x, .ok⟩ = .ok (some p, ⟨[], .ok⟩) ↔ p.Fits ∧ p.AllWritten) ∧
    (Answers fromQDataStream p ↔ p.Fits ∧ p.AllWritten) := by
  have answered : Answers fromQDataStream p → p.Fits ∧ p.AllWritten := by
    intro h
    obtain ⟨s, s', hrun⟩ := h
    exact ⟨always_fits _ _ _ hrun p rfl (slotsFit_of_flat flat),
      always_allWritten _ _ _ hrun p rfl⟩
  have read : p.Fits ∧ p.AllWritten →
      fromQDataStream.run ⟨x, .ok⟩ = .ok (some p, ⟨[], .ok⟩) := by
    intro h
    obtain ⟨fits, written⟩ := h
    have run := (reads fits flat hx).run [] .ok
    rwa [wireForm_eq_self written, List.append_nil] at run
  exact ⟨⟨fun run => answered ⟨_, _, run⟩, read⟩, ⟨answered, fun h => ⟨_, _, read h⟩⟩⟩

namespace Block

/-- The parents and the payload of a block fit, everything is written, and
the length of the payload is not cut off to zero. -/
structure Survives (b : Block) : Prop where
  parents : ∀ id ∈ b.parents, id.length = 32
  parents_count : b.parents.length < 256
  payload : ∀ p ∈ b.payload, p.Fits
  allWritten : b.AllWritten
  shown : ∀ p ∈ b.payload, ∀ x, p.serialize = .ok x → (Scalar.ofNat x.length : UInt32) ≠ 0

/-- Such a block is read back, whatever follows it. -/
theorem Survives.reads {b : Block} {x : Bytes} (h : b.Survives) (flat : b.Flat)
    (hx : b.serialize = .ok x) : Reads ofQDataStream x b := by
  have slot : ∀ slot, serializeSlot b.payload = .ok slot →
      Reads (readSlot Payload.fromQDataStream) slot b.payload := by
    intro slot hslot
    cases hp : b.payload with
    | none =>
      rw [hp] at hslot
      cases hslot
      exact reads_slot_none
    | some p =>
      rw [hp, serializeSlot, bind_eq_ok] at hslot
      obtain ⟨serialized, hs, ⟨⟩⟩ := hslot
      have read := Payload.reads (h.payload p hp) (flat p hp) hs
      rw [Payload.wireForm_eq_self (h.allWritten p hp)] at read
      refine (reads_scalar _).bind ?_
      rwa [if_pos (h.shown p hp _ hs)]
  obtain ⟨written, hwritten, rfl⟩ := serialize_eq_ok.mp hx
  exact (reads_scalar b.protocolVersion).bind ((reads_parents h.parents h.parents_count).bind
    ((slot written hwritten).bind (reads_scalar b.nonce).bind_pure))

/-- No other block is: the decoder cannot answer it. -/
theorem survives_iff {b : Block} {x : Bytes} (flat : b.Flat) (hx : b.serialize = .ok x) :
    ofQDataStream.run ⟨x, .ok⟩ = .ok (b, ⟨[], .ok⟩) ↔ b.Survives := by
  constructor
  · intro decoded
    obtain ⟨⟨parents, count⟩, payload⟩ := always_fits _ _ _ decoded
    exact ⟨parents, count, fun p hp => payload p hp (Payload.slotsFit_of_flat (flat p hp)),
      always_allWritten _ _ _ decoded, shown_of_decoded parents count decoded hx⟩
  · intro h
    have run := (h.reads flat hx).run [] .ok
    rwa [List.append_nil] at run

end Block

/-- What survives being written and read back is what fits and is all
written, and that is what the decoders can answer. In a block it does not
matter how long the payload is, as long as the low 32 bits of its length are
not all zero. -/
theorem roundTrips_iff :
    (∀ o : Output, o.NonNull →
      (o.clone = .ok (some o) ↔ o.Fits ∧ o.AllWritten) ∧
      (Answers Output.fromQDataStream o ↔ o.Fits ∧ o.AllWritten)) ∧
    (∀ (p : Payload) (x : Bytes), p.Flat → p.serialize = .ok x →
      (Payload.fromQDataStream.run ⟨x, .ok⟩ = .ok (some p, ⟨[], .ok⟩) ↔ p.Fits ∧ p.AllWritten) ∧
      (Answers Payload.fromQDataStream p ↔ p.Fits ∧ p.AllWritten)) ∧
    ∀ (b : Block) (x : Bytes), b.Flat → b.serialize = .ok x →
      (Block.ofQDataStream.run ⟨x, .ok⟩ = .ok (b, ⟨[], .ok⟩) ↔ b.Survives) :=
  ⟨fun _ nonNull => ⟨Output.clone_eq_self_iff nonNull, Output.answers_iff nonNull⟩,
    fun _ _ => Payload.survives_iff, fun _ _ => Block.survives_iff⟩

end Platform

section Sample

open Plain

/-- A wrong length is put right. -/
theorem Block.normal_form_wrongLength :
    ∃ (b : Block) (x : Bytes), b.serialize = .ok x ∧ Canonical x ∧
      x.length ≤ wrongLengthBytes.length ∧ x ≠ wrongLengthBytes := by
  let b : Block := ⟨2, [], some (.taggedData [] []), 0⟩
  have decoded : ofQDataStream.run ⟨wrongLengthBytes, .ok⟩ = .ok (b, ⟨[], .ok⟩) := rfl
  have nonNull : b.NonNull := by
    intro p hp
    cases hp
    trivial
  have flat : b.Flat := by
    intro p hp
    cases hp
    trivial
  obtain ⟨x, hx, canonical, shorter, -, -⟩ := normal_form decoded nonNull flat (by decide)
  refine ⟨b, x, hx, canonical, shorter, fun heq => ?_⟩
  have other : b.serialize ≠ .ok wrongLengthBytes := by decide
  exact other (heq ▸ hx)

/-- An NFT is its own clone, and the block with a transaction of it comes
back from its bytes. -/
theorem roundTrips_iff_sampleNft :
    Output.sampleNft.clone = .ok (some .sampleNft) ∧
    ∃ x, (Block.ofOutput .sampleNft).serialize = .ok x ∧
      Block.ofQDataStream.run ⟨x, .ok⟩ = .ok (.ofOutput .sampleNft, ⟨[], .ok⟩) := by
  have written : Output.sampleNft.AllWritten := nofun
  constructor
  · exact (roundTrips_iff.1 _ Output.sampleNft_nonNull).1.mpr ⟨Output.sampleNft_fits, written⟩
  · obtain ⟨x, hx⟩ := Block.serialize_ok (Block.ofOutput_nonNull Output.sampleNft_nonNull)
    refine ⟨x, hx, (roundTrips_iff.2.2 _ x (Block.ofOutput_flat _) hx).mpr ?_⟩
    have fits := Block.ofOutput_sampleNft_fits
    refine ⟨fits.parents, fits.parents_count, fits.payload, ?_, ?_⟩
    · rintro _ ⟨⟩
      simp [Payload.ofOutput, Payload.AllWritten, Essence.AllWritten, AllFit, written]
    · rintro _ ⟨⟩ x ⟨⟩
      decide +kernel

end Sample

end Qblock
