import Qblock.Laws.Decoded
import Qblock.Laws.Embedded
import Qblock.Laws.NullSafety
import Qblock.Laws.Written

/-!
# Decoding and writing again

Blocks are malleable: the decoder does not compare the length in front of a
payload with the number of bytes the payload takes, and it reads the
elements of a set in any order and drops those of a key that is already
there. So two byte strings can be decoded into one block.

They cannot if they are in the canonical form. A block decoded from all of
such a string is written as that string, and its id is the hash of the bytes
received; and a block is written as the string it was decoded from for no
other string.
-/

namespace Qblock

open Wire Qt

namespace Block

/-- A block decoded from a canonical string, to the last byte, is written
as that string. -/
theorem serialize_decoded [Platform] [LawfulPlatform] {bs : Bytes} {b : Block}
    (decoded : ofQDataStream.run ⟨bs, .ok⟩ = .ok (b, ⟨[], .ok⟩)) (canonical : Canonical bs) :
    b.NonNull ∧ b.serialize = .ok bs := by
  obtain ⟨⟨_, s⟩, hscan⟩ := canonical
  obtain ⟨b', hb', nonNull, consumed⟩ := judges_block.accepts hscan
  cases decoded.symm.trans hb'
  obtain ⟨-, w, written, heq⟩ := consumed rfl
  have hw : w = bs := by
    rw [List.append_nil] at heq
    exact heq.symm
  exact ⟨nonNull nofun, hw ▸ written rfl⟩

/-- A payload that was decoded stood behind a length that is not zero. So if
the bytes are those the block is written as, the length of the payload is
not cut off to zero. -/
theorem shown_of_decoded [Platform] {bs : Bytes} {b : Block} {s : Stream}
    (parents : ∀ id ∈ b.parents, id.length = 32) (count : b.parents.length < 256)
    (decoded : ofQDataStream.run ⟨bs, .ok⟩ = .ok (b, s)) (serialized : b.serialize = .ok bs) :
    ∀ p ∈ b.payload, ∀ x, p.serialize = .ok x → (Scalar.ofNat x.length : UInt32) ≠ 0 := by
  intro p hp x hx hzero
  obtain ⟨slot, hslot, rfl⟩ := serialize_eq_ok.mp serialized
  rw [Option.mem_def.mp hp, serializeSlot, hx] at hslot
  cases hslot
  rw [lengthPrefixed, hzero, List.append_assoc (Scalar.put (0 : UInt32)), ofQDataStream,
    run_bind_ok ((reads_scalar b.protocolVersion).run _ _),
    run_bind_ok ((reads_parents parents count).run _ _),
    run_bind_ok (reads_slot_none.run _ _)] at decoded
  obtain ⟨nonce, s', -, hpure⟩ := run_bind_eq_ok.mp decoded
  injection hpure with hpair
  injection hpair with hb
  have none : b.payload = none := (congrArg Block.payload hb).symm
  rw [none] at hp
  cases hp

/-- A block that is written as the string it was decoded from, to the last
byte, embeds no payload, as such a payload leaves at least four bytes of its
own unread. -/
theorem flat_of_serialize [Platform] [LawfulPlatform] {bs : Bytes} {b : Block}
    (decoded : ofQDataStream.run ⟨bs, .ok⟩ = .ok (b, ⟨[], .ok⟩)) (small : bs.length < 256 ^ 4)
    (serialized : b.serialize = .ok bs) : b.Flat := by
  intro p hp
  by_contra embeds
  obtain ⟨⟨parents, count⟩, fits⟩ := always_fits _ _ _ decoded
  have shown := shown_of_decoded parents count decoded serialized p hp
  obtain ⟨slot, hslot, rfl⟩ := serialize_eq_ok.mp serialized
  rw [Option.mem_def.mp hp, serializeSlot, bind_eq_ok] at hslot
  obtain ⟨x, hx, ⟨⟩⟩ := hslot
  have inside : x.length < 256 ^ 4 := by
    simp only [lengthPrefixed, List.length_append] at small
    omega
  have pfits := fits p hp (Payload.slotsFit_of_serialize hx inside)
  obtain ⟨p', left, four, leaves⟩ := Payload.leaves_some pfits embeds hx
  have read : (readSlot Payload.fromQDataStream).run
      ⟨lengthPrefixed x ++ Scalar.put b.nonce, .ok⟩ =
        .ok (some p', ⟨left ++ Scalar.put b.nonce, .ok⟩) := by
    rw [lengthPrefixed, List.append_assoc, readSlot, run_bind_ok ((reads_scalar _).run _ _),
      if_pos (shown x hx)]
    exact leaves _ _
  rw [ofQDataStream, run_bind_ok ((reads_scalar b.protocolVersion).run _ _),
    run_bind_ok ((reads_parents parents count).run _ _), run_bind_ok read] at decoded
  obtain ⟨nonce, s', hnonce, hpure⟩ := run_bind_eq_ok.mp decoded
  injection hpure with hpair
  injection hpair with _ hs'
  rw [hs'] at hnonce
  have length := congrArg List.length (readScalar_whole hnonce)
  rw [List.length_append, Scalar.put_length, Scalar.put_length] at length
  omega

/-- Of a block that embeds no payload and is written as the string it was
decoded from, that string is canonical. -/
theorem canonical_of_serialize [Platform] [LawfulPlatform] {bs : Bytes} {b : Block} {s : Stream}
    (decoded : ofQDataStream.run ⟨bs, .ok⟩ = .ok (b, s)) (nonNull : b.NonNull) (flat : b.Flat)
    (serialized : b.serialize = .ok bs) : Canonical bs := by
  obtain ⟨⟨parents, count⟩, fits⟩ := always_fits _ _ _ decoded
  have shown := shown_of_decoded parents count decoded serialized
  exact canonical_of_reads (reads_scan nonNull parents count
    (fun p hp => fits p hp (Payload.slotsFit_of_flat (flat p hp))) flat shown serialized)

/-- Blocks decoded to the last byte are written as the bytes they were
decoded from exactly if those are canonical; then their id is the hash of
the bytes received. That a block embeds no payload has to be asked for only
of strings of 4 GiB and more. -/
theorem serialize_iff_canonical [Platform] [LawfulPlatform] {bs : Bytes} {b : Block}
    (decoded : ofQDataStream.run ⟨bs, .ok⟩ = .ok (b, ⟨[], .ok⟩)) :
    (Canonical bs →
      b.NonNull ∧ b.serialize = .ok bs ∧ b.blockId = .ok (Platform.blake2b256 bs)) ∧
    (b.NonNull → b.Flat ∨ bs.length < 256 ^ 4 → b.serialize = .ok bs → Canonical bs) := by
  refine ⟨fun canonical => ?_, fun nonNull short serialized => ?_⟩
  · obtain ⟨nonNull, serialized⟩ := serialize_decoded decoded canonical
    refine ⟨nonNull, serialized, ?_⟩
    rw [blockId, serialized]
    rfl
  · have flat := short.elim id fun small => flat_of_serialize decoded small serialized
    exact canonical_of_serialize decoded nonNull flat serialized

section Sample

open Plain

/-- Tagged data in a block of two parents. -/
def taggedDataBytes : Bytes :=
  [2, 2] ++ List.replicate 32 1 ++ List.replicate 32 2 ++ [18, 0, 0, 0] ++
    [5, 0, 0, 0, 4, 73, 79, 84, 65, 5, 0, 0, 0, 104, 101, 108, 108, 111] ++
    [206, 109, 0, 0, 0, 0, 0, 0]

theorem serialize_iff_canonical_taggedData :
    ∃ b : Block, ofQDataStream.run ⟨taggedDataBytes, .ok⟩ = .ok (b, ⟨[], .ok⟩) ∧
      b.NonNull ∧ b.serialize = .ok taggedDataBytes ∧
      b.blockId = .ok (Platform.blake2b256 taggedDataBytes) :=
  ⟨_, rfl, (serialize_iff_canonical rfl).1 ⟨_, rfl⟩⟩

/-- The same tagged data, behind a length of 1. -/
def wrongLengthBytes : Bytes :=
  [2, 0, 1, 0, 0, 0] ++ [5, 0, 0, 0, 0, 0, 0, 0, 0] ++ [0, 0, 0, 0, 0, 0, 0, 0]

/-- A transaction of one basic output with a tag in front of a metadata
feature. -/
def unorderedBytes : Bytes :=
  [2, 0, 72, 0, 0, 0] ++ [6, 0, 0, 0, 1] ++ List.replicate 8 0 ++ [0, 0] ++
    List.replicate 32 0 ++ [1, 0] ++ [3, 0, 0, 0, 0, 0, 0, 0, 0, 0, 0, 2, 3, 0, 2, 0, 0] ++
    [0, 0, 0, 0] ++ [0, 0] ++ [0, 0, 0, 0, 0, 0, 0, 0]

/-- What a lenient string decodes into has no null pointer. -/
theorem decoded_nonNull {bs : Bytes}
    (h : (scanBlock .lenient).run ⟨bs, .ok⟩ = .ok ((), ⟨[], .ok⟩)) :
    ∃ b : Block, ofQDataStream.run ⟨bs, .ok⟩ = .ok (b, ⟨[], .ok⟩) ∧ b.NonNull := by
  obtain ⟨b, hb, nonNull, -⟩ := judges_block.accepts h
  exact ⟨b, hb, nonNull nofun⟩

/-- What the bytes are decoded into is written as. -/
def rewritten (bs : Bytes) : Except Fault Bytes := do
  let (b, _) ← ofQDataStream.run ⟨bs, .ok⟩
  b.serialize

theorem rewritten_eq {bs : Bytes} {b : Block} {s : Stream}
    (h : ofQDataStream.run ⟨bs, .ok⟩ = .ok (b, s)) : rewritten bs = b.serialize := by
  rw [rewritten, h]
  rfl

/-- Blocks with a wrong length and with features out of order are decoded
and written as other bytes. -/
theorem not_serialize_of_unordered :
    (∃ b : Block, ofQDataStream.run ⟨wrongLengthBytes, .ok⟩ = .ok (b, ⟨[], .ok⟩) ∧
      b.NonNull ∧ b.serialize ≠ .ok wrongLengthBytes) ∧
    (∃ b : Block, ofQDataStream.run ⟨unorderedBytes, .ok⟩ = .ok (b, ⟨[], .ok⟩) ∧
      b.NonNull ∧ b.serialize ≠ .ok unorderedBytes) := by
  have other : rewritten wrongLengthBytes ≠ .ok wrongLengthBytes ∧
      rewritten unorderedBytes ≠ .ok unorderedBytes := by decide +kernel
  obtain ⟨b, hb, nonNull⟩ : ∃ b, ofQDataStream.run ⟨wrongLengthBytes, .ok⟩ = .ok (b, ⟨[], .ok⟩) ∧
      b.NonNull := decoded_nonNull (by decide +kernel)
  obtain ⟨c, hc, nonNull'⟩ : ∃ c, ofQDataStream.run ⟨unorderedBytes, .ok⟩ = .ok (c, ⟨[], .ok⟩) ∧
      c.NonNull := decoded_nonNull (by decide +kernel)
  exact ⟨⟨b, hb, nonNull, rewritten_eq hb ▸ other.1⟩, c, hc, nonNull', rewritten_eq hc ▸ other.2⟩

end Sample

end Block

end Qblock
