import Qblock.Wire.Concat
import Qblock.Laws.Truncation
import Qblock.Laws.Unambiguous

/-!
# Objects appended to an array

`from_object` appends, so an array that is filled by one call after the
other holds the objects one behind the other with nothing between them, and
`to_object` reads the first of them and looks at nothing else. What was
appended can still be told, and blocks that embed no payload in a payload
are read back by a loop over one stream; of an array cut short, those before
the cut.
-/

namespace Qblock

open Wire Qt

/-! ## Appending -/

section Appending

variable {T : Type} {serialize : T → Except Fault Bytes} {fits : T → Prop} {same : T → T → Prop}

/-- `from_object` of one object after the other. -/
def CArray.fromObjects (serialize : T → Except Fault Bytes) : Bytes → List T → Except Fault Bytes
  | array, [] => .ok array
  | array, obj :: objs => do
    let array ← fromObject serialize array obj
    fromObjects serialize array objs

theorem CArray.fromObject_eq_ok {array b : Bytes} {obj : T} :
    fromObject serialize array obj = .ok b ↔ ∃ x, serialize obj = .ok x ∧ b = array ++ x := by
  simp only [fromObject, bind_eq_ok, pure_eq_ok]

/-- What an array holds after a run of `from_object`. -/
theorem CArray.fromObjects_eq_ok {objs : List T} : ∀ {array b : Bytes},
    fromObjects serialize array objs = .ok b ↔
      ∃ x, Concat (fun p x => serialize p = .ok x) objs x ∧ b = array ++ x := by
  induction objs with
  | nil =>
    intro array b
    simp only [fromObjects, Concat, Except.ok.injEq, exists_eq_left, List.append_nil]
    exact eq_comm
  | cons obj objs ih =>
    intro array b
    simp only [fromObjects, bind_eq_ok, fromObject_eq_ok, Concat, ih]
    constructor
    · intro h
      obtain ⟨_, ⟨x, hx, rfl⟩, rest, hrest, rfl⟩ := h
      exact ⟨x ++ rest, ⟨x, rest, hx, hrest, rfl⟩, List.append_assoc _ _ _⟩
    · intro h
      obtain ⟨_, ⟨x, rest, hx, hrest, rfl⟩, rfl⟩ := h
      exact ⟨array ++ x, ⟨x, hx, rfl⟩, rest, hrest, (List.append_assoc _ _ _).symm⟩

/-- A serializer that is prefix free and writes something is a code. -/
theorem PrefixFree.told (h : PrefixFree serialize fits same)
    (nonempty : ∀ p x, serialize p = .ok x → x ≠ []) :
    Told (fun p x => fits p ∧ serialize p = .ok x) same where
  nonempty p x hp := nonempty p x hp.2
  front := by
    intro p q x y s t hp hq heq
    have equal : x = y := by
      rcases List.append_eq_append_iff.mp heq with ⟨u, rfl, -⟩ | ⟨u, rfl, -⟩
      · rw [(h q p x u hq.1 hp.1 hp.2 hq.2).2, List.append_nil]
      · rw [(h p q y u hp.1 hq.1 hq.2 hp.2).2, List.append_nil]
    subst equal
    exact ⟨(h p q x [] hp.1 hq.1 hq.2 (by rw [hp.2, List.append_nil])).1, rfl⟩

/-- What was appended is told by the array, and if the array was then
appended to, by its front. -/
def AppendedTold (serialize : T → Except Fault Bytes) (fits : T → Prop) (same : T → T → Prop) :
    Prop :=
  ∀ array ps qs y s, (∀ p ∈ ps, fits p) → (∀ q ∈ qs, fits q) →
    CArray.fromObjects serialize array ps = .ok y →
    CArray.fromObjects serialize array qs = .ok (y ++ s) →
    ∃ ds es, qs = ds ++ es ∧ List.Forall₂ same ps ds ∧
      CArray.fromObjects serialize y es = .ok (y ++ s)

theorem PrefixFree.appended (h : PrefixFree serialize fits same)
    (nonempty : ∀ p x, serialize p = .ok x → x ≠ []) : AppendedTold serialize fits same := by
  intro array ps qs y s fitp fitq hp hq
  obtain ⟨x, hx, rfl⟩ := CArray.fromObjects_eq_ok.mp hp
  obtain ⟨x', hx', heq⟩ := CArray.fromObjects_eq_ok.mp hq
  rw [List.append_assoc] at heq
  rw [← List.append_cancel_left heq] at hx'
  obtain ⟨ds, es, rfl, all, hes⟩ := (hx.imp fun p hp _ h => ⟨fitp p hp, h⟩).told
    (h.told nonempty) (hx'.imp fun q hq _ h => ⟨fitq q hq, h⟩)
  exact ⟨ds, es, rfl, all, CArray.fromObjects_eq_ok.mpr ⟨s, hes.imp fun _ _ _ h => h.2, rfl⟩⟩

end Appending

section Reading

variable [Platform] [LawfulPlatform]

omit [LawfulPlatform] in
theorem Block.serialize_ne_nil {b : Block} {x : Bytes} (h : b.serialize = .ok x) : x ≠ [] := by
  obtain ⟨slot, -, rfl⟩ := serialize_eq_ok.mp h
  intro empty
  have hlen := congrArg List.length empty
  rw [List.length_append, Scalar.put_length] at hlen
  cases Nat.eq_zero_of_add_eq_zero_right hlen

/-- An array to which payloads or blocks were appended tells them. -/
theorem appended_told :
    AppendedTold Payload.serialize Payload.Fits (fun p q => p.wireForm = q.wireForm) ∧
    AppendedTold Block.serialize Block.Fits (fun b c => b.wireForm = c.wireForm) :=
  ⟨Payload.prefixFree.appended fun _ _ => Payload.serialize_ne_nil,
    Block.prefixFree.appended fun _ _ => Block.serialize_ne_nil⟩

/-! ## Reading back -/

/-- Blocks appended to an array: a loop over one stream reads all of them,
`to_object` the first, and of what is left of them behind any cut, the loop
reads those before it and answers the next one with the stream past its
end. -/
theorem Block.appended_read (array : Bytes) {bs : List Block} (nonNull : ∀ b ∈ bs, b.NonNull)
    (fits : ∀ b ∈ bs, b.Fits) (flat : ∀ b ∈ bs, b.Flat) :
    ∃ x, CArray.fromObjects serialize array bs = .ok (array ++ x) ∧
      Reads (repeatRead ofQDataStream bs.length) x (bs.map wireForm) ∧
      (∀ b ∈ bs.head?, ∀ rest, CArray.toObject ofQDataStream (x ++ rest) = .ok b.wireForm) ∧
      ∀ t, t <+: x → t ≠ x → ∃ k < bs.length, ∃ rest,
        (repeatRead ofQDataStream k).run ⟨t, .ok⟩ =
          .ok ((bs.take k).map wireForm, ⟨rest, .ok⟩) ∧
        ∃ b, ofQDataStream.run ⟨rest, .ok⟩ = .ok (b, exhausted) := by
  obtain ⟨x, hx⟩ : ∃ x, Concat (fun b x => serialize b = .ok x) bs x :=
    exists_concat fun b hb => serialize_ok (nonNull b hb)
  have read : ∀ b ∈ bs, ∀ w, b.serialize = .ok w → Reads ofQDataStream w b.wireForm :=
    fun b hb _ hw => Block.reads (fits b hb) (flat b hb) hw
  obtain ⟨words, rfl, all, written⟩ := hx.pieces read
  refine ⟨_, CArray.fromObjects_eq_ok.mpr ⟨_, hx, rfl⟩, ?_, ?_, ?_⟩
  · have whole := Reads.repeat all
    rwa [List.length_map] at whole
  · intro b hb rest
    cases bs with
    | nil => cases hb
    | cons _ others =>
      cases hb
      obtain ⟨w, behind, hw, -, heq⟩ := hx
      rw [heq, List.append_assoc, CArray.toObject,
        (read b List.mem_cons_self w hw).run (behind ++ rest) .ok]
      rfl
  · intro t ht hne
    have cut : ∀ w ∈ words, Cut ofQDataStream w Anything := by
      intro w hw
      obtain ⟨b, hb, hw⟩ := written w hw
      exact Block.cut (fits b hb) (flat b hb) hw
    obtain ⟨k, hk, rest, run⟩ := Reads.recover all cut ht hne
    obtain ⟨before, b, -, behind⟩ := run .ok
    rw [List.length_map] at hk
    rw [← List.map_take] at before
    exact ⟨k, hk, rest, before, b, behind⟩

end Reading

/-! ## At two blocks -/

section Sample

open Plain

/-- A block with nothing in it. -/
def Block.sampleEmpty : Block := ⟨2, [], none, 0⟩

theorem Block.sampleEmpty_nonNull : sampleEmpty.NonNull := of_mem_none

theorem Block.sampleEmpty_fits : sampleEmpty.Fits :=
  ⟨fun _ h => absurd h List.not_mem_nil, Nat.zero_lt_succ _, of_mem_none, of_mem_none⟩

/-- A block with a transaction and one with nothing in it. -/
theorem Block.appended_read_sampleNft :
    ∃ x, CArray.fromObjects serialize [7] [ofOutput .sampleNft, sampleEmpty] = .ok ([7] ++ x) ∧
      Reads (repeatRead ofQDataStream 2) x
        [(ofOutput .sampleNft).wireForm, sampleEmpty.wireForm] := by
  obtain ⟨x, hx, read, -⟩ := appended_read [7]
    (List.forall_mem_cons.mpr ⟨ofOutput_nonNull Output.sampleNft_nonNull,
      List.forall_mem_singleton.mpr sampleEmpty_nonNull⟩)
    (List.forall_mem_cons.mpr
      ⟨ofOutput_sampleNft_fits, List.forall_mem_singleton.mpr sampleEmpty_fits⟩)
    (List.forall_mem_cons.mpr ⟨ofOutput_flat _, List.forall_mem_singleton.mpr of_mem_none⟩)
  exact ⟨x, hx, read⟩

/-- A block with a transaction, and another one of the same bytes with a
second block behind it. -/
theorem appended_told_withImmutableFeature :
    ∃ y s, CArray.fromObjects Block.serialize [7] [.ofOutput .withImmutableFeature] = .ok y ∧
      ∃ ds es, [Block.ofOutput Output.withImmutableFeature.wireForm, .ofOutput .sampleNft] =
          ds ++ es ∧
        List.Forall₂ (fun b c : Block => b.wireForm = c.wireForm)
          [.ofOutput .withImmutableFeature] ds ∧
        CArray.fromObjects Block.serialize y es = .ok (y ++ s) := by
  have fits : (Block.ofOutput .withImmutableFeature).Fits :=
    Block.ofOutput_fits Output.withImmutableFeature_fits (by rintro x ⟨⟩; decide +kernel)
  have fits' : (Block.ofOutput Output.withImmutableFeature.wireForm).Fits :=
    Block.ofOutput_fits (Output.wireForm_fits Output.withImmutableFeature_fits)
      (by rintro x ⟨⟩; decide +kernel)
  have same : (Block.ofOutput .withImmutableFeature).wireForm =
      .ofOutput Output.withImmutableFeature.wireForm := by
    rw [Block.wireForm, Block.ofOutput, Option.map_some, Payload.ofOutput_wireForm]
    rfl
  obtain ⟨x, hx⟩ := Block.serialize_ok
    (Block.ofOutput_nonNull Output.withImmutableFeature_nonNull)
  obtain ⟨w, hw⟩ := Block.serialize_ok (Block.ofOutput_nonNull Output.sampleNft_nonNull)
  have hx' : (Block.ofOutput Output.withImmutableFeature.wireForm).serialize = .ok x := by
    rw [← same, Block.wireForm_serialize, hx]
  have once : CArray.fromObjects Block.serialize [7] [.ofOutput .withImmutableFeature] =
      .ok ([7] ++ x) := CArray.fromObjects_eq_ok.mpr ⟨x, ⟨x, [], hx, rfl, by simp⟩, rfl⟩
  have twice : CArray.fromObjects Block.serialize [7]
      [.ofOutput Output.withImmutableFeature.wireForm, .ofOutput .sampleNft] =
        .ok ([7] ++ x ++ w) :=
    CArray.fromObjects_eq_ok.mpr ⟨x ++ w, ⟨x, w, hx', ⟨w, [], hw, rfl, by simp⟩, rfl⟩, by simp⟩
  exact ⟨_, w, once, appended_told.2 [7] _ _ _ w (List.forall_mem_singleton.mpr fits)
    (List.forall_mem_cons.mpr
      ⟨fits', List.forall_mem_singleton.mpr Block.ofOutput_sampleNft_fits⟩) once twice⟩

end Sample

end Qblock
