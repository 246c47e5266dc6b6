import Qblock.Laws.RoundTrip

/-!
# Unique readability

What a signature or an id commits to is a serialized object, so that has to
determine the object. The decoder of the source cannot show it: behind an
embedded payload it loses its place. `Payload.fromTerminated` is the reader
the writer of essences expects, which takes the closing zero of a slot off
the stream as well. It reads every payload back, nested to any depth
(`Payload.reads_terminated`), and reading is deterministic.

The bytes do not tell the immutable features of basic outputs, so two
objects that are written alike are equal up to those.
-/

namespace Qblock

open Wire Qt

/-! ## Nesting -/

mutual

/-- How many payloads are embedded in each other in an essence. -/
def Essence.nesting : Essence → Nat
  | .transaction _ _ _ _ payload =>
    match payload with
    | some p => p.nesting + 1
    | none => 0

/-- How many payloads are embedded in each other in a payload. -/
def Payload.nesting : Payload → Nat
  | .taggedData _ _ => 0
  | .transaction essence _ =>
    match essence with
    | some e => e.nesting
    | none => 0

end

section Reading

variable [Platform]

/-! ## The reader the writer expects -/

/-- A payload and the zero that closes its slot. -/
def Payload.closed (payloadFrom : Read (Option Payload)) : Read (Option Payload) := do
  let p ← payloadFrom
  let _ : UInt32 ← readScalar
  return p

/-- The reader of payloads whose slots are closed by a zero, nested at most
so deep. -/
def Payload.fromTerminated : Nat → Read (Option Payload)
  | 0 => lift (.error .recursionLimit)
  | n + 1 => Payload.dispatchQDataStream (Payload.closed (fromTerminated n))

variable [LawfulPlatform]

mutual

/-- An essence, with an embedded payload of the terminated form. -/
theorem Essence.reads_terminated : ∀ {e : Essence} {b : Bytes} {n : Nat}, e.Fits →
    e.serialize = .ok b → e.nesting ≤ n →
    Reads (Essence.fromQDataStream (Payload.closed (Payload.fromTerminated n))) b
      (some e.wireForm)
  | .transaction _ _ _ _ none, b, n, fits, h, _ => by
    rw [Essence.wireForm]
    refine Essence.leaves fits h fun embedded hembedded => ?_
    cases hembedded
    exact reads_slot_none
  | .transaction _ _ _ _ (some p), b, n, fits, h, hn => by
    rw [Essence.nesting] at hn
    rw [Essence.wireForm]
    obtain ⟨hp, small⟩ := (Essence.fits_transaction.mp fits).2.2.2.2.2 p rfl
    refine Essence.leaves fits h fun embedded hembedded => ?_
    rw [Essence.serializeEmbedded, bind_eq_ok] at hembedded
    obtain ⟨serialized, hs, ⟨⟩⟩ := hembedded
    have inner := Payload.reads_terminated hp hs hn
    exact leaves_slot (small _ hs) (Payload.serialize_ne_nil hs)
      (inner.bind (reads_scalar (0 : UInt32)).bind_pure)

/-- A payload of any nesting is read back by the decoder that reads the zero as well. -/
theorem Payload.reads_terminated : ∀ {p : Payload} {b : Bytes} {n : Nat}, p.Fits →
    p.serialize = .ok b → p.nesting < n → Reads (Payload.fromTerminated n) b (some p.wireForm)
  | .taggedData _ _, b, n + 1, fits, h, _ => by
    rw [Payload.wireForm]
    exact Payload.reads_taggedData fits h
  | .transaction none _, b, n + 1, _, h, _ => by
    obtain ⟨_, _, _, ⟨⟩, -⟩ := Payload.serialize_eq_ok.mp h
  | .transaction (some e) _, b, n + 1, fits, h, hn => by
    rw [Payload.nesting] at hn
    rw [Payload.wireForm]
    have he := (Payload.fits_transaction.mp fits).1 e rfl
    exact Payload.reads_transaction fits h fun c hc =>
      Essence.reads_terminated he hc (Nat.le_of_lt_succ hn)

end

namespace Block

/-- How many payloads are nested in a block. -/
def nesting (b : Block) : Nat := b.payload.elim 0 Payload.nesting

/-- So is the payload of a block. -/
theorem reads_terminated {b : Block} {x : Bytes} {n : Nat} (fits : b.Fits)
    (h : b.serialize = .ok x) (hn : b.nesting < n) :
    Reads (readWith (Payload.fromTerminated n)) x b.wireForm := by
  refine reads_with fits (fun p hp x hx => Payload.reads_terminated (fits.payload p hp) hx ?_) h
  have hp' : b.payload = some p := hp
  rwa [nesting, hp', Option.elim_some] at hn

end Block

/-! ## What is written alike -/

/-- What is written, in front of anything, tells the object up to `same`,
and where its bytes end. -/
def PrefixFree {T : Type} (serialize : T → Except Fault Bytes) (fits : T → Prop)
    (same : T → T → Prop) : Prop :=
  ∀ p q x s, fits p → fits q → serialize q = .ok x → serialize p = .ok (x ++ s) →
    same p q ∧ s = []

/-- What has a reader that reads it back in front of anything is prefix-free. -/
theorem Payload.prefixFree :
    PrefixFree Payload.serialize Payload.Fits fun p q => p.wireForm = q.wireForm := by
  intro p q x s hp hq hx hxs
  have readp := reads_terminated (n := max p.nesting q.nesting + 1) hp hxs (by omega)
  have readq := reads_terminated (n := max p.nesting q.nesting + 1) hq hx (by omega)
  obtain ⟨same, rest⟩ := readp.unique readq (List.append_nil _)
  exact ⟨Option.some.inj same, rest.symm⟩

theorem Essence.prefixFree :
    PrefixFree Essence.serialize Essence.Fits fun e f => e.wireForm = f.wireForm := by
  intro e f x s he hf hx hxs
  have reade := reads_terminated (n := max e.nesting f.nesting) he hxs (by omega)
  have readf := reads_terminated (n := max e.nesting f.nesting) hf hx (by omega)
  obtain ⟨same, rest⟩ := reade.unique readf (List.append_nil _)
  exact ⟨Option.some.inj same, rest.symm⟩

theorem Block.prefixFree :
    PrefixFree Block.serialize Block.Fits fun b c => b.wireForm = c.wireForm := by
  intro b c x s hb hc hx hxs
  have readb := reads_terminated (n := max b.nesting c.nesting + 1) hb hxs (by omega)
  have readc := reads_terminated (n := max b.nesting c.nesting + 1) hc hx (by omega)
  obtain ⟨same, rest⟩ := readb.unique readc (List.append_nil _)
  exact ⟨same, rest.symm⟩

omit [Platform] [LawfulPlatform] in
/-- Equal wire forms are equal objects where everything is written. -/
theorem PrefixFree.exact {T : Type} {serialize : T → Except Fault Bytes} {fits : T → Prop}
    {wireForm : T → T} {allWritten : T → Prop}
    (h : PrefixFree serialize fits fun p q => wireForm p = wireForm q)
    (self : ∀ {x}, allWritten x → wireForm x = x) :
    PrefixFree serialize fits fun p q =>
      wireForm p = wireForm q ∧ (allWritten p → allWritten q → p = q) := by
  intro p q x s hp hq hx hxs
  obtain ⟨same, rest⟩ := h p q x s hp hq hx hxs
  exact ⟨⟨same, fun wp wq => by rw [← self wp, same, self wq]⟩, rest⟩

/-- Payloads, essences and blocks are told by their bytes, in front of
anything, up to the immutable features of basic outputs; so exactly, where
those are all empty. -/
theorem serialize_prefixFree :
    (PrefixFree Payload.serialize Payload.Fits fun p q =>
      p.wireForm = q.wireForm ∧ (p.AllWritten → q.AllWritten → p = q)) ∧
    (PrefixFree Essence.serialize Essence.Fits fun e f =>
      e.wireForm = f.wireForm ∧ (e.AllWritten → f.AllWritten → e = f)) ∧
    (PrefixFree Block.serialize Block.Fits fun b c =>
      b.wireForm = c.wireForm ∧ (b.AllWritten → c.AllWritten → b = c)) :=
  ⟨Payload.prefixFree.exact Payload.wireForm_eq_self,
    Essence.prefixFree.exact Essence.wireForm_eq_self,
    Block.prefixFree.exact Block.wireForm_eq_self⟩

end Reading

section Sample

open Plain

/-- A transaction that embeds tagged data. -/
def Payload.sampleNested : Payload :=
  .transaction
    (some (.transaction 7 [some ⟨List.replicate 32 1, 0⟩] (List.replicate 32 2)
      [some .sampleNft] (some (.taggedData [73, 79] [3, 4]))))
    [some (.signature (some ⟨List.replicate 32 5, List.replicate 64 6⟩))]

theorem Payload.sampleNested_nonNull : sampleNested.NonNull := by
  simp [sampleNested, nonNull_transaction, Essence.nonNull_transaction, AllNonNull,
    Unlock.NonNull, Payload.NonNull, Output.sampleNft_nonNull]

theorem Payload.sampleNested_fits : sampleNested.Fits := by
  simp [sampleNested, fits_transaction, Essence.fits_transaction, AllFit, Input.Fits, Unlock.Fits,
    Signature.Fits, Payload.Fits, Output.sampleNft_fits]
  intro b hmem
  cases hmem
  decide

/-- Two transactions that differ in the immutable features of a basic output
fit, and are written as the same bytes. -/
theorem Payload.withImmutableFeature_written :
    (ofOutput .withImmutableFeature).Fits ∧ (ofOutput Output.withImmutableFeature.wireForm).Fits ∧
      ofOutput .withImmutableFeature ≠ ofOutput Output.withImmutableFeature.wireForm ∧
      ∃ x, (ofOutput .withImmutableFeature).serialize = .ok x ∧
        (ofOutput Output.withImmutableFeature.wireForm).serialize = .ok x := by
  have nonNull := Output.withImmutableFeature_nonNull
  have fits := Output.withImmutableFeature_fits
  obtain ⟨x, hx⟩ := Payload.serialize_ok (ofOutput_nonNull nonNull)
  refine ⟨ofOutput_fits fits, ofOutput_fits (Output.wireForm_fits fits), fun same => ?_, x, hx, ?_⟩
  · exact Output.withImmutableFeature_wireForm (ofOutput_injective same).symm
  · rw [← ofOutput_wireForm, wireForm_serialize, hx]

/-- What they are told apart by is not written. -/
theorem serialize_prefixFree_withImmutableFeature :
    Payload.ofOutput .withImmutableFeature ≠
        Payload.ofOutput Output.withImmutableFeature.wireForm ∧
      (Payload.ofOutput .withImmutableFeature).wireForm =
        (Payload.ofOutput Output.withImmutableFeature.wireForm).wireForm := by
  obtain ⟨fits, fits', differ, x, hx, hx'⟩ := Payload.withImmutableFeature_written
  refine ⟨differ, (serialize_prefixFree.1 _ _ x [] fits fits' hx' ?_).1.1⟩
  rw [List.append_nil, hx]

/-- Two transactions that differ in the immutable features of a basic
output are written alike. -/
theorem serialize_blind_to_immutable_feature :
    let p := Payload.ofOutput .withImmutableFeature
    let q := Payload.ofOutput Output.withImmutableFeature.wireForm
    p.NonNull ∧ q.NonNull ∧ p.Fits ∧ q.Fits ∧ p ≠ q ∧
      ∃ x, p.serialize = .ok x ∧ q.serialize = .ok x := by
  have nonNull := Output.withImmutableFeature_nonNull
  obtain ⟨fits, fits', differ, written⟩ := Payload.withImmutableFeature_written
  exact ⟨Payload.ofOutput_nonNull nonNull,
    Payload.ofOutput_nonNull (Output.wireForm_nonNull nonNull), fits, fits', differ, written⟩

end Sample

end Qblock
