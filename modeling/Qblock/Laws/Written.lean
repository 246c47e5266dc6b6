import Qblock.Laws.RoundTrip
import Qblock.Laws.Scan

/-!
# What is written is canonical

The scanner of the canonical form accepts every serialized block without
embedded payloads, to the last byte. A scanner of a single tagged object
rejects nothing, so it walks over what its decoder reads
(`Wire.Judges.reads`), and that the decoder reads the bytes of a written
object is the round trip. What is left are the tags that have to be known,
the keys of a set, which stand in increasing order since the set is written
in its order, and the length in front of a payload.

- `reads_scanList` — a written set is accepted;
- `Block.reads_scan` — a written block is, even if the length of its payload
  is cut off, as long as it is not cut off to zero;
- `Block.canonical_serialize` — so a written block is in the canonical form.
-/

namespace Qblock

open Wire Qt

/-! ## Containers -/

section Containers

variable {T β : Type} {σ : Type} [Scalar σ] {serialize : T → Except Fault Bytes}
  {ps : List (Option T)} {b : Bytes}

theorem reads_required {policy : Policy} {scan : Scanner Bool} {w : Bytes}
    (h : Reads scan w true) : Reads (required policy scan) w () := by
  rw [← List.append_nil w]
  apply h.bind
  rw [if_pos (.inr rfl)]
  exact Reads.pure ()

/-- The elements of a written container, each walked over. -/
theorem reads_elements {scan : Scanner β} (seen : T → β)
    (h : ∀ p ∈ ps, ∀ x ∈ p, ∀ c, serialize x = .ok c → Reads scan c (seen x))
    (hcount : ps.length < 256 ^ Scalar.width σ) (hb : serializeCounted σ serialize ps = .ok b) :
    ∃ xs : List T, ps = xs.map some ∧
      Reads (do
        let length : σ ← readScalar
        repeatRead scan (Scalar.toNat length)) b (xs.map seen) := by
  obtain ⟨c, hc, rfl⟩ := serializeCounted_eq_ok.mp hb
  obtain ⟨bs, hbs, rfl⟩ := serializeAll_eq_ok.mp hc
  obtain ⟨xs, hxs, elems⟩ : ∃ xs : List T, ps = xs.map some ∧
      List.Forall₂ (Reads scan) bs (xs.map seen) := by
    clear hcount hb hc
    induction hbs with
    | nil => exact ⟨[], rfl, .nil⟩
    | cons head _ ih =>
      obtain ⟨x, rfl, hx⟩ := head
      obtain ⟨xs, rfl, elems⟩ := ih fun p hp => h p (List.mem_cons_of_mem _ hp)
      exact ⟨x :: xs, rfl, .cons (h _ List.mem_cons_self x rfl _ hx) elems⟩
  have read := Reads.repeat elems
  refine ⟨xs, hxs, (reads_scalar _).bind ?_⟩
  rwa [Scalar.toNat_ofNat_of_lt hcount, hxs, List.length_map, ← List.length_map seen]

/-- A written vector. -/
theorem reads_scanVector {scan : Scanner Unit}
    (h : ∀ p ∈ ps, ∀ x ∈ p, ∀ c, serialize x = .ok c → Reads scan c ())
    (hcount : ps.length < 256 ^ Scalar.width σ) (hb : serializeCounted σ serialize ps = .ok b) :
    Reads (scanVector σ scan) b () := by
  obtain ⟨xs, -, read⟩ := reads_elements (fun _ => ()) h hcount hb
  have packed := read.bind_pure (f := fun _ => ())
  rwa [bind_assoc] at packed

/-- Whole elements in increasing order of their keys are let in. -/
theorem enterAll_ordered {K : Type} [LT K] [DecidableLT K]
    (trans : ∀ a b c : K, a < b → b < c → a < c) : ∀ ks keys : List K,
    (∀ k ∈ keys, ∀ k' ∈ ks, k < k') → ks.Pairwise (· < ·) →
      ∃ keys', enterAll .canonical keys (ks.map fun k => some (k, true)) = .ok keys'
  | [], keys, _, _ => ⟨keys, rfl⟩
  | k :: ks, keys, before, ordered => by
    obtain ⟨hk, hks⟩ := List.pairwise_cons.mp ordered
    have first : enter .canonical keys (some (k, true)) = .ok (k :: keys) :=
      if_pos ⟨rfl, fun k' hk' => before k' hk' k List.mem_cons_self⟩
    have behind : ∀ k' ∈ k :: keys, ∀ k'' ∈ ks, k' < k'' := by
      intro k' hk' k'' hk''
      cases hk' with
      | head => exact hk k'' hk''
      | tail _ hk' => exact trans _ _ _ (before k' hk' k List.mem_cons_self) (hk k'' hk'')
    obtain ⟨keys', hall⟩ := enterAll_ordered trans ks (k :: keys) behind hks
    refine ⟨keys', ?_⟩
    rw [List.map_cons, enterAll, first]
    exact hall

/-- The keys of a set increase. -/
theorem PSet.keys_ordered [Keyed T] {s : PSet T} {xs : List T} (h : s.elems = xs.map some) :
    (xs.map Keyed.key).Pairwise (· < ·) := by
  have ordered : (xs.map some).Pairwise fun p q => ptrLess p q = .ok true := h ▸ s.ordered
  rw [List.pairwise_map] at ordered ⊢
  refine ordered.imp fun hless => ?_
  rw [ptrLess_some] at hless
  exact of_decide_eq_true (Except.ok.inj hless)

/-- A written set. -/
theorem reads_scanList [Keyed T] {scan : Scanner (Seen (Keyed.Key T))} {s : PSet T}
    (h : ∀ p ∈ s.elems, ∀ x ∈ p, ∀ c, serialize x = .ok c →
      Reads scan c (some (Keyed.key x, true)))
    (hcount : s.elems.length < 256 ^ Scalar.width σ) (hb : serializeList σ serialize s = .ok b) :
    Reads (scanList .canonical σ scan) b () := by
  obtain ⟨xs, hxs, read⟩ := reads_elements (fun x => some (Keyed.key x, true)) h hcount hb
  obtain ⟨keys, hkeys⟩ := enterAll_ordered Keyed.trans (xs.map Keyed.key) []
    (fun _ hk => absurd hk List.not_mem_nil) (PSet.keys_ordered hxs)
  rw [List.map_map] at hkeys
  have entered : enterSet .canonical (xs.map fun x => some (Keyed.key x, true)) = .ok () := by
    have other : Policy.canonical ≠ .comparable := by decide
    rw [enterSet, if_neg fun h => other h.1]
    exact bind_eq_ok.mpr ⟨keys, hkeys, rfl⟩
  have whole := read.bind (f := fun es => lift (enterSet .canonical es)) (Reads.lift entered)
  rwa [bind_assoc, List.append_nil] at whole

end Containers

/-! ## Tagged objects -/

section Pointers

variable {T : Type} {from_ : Read (Option T)} {x : T} {w : Bytes}

theorem JudgesPlain.reads {serialize : T → Bytes} {scan : Scanner Bool}
    (h : JudgesPlain serialize from_ scan) (hget : Reads from_ w (some x)) : Reads scan w true :=
  Judges.reads h hget fun _ hb => hb.symm

theorem JudgesElement.reads [Keyed T] {policy : Policy} {nonNull : T → Prop}
    {serialize : T → Except Fault Bytes} {scan : Scanner (Seen (Keyed.Key T))}
    (h : JudgesElement policy nonNull serialize from_ scan) (hget : Reads from_ w (some x))
    (hx : nonNull x) : Reads scan w (some (Keyed.key x, true)) := by
  refine Judges.reads h hget fun e he => ?_
  obtain ⟨whole, rfl, hwhole⟩ := he
  rw [hwhole.mp hx]

end Pointers

theorem reads_skip_scalar {σ : Type} [Scalar σ] (x : σ) :
    Reads (skip (Scalar.width σ)) (Scalar.put x) () := reads_skip (Scalar.put_length x)

theorem Unlock.reads_scan {u : Unlock} {b : Bytes} (fits : u.Fits) (h : u.serialize = .ok b) :
    Reads (scanUnlock .canonical) b true := by
  cases u with
  | signature s =>
    cases s with
    | none => cases h
    | some s =>
      cases h
      have signature := judges_signature.reads (Signature.reads (fits s rfl))
      exact (reads_scalar _).bind (reads_required signature).bind_pure
  | reference index | «alias» index | nft index =>
    cases h
    exact (reads_scalar _).bind (reads_skip_scalar index).bind_pure

section Lawful

variable [Platform] [LawfulPlatform]

theorem reads_skipFlArray {σ : Type} [Scalar σ] {a : Bytes} (h : a.length < 256 ^ Scalar.width σ) :
    Reads (skipFlArray σ) (writeFlArray σ a) () :=
  judges_flArray.reads (reads_flArray h) fun _ _ => rfl

/-! ## Outputs -/

namespace Output

theorem reads_scanNativeTokens {s : PSet NativeToken} {b : Bytes}
    (fits : AllFit NativeToken.Fits s.elems) (count : s.elems.length < 256)
    (h : serializeNativeTokens s = .ok b) :
    Reads (scanList .canonical UInt8 scanNativeToken) b () := by
  refine reads_scanList (fun p hp t ht c hc => ?_) count h
  cases hc
  have element : JudgesElement .canonical _ _ _ _ := judges_nativeToken
  exact element.reads (NativeToken.reads (fits p hp t ht)) trivial

omit [Platform] [LawfulPlatform] in
theorem reads_scanUnlockConditions {s : PSet UnlockCondition} {b : Bytes}
    (nonNull : AllNonNull UnlockCondition.NonNull s.elems)
    (fits : AllFit UnlockCondition.Fits s.elems) (h : serializeUnlockConditions s = .ok b) :
    Reads (scanList .canonical UInt8 scanUnlockCondition) b () := by
  refine reads_scanList (fun p hp c hc x hx => ?_)
    (Nat.lt_of_le_of_lt (unlockConditions_length_le s) (by decide)) h
  obtain ⟨_, hmem, hnonNull⟩ := nonNull p hp
  cases Option.mem_unique hc hmem
  have element : JudgesElement .canonical _ _ _ _ := judges_unlockCondition
  exact element.reads (UnlockCondition.reads (fits p hp c hc) hx) hnonNull

theorem reads_scanFeatures {s : PSet Feature} {b : Bytes}
    (nonNull : AllNonNull Feature.NonNull s.elems) (fits : AllFit Feature.Fits s.elems)
    (h : serializeFeatures s = .ok b) : Reads (scanList .canonical UInt8 scanFeature) b () := by
  refine reads_scanList (fun p hp f hf x hx => ?_)
    (Nat.lt_of_le_of_lt (features_length_le s) (by decide)) h
  obtain ⟨_, hmem, hnonNull⟩ := nonNull p hp
  cases Option.mem_unique hf hmem
  have element : JudgesElement .canonical _ _ _ _ := judges_feature
  exact element.reads (Feature.reads (fits p hp f hf) hx) hnonNull

/-- A written output, behind which its unlock conditions, its features and,
unless it is basic, its immutable features come last. -/
theorem reads_scan {o : Output} {b : Bytes} (nonNull : o.NonNull) (fits : o.Fits)
    (h : o.serialize = .ok b) : Reads (scanOutput .canonical) b true := by
  obtain ⟨nativeTokens, kind, unlockConditions, features, last, hnt, hkind, huc, hf, hlast, rfl⟩ :=
    serialize_eq_ok.mp h
  have tokens := reads_scanNativeTokens fits.nativeTokens fits.nativeTokens_count hnt
  have conditions := reads_scanUnlockConditions nonNull.unlockConditions fits.unlockConditions huc
  have features' := reads_scanFeatures nonNull.features fits.features hf
  have immutable : ∀ w, serializeFeatures o.immutableFeatures = .ok w →
      Reads (scanSets .canonical true) (unlockConditions ++ (features ++ w)) true := by
    intro w hw
    have last := reads_scanFeatures nonNull.immutableFeatures fits.immutableFeatures hw
    exact conditions.bind (features'.bind last.bind_pure)
  obtain ⟨kind', amount, _, _, _, _⟩ := o
  cases kind' with
  | basic =>
    cases hkind
    cases hlast
    rw [List.append_nil]
    exact (reads_scalar _).bind ((reads_skip_scalar amount).bind
      (tokens.bind (conditions.bind features'.bind_pure)))
  | nft nftId =>
    cases hkind
    exact (reads_scalar _).bind ((reads_skip_scalar amount).bind
      (tokens.bind ((reads_skip fits.kind).bind (immutable _ hlast))))
  | foundry tokenScheme serialNumber =>
    cases tokenScheme with
    | none => cases hkind
    | some tokenScheme =>
      cases hkind
      rw [List.append_assoc]
      have scheme := judges_tokenScheme.reads (TokenScheme.reads tokenScheme)
      exact (reads_scalar _).bind ((reads_skip_scalar amount).bind
        (tokens.bind ((reads_skip_scalar serialNumber).bind
          ((reads_required scheme).bind (immutable _ hlast)))))
  | «alias» aliasId stateIndex foundryCounter stateMetadata =>
    cases hkind
    obtain ⟨hid, hmetadata⟩ := fits.kind
    simp only [List.append_assoc]
    exact (reads_scalar _).bind ((reads_skip_scalar amount).bind
      (tokens.bind ((reads_skip hid).bind ((reads_skip_scalar stateIndex).bind
        ((reads_skipFlArray hmetadata).bind ((reads_skip_scalar foundryCounter).bind
          (immutable _ hlast)))))))

end Output

/-! ## Payloads -/

section Payloads

variable {embedded : Scanner Bool}

/-- A written essence that embeds no payload. -/
theorem Essence.reads_scan {e : Essence} {b : Bytes} (nonNull : e.NonNull) (fits : e.Fits)
    (flat : e.payload = none) (h : e.serialize = .ok b) :
    Reads (scanEssence .canonical embedded) b true := by
  obtain ⟨networkId, inputs, inputsCommitment, outputs, payload⟩ := e
  have none : payload = none := flat
  subst none
  obtain ⟨-, ho, -⟩ := nonNull_transaction.mp nonNull
  obtain ⟨hi, hicount, hcommitment, hofit, hocount, -⟩ := fits_transaction.mp fits
  obtain ⟨inputs', outputs', slot, hinputs, houtputs, ⟨⟩, rfl⟩ := serialize_eq_ok.mp h
  have input : ∀ p ∈ inputs, ∀ i ∈ p, ∀ c, (.ok i.serialize : Except Fault Bytes) = .ok c →
      Reads (required .canonical scanInput) c () := by
    intro p hp i hmem c hc
    cases hc
    exact reads_required (judges_input.reads (Input.reads (hi p hp i hmem)))
  have output : ∀ p ∈ outputs, ∀ o ∈ p, ∀ c, o.serialize = .ok c →
      Reads (required .canonical (scanOutput .canonical)) c () := by
    intro p hp o hmem c hc
    obtain ⟨_, hmem', hnonNull⟩ := ho p hp
    cases Option.mem_unique hmem hmem'
    exact reads_required (Output.reads_scan hnonNull (hofit p hp o hmem) hc)
  have empty : Reads (scanEmbedded .canonical embedded) (Scalar.put (0 : UInt32)) () := by
    rw [← List.append_nil (Scalar.put (0 : UInt32))]
    exact (reads_scalar (0 : UInt32)).bind (Reads.pure ())
  exact (reads_scalar _).bind ((reads_skip_scalar networkId).bind
    ((reads_scanVector input hicount hinputs).bind ((reads_skip hcommitment).bind
      ((reads_scanVector output hocount houtputs).bind empty.bind_pure))))

/-- A written payload that embeds no other. -/
theorem Payload.reads_scanWith {p : Payload} {b : Bytes} (nonNull : p.NonNull) (fits : p.Fits)
    (flat : p.Flat) (h : p.serialize = .ok b) :
    Reads (scanPayloadWith .canonical embedded) b true := by
  cases p with
  | taggedData tag data =>
    rw [Payload.serialize, pure_eq_ok] at h
    rw [Payload.Fits] at fits
    rw [h, List.append_assoc]
    exact (reads_scalar _).bind ((reads_skipFlArray fits.1).bind
      (reads_skipFlArray fits.2).bind_pure)
  | transaction essence unlocks =>
    obtain ⟨⟨e, hmem, hessence⟩, -⟩ := nonNull_transaction.mp nonNull
    obtain ⟨hefit, hufit, hcount⟩ := fits_transaction.mp fits
    obtain ⟨_, essence', unlocks', heq, he, hunlocks, rfl⟩ := serialize_eq_ok.mp h
    cases Option.mem_unique hmem heq
    have essence : Reads (scanEssence .canonical embedded) essence' true :=
      Essence.reads_scan hessence (hefit e hmem) (flat e hmem) he
    have unlock : ∀ p ∈ unlocks, ∀ u ∈ p, ∀ c, u.serialize = .ok c →
        Reads (required .canonical (scanUnlock .canonical)) c () := fun p hp u hmem _ hc =>
      reads_required (Unlock.reads_scan (hufit p hp u hmem) hc)
    exact (reads_scalar _).bind ((reads_required essence).bind
      (reads_scanVector unlock hcount hunlocks).bind_pure)

theorem Payload.reads_scan {p : Payload} {b : Bytes} (nonNull : p.NonNull) (fits : p.Fits)
    (flat : p.Flat) (h : p.serialize = .ok b) : Reads (scanPayload .canonical) b true := by
  intro rest st
  rw [scanPayload, StateT.run_bind, StateT.run_get]
  exact reads_scanWith nonNull fits flat h rest st

end Payloads

/-! ## Blocks -/

namespace Block

/-- The slot of a written block, if the length of its payload is not cut off
to zero. -/
theorem reads_scanSlot {payload : Option Payload} {slot : Bytes}
    (nonNull : ∀ p ∈ payload, p.NonNull) (fits : ∀ p ∈ payload, p.Fits)
    (flat : ∀ p ∈ payload, p.Flat)
    (shown : ∀ p ∈ payload, ∀ x, p.serialize = .ok x → (Scalar.ofNat x.length : UInt32) ≠ 0)
    (h : serializeSlot payload = .ok slot) :
    Reads (scanSlot .canonical (scanPayload .canonical)) slot () := by
  cases payload with
  | none =>
    cases h
    rw [← List.append_nil (Scalar.put (0 : UInt32))]
    exact (reads_scalar (0 : UInt32)).bind (Reads.pure ())
  | some p =>
    obtain ⟨serialized, hs, ⟨⟩⟩ := bind_eq_ok.mp h
    have payload := (Payload.reads_scan (nonNull p rfl) (fits p rfl) (flat p rfl) hs).measured
    apply (reads_scalar _).bind
    rw [if_pos (shown p rfl _ hs), ← List.append_nil serialized]
    apply payload.bind
    show Reads (if true = true ∧ Scalar.ofNat serialized.length = _ then _ else _) [] ()
    rw [List.append_nil, if_pos ⟨rfl, rfl⟩]
    exact Reads.pure ()

/-- A written block, if the length of its payload is not cut off to zero. -/
theorem reads_scan {b : Block} {x : Bytes} (nonNull : b.NonNull)
    (parents : ∀ id ∈ b.parents, id.length = 32) (count : b.parents.length < 256)
    (fits : ∀ p ∈ b.payload, p.Fits) (flat : b.Flat)
    (shown : ∀ p ∈ b.payload, ∀ x, p.serialize = .ok x → (Scalar.ofNat x.length : UInt32) ≠ 0)
    (h : b.serialize = .ok x) : Reads (scanBlock .canonical) x () := by
  obtain ⟨slot, hslot, rfl⟩ := serialize_eq_ok.mp h
  have ids : List.Forall₂ (Reads (skip 32)) b.parents (b.parents.map fun _ => ()) :=
    List.forall₂_map_right_iff.mpr
      (List.forall₂_same.mpr fun id hid => reads_skip (parents id hid))
  have walked := Reads.repeat ids
  rw [List.length_map, ← Scalar.toNat_ofNat_of_lt (σ := UInt8) count] at walked
  have payload := reads_scanSlot nonNull fits flat shown hslot
  rw [List.append_assoc]
  exact (reads_skip_scalar b.protocolVersion).bind ((reads_scalar _).bind
    (walked.bind (payload.bind (reads_skip_scalar b.nonce))))

omit [Platform] [LawfulPlatform] in
theorem canonical_of_reads {x : Bytes} (h : Reads (scanBlock .canonical) x ()) : Canonical x := by
  have run := h.run [] .ok
  rw [List.append_nil] at run
  exact ⟨_, run⟩

/-- A written block is in the canonical form. -/
theorem canonical_serialize {b : Block} {x : Bytes} (nonNull : b.NonNull) (fits : b.Fits)
    (flat : b.Flat) (h : b.serialize = .ok x) : Canonical x := by
  have shown : ∀ p ∈ b.payload, ∀ y, p.serialize = .ok y →
      (Scalar.ofNat y.length : UInt32) ≠ 0 := fun p hp y hy =>
    length_ne_zero (fits.payload_length p hp y hy) (Payload.serialize_ne_nil hy)
  exact canonical_of_reads
    (reads_scan nonNull fits.parents fits.parents_count fits.payload flat shown h)

end Block

end Lawful

end Qblock
