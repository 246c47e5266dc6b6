import Qblock.Wire.Locality
import Qblock.Laws.Canonical
import Qblock.Laws.Truncation

/-!
# What a decoder depends on

A decoder that ends with the status Ok has read its object off the bytes it
walked over: neither what follows them nor what its fresh memory held has a
part in it, although an `fl_array` is resized before it is read over. And
the status is exact: it is `ReadPastEnd` on the proper prefixes of what is
decoded, and on no other input.

- `….resumes` — both, of each reader, over any two memories;
- `decoders_local` — the bytes walked over decide;
- `decoders_statusExact` — the status tells what is missing.
-/

namespace Qblock

open Wire Qt

/-- Two platforms between which a reader can tell by the contents of fresh
memory only. -/
structure SameButMemory (M M' : Platform) : Prop where
  quint256OfBytes : M.quint256OfBytes = M'.quint256OfBytes
  uninitialized_length : ∀ n, (M.uninitialized n).length = (M'.uninitialized n).length

theorem SameButMemory.refl (M : Platform) : SameButMemory M M := ⟨rfl, fun _ => rfl⟩

/-! ## Containers -/

section Containers

variable {T σ : Type} [Scalar σ] {from_ from_' : Read (Option T)}

/-- A vector that was cut is completed element by element. -/
theorem resumes_vector (h : Resumes from_ from_' Anything) :
    Resumes (deserializeVector σ from_) (deserializeVector σ from_') Anything :=
  Resumes.scalar.then fun _ => h.repeat _

variable [Keyed T]

/-- Only the last pointer of a run of insertions can be null. -/
theorem PSet.isSome_of_mem_dropLast {ps : List (Option T)} {s : PSet T}
    (h : insertAll ps empty = .ok s) : ∀ p ∈ ps.dropLast, p.isSome := by
  rcases isSome_of_insertAll h with short | present
  · have nothing : ps.dropLast = [] :=
      List.eq_nil_of_length_eq_zero (by rw [List.length_dropLast]; omega)
    rw [nothing]
    exact fun _ hp => absurd hp List.not_mem_nil
  · exact fun p hp => present p (List.dropLast_subset ps hp)

/-- A set is read as a run of elements that are then inserted. -/
theorem deserializeList_loop (hfrom : Advances (fun _ => False) from_) :
    deserializeList σ from_ = (readScalar >>= fun length : σ =>
      repeatRead from_ (Scalar.toNat length) >>= fun ps => lift (PSet.insertAll ps .empty)) := by
  simp only [deserializeList, deserializeLoop_eq hfrom]

/-- Of the elements read when the end is passed, the whole ones are there,
because something was inserted behind them, and so are the others. -/
theorem resumes_list (hfrom : Advances (fun _ => False) from_)
    (hfrom' : Advances (fun _ => False) from_') (h : Resumes from_ from_' (·.isSome)) :
    Resumes (deserializeList σ from_) (deserializeList σ from_') Anything := by
  rw [deserializeList_loop hfrom, deserializeList_loop hfrom']
  have inserts : ∀ ps : List (Option T), (∀ p ∈ ps, p.isSome) →
      ∃ s, PSet.insertAll ps .empty = .ok s := fun ps hps =>
    (PSet.insertAll_ok hps).imp fun _ => And.left
  refine Resumes.scalar.then fun count => ⟨⟨?_, ?_⟩, ?_, ?_⟩
  · intro s set s' hrun hok
    obtain ⟨ps, s₁, hps, hset⟩ := run_bind_eq_ok.mp hrun
    obtain ⟨inserted, rfl⟩ := run_lift_eq_ok.mp hset
    obtain ⟨hs, length, bs, hbs, reads, cuts⟩ := h.settles.pieces _ _ _ _ hps hok
    have elems := Reads.repeat reads
    have cut := Cut.repeat_dropLast reads cuts (PSet.isSome_of_mem_dropLast inserted) h.drains
    rw [length] at elems cut
    refine ⟨hs, bs.flatten, hbs, ?_, cut.bind_lift fun ps' hps' => ?_⟩
    · rw [← List.append_nil bs.flatten]
      exact elems.bind (Reads.lift inserted)
    · obtain ⟨set', hset'⟩ := inserts ps' hps'
      exact ⟨set', hset', trivial⟩
  · intro t s s' hrun hend
    obtain ⟨ps, s₁, hps, hset⟩ := run_bind_eq_ok.mp hrun
    obtain ⟨inserted, rfl⟩ := run_lift_eq_ok.mp hset
    obtain ⟨u, cs, hcs, reads⟩ :=
      Completes.repeat h.settles h.completes h.readable _ _ _ _ hps hend
    have there : ∀ c ∈ cs, c.isSome := by
      intro c hc
      rcases hcs c hc with whole | completed
      · exact PSet.isSome_of_mem_dropLast inserted c whole
      · exact completed
    obtain ⟨set, hset⟩ := inserts cs there
    refine ⟨u, set, trivial, ?_⟩
    rw [← List.append_nil (t ++ u)]
    exact reads.bind (Reads.lift hset)
  · refine (h.drains.repeat _).bind fun ps hps => ?_
    obtain ⟨s, hs⟩ := inserts ps hps
    exact ⟨s, trivial, by rw [hs]; rfl⟩
  · refine (h.readable.repeat _).bind fun ps hps => ?_
    obtain ⟨s, hs⟩ := inserts ps hps
    exact ⟨[], s, trivial, Reads.lift hs⟩

end Containers

/-! ## Tagged objects -/

theorem resumes_array (n : Nat) : Resumes (readArray n) (readArray n) Anything := Resumes.raw rfl

/-- An address of known tag is completed by the rest of its hash. -/
theorem Address.resumes : Resumes fromQDataStream fromQDataStream Anything := by
  have kind : ∀ type, Resumes (ofQDataStream type >>= fun a => pure (some a))
      (ofQDataStream type >>= fun a => pure (some a)) Anything := fun _ =>
    (resumes_array 32).packed.packed
  exact Resumes.scalar.then fun _ =>
    (kind _).ite ((kind _).ite ((kind _).ite (Resumes.pure trivial)))

/-- An unlock condition that was cut can be completed to one that is there. -/
theorem UnlockCondition.resumes : Resumes fromQDataStream fromQDataStream (·.isSome) := by
  have address : ∀ kind : Option Address → UnlockCondition,
      Resumes (addressOfQDataStream kind >>= fun c => pure (some c))
        (addressOfQDataStream kind >>= fun c => pure (some c)) (·.isSome) :=
    fun _ => Address.resumes.packed.packed_some
  have expiration : Resumes expirationOfQDataStream expirationOfQDataStream Anything :=
    Address.resumes.then fun _ => Resumes.scalar.packed
  have timelock : Resumes timelockOfQDataStream timelockOfQDataStream Anything :=
    Resumes.scalar.packed
  have storageDepositReturn :
      Resumes storageDepositReturnOfQDataStream storageDepositReturnOfQDataStream Anything :=
    Address.resumes.then fun _ => Resumes.scalar.packed
  exact Resumes.tagged (address .address) fun _ =>
    expiration.packed_some.toContinues.ite <|
    timelock.packed_some.toContinues.ite <|
    storageDepositReturn.packed_some.toContinues.ite <|
    (address _).toContinues.ite <| (address _).toContinues.ite <|
    (address _).toContinues.ite <| (address _).toContinues.ite (Continues.pure _)

theorem Input.resumes : Resumes fromQDataStream fromQDataStream Anything := by
  have utxo : Resumes ofQDataStream ofQDataStream Anything :=
    (resumes_array 32).then fun _ => Resumes.scalar.packed
  exact Resumes.scalar.then fun _ => utxo.packed.ite (Resumes.pure trivial)

theorem Signature.resumes : Resumes fromQDataStream fromQDataStream Anything := by
  have ed25519 : Resumes ofQDataStream ofQDataStream Anything :=
    (resumes_array 32).then fun _ => (resumes_array 64).packed
  exact Resumes.scalar.then fun _ => ed25519.packed.ite (Resumes.pure trivial)

/-- A signature unlock is completed in its signature, the others in their
index. -/
theorem Unlock.resumes : Resumes fromQDataStream fromQDataStream Anything := by
  have signature : Resumes signatureOfQDataStream signatureOfQDataStream Anything :=
    Signature.resumes.packed
  have index : ∀ kind : UInt16 → Unlock,
      Resumes (indexOfQDataStream kind >>= fun u => pure (some u))
        (indexOfQDataStream kind >>= fun u => pure (some u)) Anything := fun _ =>
    Resumes.scalar.packed.packed
  exact Resumes.scalar.then fun _ => signature.packed.ite <|
    (index _).ite <| (index _).ite <| (index _).ite (Resumes.pure trivial)

/-! ## Over two memories -/

section Memory

variable {M M' : Platform} (same : SameButMemory M M')

include same

/-- The bytes of fresh memory are all read over. -/
theorem resumes_flArray {σ : Type} [Scalar σ] :
    Resumes (@readFlArray σ _ M) (@readFlArray σ _ M') Anything :=
  Resumes.scalar.then fun _ => Resumes.raw (same.uninitialized_length _)

/-- A 256-bit number depends on its 32 bytes only. -/
theorem resumes_quint256 : Resumes (@readQuint256 M) (@readQuint256 M') Anything := by
  unfold readQuint256
  rw [same.quint256OfBytes]
  exact (resumes_array 32).packed

/-- A feature that was cut can be completed to one that is there. -/
theorem Feature.resumes :
    Resumes (@fromQDataStream M) (@fromQDataStream M') (·.isSome) := by
  have address : ∀ kind : Option Address → Feature,
      Resumes (Address.fromQDataStream >>= fun a => pure (kind a))
        (Address.fromQDataStream >>= fun a => pure (kind a)) Anything := fun _ =>
    Address.resumes.packed
  have metadata : Resumes (@metadataOfQDataStream M) (@metadataOfQDataStream M') Anything :=
    (resumes_flArray same).packed
  have tag : Resumes (@tagOfQDataStream M) (@tagOfQDataStream M') Anything :=
    (resumes_flArray same).packed
  exact Resumes.tagged (address .sender).packed_some fun _ =>
    metadata.packed_some.toContinues.ite <| tag.packed_some.toContinues.ite <|
    (address .sender).packed_some.toContinues.ite <|
    (address .issuer).packed_some.toContinues.ite (Continues.pure _)

theorem NativeToken.resumes :
    Resumes (@fromQDataStream M) (@fromQDataStream M') (·.isSome) :=
  ((resumes_array 38).then fun _ => (resumes_quint256 same).packed).packed_some

theorem TokenScheme.resumes :
    Resumes (@fromQDataStream M) (@fromQDataStream M') Anything := by
  have simple : Resumes (@ofQDataStream M) (@ofQDataStream M') Anything :=
    (resumes_quint256 same).then fun _ => (resumes_quint256 same).then fun _ =>
      (resumes_quint256 same).packed
  exact Resumes.scalar.then fun _ => simple.packed.ite (Resumes.pure trivial)

/-! ## Outputs -/

namespace Output

theorem resumes_nativeTokens :
    Resumes (@deserializeNativeTokens M) (@deserializeNativeTokens M') Anything :=
  resumes_list (@advances_nativeToken _ M) (@advances_nativeToken _ M') (NativeToken.resumes same)

omit same in
theorem resumes_unlockConditions :
    Resumes deserializeUnlockConditions deserializeUnlockConditions Anything :=
  resumes_list advances_unlockCondition advances_unlockCondition UnlockCondition.resumes

theorem resumes_features : Resumes (@deserializeFeatures M) (@deserializeFeatures M') Anything :=
  resumes_list (@advances_feature _ M) (@advances_feature _ M') (Feature.resumes same)

theorem resumes : Resumes (@fromQDataStream M) (@fromQDataStream M') Anything := by
  have tokens := resumes_nativeTokens same
  have conditions := resumes_unlockConditions
  have features := resumes_features same
  have basic : Resumes (@basicOfQDataStream M) (@basicOfQDataStream M') Anything :=
    Resumes.scalar.then fun _ => tokens.then fun _ => conditions.then fun _ => features.packed
  have nft : Resumes (@nftOfQDataStream M) (@nftOfQDataStream M') Anything :=
    Resumes.scalar.then fun _ => tokens.then fun _ => (resumes_array 32).then fun _ =>
      conditions.then fun _ => features.then fun _ => features.packed
  have foundry : Resumes (@foundryOfQDataStream M) (@foundryOfQDataStream M') Anything :=
    Resumes.scalar.then fun _ => tokens.then fun _ => Resumes.scalar.then fun _ =>
      (TokenScheme.resumes same).then fun _ => conditions.then fun _ => features.then fun _ =>
        features.packed
  have alias_ : Resumes (@aliasOfQDataStream M) (@aliasOfQDataStream M') Anything :=
    Resumes.scalar.then fun _ => tokens.then fun _ => (resumes_array 32).then fun _ =>
      Resumes.scalar.then fun _ => (resumes_flArray same).then fun _ =>
        Resumes.scalar.then fun _ => conditions.then fun _ => features.then fun _ =>
          features.packed
  exact Resumes.scalar.then fun _ => basic.packed.ite <| nft.packed.ite <|
    foundry.packed.ite <| alias_.packed.ite (Resumes.pure trivial)

end Output

/-! ## Payloads and blocks -/

section Payloads

variable {get get' : Read (Option Payload)}

omit same in
/-- The slot of an essence or a block, given the reader of its payload. -/
theorem resumes_slot (h : Resumes get get' Anything) :
    Resumes (readSlot get) (readSlot get') Anything :=
  Resumes.scalar.then fun _ => h.ite (Resumes.pure trivial)

/-- An essence, given the reader of embedded payloads. -/
theorem Essence.resumes (h : Resumes get get' Anything) :
    Resumes (@fromQDataStream M get) (@fromQDataStream M' get') Anything := by
  have transaction : Resumes (@ofQDataStream M get) (@ofQDataStream M' get') Anything :=
    Resumes.scalar.then fun _ => (resumes_vector Input.resumes).then fun _ =>
      (resumes_array 32).then fun _ => (resumes_vector (Output.resumes same)).then fun _ =>
        (resumes_slot h).packed
  exact Resumes.scalar.then fun _ => transaction.packed.ite (Resumes.pure trivial)

namespace Payload

/-- A payload, given the reader of embedded payloads. -/
theorem resumes_dispatch (h : Resumes get get' Anything) :
    Resumes (@dispatchQDataStream M get) (@dispatchQDataStream M' get') Anything := by
  have transaction :
      Resumes (@transactionOfQDataStream M get) (@transactionOfQDataStream M' get') Anything :=
    (Essence.resumes same h).then fun _ => (resumes_vector Unlock.resumes).packed
  have taggedData :
      Resumes (@taggedDataOfQDataStream M) (@taggedDataOfQDataStream M') Anything :=
    (resumes_flArray same).then fun _ => (resumes_flArray same).packed
  exact Resumes.scalar.then fun _ => transaction.packed.ite <|
    taggedData.packed.ite (Resumes.pure trivial)

omit same in
/-- Zero is the tag of no payload. -/
theorem readable [Platform] : Readable fromQDataStream Anything := by
  rw [fromQDataStream_eq]
  exact ⟨_, none, trivial, (reads_scalar (0 : UInt32)).bind (Reads.pure none)⟩

/-- The bounded readers resume as the one without a bound. -/
theorem resumes_upTo : ∀ n,
    Resumes (@fromQDataStreamUpTo M n) (@fromQDataStream M') Anything
  | 0 => ⟨⟨nofun, nofun⟩, @drains M', @readable M'⟩
  | n + 1 => by
    rw [@fromQDataStream_eq M']
    exact resumes_dispatch same (resumes_upTo n)

theorem resumes : Resumes (@fromQDataStream M) (@fromQDataStream M') Anything where
  settles := by
    intro s p s' hrun
    rw [@fromQDataStream_run M] at hrun
    exact (resumes_upTo same _).settles s p s' hrun
  completes := by
    intro t p s' hrun
    rw [@fromQDataStream_run M] at hrun
    exact (resumes_upTo same _).completes t p s' hrun
  drains := @drains M'
  readable := @readable M'

end Payload

end Payloads

/-- A block is completed as its fields are. -/
theorem Block.resumes : Resumes (@ofQDataStream M) (@ofQDataStream M') Anything := by
  have parents : Resumes readParents readParents Anything :=
    Resumes.scalar.then fun _ => (resumes_array 32).repeat _
  exact Resumes.scalar.then fun _ => parents.then fun _ =>
    (resumes_slot (Payload.resumes same)).then fun _ => Resumes.scalar.packed

end Memory

/-! ## Decoders -/

/-- Where the reader ends with the status Ok, the bytes it walked over are
read to the same answer in front of anything, from any status and over any
memory. -/
def DependsOnWalked {α : Type} (get : Platform → Read α) : Prop :=
  ∀ (M M' : Platform) (bs rest : Bytes) (a : α), SameButMemory M M' →
    (get M).run ⟨bs, .ok⟩ = .ok (a, ⟨rest, .ok⟩) →
    ∃ w, bs = w ++ rest ∧ ∀ rest' st, (get M').run ⟨w ++ rest', st⟩ = .ok (a, ⟨rest', st⟩)

/-- What a reader depends on, from what it can resume. -/
theorem dependsOnWalked {α : Type} {P : α → Prop} {get : Platform → Read α}
    (h : ∀ M M', SameButMemory M M' → Settles (get M) (get M') P) : DependsOnWalked get := by
  intro M M' bs rest a same hrun
  obtain ⟨-, w, hw, read, -⟩ := h M M' same _ _ _ hrun rfl
  exact ⟨w, hw, read⟩

theorem decoders_local :
    DependsOnWalked @Block.ofQDataStream ∧ DependsOnWalked @Payload.fromQDataStream ∧
      DependsOnWalked @Output.fromQDataStream :=
  ⟨dependsOnWalked fun _ _ same => (Block.resumes same).settles,
    dependsOnWalked fun _ _ same => (Payload.resumes same).settles,
    dependsOnWalked fun _ _ same => (Output.resumes same).settles⟩

theorem decoders_statusExact [M : Platform] :
    StatusExact Block.ofQDataStream ∧ StatusExact Payload.fromQDataStream ∧
      StatusExact Output.fromQDataStream :=
  ⟨(Block.resumes (SameButMemory.refl M)).statusExact,
    (Payload.resumes (SameButMemory.refl M)).statusExact,
    (Output.resumes (SameButMemory.refl M)).statusExact⟩

section Sample

/-- That platform over memory full of ones. -/
@[reducible] def Platform.plainOnes : Platform :=
  { Platform.plain with uninitialized := fun n => List.replicate n 1 }

theorem sameButMemory_plainOnes : SameButMemory Platform.plain Platform.plainOnes :=
  ⟨rfl, fun _ => List.length_replicate.trans List.length_replicate.symm⟩

/-- Tagged data in front of a further byte. -/
theorem decoders_local_taggedData :
    ∃ (b : Block) (w : Bytes), Block.taggedDataBytes ++ [7] = w ++ [7] ∧
      ∀ rest st, (@Block.ofQDataStream Platform.plainOnes).run ⟨w ++ rest, st⟩ =
        .ok (b, ⟨rest, st⟩) :=
  ⟨_, decoders_local.1 Platform.plain Platform.plainOnes _ [7] _ sameButMemory_plainOnes rfl⟩

end Sample

end Qblock
