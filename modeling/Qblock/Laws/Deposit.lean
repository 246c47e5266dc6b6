import Qblock.Laws.Sizes
import Qblock.Laws.Sets
import Qblock.Laws.Lifecycle
import Mathlib.Algebra.Order.BigOperators.Group.List

/-!
# The deposit of an output

`min_deposit_of_output` is a polynomial in its arguments and in the number
of bytes of the output, computed on 64-bit words. On words it is what the
number is modulo `2 ^ 64`, however the products wrap on the way, so it is
the number itself wherever that fits.

The bytes are counted by `byteSize`: what leaves the count leaves the
deposit, and an insertion adds the bytes of the element, or nothing.

- `Output.minDepositOfOutput_eq` — the deposit of an output that is written;
- `Output.minDepositOfOutput_withKind` — what it does not depend on;
- `Output.Addition.insert_serialize` — what an insertion adds;
- `Output.minDepositOfOutput_laws` — all of it together.
-/

namespace Qblock

open Wire Qt

/-! ## What an insertion adds to a set -/

section Sets

variable {T : Type}

theorem byteSizeAll_of_perm {size : T → Nat} {x : T} {ps qs : List (Option T)}
    (h : qs.Perm (some x :: ps)) : byteSizeAll size qs = byteSizeAll size ps + size x := by
  rw [byteSizeAll, (h.map _).sum_eq, List.map_cons, List.sum_cons, Nat.add_comm]
  rfl

variable [Keyed T]

theorem byteSizeAll_le (size : T → Nat) {s s' : PSet T} (h : s.elems ⊆ s'.elems) :
    byteSizeAll size s.elems ≤ byteSizeAll size s'.elems := by
  obtain ⟨l, perm, sub⟩ := List.subperm_of_subset (s.ordered.nodup ptrLess_asymm) h
  calc byteSizeAll size s.elems
      = byteSizeAll size l := ((perm.map _).sum_eq).symm
    _ ≤ byteSizeAll size s'.elems := (sub.map _).sum_le_sum fun _ _ => Nat.zero_le _

variable {σ : Type} [Scalar σ] {serialize : T → Except Fault Bytes} {size : T → Nat}

/-- Into a set that is written, an element that is written can be inserted,
and then the set is written with its bytes, unless its key was there. -/
theorem serializeList_insert (hsize : ∀ x b, serialize x = .ok b → b.length = size x)
    {s : PSet T} {x : T} {b c : Bytes} (hb : serializeList σ serialize s = .ok b)
    (hc : serialize x = .ok c) :
    ∃ s' b', s.insert (some x) = .ok s' ∧ serializeList σ serialize s' = .ok b' ∧
      (s.HasKey (Keyed.key x) → s' = s) ∧
      (¬ s.HasKey (Keyed.key x) → b'.length = b.length + c.length) := by
  obtain ⟨_, hall, -⟩ := serializeCounted_eq_ok.mp hb
  have written := serializeAll_ok_iff.mp ⟨_, hall⟩
  obtain ⟨s', hs'⟩ : ∃ s', s.insert (some x) = .ok s' := by
    refine PSet.insert_ok fun p hp => ?_
    obtain ⟨y, hy, -⟩ := written p hp
    exact Option.isSome_of_mem hy
  rcases PSet.insert_cases hs' with ⟨hperm, fresh⟩ | ⟨rfl, present⟩
  · have written' : AllNonNull (fun x => ∃ b, serialize x = .ok b) s'.elems := by
      intro p hp
      rcases List.mem_cons.mp (hperm.mem_iff.mp hp) with rfl | hp
      · exact ⟨x, rfl, c, hc⟩
      · exact written p hp
    obtain ⟨a, ha⟩ := serializeAll_ok_iff.mpr written'
    refine ⟨s', _, hs', serializeCounted_eq_ok.mpr ⟨a, ha, rfl⟩,
      fun present => absurd present fresh, fun _ => ?_⟩
    have after := serializeCounted_length (σ := σ) hsize
      (serializeCounted_eq_ok.mpr ⟨a, ha, rfl⟩)
    rw [after, serializeCounted_length hsize hb, byteSizeAll_of_perm hperm, hsize x c hc,
      Nat.add_assoc]
  · exact ⟨s', b, hs', hb, fun _ => rfl, fun absent => absurd present absent⟩

end Sets

namespace Output

variable [Platform]

/-! ## The number -/

/-- The deposit as a number without bound. -/
def exactDeposit (wkey wdata vByteCost : UInt64) (n : Nat) : Nat :=
  vByteCost.toNat * (34 * wkey.toNat + (40 + n) * wdata.toNat)

/-- On words the deposit is what the number is modulo `2 ^ 64`. -/
theorem minDepositOfOutput_eq {o : Output} {b : Bytes} (h : o.serialize = .ok b)
    (wkey wdata vByteCost : UInt64) :
    o.minDepositOfOutput wkey wdata vByteCost =
      .ok (UInt64.ofNat (exactDeposit wkey wdata vByteCost b.length)) := by
  have word : UInt64.ofNat (exactDeposit wkey wdata vByteCost b.length) =
      vByteCost * (34 * wkey + (40 + UInt64.ofNat b.length) * wdata) := by
    simp [exactDeposit, UInt64.ofNat_mul, UInt64.ofNat_add]
  rw [minDepositOfOutput, h, word]
  refine congrArg Except.ok ?_
  grind

/-- Where the number fits, it is the deposit. -/
theorem exists_minDepositOfOutput {o : Output} {b : Bytes} (h : o.serialize = .ok b)
    {wkey wdata vByteCost : UInt64} (fits : exactDeposit wkey wdata vByteCost b.length < 2 ^ 64) :
    ∃ d, o.minDepositOfOutput wkey wdata vByteCost = .ok d ∧
      d.toNat = exactDeposit wkey wdata vByteCost b.length :=
  ⟨_, minDepositOfOutput_eq h wkey wdata vByteCost, UInt64.toNat_ofNat_of_lt' fits⟩

omit [Platform] in
theorem exactDeposit_add (wkey wdata vByteCost : UInt64) (n m : Nat) :
    exactDeposit wkey wdata vByteCost (n + m) =
      exactDeposit wkey wdata vByteCost n + wdata.toNat * vByteCost.toNat * m := by
  unfold exactDeposit
  ring

omit [Platform] in
theorem exactDeposit_mono (wkey wdata vByteCost : UInt64) {n m : Nat} (h : n ≤ m) :
    exactDeposit wkey wdata vByteCost n ≤ exactDeposit wkey wdata vByteCost m := by
  obtain ⟨k, rfl⟩ := Nat.exists_eq_add_of_le h
  rw [exactDeposit_add]
  exact Nat.le_add_right _ _

/-! ## What it does not depend on -/

/-- The kind with other numbers. -/
def Kind.withNumbers (serialNumber stateIndex foundryCounter : UInt32) : Kind → Kind
  | .foundry tokenScheme _ => .foundry tokenScheme serialNumber
  | .alias aliasId _ _ stateMetadata => .alias aliasId stateIndex foundryCounter stateMetadata
  | .basic => .basic
  | .nft nftId => .nft nftId

/-- Another kind that is written in as many bytes, and another amount, are
all the same to the deposit. -/
theorem minDepositOfOutput_withKind [LawfulPlatform] {o : Output} {b : Bytes}
    (h : o.serialize = .ok b) {kind : Kind} (amount : UInt64)
    (nonNull : o.kind.NonNull → kind.NonNull) (size : kind.byteSize = o.kind.byteSize)
    (basic : kind = .basic ↔ o.kind = .basic) (wkey wdata vByteCost : UInt64) :
    ({ o with kind := kind, amount := amount } : Output).minDepositOfOutput wkey wdata vByteCost =
      o.minDepositOfOutput wkey wdata vByteCost := by
  obtain ⟨nativeTokens, kindBytes, unlockConditions, features, last, hnt, hkind, huc, hf, hlast,
    rfl⟩ := serialize_eq_ok.mp h
  obtain ⟨kindBytes', hkind'⟩ := Kind.serialize_ok.mpr (nonNull (Kind.serialize_ok.mp ⟨_, hkind⟩))
  have last' : ({ o with kind := kind, amount := amount } : Output).serializeLast = .ok last := by
    rwa [serializeLast_eq, if_congr basic rfl rfl, ← serializeLast_eq]
  have written := serialize_eq_ok (o := { o with kind := kind, amount := amount }).mpr
    ⟨_, _, _, _, _, hnt, hkind', huc, hf, last', rfl⟩
  have sameLength : kindBytes'.length = kindBytes.length := by
    rw [Kind.serialize_length hkind', size, Kind.serialize_length hkind]
  rw [minDepositOfOutput_eq written, minDepositOfOutput_eq h]
  simp only [List.length_append, Scalar.put_length, sameLength]

/-- The amount, the serial number, the state index and the foundry counter. -/
theorem minDepositOfOutput_withNumbers [LawfulPlatform] {o : Output} {b : Bytes}
    (h : o.serialize = .ok b) (amount : UInt64) (serialNumber stateIndex foundryCounter : UInt32)
    (wkey wdata vByteCost : UInt64) :
    ({ o with
        kind := o.kind.withNumbers serialNumber stateIndex foundryCounter
        amount := amount } : Output).minDepositOfOutput wkey wdata vByteCost =
      o.minDepositOfOutput wkey wdata vByteCost := by
  refine minDepositOfOutput_withKind h amount ?_ ?_ ?_ wkey wdata vByteCost
  all_goals
    obtain ⟨kind, _, _, _, _, _⟩ := o
    cases kind with
    | basic | nft _ | foundry _ _ | «alias» _ _ _ _ =>
      simp [Kind.withNumbers, Kind.NonNull, Kind.byteSize]

/-- The id, which only takes the place of one of the same length. -/
theorem minDepositOfOutput_setId [LawfulPlatform] {o : Output} {b : Bytes}
    (h : o.serialize = .ok b) (hash_length : ∀ b : Bytes, (Platform.blake2b256 b).length = 32)
    (outputid : Bytes) (wkey wdata vByteCost : UInt64) :
    (o.setId outputid).minDepositOfOutput wkey wdata vByteCost =
      o.minDepositOfOutput wkey wdata vByteCost := by
  rcases setId_cases outputid o with ⟨hid, heq⟩ | ⟨-, heq⟩
  · rw [heq]
    have size : (o.kind.withId (Platform.blake2b256 outputid)).byteSize = o.kind.byteSize := by
      cases hkind : o.kind with
      | basic | foundry _ _ => rfl
      | nft _ | «alias» _ _ _ _ =>
        rw [hkind] at hid
        cases hid
        simp [Kind.withId, Kind.byteSize, hash_length, noId]
    exact minDepositOfOutput_withKind h o.amount Kind.withId_nonNull.mpr size
      Kind.withId_eq_basic wkey wdata vByteCost
  · rw [heq]

/-! ## What an insertion adds to an output -/

/-- An element and the set of an output it goes into. -/
inductive Addition where
  | nativeToken (t : NativeToken)
  | unlockCondition (c : UnlockCondition)
  | feature (f : Feature)
  | immutableFeature (f : Feature)
  deriving DecidableEq, Repr

namespace Addition

def insert (a : Addition) (o : Output) : Except Fault Output :=
  match a with
  | nativeToken t => do
    let s ← o.nativeTokens.insert (some t)
    return { o with nativeTokens := s }
  | unlockCondition c => do
    let s ← o.unlockConditions.insert (some c)
    return { o with unlockConditions := s }
  | feature f => do
    let s ← o.features.insert (some f)
    return { o with features := s }
  | immutableFeature f => do
    let s ← o.immutableFeatures.insert (some f)
    return { o with immutableFeatures := s }

def serialize : Addition → Except Fault Bytes
  | nativeToken t => .ok t.serialize
  | unlockCondition c => c.serialize
  | feature f | immutableFeature f => f.serialize

/-- The key of the element is in the set. -/
def Present : Addition → Output → Prop
  | nativeToken t, o => o.nativeTokens.HasKey t.tokenId
  | unlockCondition c, o => o.unlockConditions.HasKey c.type.toUInt8
  | feature f, o => o.features.HasKey f.type.toUInt8
  | immutableFeature f, o => o.immutableFeatures.HasKey f.type.toUInt8

/-- The set is one that the kind serialises. -/
def Written : Addition → Output → Prop
  | nativeToken _, _ | unlockCondition _, _ | feature _, _ => True
  | immutableFeature _, o => o.kind ≠ .basic

/-- Into an output that is written, an element that is written can be
inserted, and then the output is written with its bytes, unless its key was
there. -/
theorem insert_serialize [LawfulPlatform] {a : Addition} {o : Output} {b added : Bytes}
    (hb : o.serialize = .ok b) (ha : a.serialize = .ok added) (written : a.Written o) :
    ∃ o' b', a.insert o = .ok o' ∧ o'.serialize = .ok b' ∧
      (a.Present o → o' = o) ∧ (¬ a.Present o → b'.length = b.length + added.length) := by
  obtain ⟨nativeTokens, kind, unlockConditions, features, last, hnt, hkind, huc, hf, hlast, rfl⟩ :=
    serialize_eq_ok.mp hb
  cases a with
  | nativeToken t =>
    have size : ∀ t b, (.ok t.serialize : Except Fault Bytes) = .ok b →
        b.length = NativeToken.byteSize t := fun t b ht => Except.ok.inj ht ▸ t.serialize_length
    obtain ⟨s, bs, hs, hbs, present, absent⟩ := serializeList_insert (x := t) size hnt ha
    have after := serialize_eq_ok (o := { o with nativeTokens := s }).mpr
      ⟨_, _, _, _, _, hbs, hkind, huc, hf, hlast, rfl⟩
    refine ⟨_, _, bind_eq_ok.mpr ⟨s, hs, rfl⟩, after, fun h => ?_, fun h => ?_⟩
    · rw [present h]
    · simp only [List.length_append, Scalar.put_length, absent h]
      omega
  | unlockCondition c =>
    obtain ⟨s, bs, hs, hbs, present, absent⟩ :=
      serializeList_insert (x := c) (fun _ _ => UnlockCondition.serialize_length) huc ha
    have after := serialize_eq_ok (o := { o with unlockConditions := s }).mpr
      ⟨_, _, _, _, _, hnt, hkind, hbs, hf, hlast, rfl⟩
    refine ⟨_, _, bind_eq_ok.mpr ⟨s, hs, rfl⟩, after, fun h => ?_, fun h => ?_⟩
    · rw [present h]
    · simp only [List.length_append, Scalar.put_length, absent h]
      omega
  | feature f =>
    obtain ⟨s, bs, hs, hbs, present, absent⟩ :=
      serializeList_insert (x := f) (fun _ _ => Feature.serialize_length) hf ha
    have after := serialize_eq_ok (o := { o with features := s }).mpr
      ⟨_, _, _, _, _, hnt, hkind, huc, hbs, hlast, rfl⟩
    refine ⟨_, _, bind_eq_ok.mpr ⟨s, hs, rfl⟩, after, fun h => ?_, fun h => ?_⟩
    · rw [present h]
    · simp only [List.length_append, Scalar.put_length, absent h]
      omega
  | immutableFeature f =>
    rw [serializeLast_eq, if_neg written] at hlast
    obtain ⟨s, bs, hs, hbs, present, absent⟩ :=
      serializeList_insert (x := f) (fun _ _ => Feature.serialize_length) hlast ha
    have last : ({ o with immutableFeatures := s } : Output).serializeLast = .ok bs := by
      rw [serializeLast_eq, if_neg written]
      exact hbs
    have after := serialize_eq_ok (o := { o with immutableFeatures := s }).mpr
      ⟨_, _, _, _, _, hnt, hkind, huc, hf, last, rfl⟩
    refine ⟨_, _, bind_eq_ok.mpr ⟨s, hs, rfl⟩, after, fun h => ?_, fun h => ?_⟩
    · rw [present h]
    · simp only [List.length_append, Scalar.put_length, absent h]
      omega

end Addition

/-! ## Of outputs with more in them -/

/-- The sets of one output are contained in those of another. -/
structure Within (o o' : Output) : Prop where
  kind : o.kind = o'.kind
  nativeTokens : o.nativeTokens.elems ⊆ o'.nativeTokens.elems
  unlockConditions : o.unlockConditions.elems ⊆ o'.unlockConditions.elems
  features : o.features.elems ⊆ o'.features.elems
  immutableFeatures : o.immutableFeatures.elems ⊆ o'.immutableFeatures.elems

omit [Platform] in
theorem Within.lastByteSize_le {o o' : Output} (h : o.Within o') :
    o.lastByteSize ≤ o'.lastByteSize := by
  rw [lastByteSize, lastByteSize, ← h.kind]
  cases o.kind with
  | basic => exact Nat.le_refl 0
  | nft _ | foundry _ _ | «alias» _ _ _ _ =>
    exact Nat.add_le_add_left (byteSizeAll_le _ h.immutableFeatures) 1

omit [Platform] in
theorem Within.byteSize_le {o o' : Output} (h : o.Within o') : o.byteSize ≤ o'.byteSize := by
  have tokens := byteSizeAll_le NativeToken.byteSize h.nativeTokens
  have conditions := byteSizeAll_le UnlockCondition.byteSize h.unlockConditions
  have features := byteSizeAll_le Feature.byteSize h.features
  have last := h.lastByteSize_le
  rw [Output.byteSize, Output.byteSize, h.kind]
  omega

/-- The deposit of an output that is written is the number, if it fits. It
depends on none of the numbers of the output and not on its id, an element
inserted adds its bytes to it, and what contains the output costs no less. -/
theorem minDepositOfOutput_laws [LawfulPlatform] {o : Output} {b : Bytes} (h : o.serialize = .ok b)
    (wkey wdata vByteCost : UInt64) :
    (exactDeposit wkey wdata vByteCost b.length < 2 ^ 64 →
      ∃ d, o.minDepositOfOutput wkey wdata vByteCost = .ok d ∧
        d.toNat = exactDeposit wkey wdata vByteCost b.length) ∧
    (∀ amount serialNumber stateIndex foundryCounter,
      ({ o with
          kind := o.kind.withNumbers serialNumber stateIndex foundryCounter
          amount := amount } : Output).minDepositOfOutput wkey wdata vByteCost =
        o.minDepositOfOutput wkey wdata vByteCost) ∧
    ((∀ b : Bytes, (Platform.blake2b256 b).length = 32) → ∀ outputid,
      (o.setId outputid).minDepositOfOutput wkey wdata vByteCost =
        o.minDepositOfOutput wkey wdata vByteCost) ∧
    (∀ (a : Addition) (added : Bytes), a.Written o → a.serialize = .ok added →
      ∃ o' b', a.insert o = .ok o' ∧ o'.serialize = .ok b' ∧
        (a.Present o → o'.minDepositOfOutput wkey wdata vByteCost =
          o.minDepositOfOutput wkey wdata vByteCost) ∧
        (¬ a.Present o → exactDeposit wkey wdata vByteCost b'.length < 2 ^ 64 →
          ∃ d d', o.minDepositOfOutput wkey wdata vByteCost = .ok d ∧
            o'.minDepositOfOutput wkey wdata vByteCost = .ok d' ∧
            d'.toNat = d.toNat + wdata.toNat * vByteCost.toNat * added.length)) ∧
    (∀ t : NativeToken, t.tokenId.length = 38 →
      ∃ added, (Addition.nativeToken t).serialize = .ok added ∧ added.length = 70) ∧
    (∀ (o' : Output) (b' : Bytes), o.Within o' → o'.serialize = .ok b' →
      exactDeposit wkey wdata vByteCost b'.length < 2 ^ 64 →
        ∃ d d', o.minDepositOfOutput wkey wdata vByteCost = .ok d ∧
          o'.minDepositOfOutput wkey wdata vByteCost = .ok d' ∧ d ≤ d') := by
  refine ⟨exists_minDepositOfOutput h, fun amount serialNumber stateIndex foundryCounter =>
    minDepositOfOutput_withNumbers h amount serialNumber stateIndex foundryCounter _ _ _,
    fun hash_length outputid => minDepositOfOutput_setId h hash_length outputid _ _ _, ?_, ?_, ?_⟩
  · intro a added written ha
    obtain ⟨o', b', insert, hb', present, absent⟩ := Addition.insert_serialize h ha written
    refine ⟨o', b', insert, hb', fun hkey => ?_, fun hkey fits' => ?_⟩
    · rw [present hkey]
    · have longer := absent hkey
      have fits : exactDeposit wkey wdata vByteCost b.length < 2 ^ 64 :=
        Nat.lt_of_le_of_lt (exactDeposit_mono _ _ _ (longer ▸ Nat.le_add_right _ _)) fits'
      obtain ⟨d, hd, hval⟩ := exists_minDepositOfOutput h fits
      obtain ⟨d', hd', hval'⟩ := exists_minDepositOfOutput hb' fits'
      refine ⟨d, d', hd, hd', ?_⟩
      rw [hval', longer, exactDeposit_add, hval]
  · intro t hid
    refine ⟨t.serialize, rfl, ?_⟩
    rw [t.serialize_length, NativeToken.byteSize, hid]
  · intro o' b' within hb' fits'
    have shorter : b.length ≤ b'.length := by
      rw [serialize_length h, serialize_length hb']
      exact within.byteSize_le
    have le := exactDeposit_mono wkey wdata vByteCost shorter
    obtain ⟨d, hd, hval⟩ := exists_minDepositOfOutput h (Nat.lt_of_le_of_lt le fits')
    obtain ⟨d', hd', hval'⟩ := exists_minDepositOfOutput hb' fits'
    refine ⟨d, d', hd, hd', UInt64.le_iff_toNat_le.mpr ?_⟩
    rwa [hval, hval']

end Output

/-! ## Of an NFT -/

namespace Sampled

theorem nft_deposit :
    (∃ d, nft.minDepositOfOutput 10 1 500 = .ok d ∧ d.toNat = 284000) ∧
    (nft.setId outputId).minDepositOfOutput 10 1 500 = nft.minDepositOfOutput 10 1 500 ∧
    ∃ o' d d', (Output.Addition.feature (.tag [1])).insert nft = .ok o' ∧
      nft.minDepositOfOutput 10 1 500 = .ok d ∧ o'.minDepositOfOutput 10 1 500 = .ok d' ∧
      d'.toNat = d.toNat + 1 * 500 * 3 := by
  obtain ⟨b, hb⟩ := Output.serialize_ok nft_nonNull
  have length : b.length = 188 := Output.serialize_length hb
  obtain ⟨number, -, setId, insert, -, -⟩ := Output.minDepositOfOutput_laws hb 10 1 500
  refine ⟨?_, setId hash_length outputId, ?_⟩
  · rw [length] at number
    exact number (by decide)
  · obtain ⟨o', b', hinsert, hb', -, absent⟩ :=
      insert (.feature (.tag [1])) [3, 1, 1] trivial rfl
    have length' : b'.length = 191 := by
      cases hinsert
      exact Output.serialize_length hb'
    have fresh : ¬ (Output.Addition.feature (.tag [1])).Present nft := by
      intro present
      obtain ⟨y, hy, hkey⟩ := present
      cases List.mem_singleton.mp hy
      have differ : Feature.Types.metadata.toUInt8 ≠ Feature.Types.tag.toUInt8 := by decide
      exact differ hkey
    rw [length'] at absent
    obtain ⟨d, d', hd, hd', hval⟩ := absent fresh (by decide)
    exact ⟨o', d, d', hinsert, hd, hd', hval⟩

end Sampled

end Qblock
