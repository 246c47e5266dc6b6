import Qblock.Laws.JsonForm

/-!
# What JSON can say

Which objects the JSON readers answer at all, for some value. Two things are
out of reach. The network id of an essence is read as a signed 32-bit
number, so of the 64-bit ids only those come out that such a number is cast
to, the 2³¹ lowest and the 2³¹ highest; and the reader of native tokens
looks at no tag, so a native token is never a null pointer. Everything else
is read from some value: every kind of output, every nesting of payloads,
and a null pointer in any other place, since a tag that is not known is one.

- `X.fromQJsonValue_surjective` — the readers that are onto;
- `Output.read_iff`, `Payload.read_iff`, `Block.read_iff` — the range of the
  others.
-/

namespace Qblock

open Wire Qt

/-! ## Network ids -/

/-- What a signed 32-bit number is cast to. -/
def ReadableId (n : UInt64) : Prop := n.toNat < 2 ^ 31 ∨ 2 ^ 64 - 2 ^ 31 ≤ n.toNat

theorem QJsonValue.toInt_bounds (v : QJsonValue) : -2 ^ 31 ≤ v.toInt ∧ v.toInt < 2 ^ 31 := by
  cases v with
  | number x =>
    rw [QJsonValue.toInt, QJsonValue.toSigned]
    split
    · next fits => exact fits.2
    · decide
  | null | bool _ | string _ | array _ | object _ =>
    simp [QJsonValue.toInt, QJsonValue.toSigned]

theorem uint64_toNat_ofInt (i : Int) : (UInt64.ofInt i).toNat = (i % 2 ^ 64).toNat := by
  have bound : (i % 2 ^ 64).toNat < 2 ^ 64 := by omega
  rw [UInt64.ofInt, UInt64.toNat_ofNat_of_lt' bound]

/-- The ids a reader answers are the readable ones. -/
theorem readableId_iff (n : UInt64) :
    ReadableId n ↔ ∃ v : QJsonValue, UInt64.ofInt v.toInt = n := by
  have hn := n.toNat_lt
  constructor
  · intro readable
    rcases readable with low | high
    · refine ⟨.ofInt n.toNat, UInt64.toNat_inj.mp ?_⟩
      rw [QJsonValue.toInt_ofInt (by omega) (by omega), uint64_toNat_ofInt]
      omega
    · refine ⟨.ofInt (n.toNat - 2 ^ 64), UInt64.toNat_inj.mp ?_⟩
      rw [QJsonValue.toInt_ofInt (by omega) (by omega), uint64_toNat_ofInt]
      omega
  · intro read
    obtain ⟨v, rfl⟩ := read
    have bounds := QJsonValue.toInt_bounds v
    rw [ReadableId, uint64_toNat_ofInt]
    omega

/-- The 64-bit accessor reaches every number. -/
theorem uint64_of_toInteger (n : UInt64) : ∃ v : QJsonValue, UInt64.ofInt v.toInteger = n := by
  have hn := n.toNat_lt
  rcases lt_or_ge n.toNat (2 ^ 63) with low | high
  · refine ⟨.ofInt n.toNat, UInt64.toNat_inj.mp ?_⟩
    rw [QJsonValue.toInteger_ofInt (by omega) (by omega), uint64_toNat_ofInt]
    omega
  · refine ⟨.ofInt (n.toNat - 2 ^ 64), UInt64.toNat_inj.mp ?_⟩
    rw [QJsonValue.toInteger_ofInt (by omega) (by omega), uint64_toNat_ofInt]
    omega

/-! ## Values with a tag -/

/-- An object of that tag. -/
def tagged (tag : UInt8) (members : QJsonObject) : QJsonValue :=
  .object (members.insert "type" (.ofInt tag.toNat))

@[simp] theorem getType8_tagged (tag : UInt8) (members : QJsonObject) :
    getType8 (tagged tag members) = tag := getType8_object (by simp)

@[simp] theorem member_tagged (tag : UInt8) (members : QJsonObject) (key : String) :
    (tagged tag members).member key =
      if "type" = key then .ofInt tag.toNat else members.member key := by
  rw [tagged, QJsonValue.member_object, QJsonObject.member_insert]

/-- A value of no tag that is known. -/
def unknown : QJsonValue := tagged 255 .empty

/-! ## Onto every object -/

theorem Address.fromQJsonValue_surjective : Function.Surjective fromQJsonValue := by
  intro a
  cases a with
  | none => exact ⟨unknown, by simp [fromQJsonValue, unknown, Types.toUInt8]⟩
  | some a => exact ⟨_, a.fromJson⟩

theorem Feature.fromQJsonValue_surjective : Function.Surjective fromQJsonValue := by
  intro f
  cases f with
  | none => exact ⟨unknown, by simp [fromQJsonValue, unknown, Types.toUInt8]⟩
  | some f =>
    cases hf : f with
    | sender a | issuer a =>
      obtain ⟨v, hv⟩ := Address.fromQJsonValue_surjective a
      refine ⟨tagged f.type.toUInt8 (.insert "address" v .empty), ?_⟩
      simp [fromQJsonValue, hf, type, Types.toUInt8, hv]
    | metadata _ | tag _ => exact ⟨_, fromJson rfl⟩

theorem UnlockCondition.fromQJsonValue_surjective : Function.Surjective fromQJsonValue := by
  intro c
  cases c with
  | none => exact ⟨unknown, by simp [fromQJsonValue, unknown, Types.toUInt8]⟩
  | some c =>
    cases hc : c with
    | address a | stateControllerAddress a | governorAddress a | immutableAliasAddress a =>
      obtain ⟨v, hv⟩ := Address.fromQJsonValue_surjective a
      refine ⟨tagged c.type.toUInt8 (.insert "address" v .empty), ?_⟩
      simp [fromQJsonValue, hc, type, Types.toUInt8, hv]
    | storageDepositReturn a amount =>
      obtain ⟨v, hv⟩ := Address.fromQJsonValue_surjective a
      refine ⟨tagged Types.storageDepositReturn.toUInt8 (.insert "returnAddress" v
        (.insert "amount" (.string (number amount)) .empty)), ?_⟩
      simp [fromQJsonValue, Types.toUInt8, hv, toULongLong_number]
    | expiration a unixTime =>
      obtain ⟨v, hv⟩ := Address.fromQJsonValue_surjective a
      refine ⟨tagged Types.expiration.toUInt8 (.insert "returnAddress" v
        (.insert "unixTime" (.ofInt (castInt unixTime)) .empty)), ?_⟩
      simp [fromQJsonValue, Types.toUInt8, hv, ofInt_toInteger_castInt]
    | timelock _ => exact ⟨_, fromJson rfl⟩

theorem Input.fromQJsonValue_surjective : Function.Surjective fromQJsonValue := by
  intro i
  cases i with
  | none => exact ⟨unknown, by simp [fromQJsonValue, unknown, utxoType]⟩
  | some i => exact ⟨_, i.fromJson⟩

theorem Signature.fromQJsonValue_surjective : Function.Surjective fromQJsonValue := by
  intro s
  cases s with
  | none => exact ⟨unknown, by simp [fromQJsonValue, unknown, ed25519Type]⟩
  | some s => exact ⟨_, s.fromJson⟩

theorem Unlock.fromQJsonValue_surjective : Function.Surjective fromQJsonValue := by
  intro u
  cases u with
  | none => exact ⟨unknown, by simp [fromQJsonValue, unknown, Types.toUInt8]⟩
  | some u =>
    cases u with
    | signature s =>
      obtain ⟨v, hv⟩ := Signature.fromQJsonValue_surjective s
      refine ⟨tagged Types.signature.toUInt8 (.insert "signature" v .empty), ?_⟩
      simp [fromQJsonValue, Types.toUInt8, hv]
    | reference _ | «alias» _ | nft _ => exact ⟨_, fromJson rfl⟩

/-! ## Containers -/

section Containers

variable {T : Type}

/-- A container is read if each of its pointers is. -/
theorem getTvec_reads {from_ : QJsonValue → Except Fault (Option T)} {ps : List (Option T)}
    (h : ∀ p ∈ ps, ∃ v, from_ v = .ok p) : ∃ vs, getTvec from_ vs = .ok ps := by
  induction ps with
  | nil => exact ⟨[], rfl⟩
  | cons p ps ih =>
    obtain ⟨v, hv⟩ := h p List.mem_cons_self
    obtain ⟨vs, hvs⟩ := ih fun q hq => h q (List.mem_cons_of_mem _ hq)
    exact ⟨v :: vs, by simp [getTvec, hv, hvs, bind, Except.bind, pure, Except.pure]⟩

/-- What holds of all that a reader answers holds of the container. -/
theorem getTvec_forall {from_ : QJsonValue → Except Fault (Option T)} {P : Option T → Prop}
    (h : ∀ v p, from_ v = .ok p → P p) {vs : List QJsonValue} {ps : List (Option T)}
    (read : getTvec from_ vs = .ok ps) : ∀ p ∈ ps, P p := by
  induction vs generalizing ps with
  | nil =>
    cases read
    exact fun _ hp => absurd hp List.not_mem_nil
  | cons v vs ih =>
    obtain ⟨p, hp, read⟩ := bind_eq_ok.mp read
    obtain ⟨rest, hrest, read⟩ := bind_eq_ok.mp read
    cases pure_eq_ok.mp read
    intro q hq
    rcases List.mem_cons.mp hq with rfl | hq
    · exact h v q hp
    · exact ih hrest q hq

/-- A set is read exactly if each of its pointers is. -/
theorem getT_reads_iff [Keyed T] {from_ : QJsonValue → Option T} {s : PSet T} :
    (∃ vs, getT from_ vs .empty = .ok s) ↔ ∀ p ∈ s.elems, ∃ v, from_ v = p := by
  constructor
  · intro read p hp
    obtain ⟨vs, hvs⟩ := read
    rw [getT_eq_insertAll] at hvs
    obtain ⟨v, -, hv⟩ := List.mem_map.mp (PSet.mem_of_mem_insertAll hvs hp)
    exact ⟨v, hv⟩
  · intro each
    have readable : ∀ p ∈ s.elems, ∃ v, (.ok (from_ v) : Except Fault (Option T)) = .ok p := by
      intro p hp
      obtain ⟨v, hv⟩ := each p hp
      exact ⟨v, congrArg Except.ok hv⟩
    obtain ⟨vs, hvs⟩ := getTvec_reads readable
    rw [getTvec_map] at hvs
    exact ⟨vs, by rw [getT_eq_insertAll, Except.ok.inj hvs, PSet.insertAll_elems]⟩

end Containers

section Lawful

variable [Platform] [LawfulPlatform]

/-! ## Outputs -/

theorem NativeToken.read_iff (t : Option NativeToken) : (∃ v, fromQJsonValue v = t) ↔ t ≠ none := by
  constructor
  · intro read null
    obtain ⟨v, hv⟩ := read
    exact Option.some_ne_none _ (hv.trans null)
  · intro there
    obtain ⟨t, rfl⟩ := Option.ne_none_iff_exists'.mp there
    exact ⟨_, t.fromJson⟩

theorem TokenScheme.fromQJsonValue_surjective : Function.Surjective fromQJsonValue := by
  intro s
  cases s with
  | none => exact ⟨unknown, by simp [fromQJsonValue, unknown, simpleType]⟩
  | some s => exact ⟨_, s.fromJson⟩

namespace Output

/-- No native token of the output is a null pointer. -/
def TokensNonNull (o : Output) : Prop := none ∉ o.nativeTokens.elems

theorem ofQJsonValue_tokensNonNull {kind : Kind} {val : QJsonValue} {o : Output}
    (h : ofQJsonValue kind val = .ok o) : o.TokensNonNull := by
  obtain ⟨unlockConditions, -, h⟩ := bind_eq_ok.mp h
  obtain ⟨features, -, h⟩ := bind_eq_ok.mp h
  obtain ⟨nativeTokens, hnt, h⟩ := bind_eq_ok.mp h
  obtain ⟨immutableFeatures, -, h⟩ := bind_eq_ok.mp h
  cases pure_eq_ok.mp h
  intro null
  exact (NativeToken.read_iff none).mp (getT_reads_iff.mp ⟨_, hnt⟩ none null) rfl

theorem tokensNonNull_of_read {val : QJsonValue} {o : Output}
    (h : fromQJsonValue val = .ok (some o)) : o.TokensNonNull := by
  have base : ∃ kind, ofQJsonValue kind val = .ok o := by
    rw [fromQJsonValue] at h
    split at h
    · exact ⟨_, by simpa [map_eq_ok] using h⟩
    · split at h
      · exact ⟨_, by simpa [map_eq_ok, nftOfQJsonValue] using h⟩
      · split at h
        · exact ⟨_, by simpa [map_eq_ok, foundryOfQJsonValue] using h⟩
        · split at h
          · exact ⟨_, by simpa [map_eq_ok, aliasOfQJsonValue] using h⟩
          · cases h
  obtain ⟨kind, hkind⟩ := base
  exact ofQJsonValue_tokensNonNull hkind

/-- The base class of any output whose tokens are there is found in some
object. -/
theorem TokensNonNull.hasBase {o : Output} (tokens : o.TokensNonNull) : ∃ j, HasBase j o := by
  obtain ⟨unlockConditions, huc⟩ := getT_reads_iff.mpr fun p (_ : p ∈ o.unlockConditions.elems) =>
    UnlockCondition.fromQJsonValue_surjective p
  obtain ⟨features, hf⟩ := getT_reads_iff.mpr fun p (_ : p ∈ o.features.elems) =>
    Feature.fromQJsonValue_surjective p
  obtain ⟨immutableFeatures, himf⟩ :=
    getT_reads_iff.mpr fun p (_ : p ∈ o.immutableFeatures.elems) =>
      Feature.fromQJsonValue_surjective p
  obtain ⟨nativeTokens, hnt⟩ := getT_reads_iff.mpr fun p (hp : p ∈ o.nativeTokens.elems) =>
    (NativeToken.read_iff p).mpr (ne_of_mem_of_not_mem hp tokens)
  refine ⟨QJsonObject.empty
    |>.insert "type" (.ofInt o.type.toUInt8.toNat)
    |>.insert "amount" (.string (number o.amount))
    |>.insert "unlockConditions" (.array unlockConditions)
    |>.insert "features" (.array features)
    |>.insert "immutableFeatures" (.array immutableFeatures)
    |>.insert "nativeTokens" (.array nativeTokens), ?_⟩
  constructor
  all_goals simp [huc, hf, himf, hnt]

/-- An output whose tokens are there is read from some object. -/
theorem TokensNonNull.read {o : Output} (tokens : o.TokensNonNull) :
    ∃ v, fromQJsonValue v = .ok (some o) := by
  obtain ⟨j, found⟩ := tokens.hasBase
  obtain ⟨kind, _, _, _, _, _⟩ := o
  cases kind with
  | basic => exact ⟨_, found.fromQJsonValue trivial⟩
  | nft nftId =>
    exact ⟨.object (j.insert "nftId" (.string (toHexString nftId))),
      (found.insert (by decide)).fromQJsonValue (by simp)⟩
  | foundry tokenScheme serialNumber =>
    -- not by `HasBase.fromQJsonValue`: the token scheme may be a null pointer
    obtain ⟨v, hv⟩ := TokenScheme.fromQJsonValue_surjective tokenScheme
    have found' : HasBase (j
        |>.insert "serialNumber" (.ofInt (castInt serialNumber))
        |>.insert "tokenScheme" v) _ := (found.insert (by decide)).insert (by decide)
    refine ⟨.object (j
        |>.insert "serialNumber" (.ofInt (castInt serialNumber))
        |>.insert "tokenScheme" v), ?_⟩
    rw [fromQJsonValue, getType8_object found'.type]
    refine map_eq_ok.mpr ⟨_, ?_, rfl⟩
    simp only [foundryOfQJsonValue, QJsonValue.member_object, QJsonObject.member_insert,
      String.reduceEq, if_true, if_false, hv, ofInt_toInteger_castInt]
    exact found'.ofQJsonValue
  | «alias» aliasId stateIndex foundryCounter stateMetadata =>
    exact ⟨.object (j
        |>.insert "aliasId" (.string (toHexString aliasId))
        |>.insert "stateIndex" (.ofInt (castInt stateIndex))
        |>.insert "foundryCounter" (.ofInt (castInt foundryCounter))
        |>.insert "stateMetadata" (.string (toHexString stateMetadata))),
      ((((found.insert (by decide)).insert (by decide)).insert (by decide)).insert
        (by decide)).fromQJsonValue (by simp)⟩

/-- An output is read from some value exactly if no native token of it is a
null pointer. -/
theorem read_iff (o : Option Output) :
    (∃ v, fromQJsonValue v = .ok o) ↔ ∀ x ∈ o, x.TokensNonNull := by
  constructor
  · intro read x hx
    obtain ⟨v, hv⟩ := read
    exact tokensNonNull_of_read (hv.trans (congrArg Except.ok hx))
  · intro tokens
    cases o with
    | none => exact ⟨unknown, by simp [fromQJsonValue, unknown, Types.toUInt8]; rfl⟩
    | some o => exact (tokens o rfl).read

end Output

/-! ## Payloads -/

mutual

/-- The network ids of the essence and of what it embeds, however deep, are
readable, and no native token is a null pointer. -/
def Essence.JsonReadable : Essence → Prop
  | .transaction networkId _ _ outputs payload =>
    ReadableId networkId ∧ (∀ o ∈ outputs, ∀ x ∈ o, x.TokensNonNull) ∧
      match payload with
      | some p => p.JsonReadable
      | none => True

/-- The network ids of the payload, however deep, are readable, and no
native token is a null pointer. -/
def Payload.JsonReadable : Payload → Prop
  | .taggedData _ _ => True
  | .transaction essence _ =>
    match essence with
    | some e => e.JsonReadable
    | none => True

end

omit [Platform] [LawfulPlatform] in
theorem Essence.jsonReadable_transaction {networkId : UInt64} {inputs : List (Option Input)}
    {inputsCommitment : Bytes} {outputs : List (Option Output)} {payload : Option Payload} :
    (transaction networkId inputs inputsCommitment outputs payload).JsonReadable ↔
      ReadableId networkId ∧ (∀ o ∈ outputs, ∀ x ∈ o, x.TokensNonNull) ∧
        ∀ p ∈ payload, p.JsonReadable := by
  cases payload with
  | none | some _ => simp [Essence.JsonReadable]

omit [Platform] [LawfulPlatform] in
theorem Payload.jsonReadable_transaction {essence : Option Essence}
    {unlocks : List (Option Unlock)} :
    (transaction essence unlocks).JsonReadable ↔ ∀ e ∈ essence, e.JsonReadable := by
  cases essence with
  | none | some _ => simp [Payload.JsonReadable]

/-- What an essence reader answers is readable if what it reads payloads
with answers readable ones. -/
theorem Essence.readable_of_read {payloadFrom : QJsonValue → Except Fault (Option Payload)}
    (embedded : ∀ v p, payloadFrom v = .ok (some p) → p.JsonReadable) {val : QJsonValue}
    {e : Essence} (h : fromQJsonValue payloadFrom val = .ok (some e)) : e.JsonReadable := by
  rw [fromQJsonValue] at h
  split at h
  · obtain ⟨e', he', ⟨⟩⟩ := map_eq_ok.mp h
    rw [ofQJsonValue] at he'
    obtain ⟨inputs, -, he'⟩ := bind_eq_ok.mp he'
    obtain ⟨outputs, houtputs, he'⟩ := bind_eq_ok.mp he'
    obtain ⟨payload, hpayload, he'⟩ := bind_eq_ok.mp he'
    cases pure_eq_ok.mp he'
    refine jsonReadable_transaction.mpr ⟨(readableId_iff _).mpr ⟨_, rfl⟩, ?_, fun p hp => ?_⟩
    · exact getTvec_forall (fun v o ho => (Output.read_iff o).mp ⟨v, ho⟩) houtputs
    · exact embedded _ p (hpayload.trans (congrArg Except.ok hp))
  · cases h

/-- Every payload that is read is readable. The induction is on how deep
payloads nest in the value. -/
theorem Payload.readable_of_readUpTo : ∀ (n : Nat) (val : QJsonValue) (p : Payload),
    fromQJsonValueUpTo n val = .ok (some p) → p.JsonReadable
  | 0, _, _, h => by cases h
  | n + 1, val, p, h => by
    rw [fromQJsonValueUpTo, dispatchQJsonValue] at h
    split at h
    · obtain ⟨p', hp', ⟨⟩⟩ := map_eq_ok.mp h
      rw [transactionOfQJsonValue] at hp'
      obtain ⟨essence, hessence, hp'⟩ := bind_eq_ok.mp hp'
      obtain ⟨unlocks, -, hp'⟩ := bind_eq_ok.mp hp'
      cases pure_eq_ok.mp hp'
      refine jsonReadable_transaction.mpr fun e he => ?_
      exact Essence.readable_of_read (readable_of_readUpTo n)
        (hessence.trans (congrArg Except.ok he))
    · split at h
      · cases pure_eq_ok.mp h
        rw [taggedDataOfQJsonValue, JsonReadable]
        trivial
      · cases h

/-- An essence of a readable network id is read from an object, as far as
its payload is. -/
theorem Essence.read_of {networkId : UInt64} {inputs : List (Option Input)}
    {inputsCommitment : Bytes} {outputs : List (Option Output)} {payload : Option Payload}
    (id : ReadableId networkId) (tokens : ∀ o ∈ outputs, ∀ x ∈ o, x.TokensNonNull)
    (embedded : ∃ v, Payload.fromQJsonValue v = .ok payload) :
    ∃ v, fromQJsonValue Payload.fromQJsonValue v =
      .ok (some (.transaction networkId inputs inputsCommitment outputs payload)) := by
  obtain ⟨network, hnetwork⟩ := (readableId_iff networkId).mp id
  obtain ⟨inputs', hinputs⟩ := getTvec_reads fun i (_ : i ∈ inputs) => by
    obtain ⟨v, hv⟩ := Input.fromQJsonValue_surjective i
    exact ⟨v, congrArg Except.ok hv⟩
  obtain ⟨outputs', houtputs⟩ := getTvec_reads fun o ho => (Output.read_iff o).mpr (tokens o ho)
  obtain ⟨v, hv⟩ := embedded
  refine ⟨tagged transactionType (QJsonObject.empty
    |>.insert "networkId" network
    |>.insert "inputs" (.array inputs')
    |>.insert "inputsCommitment" (.string (toHexString inputsCommitment))
    |>.insert "outputs" (.array outputs')
    |>.insert "payload" v), ?_⟩
  rw [Essence.fromQJsonValue, if_pos (getType8_tagged _ _)]
  refine map_eq_ok.mpr ⟨_, ?_, rfl⟩
  simp only [ofQJsonValue, member_tagged, QJsonObject.member_insert, String.reduceEq, if_false,
    if_true, QJsonValue.toArray_array, hnetwork, hinputs, houtputs, hv, ofHexValue_toHexString,
    bind, Except.bind]
  rfl

omit [LawfulPlatform] in
/-- A transaction is read from an object if its essence is from some value. -/
theorem Payload.read_of {essence : Option Essence} {unlocks : List (Option Unlock)}
    (hessence : ∃ v, Essence.fromQJsonValue fromQJsonValue v = .ok essence) :
    ∃ j, fromQJsonValue (.object j) = .ok (some (transaction essence unlocks)) := by
  obtain ⟨v, hv⟩ := hessence
  obtain ⟨unlocks', hunlocks⟩ := getTvec_reads fun u (_ : u ∈ unlocks) => by
    obtain ⟨v, hv⟩ := Unlock.fromQJsonValue_surjective u
    exact ⟨v, congrArg Except.ok hv⟩
  let j := QJsonObject.empty
    |>.insert "type" (.ofInt transactionType.toNat)
    |>.insert "essence" v
    |>.insert "unlocks" (.array unlocks')
  have type : getType32 (.object j) = transactionType :=
    getType32_object (by decide) (by simp [j])
  refine ⟨j, ?_⟩
  rw [fromQJsonValue_eq, dispatchQJsonValue, type]
  refine map_eq_ok.mpr ⟨_, ?_, rfl⟩
  simp only [j, transactionOfQJsonValue, QJsonValue.member_object, QJsonObject.member_insert,
    String.reduceEq, if_false, if_true, QJsonValue.toArray_array, hv, hunlocks, bind, Except.bind]
  rfl

mutual

/-- A readable essence is read from some value. -/
theorem Essence.JsonReadable.read : ∀ {e : Essence}, e.JsonReadable →
    ∃ v, Essence.fromQJsonValue Payload.fromQJsonValue v = .ok (some e)
  | .transaction networkId inputs inputsCommitment outputs none, h =>
    Essence.read_of h.1 h.2.1 ⟨.null, Payload.fromQJsonValue_null⟩
  | .transaction networkId inputs inputsCommitment outputs (some p), h => by
    obtain ⟨j, hj⟩ := Payload.JsonReadable.read h.2.2
    exact Essence.read_of h.1 h.2.1 ⟨_, hj⟩

/-- A readable payload is read from some object. -/
theorem Payload.JsonReadable.read : ∀ {p : Payload}, p.JsonReadable →
    ∃ j, Payload.fromQJsonValue (.object j) = .ok (some p)
  | .taggedData tag data, _ => by
    have nonNull : (Payload.taggedData tag data).NonNull := trivial
    obtain ⟨j, hj⟩ := Payload.getJson_ok.mpr nonNull
    have read := Payload.fromJson hj
    rw [Payload.jsonForm] at read
    exact ⟨j, read⟩
  | .transaction none unlocks, _ => Payload.read_of ⟨unknown, rfl⟩
  | .transaction (some e) unlocks, h => Payload.read_of (Essence.JsonReadable.read h)

end

omit [LawfulPlatform] in
/-- The reader of payloads looks at five members. -/
theorem Payload.fromQJsonValue_congr {v w : QJsonValue}
    (same : ∀ key ∈ ["type", "tag", "data", "essence", "unlocks"], v.member key = w.member key) :
    fromQJsonValue v = fromQJsonValue w := by
  simp only [List.forall_mem_cons] at same
  obtain ⟨type, tag, data, essence, unlocks, -⟩ := same
  have type32 : getType32 v = getType32 w := by rw [getType32, getType32, type]
  simp only [fromQJsonValue_eq, dispatchQJsonValue, transactionOfQJsonValue,
    taggedDataOfQJsonValue, type32, tag, data, essence, unlocks]

/-! ## The range -/

/-- A payload is read from some value exactly if it is readable. -/
theorem Payload.read_iff (p : Payload) :
    (∃ v, fromQJsonValue v = .ok (some p)) ↔ p.JsonReadable := by
  constructor
  · intro read
    obtain ⟨v, hv⟩ := read
    exact readable_of_readUpTo _ v p hv
  · intro readable
    obtain ⟨j, hj⟩ := readable.read
    exact ⟨_, hj⟩

/-- A block is read from some value exactly if its payload, should it have
one, is readable: its other members say anything. -/
theorem Block.read_iff (b : Block) :
    (∃ v, ofQJsonValue v = .ok b) ↔ ∀ p ∈ b.payload, p.JsonReadable := by
  constructor
  · intro read p hp
    obtain ⟨v, hv⟩ := read
    obtain ⟨payload, hpayload, hv⟩ := bind_eq_ok.mp hv
    cases pure_eq_ok.mp hv
    exact (Payload.read_iff p).mp ⟨v, hpayload.trans (congrArg Except.ok hp)⟩
  · intro readable
    obtain ⟨protocolVersion, parents, payload, nonce⟩ := b
    have embedded : ∃ j : QJsonObject, Payload.fromQJsonValue (.object j) = .ok payload := by
      cases payload with
      | none => exact ⟨QJsonObject.empty, rfl⟩
      | some p => exact (readable p rfl).read
    obtain ⟨j, hj⟩ := embedded
    obtain ⟨number, hnumber⟩ := uint64_of_toInteger nonce
    let full : QJsonObject := j
      |>.insert "protocolVersion" (.ofInt protocolVersion.toNat)
      |>.insert "nonce" number
      |>.insert "outputs" (.array (parents.map fun id => .string (toHexString id)))
    have same : Payload.fromQJsonValue (.object full) = .ok payload := by
      rw [← hj]
      apply Payload.fromQJsonValue_congr
      simp [full]
    refine ⟨.object full, ?_⟩
    simp [ofQJsonValue, same, full, hnumber, ofInt_toInt_uint8, ofHexValue_toHexString, bind,
      Except.bind, pure, Except.pure, Function.comp_def]

/-- What the readers answer, for some value: outputs and payloads whose
native tokens are there and whose network ids are readable, and any block of
such a payload or of none. -/
theorem json_range :
    (∀ o : Option Output,
      (∃ v, Output.fromQJsonValue v = .ok o) ↔ ∀ x ∈ o, x.TokensNonNull) ∧
    (∀ p : Payload, (∃ v, Payload.fromQJsonValue v = .ok (some p)) ↔ p.JsonReadable) ∧
    (∀ b : Block, (∃ v, Block.ofQJsonValue v = .ok b) ↔ ∀ p ∈ b.payload, p.JsonReadable) :=
  ⟨Output.read_iff, Payload.read_iff, Block.read_iff⟩

end Lawful

/-! ## At two transactions -/

section Sample

open Plain

/-- A transaction of a 64-bit network id is out of reach; one of a null
input, a null output and a null unlock is not. -/
theorem json_range_transactions :
    (¬ ∃ v, Payload.fromQJsonValue v = .ok (some
      (.transaction (some (.transaction 14364762045254553490 [] [] [] none)) []))) ∧
    ∃ v, Payload.fromQJsonValue v = .ok (some
      (.transaction (some (.transaction 9 [none] [] [none] none)) [none])) := by
  constructor
  · intro read
    rcases ((json_range.2.1 _).mp read).1 with low | high
    · exact absurd low (by decide)
    · exact absurd high (by decide)
  · refine (json_range.2.1 _).mpr ⟨Or.inl (by decide), ?_, trivial⟩
    simp

end Sample

end Qblock
