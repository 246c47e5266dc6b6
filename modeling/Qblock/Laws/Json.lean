import Qblock.Laws.RoundTrip

/-!
# Reading back JSON

The JSON of an output or an unlock reads back as the same object, whatever
the length of its byte arrays, the immutable features of a basic output
included: the reader and the writer are both those of the base class.

- `X.fromJson` — of an object that has a JSON form, that form reads back;
- `getTvec_getJsonAll`, `getT_getJsonAll` — vectors and sets of such objects;
- `output_unlock_fromJson` — outputs and unlocks.
-/

namespace Qblock

open Wire Qt

/-! ## Fields -/

/-- Hex text of bytes is read as the bytes. -/
theorem CArray.fromHexString_toHexString (b : Bytes) : fromHexString (toHexString b) = b := by
  have latin : ∀ c ∈ '0' :: 'x' :: toHex b, c.toNat < 256 := by
    intro c hc
    simp only [List.mem_cons] at hc
    rcases hc with rfl | rfl | hc
    · decide
    · decide
    · exact toHex_latin1 b c hc
  rw [fromHexString, toHexString, toLatin1_ofList latin]
  exact fromHex_toHex b

/-- The array made of a JSON value is that of the text in it. -/
theorem ofHexValue_toHexString (b : Bytes) : ofHexValue (.string (toHexString b)) = b :=
  CArray.fromHexString_toHexString b

/-- The tag of an object is that of its member `type`. -/
theorem getType8_object {o : QJsonObject} {tag : UInt8}
    (h : o.member "type" = .ofInt tag.toNat) : getType8 (.object o) = tag := by
  rw [getType8, QJsonValue.member_object, h, ofInt_toInt_uint8]

/-- The type of a payload is that of its member `type`. -/
theorem getType32_object {o : QJsonObject} {tag : UInt32} (small : tag.toNat < 2 ^ 31)
    (h : o.member "type" = .ofInt tag.toNat) : getType32 (.object o) = tag := by
  have wrapped : ((tag.toNat : Int) % 2 ^ 32).toNat = tag.toNat := by omega
  rw [getType32, QJsonValue.member_object, h, QJsonValue.toInt_ofInt (by omega) (by omega),
    UInt32.ofInt, wrapped, UInt32.ofNat_toNat]

/-! ## Tagged objects -/

/-- The name of the hash in JSON depends on the type. -/
theorem Address.fromJson (a : Address) : fromQJsonValue (.object a.getJson) = some a := by
  obtain ⟨type, addrhash⟩ := a
  have tag : getType8 (.object (getJson ⟨type, addrhash⟩)) = type.toUInt8 := by
    apply getType8_object
    cases type with
    | ed25519 | «alias» | nft => simp [getJson, Types.hashKey]
  have hash : ofQJsonValue type (.object (getJson ⟨type, addrhash⟩)) = ⟨type, addrhash⟩ := by
    simp [ofQJsonValue, getJson, ofHexValue_toHexString]
  rw [fromQJsonValue, tag]
  cases type with
  | ed25519 | «alias» | nft => exact congrArg some hash

theorem Feature.fromJson {f : Feature} {j : QJsonObject} (h : f.getJson = .ok j) :
    fromQJsonValue (.object j) = some f := by
  have tag : getType8 (.object j) = f.type.toUInt8 := by
    apply getType8_object
    cases f with
    | sender a | issuer a =>
      obtain ⟨_, -, ⟨⟩⟩ := bind_eq_ok.mp h
      simp
    | metadata _ | tag _ =>
      cases h
      simp
  simp only [fromQJsonValue, tag]
  cases f with
  | sender a | issuer a =>
    cases a with
    | none => cases h
    | some a =>
      cases h
      simp [type, Types.toUInt8, Address.fromJson]
  | metadata _ | tag _ =>
    cases h
    simp [type, Types.toUInt8, ofHexValue_toHexString]

/-- The two kinds with a return address name it otherwise than the rest. -/
theorem UnlockCondition.fromJson {c : UnlockCondition} {j : QJsonObject} (h : c.getJson = .ok j) :
    fromQJsonValue (.object j) = some c := by
  have tag : getType8 (.object j) = c.type.toUInt8 := by
    apply getType8_object
    cases c with
    | address a | stateControllerAddress a | governorAddress a | immutableAliasAddress a
    | storageDepositReturn a _ | expiration a _ =>
      obtain ⟨_, -, ⟨⟩⟩ := bind_eq_ok.mp h
      simp
    | timelock _ =>
      cases h
      simp
  simp only [fromQJsonValue, tag]
  cases c with
  | address a | stateControllerAddress a | governorAddress a | immutableAliasAddress a
  | storageDepositReturn a _ | expiration a _ =>
    cases a with
    | none => cases h
    | some a =>
      cases h
      simp [type, Types.toUInt8, Address.fromJson, toULongLong_number, ofInt_toInteger_castInt]
  | timelock _ =>
    cases h
    simp [type, Types.toUInt8, ofInt_toInteger_castInt]

theorem Input.fromJson (i : Input) : fromQJsonValue (.object i.getJson) = some i := by
  have tag : getType8 (.object i.getJson) = utxoType := getType8_object (by simp [getJson])
  rw [fromQJsonValue, if_pos tag]
  simp [getJson, ofHexValue_toHexString, ofInt_toInt_uint16]

theorem Signature.fromJson (s : Signature) : fromQJsonValue (.object s.getJson) = some s := by
  have tag : getType8 (.object s.getJson) = ed25519Type := getType8_object (by simp [getJson])
  rw [fromQJsonValue, if_pos tag]
  simp [getJson, ofHexValue_toHexString]

theorem Unlock.fromJson {u : Unlock} {j : QJsonObject} (h : u.getJson = .ok j) :
    fromQJsonValue (.object j) = some u := by
  have tag : getType8 (.object j) = u.type.toUInt8 := by
    apply getType8_object
    cases u with
    | signature s =>
      obtain ⟨_, -, ⟨⟩⟩ := bind_eq_ok.mp h
      simp
    | reference _ | «alias» _ | nft _ =>
      cases h
      simp
  simp only [fromQJsonValue, tag]
  cases u with
  | signature s =>
    cases s with
    | none => cases h
    | some s =>
      cases h
      simp [type, Types.toUInt8, Signature.fromJson]
  | reference _ | «alias» _ | nft _ =>
    cases h
    simp [type, Types.toUInt8, ofInt_toInt_uint16]

section Lawful

variable [Platform] [LawfulPlatform]

theorem NativeToken.fromJson (t : NativeToken) : fromQJsonValue (.object t.getJson) = some t := by
  simp [fromQJsonValue, getJson, ofHexValue_toHexString, LawfulPlatform.quint256OfString_toHex]

theorem TokenScheme.fromJson (s : TokenScheme) : fromQJsonValue (.object s.getJson) = some s := by
  have tag : getType8 (.object s.getJson) = simpleType := getType8_object (by simp [getJson])
  rw [fromQJsonValue, if_pos tag]
  simp [getJson, LawfulPlatform.quint256OfString_toHex]

end Lawful

/-! ## Containers -/

section Containers

variable {T : Type} {getJson : T → Except Fault QJsonObject} {ps : List (Option T)}
  {js : List QJsonValue}

/-- The JSON of a container reads back, element by element. -/
theorem getTvec_getJsonAll {from_ : QJsonValue → Except Fault (Option T)}
    (h : ∀ p ∈ ps, ∀ x ∈ p, ∀ j, getJson x = .ok j → from_ (.object j) = .ok (some x))
    (hjs : getJsonAll getJson ps = .ok js) : getTvec from_ js = .ok ps := by
  induction ps generalizing js with
  | nil =>
    cases hjs
    rfl
  | cons p ps ih =>
    obtain ⟨x, hp, hjs⟩ := bind_eq_ok.mp hjs
    obtain ⟨j, hj, hjs⟩ := bind_eq_ok.mp hjs
    obtain ⟨rest, hrest, hjs⟩ := bind_eq_ok.mp hjs
    cases pure_eq_ok.mp hjs
    cases p with
    | none => cases hp
    | some x' =>
      cases hp
      have head := h _ List.mem_cons_self x rfl j hj
      have tail := ih (fun q hq => h q (List.mem_cons_of_mem _ hq)) hrest
      simp only [getTvec, head, tail, bind, Except.bind]
      rfl

/-- A set is read from an array by a run of insertions. -/
theorem getT_eq_insertAll [Keyed T] (from_ : QJsonValue → Option T) (s : PSet T) :
    getT from_ js s = PSet.insertAll (js.map from_) s := by
  induction js generalizing s with
  | nil => rfl
  | cons v vs ih => simp only [getT, List.map_cons, PSet.insertAll, ih]

/-- A reader that does not fault reads an array element by element. -/
theorem getTvec_map (from_ : QJsonValue → Option T) (vs : List QJsonValue) :
    getTvec (fun v => .ok (from_ v)) vs = .ok (vs.map from_) := by
  induction vs with
  | nil => rfl
  | cons v vs ih =>
    simp only [getTvec, ih, bind, Except.bind]
    rfl

/-- The JSON of a set reads back. -/
theorem getT_getJsonAll [Keyed T] {from_ : QJsonValue → Option T} {s : PSet T}
    (h : ∀ x j, getJson x = .ok j → from_ (.object j) = some x)
    (hjs : getJsonAll getJson s.elems = .ok js) : getT from_ js .empty = .ok s := by
  have read : getTvec (fun v => .ok (from_ v)) js = .ok s.elems :=
    getTvec_getJsonAll (fun _ _ x _ j hj => congrArg Except.ok (h x j hj)) hjs
  rw [getTvec_map] at read
  rw [getT_eq_insertAll, Except.ok.inj read, PSet.insertAll_elems]

end Containers

/-! ## Outputs -/

namespace Output

/-- An array that is left out if it is empty reads as an array all the same. -/
theorem toArray_insertNonempty {key : String} {values : List QJsonValue} {o : QJsonObject}
    (h : o.member key = .null) : ((insertNonempty key values o).member key).toArray = values := by
  cases values with
  | nil => simp [insertNonempty, h]
  | cons v vs => simp [insertNonempty]

/-- Other members are left as they are. -/
theorem member_insertNonempty_of_ne {key key' : String} {values : List QJsonValue} {o : QJsonObject}
    (h : key ≠ key') : (insertNonempty key values o).member key' = o.member key' := by
  unfold insertNonempty
  split
  · rfl
  · rw [QJsonObject.member_insert, if_neg h]

section Lawful

variable [Platform] [LawfulPlatform]

/-- What `Output(types, const QJsonValue&)` finds of the base class in an
object. -/
structure HasBase (j : QJsonObject) (o : Output) : Prop where
  type : j.member "type" = .ofInt o.type.toUInt8.toNat
  amount : j.member "amount" = .string (number o.amount)
  nativeTokens : getT NativeToken.fromQJsonValue (j.member "nativeTokens").toArray .empty =
    .ok o.nativeTokens
  unlockConditions : getT UnlockCondition.fromQJsonValue (j.member "unlockConditions").toArray
    .empty = .ok o.unlockConditions
  features : getT Feature.fromQJsonValue (j.member "features").toArray .empty = .ok o.features
  immutableFeatures : getT Feature.fromQJsonValue (j.member "immutableFeatures").toArray .empty =
    .ok o.immutableFeatures

/-- What `Output::get_Json` says is what the base class reads. -/
theorem baseGetJson_hasBase {o : Output} {j : QJsonObject} (h : o.baseGetJson = .ok j) :
    HasBase j o := by
  obtain ⟨nativeTokens, hnt, h⟩ := bind_eq_ok.mp h
  obtain ⟨unlockConditions, huc, h⟩ := bind_eq_ok.mp h
  obtain ⟨features, hf, h⟩ := bind_eq_ok.mp h
  obtain ⟨immutableFeatures, himf, h⟩ := bind_eq_ok.mp h
  cases pure_eq_ok.mp h
  have token : ∀ (t : NativeToken) j, (.ok t.getJson : Except Fault QJsonObject) = .ok j →
      NativeToken.fromQJsonValue (.object j) = some t := by
    rintro t _ ⟨⟩
    exact t.fromJson
  refine ⟨?_, ?_, ?_, ?_, ?_, ?_⟩
  · simp [member_insertNonempty_of_ne]
  · simp [member_insertNonempty_of_ne]
  · rw [member_insertNonempty_of_ne (by decide), member_insertNonempty_of_ne (by decide),
      QJsonObject.member_insert, if_neg (by decide), toArray_insertNonempty (by simp)]
    exact getT_getJsonAll token hnt
  · rw [member_insertNonempty_of_ne (by decide), member_insertNonempty_of_ne (by decide),
      QJsonObject.member_insert, if_pos rfl]
    exact getT_getJsonAll (fun _ _ => UnlockCondition.fromJson) huc
  · rw [member_insertNonempty_of_ne (by decide),
      toArray_insertNonempty (by simp [member_insertNonempty_of_ne])]
    exact getT_getJsonAll (fun _ _ => Feature.fromJson) hf
  · rw [toArray_insertNonempty (by simp [member_insertNonempty_of_ne])]
    exact getT_getJsonAll (fun _ _ => Feature.fromJson) himf

omit [LawfulPlatform] in
/-- A member of another name does not disturb the base class. -/
theorem HasBase.insert {o : Output} {j : QJsonObject} (h : HasBase j o) {key : String}
    {v : QJsonValue}
    (other : key ∉ ["type", "amount", "nativeTokens", "unlockConditions", "features",
      "immutableFeatures"]) : HasBase (j.insert key v) o := by
  simp only [List.mem_cons, List.not_mem_nil, or_false, not_or] at other
  obtain ⟨h₁, h₂, h₃, h₄, h₅, h₆⟩ := other
  exact ⟨by simpa [h₁] using h.type, by simpa [h₂] using h.amount,
    by simpa [h₃] using h.nativeTokens, by simpa [h₄] using h.unlockConditions,
    by simpa [h₅] using h.features, by simpa [h₆] using h.immutableFeatures⟩

omit [LawfulPlatform] in
theorem HasBase.ofQJsonValue {o : Output} {j : QJsonObject} (h : HasBase j o) :
    ofQJsonValue o.kind (.object j) = .ok o := by
  simp only [Output.ofQJsonValue, QJsonValue.member_object, h.amount, h.nativeTokens,
    h.unlockConditions, h.features, h.immutableFeatures, QJsonValue.toString_string,
    toULongLong_number, bind, Except.bind]
  rfl

/-- The reader dispatches on the type of the base class. -/
theorem HasBase.fromQJsonValue {o : Output} {j : QJsonObject} (h : HasBase j o)
    (kind : match o.kind with
      | .basic => True
      | .nft nftId => j.member "nftId" = .string (toHexString nftId)
      | .foundry tokenScheme serialNumber =>
        j.member "serialNumber" = .ofInt (castInt serialNumber) ∧
          ∃ s, tokenScheme = some s ∧ j.member "tokenScheme" = .object s.getJson
      | .alias aliasId stateIndex foundryCounter stateMetadata =>
        j.member "aliasId" = .string (toHexString aliasId) ∧
          j.member "stateIndex" = .ofInt (castInt stateIndex) ∧
          j.member "foundryCounter" = .ofInt (castInt foundryCounter) ∧
          j.member "stateMetadata" = .string (toHexString stateMetadata)) :
    fromQJsonValue (.object j) = .ok (some o) := by
  have read := h.ofQJsonValue
  simp only [Output.fromQJsonValue, getType8_object h.type]
  obtain ⟨kind', _, _, _, _, _⟩ := o
  cases kind' with
  | basic => exact map_eq_ok.mpr ⟨_, read, rfl⟩
  | nft nftId =>
    refine map_eq_ok.mpr ⟨_, ?_, rfl⟩
    rw [nftOfQJsonValue, QJsonValue.member_object, kind, ofHexValue_toHexString]
    exact read
  | foundry tokenScheme serialNumber =>
    obtain ⟨hserial, s, rfl, hscheme⟩ := kind
    refine map_eq_ok.mpr ⟨_, ?_, rfl⟩
    rw [foundryOfQJsonValue, QJsonValue.member_object, QJsonValue.member_object, hserial, hscheme,
      ofInt_toInteger_castInt, TokenScheme.fromJson]
    exact read
  | «alias» aliasId stateIndex foundryCounter stateMetadata =>
    obtain ⟨hid, hindex, hcounter, hmetadata⟩ := kind
    refine map_eq_ok.mpr ⟨_, ?_, rfl⟩
    simp only [aliasOfQJsonValue, QJsonValue.member_object, hid, hindex, hcounter, hmetadata,
      ofInt_toInteger_castInt, ofHexValue_toHexString]
    exact read

/-- An output reads back from its JSON. -/
theorem fromJson {o : Output} {j : QJsonObject} (h : o.getJson = .ok j) :
    Output.fromQJsonValue (.object j) = .ok (some o) := by
  obtain ⟨base, hbase, h⟩ := bind_eq_ok.mp h
  have found := baseGetJson_hasBase hbase
  obtain ⟨kind, _, _, _, _, _⟩ := o
  cases kind with
  | basic =>
    cases pure_eq_ok.mp h
    exact found.fromQJsonValue trivial
  | nft nftId =>
    cases pure_eq_ok.mp h
    exact (found.insert (by decide)).fromQJsonValue (by simp)
  | foundry tokenScheme serialNumber =>
    obtain ⟨s, hs, h⟩ := bind_eq_ok.mp h
    cases pure_eq_ok.mp h
    cases tokenScheme with
    | none => cases hs
    | some _ =>
      cases hs
      exact ((found.insert (by decide)).insert (by decide)).fromQJsonValue (by simp)
  | «alias» aliasId stateIndex foundryCounter stateMetadata =>
    cases pure_eq_ok.mp h
    exact ((((found.insert (by decide)).insert (by decide)).insert (by decide)).insert
      (by decide)).fromQJsonValue (by simp)

end Lawful

end Output

section Lawful

variable [Platform] [LawfulPlatform]

/-- Outputs and unlocks read back from their JSON, equal in every field. -/
theorem output_unlock_fromJson :
    (∀ o : Output, o.NonNull → ∃ j, o.getJson = .ok j ∧
      Output.fromQJsonValue (.object j) = .ok (some o)) ∧
    (∀ u : Unlock, u.NonNull → ∃ j, u.getJson = .ok j ∧
      Unlock.fromQJsonValue (.object j) = some u) := by
  constructor
  · intro o nonNull
    obtain ⟨j, hj⟩ := Output.getJson_ok.mpr nonNull
    exact ⟨j, hj, Output.fromJson hj⟩
  · intro u nonNull
    obtain ⟨j, hj⟩ := Unlock.getJson_ok.mpr nonNull
    exact ⟨j, hj, Unlock.fromJson hj⟩

end Lawful

/-! ## At an output -/

section Sample

open Plain

theorem output_unlock_fromJson_sample :
    (∃ j, Output.sampleNft.getJson = .ok j ∧
      Output.fromQJsonValue (.object j) = .ok (some .sampleNft)) ∧
    (∃ j, (Unlock.reference 3).getJson = .ok j ∧
      Unlock.fromQJsonValue (.object j) = some (.reference 3)) :=
  ⟨output_unlock_fromJson.1 _ Output.sampleNft_nonNull, output_unlock_fromJson.2 _ trivial⟩

end Sample

end Qblock
