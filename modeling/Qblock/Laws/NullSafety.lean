import Qblock.Laws.Scan
import Qblock.Laws.Json

/-!
# Null pointers

What it takes for the decoders, and then `serialize` and `get_Json` of what
they made, to look through no null pointer: every tag that is going to be
needed is known. The scanners say so of a byte string, and the checks of
JSON values say so of a value; both are about tags only.

A tag the decoders do not know is answered by a null pointer, which is
harmless in the slot of a payload, fatal everywhere else, and in an element
of a set fatal unless the element is dropped.
-/

namespace Qblock

open Wire Qt

/-! ## JSON values -/

/-- An address is there exactly if its tag is known. -/
theorem isSome_fromQJsonValue (val : QJsonValue) :
    (Address.fromQJsonValue val).isSome ↔ knownAddress val = true := by
  unfold Address.fromQJsonValue knownAddress
  split
  · next h => simp [h]
  split
  · next h => simp [h]
  split
  · next h => simp [h]
  · next h h' h'' => simp [h, h', h'']

/-- What is seen of a feature in the JSON. -/
theorem matches_feature (val : QJsonValue) :
    Matches Feature.NonNull (Feature.fromQJsonValue val) (seenFeature val) := by
  have holder := isSome_fromQJsonValue (val.member "address")
  unfold Feature.fromQJsonValue seenFeature
  generalize getType8 val = type
  by_cases hm : type = Feature.Types.metadata.toUInt8
  · subst hm
    exact ⟨true, rfl, iff_of_true trivial rfl⟩
  by_cases ht : type = Feature.Types.tag.toUInt8
  · subst ht
    exact ⟨true, rfl, iff_of_true trivial rfl⟩
  by_cases hs : type = Feature.Types.sender.toUInt8
  · subst hs
    exact ⟨_, rfl, holder⟩
  by_cases hi : type = Feature.Types.issuer.toUInt8
  · subst hi
    exact ⟨_, rfl, holder⟩
  simp only [hm, ht, hs, hi, if_false, or_false]
  rfl

/-- What is seen of an unlock condition in the JSON. -/
theorem matches_unlockCondition (val : QJsonValue) :
    Matches UnlockCondition.NonNull (UnlockCondition.fromQJsonValue val)
      (seenUnlockCondition val) := by
  have holder := isSome_fromQJsonValue (val.member "address")
  have returnAddress := isSome_fromQJsonValue (val.member "returnAddress")
  unfold UnlockCondition.fromQJsonValue seenUnlockCondition
  generalize getType8 val = type
  by_cases he : type = UnlockCondition.Types.expiration.toUInt8
  · subst he
    exact ⟨_, rfl, returnAddress⟩
  by_cases ht : type = UnlockCondition.Types.timelock.toUInt8
  · subst ht
    exact ⟨true, rfl, iff_of_true trivial rfl⟩
  by_cases hr : type = UnlockCondition.Types.storageDepositReturn.toUInt8
  · subst hr
    exact ⟨_, rfl, returnAddress⟩
  by_cases ha : type = UnlockCondition.Types.address.toUInt8
  · subst ha
    exact ⟨_, rfl, holder⟩
  by_cases hs : type = UnlockCondition.Types.stateControllerAddress.toUInt8
  · subst hs
    exact ⟨_, rfl, holder⟩
  by_cases hg : type = UnlockCondition.Types.governorAddress.toUInt8
  · subst hg
    exact ⟨_, rfl, holder⟩
  by_cases hi : type = UnlockCondition.Types.immutableAliasAddress.toUInt8
  · subst hi
    exact ⟨_, rfl, holder⟩
  simp only [he, ht, hr, ha, hs, hg, hi, if_false, or_false]
  rfl

/-- A set from an array: each element by its key, the first of a key stays. -/
theorem judgesValue_set {T : Type} [Keyed T] {nonNull : T → Prop} {from_ : QJsonValue → Option T}
    {seen : QJsonValue → Seen (Keyed.Key T)} (h : ∀ v, Matches nonNull (from_ v) (seen v))
    (vs : List QJsonValue) :
    JudgesValue (getT from_ vs .empty) (enterAll .lenient [] (vs.map seen))
      (fun s _ => AllNonNull nonNull s.elems) (fun s => ¬ AllNonNull nonNull s.elems) := by
  have hall : List.Forall₂ (Matches nonNull) (vs.map from_) (vs.map seen) := by
    induction vs with
    | nil => exact .nil
    | cons v vs ih => exact .cons (h v) ih
  have lenient : Policy.lenient ≠ .comparable := nofun
  have inserted := enterAll_insertAll lenient hall Entered.empty
  rw [getT_eq_insertAll]
  unfold JudgesValue
  cases henter : enterAll .lenient [] (vs.map seen) with
  | error _ =>
    rw [henter] at inserted
    exact inserted rfl
  | ok _ =>
    rw [henter] at inserted
    obtain ⟨s, hs, hnonNull, -⟩ := inserted
    exact ⟨s, hs, hnonNull⟩

section Platform

variable [Platform]

/-- Native tokens are always there. -/
theorem getT_nativeTokens (vs : List QJsonValue) :
    ∃ s, getT NativeToken.fromQJsonValue vs .empty = .ok s ∧
      AllNonNull (fun _ => True) s.elems := by
  rw [getT_eq_insertAll]
  have present : ∀ p ∈ vs.map NativeToken.fromQJsonValue, p.isSome := by
    intro p hp
    obtain ⟨v, -, rfl⟩ := List.mem_map.mp hp
    rfl
  obtain ⟨s, hs, hall⟩ := PSet.insertAll_ok present
  refine ⟨s, hs, fun p hp => ?_⟩
  obtain ⟨t, rfl⟩ := Option.isSome_iff_exists.mp (hall p hp)
  exact ⟨t, rfl, trivial⟩

/-- The sets of an output, whatever its kind. -/
theorem judgesValue_sets (kind : Output.Kind) (val : QJsonValue) :
    JudgesValue (Output.ofQJsonValue kind val) (checkSets val)
      (fun o _ => o.NonNull ↔ kind.NonNull) (fun o => ¬ o.NonNull) := by
  obtain ⟨nativeTokens, ht, hnativeTokens⟩ :=
    getT_nativeTokens (val.member "nativeTokens").toArray
  apply (judgesValue_set matches_unlockCondition _).bind
  · intro unlockConditions _ hc
    apply (judgesValue_set matches_feature _).bind
    · intro features _ hf
      rw [ht]
      apply (judgesValue_set matches_feature _).bind
      · intro immutableFeatures _ hif
        exact JudgesValue.ok ⟨fun h => h.kind, fun h => ⟨h, hc, hf, hif, hnativeTokens⟩⟩
      · rintro s hs _ ⟨⟩ h
        exact hs h.immutableFeatures
    · intro s hs o ho h
      rw [ht] at ho
      obtain ⟨_, -, ho⟩ := bind_eq_ok.mp ho
      obtain ⟨_, -, ⟨⟩⟩ := bind_eq_ok.mp ho
      exact hs h.features
  · intro s hs o ho h
    obtain ⟨_, -, ho⟩ := bind_eq_ok.mp ho
    rw [ht] at ho
    obtain ⟨_, -, ho⟩ := bind_eq_ok.mp ho
    obtain ⟨_, -, ⟨⟩⟩ := bind_eq_ok.mp ho
    exact hs h.unlockConditions

/-- The verdict on a pointer that may be null. -/
abbrev JudgesPointerValue {T : Type} (nonNull : T → Prop) (x : Except Fault (Option T))
    (r : Verdict) : Prop :=
  JudgesValue x r (fun p known => p.isSome = known ∧ ∀ o ∈ p, nonNull o)
    (fun p => ¬ ∀ o ∈ p, nonNull o)

/-- Outputs, by their kind. Only a foundry has a pointer of its own. -/
theorem judgesValue_output (val : QJsonValue) :
    JudgesPointerValue Output.NonNull (Output.fromQJsonValue val) (checkOutput val) := by
  have plain : ∀ kind : Output.Kind, kind.NonNull →
      JudgesPointerValue Output.NonNull (some <$> Output.ofQJsonValue kind val)
        (do checkSets val; return true) := by
    intro kind hkind
    rw [map_eq_pure_bind]
    refine (judgesValue_sets kind val).bind (fun o _ ho => JudgesValue.ok ⟨rfl, ?_⟩) ?_
    · intro _ hmem
      cases hmem
      exact ho.mpr hkind
    · intro o ho _ heq hall
      cases heq
      exact ho (hall o rfl)
  unfold Output.fromQJsonValue checkOutput
  generalize getType8 val = type
  by_cases hb : type = Output.Types.basic.toUInt8
  · subst hb
    exact plain .basic trivial
  by_cases hn : type = Output.Types.nft.toUInt8
  · subst hn
    exact plain (.nft _) trivial
  by_cases hf : type = Output.Types.foundry.toUInt8
  · subst hf
    show JudgesPointerValue Output.NonNull (some <$> Output.foundryOfQJsonValue val) (do
      checkSets val
      if getType8 (val.member "tokenScheme") = TokenScheme.simpleType then return true
      else .error ())
    rw [map_eq_pure_bind]
    refine (judgesValue_sets _ val).bind (fun o _ ho => ?_) ?_
    · by_cases hscheme : getType8 (val.member "tokenScheme") = TokenScheme.simpleType
      · rw [if_pos hscheme]
        refine JudgesValue.ok ⟨rfl, ?_⟩
        intro _ hmem
        cases hmem
        apply ho.mpr
        rw [TokenScheme.fromQJsonValue, if_pos hscheme]
        rfl
      · rw [if_neg hscheme]
        intro _ hmem hall
        cases hmem
        have kind := ho.mp (hall o rfl)
        rw [TokenScheme.fromQJsonValue, if_neg hscheme] at kind
        cases kind
    · intro o ho _ heq hall
      cases heq
      exact ho (hall o rfl)
  by_cases ha : type = Output.Types.alias.toUInt8
  · subst ha
    exact plain (.alias _ _ _ _) trivial
  simp only [hb, hn, hf, ha, if_false, or_false]
  exact JudgesValue.ok ⟨rfl, of_mem_none⟩

/-! ## Payloads from JSON -/

omit [Platform] in
/-- A vector from an array, of which no pointer may be null. -/
theorem judgesValue_values {T : Type} {nonNull : T → Prop}
    {from_ : QJsonValue → Except Fault (Option T)} {check : QJsonValue → Verdict}
    (h : ∀ v, JudgesPointerValue nonNull (from_ v) (check v)) : ∀ vs : List QJsonValue,
    JudgesValue (getTvec from_ vs) (checkValues check vs) (fun ps _ => AllNonNull nonNull ps)
      (fun ps => ¬ AllNonNull nonNull ps)
  | [] => JudgesValue.ok nofun
  | v :: vs => by
    refine (h v).bind (fun p known hp => ?_) ?_
    · obtain ⟨rfl, hall⟩ := hp
      cases p with
      | none =>
        refine JudgesValue.error fun ps hps hnonNull => ?_
        obtain ⟨_, -, ⟨⟩⟩ := bind_eq_ok.mp hps
        obtain ⟨_, ⟨⟩, -⟩ := hnonNull none List.mem_cons_self
      | some x =>
        rw [if_pos Option.isSome_some, ← bind_pure (checkValues check vs)]
        refine (judgesValue_values h vs).bind (fun ps _ hps => JudgesValue.ok ?_) ?_
        · exact List.forall_mem_cons.mpr ⟨⟨x, rfl, hall x rfl⟩, hps⟩
        · rintro ps hps _ ⟨⟩ hnonNull
          exact hps fun q hq => hnonNull q (List.mem_cons_of_mem _ hq)
    · intro p hp ps hps hnonNull
      obtain ⟨_, -, ⟨⟩⟩ := bind_eq_ok.mp hps
      obtain ⟨x, rfl, hx⟩ := hnonNull p List.mem_cons_self
      apply hp
      intro _ hmem
      cases hmem
      exact hx

omit [Platform] in
/-- Inputs have no pointers. -/
theorem judgesValue_input (val : QJsonValue) :
    JudgesPointerValue (fun _ => True) (.ok (Input.fromQJsonValue val)) (checkInput val) := by
  refine JudgesValue.ok ⟨?_, fun _ _ => trivial⟩
  unfold Input.fromQJsonValue
  split
  · next h => simp [h]
  · next h => simp [h]

omit [Platform] in
/-- Of the unlocks, only a signature unlock has a pointer. -/
theorem judgesValue_unlock (val : QJsonValue) :
    JudgesPointerValue Unlock.NonNull (.ok (Unlock.fromQJsonValue val)) (checkUnlock val) := by
  unfold Unlock.fromQJsonValue checkUnlock
  generalize getType8 val = type
  by_cases hs : type = Unlock.Types.signature.toUInt8
  · subst hs
    show JudgesPointerValue Unlock.NonNull
      (.ok (some (.signature (Signature.fromQJsonValue (val.member "signature")))))
      (if getType8 (val.member "signature") = Signature.ed25519Type then .ok true else .error ())
    unfold Signature.fromQJsonValue
    split
    · refine JudgesValue.ok ⟨rfl, ?_⟩
      intro _ hmem
      cases hmem
      rfl
    · intro _ hmem hall
      cases hmem
      cases hall _ rfl
  by_cases hr : type = Unlock.Types.reference.toUInt8
  · subst hr
    refine JudgesValue.ok ⟨rfl, ?_⟩
    intro _ hmem
    cases hmem
    trivial
  by_cases ha : type = Unlock.Types.alias.toUInt8
  · subst ha
    refine JudgesValue.ok ⟨rfl, ?_⟩
    intro _ hmem
    cases hmem
    trivial
  by_cases hn : type = Unlock.Types.nft.toUInt8
  · subst hn
    refine JudgesValue.ok ⟨rfl, ?_⟩
    intro _ hmem
    cases hmem
    trivial
  simp only [hs, hr, ha, hn, if_false, or_false, decide_false]
  exact JudgesValue.ok ⟨rfl, of_mem_none⟩

section Nesting

variable {payloadFrom : QJsonValue → Except Fault (Option Payload)}
  {check : QJsonValue → Verdict}

/-- Essences, given the check of embedded payloads. -/
theorem judgesValue_essence
    (h : ∀ v, JudgesPointerValue Payload.NonNull (payloadFrom v) (check v)) (val : QJsonValue) :
    JudgesPointerValue Essence.NonNull (Essence.fromQJsonValue payloadFrom val)
      (checkEssence check val) := by
  unfold Essence.fromQJsonValue checkEssence
  split
  · rw [map_eq_pure_bind, Essence.ofQJsonValue, bind_assoc]
    apply (judgesValue_values judgesValue_input _).bind
    · intro inputs _ hinputs
      rw [bind_assoc]
      apply (judgesValue_values judgesValue_output _).bind
      · intro outputs _ houtputs
        rw [bind_assoc]
        apply (h _).bind
        · intro payload _ hpayload
          refine JudgesValue.ok ⟨rfl, ?_⟩
          intro _ hmem
          cases hmem
          exact Essence.nonNull_transaction.mpr ⟨hinputs, houtputs, hpayload.2⟩
        · intro payload hbad _ heq hall
          cases heq
          exact hbad (Essence.nonNull_transaction.mp (hall _ rfl)).2.2
      · intro outputs hbad e he hall
        rw [bind_assoc] at he
        obtain ⟨_, -, ⟨⟩⟩ := bind_eq_ok.mp he
        exact hbad (Essence.nonNull_transaction.mp (hall _ rfl)).2.1
    · intro inputs hbad e he hall
      rw [bind_assoc] at he
      obtain ⟨_, -, he⟩ := bind_eq_ok.mp he
      rw [bind_assoc] at he
      obtain ⟨_, -, ⟨⟩⟩ := bind_eq_ok.mp he
      exact hbad (Essence.nonNull_transaction.mp (hall _ rfl)).1
  · exact JudgesValue.ok ⟨rfl, of_mem_none⟩

/-- Payloads, given the check of embedded payloads. -/
theorem judgesValue_dispatch
    (h : ∀ v, JudgesPointerValue Payload.NonNull (payloadFrom v) (check v)) (val : QJsonValue) :
    JudgesPointerValue Payload.NonNull (Payload.dispatchQJsonValue payloadFrom val)
      (checkPayloadWith check val) := by
  unfold Payload.dispatchQJsonValue checkPayloadWith
  generalize getType32 val = type
  by_cases htransaction : type = Payload.transactionType
  · subst htransaction
    simp only [if_true]
    rw [map_eq_pure_bind, Payload.transactionOfQJsonValue, bind_assoc]
    apply (judgesValue_essence h _).bind
    · rintro essence _ ⟨rfl, hessence⟩
      cases essence with
      | none =>
        refine JudgesValue.error fun p hp hall => ?_
        rw [bind_assoc] at hp
        obtain ⟨_, -, ⟨⟩⟩ := bind_eq_ok.mp hp
        obtain ⟨_, ⟨⟩, -⟩ := (Payload.nonNull_transaction.mp (hall _ rfl)).1
      | some e =>
        rw [bind_assoc]
        apply (judgesValue_values judgesValue_unlock _).bind
        · intro unlocks _ hunlocks
          refine JudgesValue.ok ⟨rfl, ?_⟩
          intro _ hmem
          cases hmem
          exact Payload.nonNull_transaction.mpr ⟨⟨e, rfl, hessence e rfl⟩, hunlocks⟩
        · intro unlocks hbad _ heq hall
          cases heq
          exact hbad (Payload.nonNull_transaction.mp (hall _ rfl)).2
    · intro essence hbad p hp hall
      rw [bind_assoc] at hp
      obtain ⟨_, -, ⟨⟩⟩ := bind_eq_ok.mp hp
      obtain ⟨e, rfl, he⟩ := (Payload.nonNull_transaction.mp (hall _ rfl)).1
      apply hbad
      intro _ hmem
      cases hmem
      exact he
  · by_cases htagged : type = Payload.taggedDataType
    · subst htagged
      refine JudgesValue.ok ⟨rfl, ?_⟩
      intro _ hmem
      cases hmem
      trivial
    · simp only [htransaction, htagged, if_false, decide_false]
      exact JudgesValue.ok ⟨rfl, of_mem_none⟩

end Nesting

theorem judgesValue_payloadUpTo : ∀ n (val : QJsonValue),
    JudgesPointerValue Payload.NonNull (Payload.fromQJsonValueUpTo n val) (checkPayloadUpTo n val)
  | 0, _ => JudgesValue.error nofun
  | n + 1, val => judgesValue_dispatch (judgesValue_payloadUpTo n) val

theorem judgesValue_payload (val : QJsonValue) :
    JudgesPointerValue Payload.NonNull (Payload.fromQJsonValue val) (checkPayload val) :=
  judgesValue_payloadUpTo _ val

end Platform

/-! ## Faults

Nothing but a null pointer makes the readers and writers fault. -/

section Faults

variable {α β : Type}

/-- The only fault there may be is a null pointer looked through. -/
def NullOnly (x : Except Fault α) : Prop := ∀ e, x = .error e → e = .nullPointer

theorem NullOnly.ok (a : α) : NullOnly (.ok a : Except Fault α) := nofun

/-- One part after the other. -/
theorem NullOnly.bind {x : Except Fault α} {f : α → Except Fault β} (hx : NullOnly x)
    (hf : ∀ a, NullOnly (f a)) : NullOnly (x >>= f) := by
  cases x with
  | ok a => exact hf a
  | error e => exact fun e' he' => hx e' (by cases he'; rfl)

theorem NullOnly.map {x : Except Fault α} {f : α → β} (hx : NullOnly x) : NullOnly (f <$> x) := by
  rw [map_eq_pure_bind]
  exact hx.bind fun _ => NullOnly.ok _

theorem NullOnly.ite {c : Prop} [Decidable c] {x y : Except Fault α} (hx : NullOnly x)
    (hy : NullOnly y) : NullOnly (if c then x else y) := by
  split
  · exact hx
  · exact hy

/-- The one fault there is. -/
theorem nullOnly_deref (p : Option α) : NullOnly (deref p) := by
  cases p with
  | none => rintro _ ⟨⟩; rfl
  | some a => exact NullOnly.ok a

theorem nullOnly_getJsonAll {getJson : α → Except Fault QJsonObject}
    (h : ∀ x, NullOnly (getJson x)) : ∀ ps, NullOnly (getJsonAll getJson ps)
  | [] => NullOnly.ok []
  | p :: ps => (nullOnly_deref p).bind fun x => (h x).bind fun _ =>
      (nullOnly_getJsonAll h ps).bind fun _ => NullOnly.ok _

theorem nullOnly_getTvec {from_ : QJsonValue → Except Fault (Option α)}
    (h : ∀ v, NullOnly (from_ v)) : ∀ vs, NullOnly (getTvec from_ vs)
  | [] => NullOnly.ok []
  | v :: vs => (h v).bind fun _ => (nullOnly_getTvec h vs).bind fun _ => NullOnly.ok _

/-- Insertions compare pointers. -/
theorem nullOnly_getT [Keyed α] (from_ : QJsonValue → Option α) (vs : List QJsonValue)
    (s : PSet α) : NullOnly (getT from_ vs s) := by
  rw [getT_eq_insertAll]
  exact fun _ => PSet.insertAll_fault

/-- The address of a feature may be null. -/
theorem Feature.nullOnly_getJson (f : Feature) : NullOnly f.getJson := by
  cases f with
  | sender a | issuer a => exact (nullOnly_deref a).bind fun _ => NullOnly.ok _
  | metadata _ | tag _ => exact NullOnly.ok _

/-- The address of an unlock condition may be null. -/
theorem UnlockCondition.nullOnly_getJson (c : UnlockCondition) : NullOnly c.getJson := by
  cases c with
  | timelock _ => exact NullOnly.ok _
  | address a | stateControllerAddress a | governorAddress a | immutableAliasAddress a
  | storageDepositReturn a _ | expiration a _ =>
    exact (nullOnly_deref a).bind fun _ => NullOnly.ok _

/-- The signature of an unlock may be null. -/
theorem Unlock.nullOnly_getJson (u : Unlock) : NullOnly u.getJson := by
  cases u with
  | signature s => exact (nullOnly_deref s).bind fun _ => NullOnly.ok _
  | reference _ | «alias» _ | nft _ => exact NullOnly.ok _

variable [Platform]

/-- An output may hold null pointers in its sets, and a foundry a null token
scheme. -/
theorem Output.nullOnly_getJson (o : Output) : NullOnly o.getJson := by
  have base : NullOnly o.baseGetJson :=
    (nullOnly_getJsonAll (fun _ => NullOnly.ok _) _).bind fun _ =>
      (nullOnly_getJsonAll UnlockCondition.nullOnly_getJson _).bind fun _ =>
        (nullOnly_getJsonAll Feature.nullOnly_getJson _).bind fun _ =>
          (nullOnly_getJsonAll Feature.nullOnly_getJson _).bind fun _ => NullOnly.ok _
  refine base.bind fun _ => ?_
  cases o.kind with
  | basic | nft _ | «alias» _ _ _ _ => exact NullOnly.ok _
  | foundry tokenScheme _ => exact (nullOnly_deref tokenScheme).bind fun _ => NullOnly.ok _

mutual

theorem Essence.nullOnly_getJson : ∀ e : Essence, NullOnly e.getJson
  | .transaction _ _ _ _ none => by
    rw [Essence.getJson]
    exact (nullOnly_getJsonAll (fun _ => NullOnly.ok _) _).bind fun _ =>
      (nullOnly_getJsonAll Output.nullOnly_getJson _).bind fun _ => NullOnly.ok _
  | .transaction _ _ _ _ (some p) => by
    rw [Essence.getJson]
    exact (nullOnly_getJsonAll (fun _ => NullOnly.ok _) _).bind fun _ =>
      (nullOnly_getJsonAll Output.nullOnly_getJson _).bind fun _ =>
        (Payload.nullOnly_getJson p).bind fun _ => NullOnly.ok _

/-- The essence of a transaction and what both hold may be null. -/
theorem Payload.nullOnly_getJson : ∀ p : Payload, NullOnly p.getJson
  | .taggedData _ _ => by
    rw [Payload.getJson]
    exact NullOnly.ok _
  | .transaction none _ => by
    rw [Payload.getJson]
    intro _ hmem
    cases hmem
    rfl
  | .transaction (some e) _ => by
    rw [Payload.getJson]
    exact (Essence.nullOnly_getJson e).bind fun _ =>
      (nullOnly_getJsonAll Unlock.nullOnly_getJson _).bind fun _ => NullOnly.ok _

end

theorem Block.nullOnly_getJson (b : Block) : NullOnly b.getJson := by
  obtain ⟨_, _, payload, _⟩ := b
  cases payload with
  | none => exact NullOnly.ok _
  | some p => exact (Payload.nullOnly_getJson p).bind fun _ => NullOnly.ok _

/-- Only insertions look through pointers while an output is read. -/
theorem Output.nullOnly_fromQJsonValue (val : QJsonValue) :
    NullOnly (Output.fromQJsonValue val) := by
  have base : ∀ kind, NullOnly (some <$> Output.ofQJsonValue kind val) := fun _ =>
    ((nullOnly_getT _ _ _).bind fun _ => (nullOnly_getT _ _ _).bind fun _ =>
      (nullOnly_getT _ _ _).bind fun _ => (nullOnly_getT _ _ _).bind fun _ => NullOnly.ok _).map
  exact (base _).ite <| (base _).ite <| (base _).ite <| (base _).ite (NullOnly.ok _)

/-- Only the outputs of a payload, and the payloads it embeds, can fault. -/
theorem Payload.nullOnly_dispatch {from_ : QJsonValue → Except Fault (Option Payload)}
    (h : ∀ v, NullOnly (from_ v)) (val : QJsonValue) : NullOnly (dispatchQJsonValue from_ val) := by
  have essence : ∀ v, NullOnly (Essence.fromQJsonValue from_ v) := fun v =>
    NullOnly.ite ((nullOnly_getTvec (fun _ => NullOnly.ok _) _).bind fun _ =>
      (nullOnly_getTvec Output.nullOnly_fromQJsonValue _).bind fun _ =>
        (h _).bind fun _ => NullOnly.ok _).map (NullOnly.ok _)
  exact NullOnly.ite ((essence _).bind fun _ =>
    (nullOnly_getTvec (fun _ => NullOnly.ok _) _).bind fun _ => NullOnly.ok _).map <|
      NullOnly.ite (NullOnly.ok _) (NullOnly.ok _)

/-- The bound on nested payloads is not met. -/
theorem Payload.nullOnly_upTo : ∀ (n : Nat) (val : QJsonValue), val.depth < n →
    NullOnly (fromQJsonValueUpTo n val)
  | 0, _, h => absurd h (Nat.not_lt_zero _)
  | n + 1, val, h => by
    let inner : QJsonValue → Except Fault (Option Payload) := fun v =>
      if v.depth < val.depth then fromQJsonValueUpTo n v else .ok none
    have same : dispatchQJsonValue (fromQJsonValueUpTo n) val = dispatchQJsonValue inner val :=
      dispatchQJsonValue_congr fun v hv => (if_pos hv).symm
    rw [fromQJsonValueUpTo_succ, same]
    refine nullOnly_dispatch (fun v => ?_) val
    show NullOnly (if v.depth < val.depth then fromQJsonValueUpTo n v else .ok none)
    split
    · exact nullOnly_upTo n v (by omega)
    · exact NullOnly.ok _

/-- Reading payloads from JSON faults on null pointers only. -/
theorem Payload.nullOnly_fromQJsonValue (val : QJsonValue) : NullOnly (fromQJsonValue val) :=
  nullOnly_upTo _ val (Nat.lt_succ_self _)

end Faults

/-! ## Decoding untrusted input -/

section Safety

/-- What a reader makes of a byte string. -/
def decode {ε α : Type} (get : Reader ε α) (bs : Bytes) : Except ε α :=
  Prod.fst <$> get.run ⟨bs, .ok⟩

/-- No null pointer is looked through, neither by what made the object, if
there is one, nor by `serialize` and `get_Json` of it. -/
def NullSafe {T : Type} (serialize : T → Except Fault Bytes)
    (getJson : T → Except Fault QJsonObject) (made : Except Fault (Option T)) : Prop :=
  made ≠ .error .nullPointer ∧ ∀ x, made = .ok (some x) →
    serialize x ≠ .error .nullPointer ∧ getJson x ≠ .error .nullPointer

/-- A scanner that judges a reader judges what it makes of a byte string. -/
theorem judges_decode {α β : Type} {get : Read α} {scan : Scanner β} {good : α → β → Prop}
    {spells : α → β → Bytes → Prop} {bad : α → Prop} (h : Judges get scan good spells bad)
    (bs : Bytes) :
    JudgesValue (decode get bs) (decode scan bs) good bad := by
  unfold decode
  cases hscan : scan.run ⟨bs, .ok⟩ with
  | ok r =>
    obtain ⟨a, ha, hab, -⟩ := h.accepts hscan
    rw [ha]
    exact JudgesValue.ok hab
  | error e =>
    intro a ha
    obtain ⟨p, hp, rfl⟩ := map_eq_ok.mp ha
    exact h.rejects hscan hp

/-- A decoder that faults on null pointers only. -/
theorem nullOnly_decode {α : Type} {get : Read α} (h : Advances (· = .nullPointer) get)
    (bs : Bytes) : NullOnly (decode get bs) := NullOnly.map fun _ hrun => h.fault hrun

/-- Whether a scanner accepts does not depend on where it leaves the stream. -/
theorem decode_accepts {β : Type} {scan : Scanner β} {bs : Bytes} :
    (∃ b, decode scan bs = .ok b) ↔ ∃ r, scan.run ⟨bs, .ok⟩ = .ok r := by
  simp only [decode, map_eq_ok]
  grind

/-- The rule: what a check says of the object, that the object can be
written, and that only null pointers are in the way. -/
theorem nullSafe_iff {T β : Type} {nonNull : T → Prop} {serialize : T → Except Fault Bytes}
    {getJson : T → Except Fault QJsonObject} {made : Except Fault (Option T)}
    {r : Except Unit β}
    (judged : JudgesValue made r (fun p _ => ∀ x ∈ p, nonNull x) (fun p => ¬ ∀ x ∈ p, nonNull x))
    (written : ∀ {x}, nonNull x → ∃ b, serialize x = .ok b)
    (json : ∀ {x}, (∃ j, getJson x = .ok j) ↔ nonNull x) (hjson : ∀ x, NullOnly (getJson x))
    (hmade : NullOnly made) : NullSafe serialize getJson made ↔ ∃ b, r = .ok b := by
  cases r with
  | ok b =>
    obtain ⟨p, rfl, hp⟩ := judged
    refine iff_of_true ⟨nofun, ?_⟩ ⟨b, rfl⟩
    intro x hmem
    cases hmem
    obtain ⟨w, hw⟩ := written (hp x rfl)
    obtain ⟨j, hj⟩ := json.mpr (hp x rfl)
    rw [hw, hj]
    exact ⟨nofun, nofun⟩
  | error e =>
    refine iff_of_false ?_ nofun
    intro h
    obtain ⟨hne, hsafe⟩ := h
    cases hm : made with
    | error e' => exact hne (by rw [hm, hmade e' hm])
    | ok p =>
      refine judged p hm fun x hx => json.mp ?_
      cases hx
      cases hget : getJson x with
      | ok j => exact ⟨j, rfl⟩
      | error e' => exact absurd (by rw [hget, hjson x e' hget]) (hsafe x hm).2

variable [Platform]

/-- Decoding a block goes forward and faults on null pointers only. -/
theorem advances_block : Advances (· = .nullPointer) Block.ofQDataStream := by
  have parents : Advances (· = .nullPointer) Block.readParents :=
    advances_scalar.bind fun _ => Advances.repeat (advances_array 32) _
  have slot : Advances (· = .nullPointer) (readSlot Payload.fromQDataStream) :=
    advances_scalar.bind fun _ => advances_payload.ite (Advances.pure _)
  exact advances_scalar.bind fun _ => parents.bind fun _ => slot.bind fun _ =>
    advances_scalar.bind fun _ => Advances.pure _

variable [LawfulPlatform]

/-- Blocks and outputs from bytes, outputs and payloads from JSON: no null
pointer is looked through exactly if the tags that are needed are known. -/
theorem nullSafe_iff_tagsKnown :
    (∀ bs, NullSafe Block.serialize Block.getJson (some <$> decode Block.ofQDataStream bs) ↔
      Block.TagsKnown bs) ∧
    (∀ bs, NullSafe Output.serialize Output.getJson (decode Output.fromQDataStream bs) ↔
      Output.TagsKnown bs) ∧
    (∀ val, NullSafe Output.serialize Output.getJson (Output.fromQJsonValue val) ↔
      Output.JsonTagsKnown val) ∧
    (∀ val, NullSafe Payload.serialize Payload.getJson (Payload.fromQJsonValue val) ↔
      Payload.JsonTagsKnown val) := by
  refine ⟨fun bs => ?_, fun bs => ?_, fun val => ?_, fun val => ?_⟩
  · rw [Block.TagsKnown, ← decode_accepts]
    refine nullSafe_iff ?_ Block.serialize_ok Block.getJson_ok Block.nullOnly_getJson
      (nullOnly_decode advances_block bs).map
    rw [map_eq_pure_bind, ← bind_pure (decode (scanBlock .lenient) bs)]
    refine (judges_decode judges_block bs).bind (fun b _ hb => JudgesValue.ok ?_) ?_
    · intro _ hmem
      cases hmem
      exact hb nofun
    · intro b hb _ heq hall
      cases heq
      exact hb (hall b rfl)
  · rw [Output.TagsKnown, ← decode_accepts]
    exact nullSafe_iff ((judges_decode judges_output bs).imp (fun _ _ h => h.2 nofun) fun _ => id)
      Output.serialize_ok Output.getJson_ok Output.nullOnly_getJson
      (nullOnly_decode advances_output bs)
  · exact nullSafe_iff ((judgesValue_output val).imp (fun _ _ h => h.2) fun _ => id)
      Output.serialize_ok Output.getJson_ok Output.nullOnly_getJson
      (Output.nullOnly_fromQJsonValue val)
  · exact nullSafe_iff ((judgesValue_payload val).imp (fun _ _ h => h.2) fun _ => id)
      Payload.serialize_ok Payload.getJson_ok Payload.nullOnly_getJson
      (Payload.nullOnly_fromQJsonValue val)

end Safety

/-! ## At some bytes -/

section Sample

open Plain

/-- The bytes of a block with a transaction: an input, an NFT with one of
everything and two unlocks. -/
def Block.sampleNftBytes : Bytes :=
  [2, 1] ++ List.replicate 32 8 ++ [123, 1, 0, 0] ++
    [6, 0, 0, 0, 1] ++ [9, 0, 0, 0, 0, 0, 0, 0] ++
    [1, 0, 0] ++ List.replicate 32 10 ++ [11, 0] ++ List.replicate 32 12 ++
    [1, 0, 6] ++ [232, 3, 0, 0, 0, 0, 0, 0] ++
      [1] ++ List.replicate 38 6 ++ [7] ++ List.replicate 31 0 ++ List.replicate 32 1 ++
      [1, 0, 0] ++ List.replicate 32 2 ++ [1, 2, 2, 0, 3, 4] ++
      [1, 1, 8] ++ List.replicate 32 5 ++ [0, 0, 0, 0] ++
    [2, 0, 0, 0] ++ List.replicate 32 13 ++ List.replicate 64 14 ++ [1, 0, 0] ++
    [206, 109, 0, 0, 0, 0, 0, 0]

/-- Every tag in those bytes is known. -/
theorem Block.sampleNftBytes_nullSafe :
    NullSafe Block.serialize Block.getJson (some <$> decode ofQDataStream sampleNftBytes) := by
  have known : (scanBlock .lenient).run ⟨sampleNftBytes, .ok⟩ = .ok ((), ⟨[], .ok⟩) := by
    decide +kernel
  exact (nullSafe_iff_tagsKnown.1 sampleNftBytes).mpr ⟨_, known⟩

/-- A basic output with one unlock condition, of type 7. -/
def Output.unknownCondition : Bytes := [3, 0, 0, 0, 0, 0, 0, 0, 0, 0, 1, 7, 0]

/-- A block with a transaction whose essence is of type 0. -/
def Block.unknownEssence : Bytes :=
  [2, 0, 1, 0, 0, 0, 6, 0, 0, 0, 0, 0, 0, 0, 0, 0, 0, 0, 0, 0, 0]

/-- Both are decoded, and serializing what they are decoded into looks
through a null pointer. -/
theorem unknown_tags_fault :
    ¬ NullSafe Block.serialize Block.getJson
      (some <$> decode Block.ofQDataStream Block.unknownEssence) ∧
    ¬ NullSafe Output.serialize Output.getJson
      (decode Output.fromQDataStream Output.unknownCondition) := by
  constructor
  · intro h
    obtain ⟨-, safe⟩ := h
    exact (safe _ rfl).1 rfl
  · intro h
    obtain ⟨-, safe⟩ := h
    exact (safe _ rfl).1 rfl

end Sample

end Qblock
