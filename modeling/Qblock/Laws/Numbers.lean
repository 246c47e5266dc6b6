import Qblock.Laws.Json

/-!
# The numbers in the JSON of an output

The unsigned fields of an output that its JSON has as numbers, the times of
its unlock conditions and the counters of its kind, are written through a
cast to `int`. The readers wrap what they read back into 32 bits, so a round
trip does not show it, but the number is the value of the field for the
lower half of the range only.

- `ofInt_castInt_eq_iff` — of one number;
- `Output.numbersTrue_iff` — of all the numbers of an output.
-/

namespace Qblock

open Wire Qt

/-- A number written through the cast is the value exactly in the lower half. -/
theorem ofInt_castInt_eq_iff (x : UInt32) :
    QJsonValue.ofInt (castInt x) = QJsonValue.ofInt x.toNat ↔ x.toNat < 2 ^ 31 := by
  constructor
  · intro heq
    injection heq with hrat
    have hint : castInt x = x.toNat := Rat.intCast_inj.mp hrat
    unfold castInt at hint
    split at hint
    · assumption
    · omega
  · intro hlt
    rw [castInt, if_pos hlt]

/-! ## Fields -/

/-- The numbers a kind has in the JSON, each under its name. -/
def Output.Kind.numbers : Output.Kind → List (String × UInt32)
  | .basic | .nft _ => []
  | .foundry _ serialNumber => [("serialNumber", serialNumber)]
  | .alias _ stateIndex foundryCounter _ =>
    [("stateIndex", stateIndex), ("foundryCounter", foundryCounter)]

/-- The number an unlock condition has in the JSON, if it has one. -/
def UnlockCondition.numbers (c : UnlockCondition) : List (String × UInt32) :=
  c.unixTimeOf.toList.map ("unixTime", ·)

/-- The members of an object are the given numbers. -/
def Says (j : QJsonValue) (numbers : List (String × UInt32)) : Prop :=
  ∀ n ∈ numbers, j.member n.1 = .ofInt n.2.toNat

/-- The members of an object are the given numbers, but for the cast. -/
def Casts (j : QJsonValue) (numbers : List (String × UInt32)) : Prop :=
  ∀ n ∈ numbers, j.member n.1 = .ofInt (castInt n.2)

/-- The numbers are in the lower half of their range. -/
def Small (numbers : List (String × UInt32)) : Prop := ∀ n ∈ numbers, n.2.toNat < 2 ^ 31

theorem Casts.says_iff {j : QJsonValue} {numbers : List (String × UInt32)} (h : Casts j numbers) :
    Says j numbers ↔ Small numbers := by
  refine forall₂_congr fun n hn => ?_
  rw [h n hn, ofInt_castInt_eq_iff]

theorem UnlockCondition.getJson_casts {c : UnlockCondition} {j : QJsonObject}
    (h : c.getJson = .ok j) : Casts (.object j) c.numbers := by
  cases c with
  | timelock unixTime =>
    cases h
    simp [Casts, numbers, unixTimeOf]
  | expiration a unixTime =>
    obtain ⟨_, -, ⟨⟩⟩ := bind_eq_ok.mp h
    simp [Casts, numbers, unixTimeOf]
  | address _ | storageDepositReturn _ _ | stateControllerAddress _ | governorAddress _
  | immutableAliasAddress _ =>
    intro n hn
    cases hn

/-- The JSON of a container has that of its elements, in order. -/
theorem getJsonAll_forall₂ {T : Type} {getJson : T → Except Fault QJsonObject}
    {ps : List (Option T)} {js : List QJsonValue} (h : getJsonAll getJson ps = .ok js) :
    List.Forall₂ (fun v p => ∃ x j, p = some x ∧ getJson x = .ok j ∧ v = .object j) js ps := by
  induction ps generalizing js with
  | nil =>
    cases h
    exact .nil
  | cons p ps ih =>
    obtain ⟨x, hp, h⟩ := bind_eq_ok.mp h
    obtain ⟨j, hj, h⟩ := bind_eq_ok.mp h
    obtain ⟨rest, hrest, h⟩ := bind_eq_ok.mp h
    cases pure_eq_ok.mp h
    refine .cons ⟨x, j, ?_, hj, rfl⟩ (ih hrest)
    cases p with
    | none => cases hp
    | some _ =>
      cases hp
      rfl

/-- What is said of each unlock condition of a container. -/
theorem says_unlockConditions_iff {ps : List (Option UnlockCondition)} {js : List QJsonValue}
    (h : getJsonAll UnlockCondition.getJson ps = .ok js) :
    List.Forall₂ (fun v p => ∀ c ∈ p, Says v (UnlockCondition.numbers c)) js ps ↔
      AllFit (fun c => Small c.numbers) ps := by
  have elems := getJsonAll_forall₂ h
  clear h
  induction elems with
  | nil => exact iff_of_true .nil fun p hp => absurd hp List.not_mem_nil
  | cons head _ ih =>
    obtain ⟨c, j, rfl, hj, rfl⟩ := head
    refine List.forall₂_cons.trans ((and_congr ?_ ih).trans List.forall_mem_cons.symm)
    simp only [Option.mem_some_iff, forall_eq']
    exact (UnlockCondition.getJson_casts hj).says_iff

namespace Output

/-- The JSON of an output says its numbers: those of its kind, and those of
each unlock condition. -/
structure NumbersTrue (o : Output) (j : QJsonObject) : Prop where
  kind : Says (.object j) o.kind.numbers
  unlockConditions : List.Forall₂ (fun v p => ∀ c ∈ p, Says v (UnlockCondition.numbers c))
    (j.member "unlockConditions").toArray o.unlockConditions.elems

/-- All the numbers of the output are in the lower half of their range. -/
structure NumbersSmall (o : Output) : Prop where
  kind : Small o.kind.numbers
  unlockConditions : AllFit (fun c => Small c.numbers) o.unlockConditions.elems

variable [Platform]

/-- The array of unlock conditions in the JSON of the base class. -/
theorem baseGetJson_unlockConditions {o : Output} {j : QJsonObject} (h : o.baseGetJson = .ok j) :
    ∃ js, getJsonAll UnlockCondition.getJson o.unlockConditions.elems = .ok js ∧
      j.member "unlockConditions" = .array js := by
  obtain ⟨nativeTokens, -, h⟩ := bind_eq_ok.mp h
  obtain ⟨unlockConditions, huc, h⟩ := bind_eq_ok.mp h
  obtain ⟨features, -, h⟩ := bind_eq_ok.mp h
  obtain ⟨immutableFeatures, -, h⟩ := bind_eq_ok.mp h
  cases pure_eq_ok.mp h
  refine ⟨unlockConditions, huc, ?_⟩
  rw [member_insertNonempty_of_ne (by decide), member_insertNonempty_of_ne (by decide),
    QJsonObject.member_insert, if_pos rfl]

/-- What the JSON of an output has of its numbers. -/
theorem getJson_casts {o : Output} {j : QJsonObject} (h : o.getJson = .ok j) :
    Casts (.object j) o.kind.numbers ∧
      ∃ js, getJsonAll UnlockCondition.getJson o.unlockConditions.elems = .ok js ∧
        j.member "unlockConditions" = .array js := by
  obtain ⟨base, hbase, h⟩ := bind_eq_ok.mp h
  obtain ⟨js, hjs, hmember⟩ := baseGetJson_unlockConditions hbase
  obtain ⟨kind, _, _, _, _, _⟩ := o
  cases kind with
  | basic | nft _ =>
    cases pure_eq_ok.mp h
    exact ⟨nofun, js, hjs, by simpa using hmember⟩
  | foundry tokenScheme serialNumber =>
    obtain ⟨_, -, h⟩ := bind_eq_ok.mp h
    cases pure_eq_ok.mp h
    exact ⟨by simp [Casts, Kind.numbers], js, hjs, by simpa using hmember⟩
  | «alias» _ stateIndex foundryCounter _ =>
    cases pure_eq_ok.mp h
    exact ⟨by simp [Casts, Kind.numbers], js, hjs, by simpa using hmember⟩

/-- The JSON of an output has the values of its unsigned fields exactly if
all of them are less than `2 ^ 31`. -/
theorem numbersTrue_iff {o : Output} (nonNull : o.NonNull) :
    ∃ j, o.getJson = .ok j ∧ (o.NumbersTrue j ↔ o.NumbersSmall) := by
  obtain ⟨j, hj⟩ := getJson_ok.mpr nonNull
  obtain ⟨casts, js, hjs, hmember⟩ := getJson_casts hj
  have conditions := says_unlockConditions_iff hjs
  refine ⟨j, hj, ?_, ?_⟩
  · intro h
    obtain ⟨hkind, hconditions⟩ := h
    rw [hmember] at hconditions
    exact ⟨casts.says_iff.mp hkind, conditions.mp hconditions⟩
  · intro h
    obtain ⟨hkind, hconditions⟩ := h
    refine ⟨casts.says_iff.mpr hkind, ?_⟩
    rw [hmember]
    exact conditions.mpr hconditions

end Output

/-! ## At a time lock -/

section Sample

open Plain

namespace Output

/-- A basic output that is locked until the given time. -/
def locked (unixTime : UInt32) : Output where
  kind := .basic
  amount := 1000
  unlockConditions := ⟨[some (.timelock unixTime)], List.pairwise_singleton _ _⟩
  features := .empty
  immutableFeatures := .empty
  nativeTokens := .empty

theorem locked_nonNull (unixTime : UInt32) : (locked unixTime).NonNull where
  kind := trivial
  unlockConditions := by simp [locked, AllNonNull, UnlockCondition.NonNull]
  features := by simp [locked, AllNonNull, PSet.empty]
  immutableFeatures := by simp [locked, AllNonNull, PSet.empty]
  nativeTokens := by simp [locked, AllNonNull, PSet.empty]

/-- A lock until 22:13:20 on 14 November 2023 is told as it is. -/
theorem numbersTrue_locked :
    ∃ j, (locked 1700000000).getJson = .ok j ∧ (locked 1700000000).NumbersTrue j := by
  have small : (locked 1700000000).NumbersSmall := by
    refine ⟨fun _ hn => absurd hn List.not_mem_nil, ?_⟩
    rintro _ hp _ ⟨⟩ n hn
    cases List.mem_singleton.mp hp
    cases List.mem_singleton.mp hn
    decide
  obtain ⟨j, hj, said⟩ := numbersTrue_iff (locked_nonNull 1700000000)
  exact ⟨j, hj, said.mpr small⟩

/-- A lock until 3:14:08 on 19 January 2038 is a negative number in the JSON. -/
theorem locked_2038 :
    (locked 2147483648).NonNull ∧ ∃ j v, (locked 2147483648).getJson = .ok j ∧
      (j.member "unlockConditions").toArray = [v] ∧ v.member "unixTime" = .ofInt (-2147483648) ∧
      ¬ (locked 2147483648).NumbersTrue j := by
  refine ⟨locked_nonNull _, _, _, rfl, rfl, rfl, ?_⟩
  intro said
  cases said.unlockConditions with
  | cons head _ =>
    have number := head _ rfl ("unixTime", 2147483648) List.mem_cons_self
    have small := (ofInt_castInt_eq_iff 2147483648).mp number
    exact absurd small (by decide)

end Output

end Sample

end Qblock
