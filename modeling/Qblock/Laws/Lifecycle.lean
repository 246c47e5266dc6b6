import Qblock.Laws.Decoded
import Qblock.Laws.RoundTrip

/-!
# The calls an output goes through

An output is made by a factory or read from bytes, and then its owner calls
`set_id`, `consume` and `clone`, in any order. What carries a run of calls
is that the output stays `Whole`: nothing in it is null, it fits, and all of
it is written, so that a clone is the output itself.

- `Output.setId_cases` — all that `set_id` can do;
- `Output.Call.run_whole` — a call answers and keeps the output whole;
- `Output.runAll_outcome` — what is left of the output after a run of calls;
- `Output.calls_outcome` — of an output however it was made, and that its
  id changes once at most.
-/

namespace Qblock

open Wire Qt

namespace Output

/-! ## What an output holds -/

/-- Nothing in the output is null, it fits, and all of it is written. -/
structure Whole (o : Output) : Prop where
  nonNull : o.NonNull
  fits : o.Fits
  allWritten : o.AllWritten

/-- The id the output holds itself, if it is of a kind that does. -/
def Kind.ownId : Kind → Option Bytes
  | .nft nftId => some nftId
  | .alias aliasId _ _ _ => some aliasId
  | .basic | .foundry _ _ => none

/-- The kind with another id of its own. -/
def Kind.withId (id : Bytes) : Kind → Kind
  | .nft _ => .nft id
  | .alias _ stateIndex foundryCounter stateMetadata =>
    .alias id stateIndex foundryCounter stateMetadata
  | .basic => .basic
  | .foundry tokenScheme serialNumber => .foundry tokenScheme serialNumber

/-- An id is no pointer. -/
theorem Kind.withId_nonNull {kind : Kind} {id : Bytes} :
    (kind.withId id).NonNull ↔ kind.NonNull := by
  cases kind with
  | basic | nft _ | foundry _ _ | «alias» _ _ _ _ => rfl

theorem Kind.withId_fits {kind : Kind} {id : Bytes} (h : kind.Fits) (hid : id.length = 32) :
    (kind.withId id).Fits := by
  cases kind with
  | basic | foundry _ _ => trivial
  | nft _ => exact hid
  | «alias» _ _ _ _ => exact ⟨hid, h.2⟩

theorem Kind.withId_eq_basic {kind : Kind} {id : Bytes} : kind.withId id = .basic ↔ kind = .basic := by
  cases kind with
  | basic | nft _ | foundry _ _ | «alias» _ _ _ _ => simp [withId]

/-- A kind without an id of its own is left as it is. -/
theorem Kind.withId_of_none {kind : Kind} (h : kind.ownId = none) (id : Bytes) :
    kind.withId id = kind := by
  cases kind with
  | basic | foundry _ _ => rfl
  | nft _ | «alias» _ _ _ _ => cases h

/-- The last id given stays. -/
@[simp] theorem Kind.withId_withId (kind : Kind) (id id' : Bytes) :
    (kind.withId id).withId id' = kind.withId id' := by
  cases kind with
  | basic | nft _ | foundry _ _ | «alias» _ _ _ _ => rfl

@[simp] theorem Kind.ownId_withId (kind : Kind) (id : Bytes) :
    (kind.withId id).ownId = kind.ownId.map fun _ => id := by
  cases kind with
  | basic | nft _ | foundry _ _ | «alias» _ _ _ _ => rfl

/-- An id does not change the type. -/
theorem type_withId (o : Output) (id : Bytes) :
    ({ o with kind := o.kind.withId id } : Output).type = o.type := by
  obtain ⟨kind, _, _, _, _, _⟩ := o
  cases kind with
  | basic | nft _ | foundry _ _ | «alias» _ _ _ _ => rfl

/-- The id of an output that was not given one. -/
def noId : Bytes := List.replicate 32 0

theorem getId_of_ownId {o : Output} {id : Bytes} (h : o.kind.ownId = some id) :
    o.getId = .ok id := by
  obtain ⟨kind, _, _, _, _, _⟩ := o
  cases kind with
  | nft _ | «alias» _ _ _ _ =>
    cases h
    rfl
  | basic | foundry _ _ => cases h

/-! ## Calls -/

/-- What the owner of an output calls. A clone takes the place of the output. -/
inductive Call where
  | setId (outputid : Bytes)
  | consume
  | clone
  deriving DecidableEq, Repr

/-- The output id of the first `set_id`, if there is one. -/
def firstId : List Call → Option Bytes
  | [] => none
  | .setId outputid :: _ => some outputid
  | .consume :: cs | .clone :: cs => firstId cs

/-- Calls behind the first id do not change it. -/
theorem firstId_append {before after : List Call} {outputid : Bytes}
    (h : firstId before = some outputid) : firstId (before ++ after) = some outputid := by
  induction before with
  | nil => cases h
  | cons c cs ih =>
    cases c with
    | setId _ => exact h
    | consume | clone => exact ih h

/-- All that `consume` does. -/
theorem consume_eq (o : Output) : o.consume = { o with
    features := .empty
    nativeTokens := .empty
    unlockConditions := if o.type = .foundry then o.unlockConditions else .empty } := by
  obtain ⟨kind, _, _, _, _, _⟩ := o
  cases kind with
  | basic | nft _ | foundry _ _ | «alias» _ _ _ _ => rfl

/-- A set that is emptied has nothing that could be missing. -/
theorem Whole.consume {o : Output} (h : o.Whole) : o.consume.Whole := by
  obtain ⟨⟨hk, hc, -, hi, -⟩, ⟨hk', hc', -, hi', -, -⟩, hw⟩ := h
  have none {T : Type} {P : Option T → Prop} : ∀ p ∈ ([] : List (Option T)), P p :=
    fun _ hp => absurd hp List.not_mem_nil
  rw [consume_eq]
  split
  · exact ⟨⟨hk, hc, none, hi, none⟩, ⟨hk', hc', none, hi', none, Nat.zero_lt_succ _⟩, hw⟩
  · exact ⟨⟨hk, none, none, hi, none⟩, ⟨hk', none, none, hi', none, Nat.zero_lt_succ _⟩, hw⟩

section Runs

variable [Platform]

/-! ## How outputs come to be -/

/-- Made by one of the factories, or read from a stream. -/
inductive Made : Output → Prop where
  | basic (amount : UInt64) (unlockConditions : PSet UnlockCondition)
      (nativeTokens : PSet NativeToken) (features : PSet Feature) :
      Made (basic amount unlockConditions nativeTokens features)
  | nft (amount : UInt64) (unlockConditions : PSet UnlockCondition)
      (nativeTokens : PSet NativeToken) (immutableFeatures features : PSet Feature) :
      Made (nft amount unlockConditions nativeTokens immutableFeatures features)
  | foundry (amount : UInt64) (unlockConditions : PSet UnlockCondition)
      (tokenScheme : Option TokenScheme) (serialNumber : UInt32)
      (nativeTokens : PSet NativeToken) (immutableFeatures features : PSet Feature) :
      Made (foundry amount unlockConditions tokenScheme serialNumber nativeTokens
        immutableFeatures features)
  | alias (amount : UInt64) (unlockConditions : PSet UnlockCondition) (stateMetadata : Bytes)
      (foundryCounter stateIndex : UInt32) (nativeTokens : PSet NativeToken)
      (immutableFeatures features : PSet Feature) :
      Made («alias» amount unlockConditions stateMetadata foundryCounter stateIndex nativeTokens
        immutableFeatures features)
  | decoded {s s' : Stream} {o : Output} (run : fromQDataStream.run s = .ok (some o, s')) : Made o

/-- Of an output that was read, everything is written. -/
theorem always_allWritten : AlwaysFits fromQDataStream AllWritten := by
  have sets : ∀ {kind : Kind} {amount : UInt64} {nativeTokens : PSet NativeToken}, kind ≠ .basic →
      Always (do
        let unlockConditions ← deserializeUnlockConditions
        let features ← deserializeFeatures
        let immutableFeatures ← deserializeFeatures
        return ⟨kind, amount, unlockConditions, features, immutableFeatures, nativeTokens⟩)
        AllWritten := fun hkind =>
    Always.behind fun _ => Always.behind fun _ => Always.behind fun _ =>
      Always.pure fun heq => absurd heq hkind
  have basic : Always basicOfQDataStream AllWritten :=
    Always.behind fun _ => Always.behind fun _ => Always.behind fun _ => Always.behind fun _ =>
      Always.pure fun _ => rfl
  have nft : Always nftOfQDataStream AllWritten :=
    Always.behind fun _ => Always.behind fun _ => Always.behind fun _ => sets (by simp)
  have foundry : Always foundryOfQDataStream AllWritten :=
    Always.behind fun _ => Always.behind fun _ => Always.behind fun _ => Always.behind fun _ =>
      sets (by simp)
  have alias_ : Always aliasOfQDataStream AllWritten :=
    Always.behind fun _ => Always.behind fun _ => Always.behind fun _ => Always.behind fun _ =>
      Always.behind fun _ => Always.behind fun _ => sets (by simp)
  exact Always.behind fun _ =>
    Always.ite (fun _ => AlwaysFits.made basic) fun _ =>
    Always.ite (fun _ => AlwaysFits.made nft) fun _ =>
    Always.ite (fun _ => AlwaysFits.made foundry) fun _ =>
    Always.ite (fun _ => AlwaysFits.made alias_) fun _ => AlwaysFits.null

/-- No output is made with something in it that is not written. -/
theorem Made.allWritten {o : Output} (made : Made o) : o.AllWritten := by
  cases made with
  | basic _ _ _ _ => exact fun _ => rfl
  | nft _ _ _ _ _ | foundry _ _ _ _ _ _ _ | «alias» _ _ _ _ _ _ _ _ =>
    intro heq
    cases heq
  | decoded run => exact always_allWritten _ _ _ run _ rfl

/-! ## Running calls -/

/-- `set_id` changes an output that holds the zero id, and none other. -/
theorem setId_cases (outputid : Bytes) (o : Output) :
    (o.kind.ownId = some noId ∧
      o.setId outputid = { o with kind := o.kind.withId (Platform.blake2b256 outputid) }) ∨
    (o.kind.ownId ≠ some noId ∧ o.setId outputid = o) := by
  obtain ⟨kind, _, _, _, _, _⟩ := o
  cases kind with
  | basic | foundry _ _ => exact .inr ⟨nofun, rfl⟩
  | nft id | «alias» id _ _ _ =>
    by_cases hid : id = noId
    · exact .inl ⟨congrArg some hid, if_pos hid⟩
    · exact .inr ⟨fun heq => hid (Option.some.inj heq), if_neg hid⟩

def Call.run : Call → Output → Except Fault Output
  | .setId outputid, o => .ok (o.setId outputid)
  | .consume, o => .ok o.consume
  | .clone, o => do
    let p ← o.clone
    deref p

/-- The output after a run of calls. -/
def runAll : List Call → Output → Except Fault Output
  | [], o => .ok o
  | c :: cs, o => do
    let o ← c.run o
    runAll cs o

/-- A run goes on from where it stood. -/
theorem runAll_append {before after : List Call} {o o' : Output} (h : runAll before o = .ok o') :
    runAll (before ++ after) o = runAll after o' := by
  induction before generalizing o with
  | nil =>
    cases h
    rfl
  | cons c cs ih =>
    obtain ⟨o₁, hc, hcs⟩ := bind_eq_ok.mp h
    rw [List.cons_append, runAll, hc]
    exact ih hcs

/-- The hash of an output id is an id of 32 bytes. -/
theorem Whole.setId {o : Output} (h : o.Whole)
    (hash_length : ∀ b : Bytes, (Platform.blake2b256 b).length = 32) (outputid : Bytes) :
    (o.setId outputid).Whole := by
  rcases setId_cases outputid o with ⟨-, heq⟩ | ⟨-, heq⟩
  · obtain ⟨⟨hk, hc, hf, hi, ht⟩, ⟨hk', hc', hf', hi', ht', hn⟩, hw⟩ := h
    have fits := Kind.withId_fits hk' (hash_length outputid)
    rw [heq]
    exact ⟨⟨Kind.withId_nonNull.mpr hk, hc, hf, hi, ht⟩, ⟨fits, hc', hf', hi', ht', hn⟩,
      fun hbasic => hw (Kind.withId_eq_basic.mp hbasic)⟩
  · rwa [heq]

/-- What a call makes of a whole output. -/
def Call.effect : Call → Output → Output
  | .setId outputid, o => o.setId outputid
  | .consume, o => o.consume
  | .clone, o => o

/-- What is left of an output after a run of calls. -/
structure Outcome (calls : List Call) (o o' : Output) : Prop where
  type : o'.type = o.type
  kind : o'.kind.withId noId = o.kind.withId noId
  amount : o'.amount = o.amount
  immutableFeatures : o'.immutableFeatures = o.immutableFeatures
  features : o'.features = if .consume ∈ calls then .empty else o.features
  nativeTokens : o'.nativeTokens = if .consume ∈ calls then .empty else o.nativeTokens
  unlockConditions : o'.unlockConditions =
    if .consume ∈ calls ∧ o.type ≠ .foundry then .empty else o.unlockConditions
  ownId : o'.kind.ownId = o.kind.ownId.map fun id =>
    if id = noId then (firstId calls).elim id Platform.blake2b256 else id

/-- Without calls nothing changes. -/
theorem Outcome.refl (o : Output) : Outcome [] o o where
  type := rfl
  kind := rfl
  amount := rfl
  immutableFeatures := rfl
  features := rfl
  nativeTokens := rfl
  unlockConditions := (if_neg fun h => absurd h.1 List.not_mem_nil).symm
  ownId := by
    simp only [firstId, Option.elim, ite_self]
    exact (Option.map_id_fun' ▸ rfl)

/-- A call in front of a run that changes no more than the kind. -/
theorem Outcome.cons_kind {c : Call} (hc : c ≠ .consume) {calls : List Call} {o o' : Output}
    {kind : Kind} (h : Outcome calls { o with kind := kind } o')
    (sameType : ({ o with kind := kind } : Output).type = o.type)
    (sameKind : kind.withId noId = o.kind.withId noId)
    (ownId : o'.kind.ownId = o.kind.ownId.map fun id =>
      if id = noId then (firstId (c :: calls)).elim id Platform.blake2b256 else id) :
    Outcome (c :: calls) o o' := by
  have member : .consume ∈ c :: calls ↔ .consume ∈ calls := by
    rw [List.mem_cons, or_iff_right hc.symm]
  refine ⟨h.type.trans sameType, h.kind.trans sameKind, h.amount, h.immutableFeatures, ?_, ?_, ?_,
    ownId⟩
  · simpa only [member] using h.features
  · simpa only [member] using h.nativeTokens
  · simpa only [member, sameType] using h.unlockConditions

/-- A call in front of a run. -/
theorem Outcome.cons (hash_ne : ∀ b : Bytes, Platform.blake2b256 b ≠ noId) {c : Call}
    {calls : List Call} {o o' : Output} (h : Outcome calls (c.effect o) o') :
    Outcome (c :: calls) o o' := by
  cases c with
  | clone =>
    change Outcome calls { o with kind := o.kind } o' at h
    exact h.cons_kind (by simp) rfl rfl h.ownId
  | consume =>
    have member : .consume ∈ Call.consume :: calls := List.mem_cons_self
    change Outcome calls o.consume o' at h
    rw [consume_eq] at h
    refine ⟨h.type, h.kind, h.amount, h.immutableFeatures, ?_, ?_, ?_, h.ownId⟩
    · rw [if_pos member, h.features, ite_self]
    · rw [if_pos member, h.nativeTokens, ite_self]
    · have conditions : o'.unlockConditions =
          if .consume ∈ calls ∧ o.type ≠ .foundry then .empty
          else if o.type = .foundry then o.unlockConditions else .empty := h.unlockConditions
      rw [conditions]
      by_cases hfoundry : o.type = .foundry
      · simp only [hfoundry, ne_eq, not_true_eq_false, and_false, if_false, if_true]
      · simp only [hfoundry, ne_eq, not_false_eq_true, and_true, member, if_true, if_false,
          ite_self]
  | setId outputid =>
    change Outcome calls (o.setId outputid) o' at h
    rcases setId_cases outputid o with ⟨hid, heq⟩ | ⟨hid, heq⟩
    · rw [heq] at h
      refine h.cons_kind (by simp) (type_withId o _) (Kind.withId_withId _ _ _) ?_
      rw [h.ownId, Kind.ownId_withId, hid]
      simp [firstId, hash_ne]
    · rw [heq] at h
      change Outcome calls { o with kind := o.kind } o' at h
      refine h.cons_kind (by simp) rfl rfl ?_
      rw [h.ownId]
      refine Option.map_congr fun id hmem => ?_
      have hne : id ≠ noId := fun hzero => hid (hzero ▸ hmem)
      rw [if_neg hne, if_neg hne]

/-- The id the run leaves is the one there was, or, where that was the zero
id, the hash of the first output id set. -/
theorem Outcome.getId {calls : List Call} {o o' : Output} (h : Outcome calls o o') :
    o'.getId = o.kind.ownId.elim o.getId fun id =>
      .ok (if id = noId then (firstId calls).elim id Platform.blake2b256 else id) := by
  cases hid : o.kind.ownId with
  | some id =>
    have ownId := h.ownId
    rw [hid] at ownId
    exact getId_of_ownId ownId
  | none =>
    have ownId : o'.kind.ownId = none := by rw [h.ownId, hid, Option.map_none]
    have kind : o'.kind = o.kind := by
      rw [← Kind.withId_of_none ownId noId, h.kind, Kind.withId_of_none hid]
    rw [Option.elim_none, Output.getId, Output.getId, kind]
    cases hkind : o.kind with
    | basic => rfl
    | foundry _ _ =>
      have foundry : o.type = .foundry := by rw [Output.type, hkind]
      have conditions : o'.unlockConditions = o.unlockConditions := by
        rw [h.unlockConditions, if_neg fun hand => hand.2 foundry]
      rw [conditions]
    | nft _ | «alias» _ _ _ _ => rw [hkind] at hid

variable [LawfulPlatform]

/-- A whole output is its own clone. -/
theorem Whole.clone {o : Output} (h : o.Whole) : o.clone = .ok (some o) := by
  rw [clone_eq h.nonNull h.fits, wireForm_eq_self h.allWritten]

/-- A call on a whole output answers, and leaves it whole. -/
theorem Call.run_whole (hash_length : ∀ b : Bytes, (Platform.blake2b256 b).length = 32)
    (c : Call) {o : Output} (h : o.Whole) :
    c.run o = .ok (c.effect o) ∧ (c.effect o).Whole := by
  cases c with
  | setId outputid => exact ⟨rfl, h.setId hash_length outputid⟩
  | consume => exact ⟨rfl, h.consume⟩
  | clone =>
    refine ⟨?_, h⟩
    rw [Call.run, h.clone]
    rfl

/-- A run of calls on a whole output answers. -/
theorem runAll_outcome (hash_length : ∀ b : Bytes, (Platform.blake2b256 b).length = 32)
    (hash_ne : ∀ b : Bytes, Platform.blake2b256 b ≠ noId) (calls : List Call) {o : Output}
    (h : o.Whole) : ∃ o', runAll calls o = .ok o' ∧ Outcome calls o o' := by
  induction calls generalizing o with
  | nil => exact ⟨o, rfl, Outcome.refl o⟩
  | cons c cs ih =>
    obtain ⟨hrun, whole⟩ := c.run_whole hash_length h
    obtain ⟨o', hrest, outcome⟩ := ih whole
    refine ⟨o', ?_, outcome.cons hash_ne⟩
    rw [runAll, hrun]
    exact hrest

/-- Of an output made by a factory or read from bytes, all that a run of
calls changes is what `Outcome` says, and its id no more than once: if it is
not the one the output was made with, it is the last. -/
theorem calls_outcome {o : Output} (made : o.Made) (nonNull : o.NonNull) (fits : o.Fits)
    (hash_length : ∀ b : Bytes, (Platform.blake2b256 b).length = 32)
    (hash_ne : ∀ b : Bytes, Platform.blake2b256 b ≠ noId) (calls : List Call) :
    ∃ o', runAll calls o = .ok o' ∧ Outcome calls o o' ∧
      (o'.getId = o.kind.ownId.elim o.getId fun id =>
        .ok (if id = noId then (firstId calls).elim id Platform.blake2b256 else id)) ∧
      ∀ before after, calls = before ++ after →
        ∃ m, runAll before o = .ok m ∧ runAll after m = .ok o' ∧
          (m.getId = o.getId ∨ o'.getId = m.getId) := by
  have whole : o.Whole := ⟨nonNull, fits, made.allWritten⟩
  obtain ⟨o', hrun, outcome⟩ := runAll_outcome hash_length hash_ne calls whole
  refine ⟨o', hrun, outcome, outcome.getId, fun before after heq => ?_⟩
  obtain ⟨m, hbefore, middle⟩ := runAll_outcome hash_length hash_ne before whole
  refine ⟨m, hbefore, ?_, ?_⟩
  · rw [← runAll_append hbefore, ← heq, hrun]
  · rw [outcome.getId, middle.getId]
    cases hfirst : firstId before with
    | none =>
      left
      cases hid : o.kind.ownId with
      | none => rfl
      | some id =>
        rw [getId_of_ownId hid]
        exact congrArg Except.ok (ite_self id)
    | some x =>
      right
      rw [heq, firstId_append hfirst]

end Runs

end Output

/-! ## At some calls -/

namespace Sampled

/-- The id of the first output of a transaction. -/
def outputId : Bytes := (List.range 32).map UInt8.ofNat ++ [0, 0]

/-- Its Blake2b-256 hash. -/
def outputIdHash : Bytes :=
  [92, 169, 30, 93, 212, 37, 67, 132, 152, 114, 219, 170, 75, 14, 244, 201,
    40, 195, 147, 110, 58, 28, 9, 160, 160, 62, 27, 182, 186, 179, 137, 118]

/-- A hash that is Blake2b-256 at that id. -/
def hash (b : Bytes) : Bytes := if b = outputId then outputIdHash else List.replicate 32 1

theorem hash_length (b : Bytes) : (hash b).length = 32 := by
  unfold hash
  split <;> decide

theorem hash_ne (b : Bytes) : hash b ≠ Output.noId := by
  unfold hash
  split <;> decide

scoped instance platform : Platform := Platform.plainWith hash

scoped instance lawful : LawfulPlatform := Platform.plainWith_lawful hash

/-- A new NFT with the sets of the sample. -/
def nft : Output :=
  .nft 1000 Output.sampleNft.unlockConditions Output.sampleNft.nativeTokens
    Output.sampleNft.immutableFeatures Output.sampleNft.features

theorem nft_nonNull : nft.NonNull where
  kind := trivial
  unlockConditions := Output.sampleNft_nonNull.unlockConditions
  features := Output.sampleNft_nonNull.features
  immutableFeatures := Output.sampleNft_nonNull.immutableFeatures
  nativeTokens := Output.sampleNft_nonNull.nativeTokens

theorem nft_fits : nft.Fits where
  kind := List.length_replicate
  unlockConditions := Output.sampleNft_fits.unlockConditions
  features := Output.sampleNft_fits.features
  immutableFeatures := Output.sampleNft_fits.immutableFeatures
  nativeTokens := Output.sampleNft_fits.nativeTokens
  nativeTokens_count := Output.sampleNft_fits.nativeTokens_count

/-- The id is set, the NFT consumed, and neither an other id nor a clone
makes a difference. -/
def calls : List Output.Call := [.clone, .setId outputId, .consume, .setId [], .clone]

theorem nft_calls_outcome :
    ∃ o', Output.runAll calls nft = .ok o' ∧ Output.Outcome calls nft o' ∧
      o'.getId = .ok outputIdHash := by
  obtain ⟨o', hrun, outcome, id, -⟩ :=
    Output.calls_outcome (.nft _ _ _ _ _) nft_nonNull nft_fits hash_length hash_ne calls
  exact ⟨o', hrun, outcome, id⟩

end Sampled

end Qblock
