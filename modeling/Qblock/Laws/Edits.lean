import Qblock.Laws.Lifecycle
import Qblock.Laws.Maps

/-!
# Outputs under edits

The sets of an output are public, and so are its amount and the two calls
that change it. What an output is for does not depend on how the sets keep
their elements: it is an amount, what its kind adds, and four maps in which
the first value of a key stays. `View` is that, and every edit of an output
is the edit of its view (`Edit.run_refines`); as two outputs of one view are
one output, what a run of edits makes of an output, down to its bytes and
its JSON, is told by what it makes of the view.
-/

namespace Qblock

open Wire Qt

namespace Output

/-! ## Edits -/

/-- What is done to an output: an assignment to its amount, an insertion
into one of its sets, or a call. -/
inductive Edit where
  | amount (amount : UInt64)
  | unlockCondition (c : UnlockCondition)
  | feature (f : Feature)
  | immutableFeature (f : Feature)
  | nativeToken (t : NativeToken)
  | setId (outputid : Bytes)
  | consume

/-- None of the pointers in the sets of an output is null. -/
structure There (o : Output) : Prop where
  unlockConditions : o.unlockConditions.There
  features : o.features.There
  immutableFeatures : o.immutableFeatures.There
  nativeTokens : o.nativeTokens.There

/-- An output without the order of its sets. -/
@[ext] structure View where
  kind : Kind
  amount : UInt64
  unlockConditions : Slots (Keyed.key : UnlockCondition → Keyed.Key UnlockCondition)
  features : Slots (Keyed.key : Feature → Keyed.Key Feature)
  immutableFeatures : Slots (Keyed.key : Feature → Keyed.Key Feature)
  nativeTokens : Slots (Keyed.key : NativeToken → Keyed.Key NativeToken)

noncomputable def view (o : Output) : View where
  kind := o.kind
  amount := o.amount
  unlockConditions := o.unlockConditions.slots
  features := o.features.slots
  immutableFeatures := o.immutableFeatures.slots
  nativeTokens := o.nativeTokens.slots

/-- Outputs of one view are one output. -/
theorem There.ext {o o' : Output} (there : o.There) (there' : o'.There) (h : o.view = o'.view) :
    o = o' := by
  obtain ⟨kind, amount, c, f, i, t⟩ := o
  obtain ⟨kind', amount', c', f', i', t'⟩ := o'
  obtain ⟨rfl, rfl, hc, hf, hi, ht⟩ := View.mk.inj h
  have conditions : c = c' := there.unlockConditions.ext there'.unlockConditions hc
  have features : f = f' := there.features.ext there'.features hf
  have immutable : i = i' := there.immutableFeatures.ext there'.immutableFeatures hi
  have tokens : t = t' := there.nativeTokens.ext there'.nativeTokens ht
  rw [conditions, features, immutable, tokens]

variable [Platform]

def Edit.run : Edit → Output → Except Fault Output
  | .amount x, o => .ok { o with amount := x }
  | .unlockCondition c, o => do
    let s ← o.unlockConditions.insert (some c)
    return { o with unlockConditions := s }
  | .feature f, o => do
    let s ← o.features.insert (some f)
    return { o with features := s }
  | .immutableFeature f, o => do
    let s ← o.immutableFeatures.insert (some f)
    return { o with immutableFeatures := s }
  | .nativeToken t, o => do
    let s ← o.nativeTokens.insert (some t)
    return { o with nativeTokens := s }
  | .setId outputid, o => .ok (o.setId outputid)
  | .consume, o => .ok o.consume

/-- The output after a run of edits. -/
def editAll : List Edit → Output → Except Fault Output
  | [], o => .ok o
  | e :: es, o => do
    let o ← e.run o
    editAll es o

/-- The unlock conditions of a foundry are not consumed. -/
def Kind.isFoundry : Kind → Bool
  | .foundry _ _ => true
  | .basic | .nft _ | .alias _ _ _ _ => false

/-- What an edit does to a view. -/
noncomputable def Edit.act : Edit → View → View
  | .amount x, v => { v with amount := x }
  | .unlockCondition c, v => { v with unlockConditions := v.unlockConditions.put c }
  | .feature f, v => { v with features := v.features.put f }
  | .immutableFeature f, v => { v with immutableFeatures := v.immutableFeatures.put f }
  | .nativeToken t, v => { v with nativeTokens := v.nativeTokens.put t }
  | .setId outputid, v =>
    if v.kind.ownId = some noId then
      { v with kind := v.kind.withId (Platform.blake2b256 outputid) }
    else v
  | .consume, v =>
    { v with
      features := .empty
      nativeTokens := .empty
      unlockConditions := if v.kind.isFoundry then v.unlockConditions else .empty }

noncomputable def actAll : List Edit → View → View
  | [], v => v
  | e :: es, v => actAll es (e.act v)

/-! ## Refinement -/

theorem There.setId {o : Output} (there : o.There) (outputid : Bytes) :
    (o.setId outputid).There ∧ (o.setId outputid).view = (Edit.setId outputid).act o.view := by
  rcases setId_cases outputid o with ⟨fresh, heq⟩ | ⟨old, heq⟩
  · have fresh' : o.view.kind.ownId = some noId := fresh
    rw [heq, Edit.act, if_pos fresh']
    exact ⟨⟨there.1, there.2, there.3, there.4⟩, rfl⟩
  · have old' : ¬ o.view.kind.ownId = some noId := old
    rw [heq, Edit.act, if_neg old']
    exact ⟨there, rfl⟩

theorem There.consume {o : Output} (there : o.There) :
    o.consume.There ∧ o.consume.view = Edit.consume.act o.view := by
  have nothing {T : Type} [Keyed T] : (PSet.empty : PSet T).There :=
    fun _ hp => absurd hp List.not_mem_nil
  obtain ⟨kind, amount, c, f, i, t⟩ := o
  cases kind with
  | foundry _ _ =>
    refine ⟨⟨there.1, nothing, there.3, nothing⟩, ?_⟩
    simp [Edit.act, view, Output.consume, Kind.isFoundry, PSet.slots_empty]
  | basic | nft _ | «alias» _ _ _ _ =>
    refine ⟨⟨nothing, nothing, there.3, nothing⟩, ?_⟩
    simp [Edit.act, view, Output.consume, Kind.isFoundry, PSet.slots_empty]

/-- An edit answers, leaves no null pointer in the sets, and does to the
view what it says. -/
theorem Edit.run_refines {o : Output} (there : o.There) (e : Edit) :
    ∃ o', e.run o = .ok o' ∧ o'.There ∧ o'.view = e.act o.view := by
  cases e with
  | amount x => exact ⟨_, rfl, ⟨there.1, there.2, there.3, there.4⟩, rfl⟩
  | unlockCondition c =>
    obtain ⟨s, h, hs, slots⟩ := there.unlockConditions.insert_ok c
    refine ⟨{ o with unlockConditions := s }, ?_, ⟨hs, there.2, there.3, there.4⟩, ?_⟩
    · rw [Edit.run, h]
      rfl
    · rw [Edit.act, view, view, slots]
  | feature f =>
    obtain ⟨s, h, hs, slots⟩ := there.features.insert_ok f
    refine ⟨{ o with features := s }, ?_, ⟨there.1, hs, there.3, there.4⟩, ?_⟩
    · rw [Edit.run, h]
      rfl
    · rw [Edit.act, view, view, slots]
  | immutableFeature f =>
    obtain ⟨s, h, hs, slots⟩ := there.immutableFeatures.insert_ok f
    refine ⟨{ o with immutableFeatures := s }, ?_, ⟨there.1, there.2, hs, there.4⟩, ?_⟩
    · rw [Edit.run, h]
      rfl
    · rw [Edit.act, view, view, slots]
  | nativeToken t =>
    obtain ⟨s, h, hs, slots⟩ := there.nativeTokens.insert_ok t
    refine ⟨{ o with nativeTokens := s }, ?_, ⟨there.1, there.2, there.3, hs⟩, ?_⟩
    · rw [Edit.run, h]
      rfl
    · rw [Edit.act, view, view, slots]
  | setId outputid => exact ⟨_, rfl, there.setId outputid⟩
  | consume => exact ⟨_, rfl, there.consume⟩

/-- A run of edits is the run on the view. -/
theorem editAll_refines (es : List Edit) {o : Output} (there : o.There) :
    ∃ o', editAll es o = .ok o' ∧ o'.There ∧ o'.view = actAll es o.view := by
  induction es generalizing o with
  | nil => exact ⟨o, rfl, there, rfl⟩
  | cons e es ih =>
    obtain ⟨o₁, hrun, there₁, view₁⟩ := e.run_refines there
    obtain ⟨o', hrest, there', view'⟩ := ih there₁
    refine ⟨o', ?_, there', ?_⟩
    · rw [editAll, hrun]
      exact hrest
    · rw [view', view₁]
      rfl

/-! ## The order of edits -/

omit [Platform] in
/-- Two edits that do not get in each other's way: of different members, or
insertions of different keys. `consume` gets in the way of the insertions
into the sets it empties. -/
def Edit.Independent : Edit → Edit → Prop
  | .amount _, .amount _ | .setId _, .setId _ => False
  | .unlockCondition c, .unlockCondition d => Keyed.key c ≠ Keyed.key d
  | .feature f, .feature g | .immutableFeature f, .immutableFeature g => Keyed.key f ≠ Keyed.key g
  | .nativeToken t, .nativeToken u => Keyed.key t ≠ Keyed.key u
  | .consume, .unlockCondition _ | .consume, .feature _ | .consume, .nativeToken _
  | .unlockCondition _, .consume | .feature _, .consume | .nativeToken _, .consume => False
  | _, _ => True

omit [Platform] in
theorem Edit.Independent.symm {e e' : Edit} (h : e.Independent e') : e'.Independent e := by
  cases e <;> cases e' <;> first | exact trivial | exact h | exact Ne.symm h

omit [Platform] in
theorem Kind.isFoundry_withId (kind : Kind) (id : Bytes) :
    (kind.withId id).isFoundry = kind.isFoundry := by
  cases kind with
  | basic | nft _ | foundry _ _ | «alias» _ _ _ _ => rfl

/-- What `set_id` looks at, no other edit touches, and what it writes no
other looks at but for the kind of it. -/
theorem Edit.act_setId {e : Edit} {outputid : Bytes} (h : e.Independent (.setId outputid))
    (v : View) : e.act ((Edit.setId outputid).act v) = (Edit.setId outputid).act (e.act v) := by
  by_cases fresh : v.kind.ownId = some noId
  · cases e with
    | setId _ => exact h.elim
    | amount _ | unlockCondition _ | feature _ | immutableFeature _ | nativeToken _ =>
      simp [Edit.act, fresh]
    | consume => simp [Edit.act, fresh, Kind.isFoundry_withId]
  · cases e with
    | setId _ => exact h.elim
    | amount _ | unlockCondition _ | feature _ | immutableFeature _ | nativeToken _ | consume =>
      simp [Edit.act, fresh]

/-- Independent edits may be made in either order. -/
theorem Edit.act_comm {e e' : Edit} (h : e.Independent e') (v : View) :
    e'.act (e.act v) = e.act (e'.act v) := by
  cases e' with
  | setId _ => exact (act_setId h v).symm
  | amount _ =>
    cases e with
    | setId _ => exact act_setId h.symm v
    | amount _ => exact h.elim
    | unlockCondition _ | feature _ | immutableFeature _ | nativeToken _ | consume => rfl
  | unlockCondition c =>
    cases e with
    | setId _ => exact act_setId h.symm v
    | unlockCondition d => simp only [Edit.act, Slots.put_comm h]
    | consume => exact h.elim
    | amount _ | feature _ | immutableFeature _ | nativeToken _ => rfl
  | feature f =>
    cases e with
    | setId _ => exact act_setId h.symm v
    | feature g => simp only [Edit.act, Slots.put_comm h]
    | consume => exact h.elim
    | amount _ | unlockCondition _ | immutableFeature _ | nativeToken _ => rfl
  | immutableFeature f =>
    cases e with
    | setId _ => exact act_setId h.symm v
    | immutableFeature g => simp only [Edit.act, Slots.put_comm h]
    | amount _ | unlockCondition _ | feature _ | nativeToken _ | consume => rfl
  | nativeToken t =>
    cases e with
    | setId _ => exact act_setId h.symm v
    | nativeToken u => simp only [Edit.act, Slots.put_comm h]
    | consume => exact h.elim
    | amount _ | unlockCondition _ | feature _ | immutableFeature _ => rfl
  | consume =>
    cases e with
    | setId _ => exact act_setId h.symm v
    | unlockCondition _ | feature _ | nativeToken _ => exact h.elim
    | amount _ | immutableFeature _ | consume => rfl

theorem actAll_perm {es es' : List Edit} (perm : es.Perm es')
    (independent : es.Pairwise Edit.Independent) (v : View) : actAll es v = actAll es' v := by
  induction perm generalizing v with
  | nil => rfl
  | cons e _ ih => exact ih (List.pairwise_cons.mp independent).2 (e.act v)
  | swap e e' l =>
    have h := (List.pairwise_cons.mp independent).1 e List.mem_cons_self
    rw [actAll, actAll, actAll, actAll, Edit.act_comm h]
  | trans h _ ih ih' =>
    have independent' := (h.pairwise_iff Edit.Independent.symm).mp independent
    exact (ih independent v).trans (ih' independent' v)

/-- A run of edits on an output is one on its view, which the searches of
the output read, and which tells the output it ends in from any other. Edits
that are independent may be made in any order. -/
theorem edits_refine {o : Output} (there : o.There) (es : List Edit) :
    ∃ o', editAll es o = .ok o' ∧ o'.view = actAll es o.view ∧
      (∀ typ, o'.getUnlock typ = .ok (o'.view.unlockConditions.under typ.toUInt8)) ∧
      (∀ typ, o'.getFeature typ = .ok (o'.view.features.under typ.toUInt8)) ∧
      (∀ typ, o'.getImmutableFeature typ = .ok (o'.view.immutableFeatures.under typ.toUInt8)) ∧
      (∀ es' o₂, editAll es' o = .ok o₂ → (o₂ = o' ↔ actAll es' o.view = actAll es o.view)) ∧
      ∀ es', es.Perm es' → es.Pairwise Edit.Independent → editAll es' o = .ok o' := by
  obtain ⟨o', hrun, there', hview⟩ := editAll_refines es there
  have told : ∀ es' o₂, editAll es' o = .ok o₂ →
      (o₂ = o' ↔ actAll es' o.view = actAll es o.view) := by
    intro es' o₂ hrun₂
    obtain ⟨_, hrun₂', there₂, hview₂⟩ := editAll_refines es' there
    cases hrun₂.symm.trans hrun₂'
    rw [← hview₂, ← hview]
    exact ⟨congrArg view, there₂.ext there'⟩
  refine ⟨o', hrun, hview, fun typ => ?_, fun typ => ?_, fun typ => ?_, told, ?_⟩
  · exact there'.unlockConditions.findIf (UnlockCondition.type_iff typ)
  · exact there'.features.findIf (Feature.type_iff typ)
  · exact there'.immutableFeatures.findIf (Feature.type_iff typ)
  · intro es' perm independent
    obtain ⟨o₂, hrun₂, -, -⟩ := editAll_refines es' there
    rw [hrun₂, (told es' o₂ hrun₂).mpr (actAll_perm perm independent o.view).symm]

end Output

/-! ## At an NFT -/

section Sample

open Plain

theorem Output.sampleNft_there : sampleNft.There where
  unlockConditions := List.forall_mem_singleton.mpr rfl
  features := List.forall_mem_singleton.mpr rfl
  immutableFeatures := List.forall_mem_singleton.mpr rfl
  nativeTokens := List.forall_mem_singleton.mpr rfl

/-- A tag and an amount, in either order. -/
theorem Output.edits_refine_sampleNft : ∃ o',
    editAll [.feature (.tag [1]), .amount 7] sampleNft = .ok o' ∧
    editAll [.amount 7, .feature (.tag [1])] sampleNft = .ok o' ∧
    o'.getFeature .tag = .ok (o'.view.features.under Feature.Types.tag.toUInt8) := by
  obtain ⟨o', hrun, -, -, features, -, -, any⟩ :=
    edits_refine sampleNft_there [.feature (.tag [1]), .amount 7]
  exact ⟨o', hrun, any _ (.swap _ _ []) (List.pairwise_pair.mpr trivial), features .tag⟩

end Sample

end Qblock
