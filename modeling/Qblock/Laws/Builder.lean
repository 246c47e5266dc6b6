import Qblock.Laws.Layout

/-!
# Blocks built from a payload

A block that is made of a payload has no parents yet, and its protocol
version and its nonce are what the memory holds. Its maker calls the three
setters, in any order and as often as it likes, and what counts of a run of
calls is the last of each: `settings` is that, and a run of calls is no more
than its settings (`setAll_eq`). What is not set shows: the bytes of the
block are those of the payload and the calls alone exactly if both fields
were set.
-/

namespace Qblock

open Wire Qt

/-! ## Defaults -/

section Defaults

variable {α : Type} {o o' : Option α} {a a' : α}

/-- An option is told by what it falls back to. -/
theorem getD_inj (ne : a ≠ a') (h : ∀ x, o.getD x = o'.getD x) : o = o' := by
  cases o with
  | none =>
    cases o' with
    | none => rfl
    | some v => exact absurd ((h a).trans (h a').symm) ne
  | some v =>
    cases o' with
    | none => exact absurd ((h a).symm.trans (h a')) ne
    | some w => exact congrArg some (h a)

/-- An option that is there, and none other, does not fall back. -/
theorem getD_const_iff (ne : a ≠ a') : (∀ x y, o.getD x = o.getD y) ↔ o.isSome := by
  cases o with
  | none => exact iff_of_false (fun h => ne (h a a')) Bool.false_ne_true
  | some v => exact iff_of_true (fun _ _ => rfl) rfl

end Defaults

namespace Block

/-! ## Setters -/

/-- A call of a setter. -/
inductive Setter where
  | pv (pv : UInt8)
  | parents (parents : List Bytes)
  | nonce (nonce : UInt64)

def Setter.set : Setter → Block → Block
  | .pv x, b => b.setPv x
  | .parents x, b => b.setParents x
  | .nonce x, b => b.setNonce x

/-- The block after a run of calls. -/
def setAll : List Setter → Block → Block
  | [], b => b
  | c :: cs, b => setAll cs (c.set b)

theorem setAll_append (cs cs' : List Setter) (b : Block) :
    setAll (cs ++ cs') b = setAll cs' (setAll cs b) := by
  induction cs generalizing b with
  | nil => rfl
  | cons c cs ih => exact ih (c.set b)

/-- What a run of calls leaves set. -/
@[ext] structure Settings where
  pv : Option UInt8
  parents : Option (List Bytes)
  nonce : Option UInt64

/-- A later call of a setter counts, and an earlier one only if there is
none. -/
def settings : List Setter → Settings
  | [] => ⟨none, none, none⟩
  | .pv pv :: cs => { settings cs with pv := (settings cs).pv <|> some pv }
  | .parents parents :: cs =>
    { settings cs with parents := (settings cs).parents <|> some parents }
  | .nonce nonce :: cs => { settings cs with nonce := (settings cs).nonce <|> some nonce }

/-- The block with what is set. -/
def Settings.fill (s : Settings) (b : Block) : Block where
  protocolVersion := s.pv.getD b.protocolVersion
  parents := s.parents.getD b.parents
  payload := b.payload
  nonce := s.nonce.getD b.nonce

/-- A run of calls is no more than what it leaves set. -/
theorem setAll_eq (cs : List Setter) (b : Block) : setAll cs b = (settings cs).fill b := by
  induction cs generalizing b with
  | nil => rfl
  | cons c cs ih =>
    rw [setAll, ih]
    cases c with
    | pv pv => cases hs : (settings cs).pv <;> simp [Settings.fill, settings, Setter.set, setPv, hs]
    | parents parents =>
      cases hs : (settings cs).parents <;>
        simp [Settings.fill, settings, Setter.set, setParents, hs]
    | nonce nonce =>
      cases hs : (settings cs).nonce <;> simp [Settings.fill, settings, Setter.set, setNonce, hs]

/-- Runs of calls do the same to every block exactly if they leave the same
set. -/
theorem setAll_eq_iff {cs cs' : List Setter} :
    (∀ b, setAll cs b = setAll cs' b) ↔ settings cs = settings cs' := by
  simp only [setAll_eq]
  refine ⟨fun h => ?_, fun h b => by rw [h]⟩
  have field : ∀ pv parents nonce, (settings cs).fill ⟨pv, parents, none, nonce⟩ =
      (settings cs').fill ⟨pv, parents, none, nonce⟩ := fun pv parents nonce => h _
  apply Settings.ext
  · exact getD_inj (by decide : (0 : UInt8) ≠ 1)
      fun pv => congrArg protocolVersion (field pv [] 0)
  · exact getD_inj (by decide : ([] : List Bytes) ≠ [[]])
      fun parents => congrArg Block.parents (field 0 parents 0)
  · exact getD_inj (by decide : (0 : UInt64) ≠ 1)
      fun nonce => congrArg Block.nonce (field 0 [] nonce)

variable [Platform]

/-! ## Memory -/

/-- The head of a block holds everything but the nonce, and the nonce is
behind it. -/
theorem serializeHead_eq_ok {b : Block} {x : Bytes} :
    b.serializeHead = .ok x ↔ ∃ slot, serializeSlot b.payload = .ok slot ∧
      x = Scalar.put b.protocolVersion ++
        (Scalar.put (Scalar.ofNat b.parents.length : UInt8) ++ b.parents.flatten ++ slot) := by
  obtain ⟨protocolVersion, parents, payload, nonce⟩ := b
  cases payload with
  | none => simp only [serializeHead, serializeSlot, bind_eq_ok, pure_eq_ok, List.append_assoc]
  | some p =>
    simp only [serializeHead, serializeSlot, bind_eq_ok, pure_eq_ok, List.append_assoc]
    grind

theorem serialize_of_head {b : Block} {head : Bytes} (h : b.serializeHead = .ok head) :
    b.serialize = .ok (head ++ Scalar.put b.nonce) := by
  rw [serialize, h]
  rfl

theorem serializeHead_ok {b : Block} (nonNull : b.NonNull) :
    ∃ head, b.serializeHead = .ok head := by
  obtain ⟨x, hx⟩ := serialize_ok nonNull
  obtain ⟨slot, hslot, -⟩ := serialize_eq_ok.mp hx
  exact ⟨_, serializeHead_eq_ok.mpr ⟨slot, hslot, rfl⟩⟩

/-- Blocks of the same parents and payload have one head exactly if they are
of one protocol version. -/
theorem serializeHead_eq_iff {b b' : Block} (nonNull : b.NonNull) (payload : b'.payload = b.payload)
    (parents : b'.parents = b.parents) :
    b.serializeHead = b'.serializeHead ↔ b.protocolVersion = b'.protocolVersion := by
  obtain ⟨head, hb⟩ := serializeHead_ok nonNull
  obtain ⟨slot, hslot, rfl⟩ := serializeHead_eq_ok.mp hb
  have hb' : b'.serializeHead = .ok _ := serializeHead_eq_ok.mpr ⟨slot, payload ▸ hslot, rfl⟩
  rw [hb, hb', Except.ok.injEq, parents, List.append_left_inj]
  exact Scalar.put_injective.eq_iff

/-- They are written alike exactly if they are of one nonce as well. -/
theorem serialize_eq_iff {b b' : Block} (nonNull : b.NonNull) (payload : b'.payload = b.payload)
    (parents : b'.parents = b.parents) :
    b.serialize = b'.serialize ↔ b.protocolVersion = b'.protocolVersion ∧ b.nonce = b'.nonce := by
  have heads := serializeHead_eq_iff nonNull payload parents
  obtain ⟨head, hb⟩ := serializeHead_ok nonNull
  have nonNull' : b'.NonNull := by rwa [NonNull, payload]
  obtain ⟨head', hb'⟩ := serializeHead_ok nonNull'
  rw [hb, hb', Except.ok.injEq] at heads
  rw [serialize_of_head hb, serialize_of_head hb', Except.ok.injEq, ← heads]
  constructor
  · intro heq
    obtain ⟨same, nonces⟩ := List.append_inj' heq (by rw [Scalar.put_length, Scalar.put_length])
    exact ⟨same, Scalar.put_injective nonces⟩
  · intro parts
    rw [parts.1, parts.2]

/-- What of a block that was made of a payload, and went through a run of
calls, depends on what the memory held: the head does not exactly if the
protocol version was set, and the bytes do not exactly if the nonce was set
too. All that a run of calls does is the last of each setter, and a nonce
set last does not touch the head, which the bytes begin with. -/
theorem built_laws {p : Option Payload} (nonNull : ∀ q ∈ p, q.NonNull) (cs : List Setter) :
    ((∀ v n v' n', (setAll cs (ofPayload v n p)).serializeHead =
        (setAll cs (ofPayload v' n' p)).serializeHead) ↔ (settings cs).pv.isSome) ∧
    ((∀ v n v' n', (setAll cs (ofPayload v n p)).serialize =
        (setAll cs (ofPayload v' n' p)).serialize) ↔
      (settings cs).pv.isSome ∧ (settings cs).nonce.isSome) ∧
    (∀ cs', (∀ b, setAll cs b = setAll cs' b) ↔ settings cs = settings cs') ∧
    ∀ v n, ∃ head, (setAll cs (ofPayload v n p)).serializeHead = .ok head ∧
      ∀ nonce, (setAll (cs ++ [.nonce nonce]) (ofPayload v n p)).serializeHead = .ok head ∧
        (setAll (cs ++ [.nonce nonce]) (ofPayload v n p)).serialize =
          .ok (head ++ Scalar.put nonce) := by
  refine ⟨?_, ?_, fun cs' => setAll_eq_iff, fun v n => ?_⟩
  · have heads : ∀ v n v' n', (setAll cs (ofPayload v n p)).serializeHead =
        (setAll cs (ofPayload v' n' p)).serializeHead ↔
          (settings cs).pv.getD v = (settings cs).pv.getD v' := by
      intro v n v' n'
      rw [setAll_eq, setAll_eq]
      exact serializeHead_eq_iff nonNull rfl rfl
    simp only [heads]
    rw [← getD_const_iff (by decide : (0 : UInt8) ≠ 1)]
    exact ⟨fun h v v' => h v 0 v' 0, fun h v _ v' _ => h v v'⟩
  · have bytes : ∀ v n v' n', (setAll cs (ofPayload v n p)).serialize =
        (setAll cs (ofPayload v' n' p)).serialize ↔
          (settings cs).pv.getD v = (settings cs).pv.getD v' ∧
            (settings cs).nonce.getD n = (settings cs).nonce.getD n' := by
      intro v n v' n'
      rw [setAll_eq, setAll_eq]
      exact serialize_eq_iff nonNull rfl rfl
    simp only [bytes]
    rw [← getD_const_iff (by decide : (0 : UInt8) ≠ 1),
      ← getD_const_iff (by decide : (0 : UInt64) ≠ 1)]
    exact ⟨fun h => ⟨fun v v' => (h v 0 v' 0).1, fun n n' => (h 0 n 0 n').2⟩,
      fun h v n v' n' => ⟨h.1 v v', h.2 n n'⟩⟩
  · have kept : (setAll cs (ofPayload v n p)).NonNull := by
      rw [setAll_eq]
      exact nonNull
    obtain ⟨head, hhead⟩ := serializeHead_ok kept
    refine ⟨head, hhead, fun nonce => ?_⟩
    rw [setAll_append]
    exact ⟨hhead, serialize_of_head (b := Block.setNonce nonce _) hhead⟩

end Block

/-! ## At a block with tagged data -/

section Sample

open Plain

/-- With the protocol version set alone, the head is settled, and the bytes
hold eight that nobody wrote. -/
theorem Block.built_laws_sampleTaggedData :
    (∀ v n v' n', (setAll [.pv 2] (ofPayload v n (some (.taggedData [73] [3, 4])))).serializeHead =
      (setAll [.pv 2] (ofPayload v' n' (some (.taggedData [73] [3, 4])))).serializeHead) ∧
    ¬ ∀ v n v' n', (setAll [.pv 2] (ofPayload v n (some (.taggedData [73] [3, 4])))).serialize =
      (setAll [.pv 2] (ofPayload v' n' (some (.taggedData [73] [3, 4])))).serialize := by
  have nonNull : ∀ q ∈ some (Payload.taggedData [73] [3, 4]), q.NonNull := by
    intro q hq
    cases hq
    trivial
  obtain ⟨head, bytes, -⟩ := built_laws nonNull [.pv 2]
  exact ⟨head.mpr rfl, fun h => absurd (bytes.mp h).2 (by decide)⟩

end Sample

end Qblock
