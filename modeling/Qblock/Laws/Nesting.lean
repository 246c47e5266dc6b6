import Qblock.Laws.NullSafety

/-!
# How deep the decoder of blocks nests

`Payload::from_` reads a transaction, whose essence may embed a payload,
which `Payload::from_` reads. Nothing in the source bounds that recursion
but the bytes: to come back to `Payload::from_` the decoder has to find the
53 bytes of a level on the stream, the last four of which are a length that
is not zero, and a stream that has ended gives zeros only.

`Block.ofQDataStreamWithin` is the decoder that gives up, with the fault
`recursionLimit`, when it would come back to `Payload::from_` more often
than allowed.

- `Block.agree_within` — on fewer than 53 bytes for each level allowed and
  one more it is the decoder itself;
- `Block.within_levels` — on 53 bytes for each of them it may not be;
- `Block.finishes_iff` — what the decoder can run into instead of its end is
  a null pointer that it compares;
- `Block.decode_nesting` — all of it.
-/

namespace Qblock

open Wire Qt

namespace Block

/-- Blocks are read alike if their payloads are. -/
theorem agree_with {get get' : Read (Option Payload)} {n : Nat} (h : AgreeBelow n get get') :
    AgreeBelow n (readWith get) (readWith get') := by
  have parents : Advances (fun _ => True) readParents :=
    advances_scalar.bind fun _ => Advances.repeat (advances_array 32) _
  exact (AgreeBelow.refl _).bind (advances_scalar _) fun _ =>
    (AgreeBelow.refl _).bind (parents _) fun _ =>
      ((agree_slot h).mono (Nat.le_add_right n 4)).bind_right _

variable [Platform]

/-- `Block(QDataStream&)` with payloads nested at most `depth` deep in the
payload of the block. -/
def ofQDataStreamWithin (depth : Nat) : Read Block :=
  readWith (Payload.fromQDataStreamUpTo (depth + 1))

theorem agree_within (depth : Nat) :
    AgreeBelow (53 * (depth + 1)) (ofQDataStreamWithin depth) ofQDataStream :=
  agree_with (Payload.agree_fromQDataStream (depth + 1))

variable [LawfulPlatform]

/-- The decoder comes to an end, with a block, exactly if no null pointer is
compared on the way. There is nothing else to fault on, the status of the
stream included. -/
theorem finishes_iff (bs : Bytes) :
    ((∃ b s, ofQDataStream.run ⟨bs, .ok⟩ = .ok (b, s)) ↔ SetsComparable bs) ∧
    (ofQDataStream.run ⟨bs, .ok⟩ = .error .nullPointer ↔ ¬ SetsComparable bs) := by
  have judged : Judges ofQDataStream (scanBlock .comparable) _ _ _ := judges_block
  cases hscan : (scanBlock .comparable).run ⟨bs, .ok⟩ with
  | ok r =>
    have comparable : SetsComparable bs := ⟨r, hscan⟩
    obtain ⟨b, hb, -⟩ := judged.accepts hscan
    rw [hb]
    exact ⟨iff_of_true ⟨b, r.2, rfl⟩ comparable, iff_of_false nofun (not_not_intro comparable)⟩
  | error e =>
    have incomparable : ¬ SetsComparable bs := by
      intro h
      obtain ⟨r, hr⟩ := h
      rw [hscan] at hr
      cases hr
    cases hrun : ofQDataStream.run ⟨bs, .ok⟩ with
    | ok p => exact (judged.rejects hscan hrun).elim
    | error e' =>
      refine ⟨iff_of_false nofun incomparable, iff_of_true ?_ incomparable⟩
      rw [advances_block.fault hrun]

end Block

/-! ## As deep as that -/

section Levels

variable [Platform]

/-- The 53 bytes in front of an embedded payload: a transaction without
inputs and outputs, up to the length in its slot. -/
def Payload.level : Bytes :=
  Scalar.put transactionType ++ (Scalar.put Essence.transactionType ++
    (Scalar.put (0 : UInt64) ++ (Scalar.put (0 : UInt16) ++ (List.replicate 32 0 ++
      (Scalar.put (0 : UInt16) ++ Scalar.put (1 : UInt32))))))

/-- So many levels, one inside the other. -/
def Payload.levels : Nat → Bytes
  | 0 => []
  | n + 1 => level ++ levels n

omit [Platform] in
theorem Payload.levels_length (n : Nat) : (levels n).length = 53 * n := by
  induction n with
  | zero => rfl
  | succ n ih =>
    have hlevel : level.length = 53 := by decide
    rw [levels, List.length_append, ih, hlevel]
    omega

/-- Behind the length in its slot, a fault of the embedded payload is one of
the transaction. -/
theorem Payload.dispatch_level {get : Read (Option Payload)} {b : Bytes} {st : Status} {e : Fault}
    (h : get.run ⟨b, st⟩ = .error e) :
    (dispatchQDataStream get).run ⟨level ++ b, st⟩ = .error e := by
  have empty : ∀ {T : Type} (from_ : Read (Option T)),
      Reads (deserializeVector UInt16 from_) (Scalar.put (0 : UInt16)) [] := by
    intro T from_
    rw [← List.append_nil (Scalar.put (0 : UInt16))]
    apply (reads_scalar (0 : UInt16)).bind
    exact Reads.pure []
  simp only [level, List.append_assoc]
  rw [dispatchQDataStream, run_bind_ok ((reads_scalar transactionType).run _ st), if_pos rfl]
  apply run_bind_error
  apply run_bind_error
  rw [Essence.fromQDataStream, run_bind_ok ((reads_scalar Essence.transactionType).run _ st),
    if_pos rfl]
  apply run_bind_error
  rw [Essence.ofQDataStream, run_bind_ok ((reads_scalar (0 : UInt64)).run _ st),
    run_bind_ok ((empty Input.fromQDataStream).run _ st),
    run_bind_ok ((reads_array List.length_replicate).run _ st),
    run_bind_ok ((empty Output.fromQDataStream).run _ st)]
  apply run_bind_error
  rw [readSlot, run_bind_ok ((reads_scalar (1 : UInt32)).run _ st), if_pos (by decide)]
  exact h

theorem Payload.upTo_levels (n : Nat) (rest : Bytes) (st : Status) :
    (fromQDataStreamUpTo n).run ⟨levels n ++ rest, st⟩ = .error .recursionLimit := by
  induction n with
  | zero => rfl
  | succ n ih =>
    rw [levels, List.append_assoc, fromQDataStreamUpTo_succ]
    exact dispatch_level ih

/-- A block without parents whose payload nests as deep. -/
def Block.levels (depth : Nat) : Bytes :=
  Scalar.put (2 : UInt8) ++ (Scalar.put (0 : UInt8) ++
    (Scalar.put (1 : UInt32) ++ Payload.levels (depth + 1)))

omit [Platform] in
theorem Block.levels_length (depth : Nat) : (levels depth).length = 53 * (depth + 1) + 6 := by
  simp only [levels, List.length_append, Payload.levels_length, Scalar.put_length]
  show 1 + (1 + (4 + _)) = _
  omega

/-- So the bound is met but for the six bytes in front of the payload. -/
theorem Block.within_levels (depth : Nat) :
    (ofQDataStreamWithin depth).run ⟨levels depth, .ok⟩ = .error .recursionLimit := by
  have inner := Payload.upTo_levels (depth + 1) [] .ok
  have parents : Reads readParents (Scalar.put (0 : UInt8)) [] := by
    have none : ∀ id ∈ ([] : List Bytes), id.length = 32 := fun _ h => absurd h List.not_mem_nil
    have read := reads_parents none (by decide)
    rwa [List.flatten_nil, List.append_nil] at read
  rw [List.append_nil] at inner
  rw [levels, ofQDataStreamWithin, readWith, run_bind_ok ((reads_scalar (2 : UInt8)).run _ .ok),
    run_bind_ok (parents.run _ .ok)]
  apply run_bind_error
  rw [readSlot, run_bind_ok ((reads_scalar (1 : UInt32)).run _ .ok), if_pos (by decide)]
  exact inner

/-- The decoder nests payloads at most once in 53 bytes, on every byte
string, and on some as often as that. It finishes exactly on those on which
it compares no null pointer, and on all others it looks through one. -/
theorem Block.decode_nesting [LawfulPlatform] :
    (∀ bs : Bytes,
      (ofQDataStreamWithin (bs.length / 53)).run ⟨bs, .ok⟩ = ofQDataStream.run ⟨bs, .ok⟩ ∧
      ((∃ b s, ofQDataStream.run ⟨bs, .ok⟩ = .ok (b, s)) ↔ SetsComparable bs) ∧
      (ofQDataStream.run ⟨bs, .ok⟩ = .error .nullPointer ↔ ¬ SetsComparable bs)) ∧
    (∀ depth : Nat, ∃ bs : Bytes, bs.length / 53 = depth + 1 ∧
      (ofQDataStreamWithin depth).run ⟨bs, .ok⟩ = .error .recursionLimit) := by
  refine ⟨fun bs => ⟨?_, finishes_iff bs⟩, fun depth => ⟨levels depth, ?_, within_levels depth⟩⟩
  · apply agree_within
    show bs.length < 53 * (bs.length / 53 + 1)
    omega
  · rw [levels_length]
    omega

end Levels

/-! ## At some bytes -/

section Sample

open Plain

/-- A transaction of one basic output with two unlock conditions, a timelock
and one of the given type, cut off there. -/
def Block.secondCondition (type : UInt8) : Bytes :=
  [2, 0, 66, 0, 0, 0] ++ [6, 0, 0, 0, 1] ++ List.replicate 8 0 ++ [0, 0] ++
    List.replicate 32 0 ++ [1, 0] ++ [3, 0, 0, 0, 0, 0, 0, 0, 0, 0] ++ [2, 2, 0, 0, 0, 0, type]

/-- A block whose payload nests twice, and one that compares two unlock
conditions. -/
theorem Block.decode_nesting_levels :
    (ofQDataStreamWithin (112 / 53)).run ⟨levels 1, .ok⟩ = ofQDataStream.run ⟨levels 1, .ok⟩ ∧
    ∃ b s, ofQDataStream.run ⟨secondCondition 0, .ok⟩ = .ok (b, s) := by
  have within := (decode_nesting.1 (levels 1)).1
  rw [levels_length] at within
  have walked : (scanBlock .comparable).run ⟨secondCondition 0, .ok⟩ =
      .ok ((), ⟨[], .readPastEnd⟩) := by decide +kernel
  exact ⟨within, (decode_nesting.1 (secondCondition 0)).2.1.mpr ⟨_, walked⟩⟩

/-- With a second condition of type 7, which is no type, the decoder does
not finish: to insert it, it compares a null pointer with the timelock. -/
theorem Block.not_finishes_of_unknown :
    (secondCondition 7).length = 72 ∧
    ¬ ∃ b s, ofQDataStream.run ⟨secondCondition 7, .ok⟩ = .ok (b, s) := by
  refine ⟨rfl, ?_⟩
  intro h
  obtain ⟨b, s, hrun⟩ := h
  have faults : (ofQDataStream.run ⟨secondCondition 7, .ok⟩).map (fun _ => ()) =
      .error .nullPointer := by decide +kernel
  rw [hrun] at faults
  cases faults

end Sample

end Qblock
