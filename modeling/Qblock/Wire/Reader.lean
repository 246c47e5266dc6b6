import Qblock.Wire.Scalar
import Mathlib.Data.List.Basic
import Mathlib.Data.List.Forall2

/-!
# Readers of a byte stream with a sticky status

A `Stream` is what is still unread together with a status that, once the
end has been passed, stays passed. A `Reader` is a computation over it that
may also fault. Reading past the end is NOT a fault: the reader is handed
what was there (or zero) and runs on, and only the status tells.

Two properties of a reader, each closed under sequencing, carry the
development:

- `Leaves get b a left` — on `b` followed by anything, `get` answers `a` and
  leaves `left` in front of what followed, `Reads get b a` being the case in
  which it leaves nothing more;
- `Advances E get` — on every stream, `get` either drops a front part of it
  and keeps a passed end passed, or faults with one of `E`.
-/

namespace Wire

/-- The status of a stream. -/
inductive Status where
  | ok
  | readPastEnd
  deriving DecidableEq, Repr

/-- A stream: the bytes not read yet, and the status. -/
structure Stream where
  unread : Bytes
  status : Status
  deriving DecidableEq, Repr

/-- A computation that reads a stream and may fault with an `ε`. -/
abbrev Reader (ε α : Type) := StateT Stream (Except ε) α

variable {ε α β γ σ : Type}

/-! ## Running a sequence -/

/-- What follows a step that answers answers. -/
theorem bind_eq_ok {x : Except ε α} {f : α → Except ε β} {b : β} :
    x >>= f = .ok b ↔ ∃ a, x = .ok a ∧ f a = .ok b := by
  cases x with
  | error e => simp [bind, Except.bind]
  | ok a => simp [bind, Except.bind]

theorem pure_eq_ok {a b : α} : (pure a : Except ε α) = .ok b ↔ b = a := by
  constructor
  · intro heq
    cases heq
    rfl
  · intro heq
    subst heq
    rfl

/-- A run goes on from the answer and the stream of its first part. -/
theorem run_bind_ok {m : Reader ε α} {f : α → Reader ε β} {s s' : Stream} {a : α}
    (h : m.run s = .ok (a, s')) : (m >>= f).run s = (f a).run s' := by
  rw [StateT.run_bind, h]
  rfl

/-- A fault ends a run. -/
theorem run_bind_error {m : Reader ε α} {f : α → Reader ε β} {s : Stream} {e : ε}
    (h : m.run s = .error e) : (m >>= f).run s = .error e := by
  rw [StateT.run_bind, h]
  rfl

theorem map_eq_ok {x : Except ε α} {f : α → β} {b : β} :
    f <$> x = .ok b ↔ ∃ a, x = .ok a ∧ f a = b := by
  cases x with
  | error e => simp [Functor.map, Except.map]
  | ok a => simp [Functor.map, Except.map]

/-- A sequence that answers is a first part that answers and a second that does. -/
theorem run_bind_eq_ok {m : Reader ε α} {f : α → Reader ε β} {s s'' : Stream} {c : β} :
    (m >>= f).run s = .ok (c, s'') ↔
      ∃ a s', m.run s = .ok (a, s') ∧ (f a).run s' = .ok (c, s'') := by
  cases hm : m.run s with
  | error e => simp [run_bind_error hm]
  | ok p =>
    obtain ⟨a, s'⟩ := p
    rw [run_bind_ok hm]
    constructor
    · exact fun h => ⟨a, s', rfl, h⟩
    · intro h
      obtain ⟨_, _, heq, h⟩ := h
      cases heq
      exact h

/-- Raise the outcome of a computation that reads nothing. -/
def lift (x : Except ε α) : Reader ε α := fun s => x.map (·, s)

@[simp] theorem run_lift_ok (a : α) (s : Stream) :
    (lift (.ok a) : Reader ε α).run s = .ok (a, s) := rfl

@[simp] theorem run_lift_error (e : ε) (s : Stream) :
    (lift (.error e) : Reader ε α).run s = .error e := rfl

/-- What needs no stream leaves it as it was. -/
theorem run_lift_eq_ok {x : Except ε α} {a : α} {s s' : Stream} :
    (lift x).run s = .ok (a, s') ↔ x = .ok a ∧ s = s' := by
  cases x with
  | error e => simp
  | ok b => simp

/-! ## The two primitive reads -/

/-- Take up to `n` bytes off the front. Finding fewer passes the end. -/
def Stream.readBlock (s : Stream) (n : Nat) : Bytes × Stream :=
  (s.unread.take n,
    if n ≤ s.unread.length then { s with unread := s.unread.drop n } else ⟨[], .readPastEnd⟩)

/-- A block that is there is taken off the front. -/
theorem readBlock_append {b rest : Bytes} {st : Status} {n : Nat} (h : b.length = n) :
    Stream.readBlock ⟨b ++ rest, st⟩ n = (b, ⟨rest, st⟩) := by
  subst h
  simp [Stream.readBlock]

/-- Of a block that is not all there, what is there is taken, and the end is
passed. -/
theorem readBlock_short {s : Stream} {n : Nat} (h : s.unread.length < n) :
    s.readBlock n = (s.unread, ⟨[], .readPastEnd⟩) := by
  unfold Stream.readBlock
  rw [List.take_of_length_le (by omega), if_neg (by omega)]

/-- Read raw bytes over a target array: the bytes the stream does not have
are left as the target had them. The stream is taken to read as many bytes
in one call as a 32-bit length can ask for, which `QDataStream` does from Qt
6.7 on; before, the length is an `int`. -/
def readRaw (target : Bytes) : Reader ε Bytes := fun s =>
  let (got, s') := s.readBlock target.length
  .ok (got ++ target.drop got.length, s')

/-- Read a machine word. With too few bytes left the word is zero. -/
def readScalar [Scalar σ] : Reader ε σ := fun s =>
  let (got, s') := s.readBlock (Scalar.width σ)
  .ok (if got.length = Scalar.width σ then Scalar.ofNat (ofLE got) else Scalar.ofNat 0, s')

/-- Past the end, raw bytes stay as the target had them. -/
theorem readRaw_short {s : Stream} {target : Bytes} (h : s.unread.length < target.length) :
    (readRaw target : Reader ε Bytes).run s =
      .ok (s.unread ++ target.drop s.unread.length, ⟨[], .readPastEnd⟩) := by
  show (let (got, s') := s.readBlock target.length
    (.ok (got ++ target.drop got.length, s') : Except ε (Bytes × Stream))) = _
  rw [readBlock_short h]

/-- Past the end, a word is zero, and what is left of the stream is gone. -/
theorem readScalar_short [Scalar σ] {s : Stream} (h : s.unread.length < Scalar.width σ) :
    (readScalar : Reader ε σ).run s = .ok (Scalar.ofNat 0, ⟨[], .readPastEnd⟩) := by
  show (let (got, s') := s.readBlock (Scalar.width σ)
    (.ok (if got.length = Scalar.width σ then Scalar.ofNat (ofLE got) else Scalar.ofNat 0, s') :
      Except ε (σ × Stream))) = _
  rw [readBlock_short h]
  simp [Nat.ne_of_lt h]

/-! ## Reading what was written -/

/-- On `b` followed by anything, whatever the status, `get` answers `a` and
leaves `left` in front of what followed, with the status as it was. -/
def Leaves (get : Reader ε α) (b : Bytes) (a : α) (left : Bytes) : Prop :=
  ∀ rest st, get.run ⟨b ++ rest, st⟩ = .ok (a, ⟨left ++ rest, st⟩)

/-- `get` answers `a` on `b` and leaves exactly what followed. -/
abbrev Reads (get : Reader ε α) (b : Bytes) (a : α) : Prop := Leaves get b a []

/-- The bytes are read off the front of any stream, whatever its status. -/
theorem Reads.run {get : Reader ε α} {b : Bytes} {a : α} (h : Reads get b a) (rest : Bytes)
    (st : Status) : get.run ⟨b ++ rest, st⟩ = .ok (a, ⟨rest, st⟩) := h rest st

theorem Reads.pure (a : α) : Reads (pure a : Reader ε α) [] a := fun _ _ => rfl

/-- One part after the other. Only the last one may leave something. -/
theorem Leaves.bind {m : Reader ε α} {f : α → Reader ε β} {b₁ b₂ left : Bytes} {a : α} {c : β}
    (hm : Reads m b₁ a) (hf : Leaves (f a) b₂ c left) : Leaves (m >>= f) (b₁ ++ b₂) c left := by
  intro rest st
  rw [List.append_assoc, run_bind_ok (hm (b₂ ++ rest) st)]
  exact hf rest st

/-- What the first part leaves comes first for the second. -/
theorem Leaves.bind_left {m : Reader ε α} {f : α → Reader ε β} {b₁ b₂ left left' : Bytes} {a : α}
    {c : β} (hm : Leaves m b₁ a left) (hf : Leaves (f a) (left ++ b₂) c left') :
    Leaves (m >>= f) (b₁ ++ b₂) c left' := by
  intro rest st
  rw [List.append_assoc, run_bind_ok (hm (b₂ ++ rest) st), ← List.append_assoc]
  exact hf rest st

/-- More bytes behind are left behind. -/
theorem Leaves.append {get : Reader ε α} {b left : Bytes} {a : α} (h : Leaves get b a left)
    (more : Bytes) : Leaves get (b ++ more) a (left ++ more) := by
  intro rest st
  rw [List.append_assoc, List.append_assoc, h (more ++ rest) st]

/-- A sequence whose second part only packs the answer. -/
theorem Leaves.bind_pure {m : Reader ε α} {f : α → β} {b left : Bytes} {a : α}
    (hm : Leaves m b a left) : Leaves (m >>= fun x => Pure.pure (f x)) b (f a) left := by
  intro rest st
  rw [run_bind_ok (hm rest st)]
  rfl

/-- What needs no stream reads nothing. -/
theorem Reads.lift {x : Except ε α} {a : α} (h : x = .ok a) : Reads (lift x) [] a := by
  intro rest st
  rw [h]
  rfl

/-- Raw bytes read back over a target of their length. -/
theorem reads_raw {target b : Bytes} (h : b.length = target.length) :
    Reads (readRaw target : Reader ε Bytes) b b := by
  intro rest st
  show (let (got, s') := Stream.readBlock ⟨b ++ rest, st⟩ target.length
    (.ok (got ++ target.drop got.length, s') : Except ε (Bytes × Stream))) = _
  rw [readBlock_append h]
  simp [h]

/-- A machine word reads back. -/
theorem reads_scalar [Scalar σ] (x : σ) : Reads (readScalar : Reader ε σ) (Scalar.put x) x := by
  intro rest st
  show (let (got, s') := Stream.readBlock ⟨Scalar.put x ++ rest, st⟩ (Scalar.width σ)
    (.ok (if got.length = Scalar.width σ then Scalar.ofNat (ofLE got) else Scalar.ofNat 0, s') :
      Except ε (σ × Stream))) = _
  rw [readBlock_append (Scalar.put_length x)]
  simp [Scalar.ofNat_ofLE_put]

/-- Reading is deterministic, so what one reader reads off two strings with
a common continuation is read once: the format it reads is prefix-free. -/
theorem Reads.unique {get : Reader ε α} {b b' s t : Bytes} {a a' : α}
    (h : Reads get b a) (h' : Reads get b' a') (heq : b ++ s = b' ++ t) :
    a = a' ∧ s = t := by
  have run := h.run s .ok
  rw [heq, h'.run t .ok] at run
  cases run
  exact ⟨rfl, rfl⟩

/-! ## Repetition -/

/-- Run a reader `n` times, answers in order. -/
def repeatRead (get : Reader ε α) : Nat → Reader ε (List α)
  | 0 => pure []
  | n + 1 => do
    let a ← get
    let as ← repeatRead get n
    return a :: as

/-- A run of written elements reads back, element by element. -/
theorem Reads.repeat {get : Reader ε α} {bs : List Bytes} {as : List α}
    (h : List.Forall₂ (Reads get) bs as) : Reads (repeatRead get as.length) bs.flatten as := by
  induction h with
  | nil => exact Reads.pure []
  | cons head _ ih => exact head.bind ih.bind_pure

/-! ## Going forward -/

/-- Where a reader may stand later: past a front part of the stream, and
with a passed end still passed. -/
def Stream.Reaches (s s' : Stream) : Prop :=
  s'.unread <:+ s.unread ∧ (s'.status = .ok → s.status = .ok)

theorem Stream.Reaches.refl (s : Stream) : s.Reaches s := ⟨List.suffix_refl _, id⟩

/-- One part of a run after the other. -/
theorem Stream.Reaches.trans {s₁ s₂ s₃ : Stream} (h : s₁.Reaches s₂) (h' : s₂.Reaches s₃) :
    s₁.Reaches s₃ :=
  ⟨h'.1.trans h.1, fun hok => h.2 (h'.2 hok)⟩

/-- On every stream shorter than `n`, `get` leaves a stream it can reach
going forward, or faults with one of `E`. -/
def AdvancesBelow (n : Nat) (E : ε → Prop) (get : Reader ε α) : Prop :=
  ∀ s : Stream, s.unread.length < n →
    match get.run s with
    | .ok (_, s') => s.Reaches s'
    | .error e => E e

/-- The same on every stream. With no fault in `E`, `get` always answers. -/
def Advances (E : ε → Prop) (get : Reader ε α) : Prop := ∀ n, AdvancesBelow n E get

variable {E E' : ε → Prop} {n : Nat}

/-- Where an answer leaves the stream. -/
theorem AdvancesBelow.reaches {get : Reader ε α} (h : AdvancesBelow n E get) {s s' : Stream}
    {a : α} (hlt : s.unread.length < n) (hrun : get.run s = .ok (a, s')) : s.Reaches s' := by
  have := h s hlt
  rwa [hrun] at this

/-- The faults there are, on a short stream. -/
theorem AdvancesBelow.fault {get : Reader ε α} (h : AdvancesBelow n E get) {s : Stream} {e : ε}
    (hlt : s.unread.length < n) (hrun : get.run s = .error e) : E e := by
  have := h s hlt
  rwa [hrun] at this

/-- The faults there are. -/
theorem Advances.fault {get : Reader ε α} (h : Advances E get) {s : Stream} {e : ε}
    (hrun : get.run s = .error e) : E e :=
  (h (s.unread.length + 1)).fault (Nat.lt_succ_self _) hrun

/-- Without a fault to run into, a reader answers on every stream. -/
theorem Advances.answers {get : Reader ε α} (h : Advances (fun _ => False) get) (s : Stream) :
    ∃ a s', get.run s = .ok (a, s') := by
  cases hrun : get.run s with
  | ok p => exact ⟨p.1, p.2, rfl⟩
  | error e => exact (h.fault hrun).elim

/-- More faults may be allowed. -/
theorem AdvancesBelow.imp {get : Reader ε α} (h : AdvancesBelow n E get)
    (himp : ∀ e, E e → E' e) : AdvancesBelow n E' get := by
  intro s hlt
  cases hrun : get.run s with
  | ok p => exact h.reaches hlt hrun
  | error e => exact himp e (h.fault hlt hrun)

theorem Advances.imp {get : Reader ε α} (h : Advances E get) (himp : ∀ e, E e → E' e) :
    Advances E' get := fun n => (h n).imp himp

/-- Both parts go forward on streams as short as that, since the first makes
them no longer. -/
theorem AdvancesBelow.bind {m : Reader ε α} {f : α → Reader ε β} (hm : AdvancesBelow n E m)
    (hf : ∀ a, AdvancesBelow n E (f a)) : AdvancesBelow n E (m >>= f) := by
  intro s hlt
  cases hrun : m.run s with
  | error e =>
    rw [run_bind_error hrun]
    exact hm.fault hlt hrun
  | ok p =>
    obtain ⟨a, s'⟩ := p
    have first := hm.reaches hlt hrun
    have hlt' : s'.unread.length < n := Nat.lt_of_le_of_lt first.1.length_le hlt
    rw [run_bind_ok hrun]
    cases hrun' : (f a).run s' with
    | error e => exact (hf a).fault hlt' hrun'
    | ok p' => exact first.trans ((hf a).reaches hlt' hrun')

theorem Advances.bind {m : Reader ε α} {f : α → Reader ε β} (hm : Advances E m)
    (hf : ∀ a, Advances E (f a)) : Advances E (m >>= f) :=
  fun n => (hm n).bind fun a => hf a n

theorem Advances.pure (a : α) : Advances E (pure a : Reader ε α) :=
  fun _ s _ => Stream.Reaches.refl s

/-- What needs no stream goes nowhere. -/
theorem Advances.lift {x : Except ε α} (h : ∀ e, x = .error e → E e) : Advances E (lift x) := by
  intro n s _
  cases x with
  | ok a => exact Stream.Reaches.refl s
  | error e => exact h e rfl

theorem AdvancesBelow.ite {p : Prop} [Decidable p] {m m' : Reader ε α}
    (h : AdvancesBelow n E m) (h' : AdvancesBelow n E m') :
    AdvancesBelow n E (if p then m else m') := by
  split
  · exact h
  · exact h'

theorem Advances.ite {p : Prop} [Decidable p] {m m' : Reader ε α} (h : Advances E m)
    (h' : Advances E m') : Advances E (if p then m else m') := fun n => (h n).ite (h' n)

/-- Taking a block off the front goes forward. -/
theorem readBlock_reaches (s : Stream) (n : Nat) : s.Reaches (s.readBlock n).2 := by
  unfold Stream.readBlock
  split
  · exact ⟨List.drop_suffix _ _, id⟩
  · exact ⟨List.nil_suffix, fun h => by cases h⟩

theorem advances_raw (target : Bytes) : Advances E (readRaw target : Reader ε Bytes) :=
  fun _ s _ => readBlock_reaches s _

theorem advances_scalar [Scalar σ] : Advances E (readScalar : Reader ε σ) :=
  fun _ s _ => readBlock_reaches s _

/-- Element by element. -/
theorem Advances.repeat {get : Reader ε α} (h : Advances E get) :
    ∀ n, Advances E (repeatRead get n)
  | 0 => Advances.pure []
  | n + 1 => h.bind fun _ => (Advances.repeat h n).bind fun _ => Advances.pure _

/-- Reading a word always answers, and one that is not zero was really there. -/
theorem readScalar_answers [Scalar σ] (s : Stream) :
    ∃ (x : σ) (s' : Stream), (readScalar : Reader ε σ).run s = .ok (x, s') ∧ s.Reaches s' ∧
      (x ≠ Scalar.ofNat 0 → s'.unread.length + Scalar.width σ = s.unread.length) := by
  by_cases hlt : s.unread.length < Scalar.width σ
  · exact ⟨_, _, readScalar_short hlt, ⟨List.nil_suffix, fun h => by cases h⟩,
      fun h => absurd rfl h⟩
  · refine ⟨_, _, rfl, readBlock_reaches s _, fun _ => ?_⟩
    rw [if_pos (Nat.le_of_not_lt hlt), List.length_drop]
    omega

/-! ## Agreeing -/

/-- Two readers that agree on every stream shorter than `n`. -/
def AgreeBelow (n : Nat) (get get' : Reader ε α) : Prop :=
  ∀ s : Stream, s.unread.length < n → get.run s = get'.run s

theorem AgreeBelow.refl (get : Reader ε α) : AgreeBelow n get get := fun _ _ => rfl

/-- The second parts only meet streams as short as the first, if that goes
forward. -/
theorem AgreeBelow.bind {m m' : Reader ε α} {f f' : α → Reader ε β} (hm : AgreeBelow n m m')
    (forward : AdvancesBelow n (fun _ => True) m) (hf : ∀ a, AgreeBelow n (f a) (f' a)) :
    AgreeBelow n (m >>= f) (m' >>= f') := by
  intro s hlt
  have first := hm s hlt
  cases hrun : m.run s with
  | error e => rw [run_bind_error hrun, run_bind_error (first ▸ hrun)]
  | ok p =>
    obtain ⟨a, s'⟩ := p
    have hlt' : s'.unread.length < n :=
      Nat.lt_of_le_of_lt (forward.reaches hlt hrun).1.length_le hlt
    rw [run_bind_ok hrun, run_bind_ok (first ▸ hrun)]
    exact hf a s' hlt'

/-- The same second part behind two readers that agree. -/
theorem AgreeBelow.bind_right {m m' : Reader ε α} (hm : AgreeBelow n m m') (f : α → Reader ε β) :
    AgreeBelow n (m >>= f) (m' >>= f) := by
  intro s hlt
  rw [StateT.run_bind, StateT.run_bind, hm s hlt]

theorem AgreeBelow.ite {p : Prop} [Decidable p] {m m' k k' : Reader ε α} (h : AgreeBelow n m m')
    (h' : AgreeBelow n k k') : AgreeBelow n (if p then m else k) (if p then m' else k') := by
  split
  · exact h
  · exact h'

/-- Agreeing on fewer streams. -/
theorem AgreeBelow.mono {get get' : Reader ε α} {k : Nat} (h : AgreeBelow n get get')
    (hle : k ≤ n) : AgreeBelow k get get' := fun s hlt => h s (Nat.lt_of_lt_of_le hlt hle)

/-! ## Taking bytes

What is read behind a reader that takes `k` bytes is read from a stream
that is `k` bytes shorter, or from one that has come to its end. -/

/-- `get` takes at least `k` bytes, unless the stream ends on the way. -/
def Takes (k : Nat) (get : Reader ε α) : Prop :=
  ∀ s a s', get.run s = .ok (a, s') →
    s'.unread = [] ∨ s'.unread.length + k ≤ s.unread.length

/-- A reader that goes forward takes no bytes, or more. -/
theorem Advances.takes {get : Reader ε α} (h : Advances (fun _ => True) get) : Takes 0 get :=
  fun s _ _ hrun => .inr ((h (s.unread.length + 1)).reaches (Nat.lt_succ_self _) hrun).1.length_le

/-- One part takes its bytes after the other, and once the stream has ended it
stays so. -/
theorem Takes.bind {j k : Nat} {m : Reader ε α} {f : α → Reader ε β} (hm : Takes j m)
    (hf : ∀ a, Takes k (f a)) : Takes (j + k) (m >>= f) := by
  intro s c s'' hrun
  obtain ⟨a, s', hrun, hrun'⟩ := run_bind_eq_ok.mp hrun
  rcases hf a s' c s'' hrun' with hend | hsecond
  · exact .inl hend
  rcases hm s a s' hrun with hend | hfirst
  · left
    rw [hend, List.length_nil] at hsecond
    exact List.length_eq_zero_iff.mp (by omega)
  · right
    omega

/-- A block is taken, or the stream ends. -/
theorem readBlock_takes (s : Stream) (n : Nat) :
    (s.readBlock n).2.unread = [] ∨ (s.readBlock n).2.unread.length + n ≤ s.unread.length := by
  unfold Stream.readBlock
  split
  · right
    rw [List.length_drop]
    omega
  · exact .inl rfl

theorem takes_scalar [Scalar σ] : Takes (Scalar.width σ) (readScalar : Reader ε σ) := by
  intro s _ _ hrun
  cases hrun
  exact readBlock_takes s _

theorem takes_raw (target : Bytes) : Takes target.length (readRaw target : Reader ε Bytes) := by
  intro s _ _ hrun
  cases hrun
  exact readBlock_takes s _

/-- Behind `k` bytes taken, a reader has only to advance on streams shorter
by `k`, the empty one among them. -/
theorem AdvancesBelow.behind {k : Nat} {m : Reader ε α} {f : α → Reader ε β} (takes : Takes k m)
    (hm : Advances E m) (hn : 0 < n) (hf : ∀ a, AdvancesBelow n E (f a)) :
    AdvancesBelow (n + k) E (m >>= f) := by
  intro s hlt
  cases hrun : m.run s with
  | error e =>
    rw [run_bind_error hrun]
    exact hm.fault hrun
  | ok p =>
    obtain ⟨a, s'⟩ := p
    have first := (hm (n + k)).reaches hlt hrun
    have hlt' : s'.unread.length < n := by
      rcases takes s a s' hrun with hend | hshort
      · rw [hend]
        exact hn
      · omega
    rw [run_bind_ok hrun]
    cases hrun' : (f a).run s' with
    | error e => exact (hf a).fault hlt' hrun'
    | ok p' => exact first.trans ((hf a).reaches hlt' hrun')

/-- Behind `k` bytes taken, readers have only to agree on streams shorter by
`k`, the empty one among them. -/
theorem AgreeBelow.behind {k : Nat} {m : Reader ε α} {f f' : α → Reader ε β}
    (takes : Takes k m) (hn : 0 < n) (hf : ∀ a, AgreeBelow n (f a) (f' a)) :
    AgreeBelow (n + k) (m >>= f) (m >>= f') := by
  intro s hlt
  cases hrun : m.run s with
  | error e => rw [run_bind_error hrun, run_bind_error hrun]
  | ok p =>
    obtain ⟨a, s'⟩ := p
    have hlt' : s'.unread.length < n := by
      rcases takes s a s' hrun with hend | hshort
      · rw [hend]
        exact hn
      · omega
    rw [run_bind_ok hrun, run_bind_ok hrun]
    exact hf a s' hlt'

end Wire
