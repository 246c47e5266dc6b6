import Qblock.Wire.Scan
import Qblock.Wire.Truncation

/-!
# Reading input that is not all there

What the status of a stream tells of an input that may go on. A reader that
never looks at the status has to keep two promises for it to tell anything:

- `Settles get get' P` — where `get` ends short of the end, the bytes it
  walked over are read by `get'`, to the same answer, whatever follows them,
  and every proper prefix of them exhausts `get'`;
- `Completes get get' P` — where `get` passes the end, the input can go on
  so that `get'` reads it.

Both are relations of two readers, so that they can be proved of a bounded
reader against the one without the bound, and of a reader against the same
one over other memory. Each is closed under sequencing, choice and
repetition, and together they make the status of the stream exact
(`Continues.statusExact`): the end is passed on the proper prefixes of what
is read, and on nothing else.
-/

namespace Wire

variable {ε α β σ : Type} {P : α → Prop} {Q : β → Prop}

/-- Where `get` ends short of the end, it has walked over bytes off which
`get'` reads the same answer, and on whose proper prefixes it passes the end. -/
def Settles (get get' : Reader ε α) (P : α → Prop) : Prop :=
  ∀ s a s', get.run s = .ok (a, s') → s'.status = .ok →
    s.status = .ok ∧ ∃ w, s.unread = w ++ s'.unread ∧ Reads get' w a ∧ Cut get' w P

/-- There is something that `get` reads. -/
def Readable (get : Reader ε α) (P : α → Prop) : Prop := ∃ w a, P a ∧ Reads get w a

/-- Where `get` passes the end, more bytes make an input that `get'` reads. -/
def Completes (get get' : Reader ε α) (P : α → Prop) : Prop :=
  ∀ t a s', get.run ⟨t, .ok⟩ = .ok (a, s') → s'.status = .readPastEnd →
    ∃ u c, P c ∧ Reads get' (t ++ u) c

/-! ## Enough bytes -/

/-- The first bytes of a stream are the writing of the word they spell. -/
theorem word_append_drop [Scalar σ] {b : Bytes} (h : Scalar.width σ ≤ b.length) :
    b = Scalar.put (Scalar.ofNat (ofLE (b.take (Scalar.width σ))) : σ) ++
      b.drop (Scalar.width σ) := by
  rw [Scalar.put_ofNat_ofLE (List.length_take_of_le h), List.take_append_drop]

/-- With enough bytes unread, a word is made of the first of them. -/
theorem readScalar_enough [Scalar σ] {s : Stream} (h : Scalar.width σ ≤ s.unread.length) :
    (readScalar : Reader ε σ).run s =
      .ok (Scalar.ofNat (ofLE (s.unread.take (Scalar.width σ))),
        ⟨s.unread.drop (Scalar.width σ), s.status⟩) := by
  have read := (reads_scalar (ε := ε)
    (Scalar.ofNat (ofLE (s.unread.take (Scalar.width σ))) : σ)).run
    (s.unread.drop (Scalar.width σ)) s.status
  rwa [← word_append_drop h] at read

/-- With enough bytes unread, an array is the first of them. -/
theorem readRaw_enough {s : Stream} {target : Bytes} (h : target.length ≤ s.unread.length) :
    (readRaw target : Reader ε Bytes).run s =
      .ok (s.unread.take target.length, ⟨s.unread.drop target.length, s.status⟩) := by
  have read := (reads_raw (ε := ε) (List.length_take_of_le h)).run
    (s.unread.drop target.length) s.status
  rwa [List.take_append_drop] at read

/-! ## Where the end is not reached -/

section Settles

variable {get get' m m' k k' : Reader ε α}

theorem Settles.pure (a : α) : Settles (pure a : Reader ε α) (pure a) P := by
  intro s _ _ hrun hok
  cases hrun
  exact ⟨hok, [], rfl, Reads.pure a, Cut.nil _⟩

/-- The second reader drains from what the first answers past the end. -/
theorem Settles.bind {f f' : α → Reader ε β} (hm : Settles m m' P)
    (hd : ∀ a, P a → Drains (f' a) Q) (hf : ∀ a, Settles (f a) (f' a) Q) :
    Settles (m >>= f) (m' >>= f') Q := by
  intro s c s'' hrun hok
  obtain ⟨a, s', ha, hc⟩ := run_bind_eq_ok.mp hrun
  obtain ⟨hs', w₂, hw₂, read₂, cut₂⟩ := hf a s' c s'' hc hok
  obtain ⟨hs, w₁, hw₁, read₁, cut₁⟩ := hm s a s' ha hs'
  exact ⟨hs, w₁ ++ w₂, by rw [hw₁, hw₂, List.append_assoc], read₁.bind read₂,
    Cut.bind read₁ cut₁ hd cut₂⟩

theorem Settles.ite {p : Prop} [Decidable p] (h : Settles m m' P) (h' : Settles k k' P) :
    Settles (if p then m else k) (if p then m' else k') P := by
  split
  · exact h
  · exact h'

/-- A word that was there was read off its own bytes. -/
theorem settles_scalar [Scalar σ] :
    Settles (readScalar : Reader ε σ) readScalar (· = Scalar.ofNat 0) := by
  intro s x s' hrun hok
  by_cases hlt : s.unread.length < Scalar.width σ
  · rw [readScalar_short hlt] at hrun
    cases hrun
    cases hok
  · rw [readScalar_enough (Nat.le_of_not_lt hlt)] at hrun
    cases hrun
    exact ⟨hok, _, word_append_drop (Nat.le_of_not_lt hlt), reads_scalar _, cut_scalar _⟩

/-- So were raw bytes, whatever they were read over. -/
theorem settles_raw {target target' : Bytes} (h : target.length = target'.length) :
    Settles (readRaw target : Reader ε Bytes) (readRaw target') Anything := by
  intro s b s' hrun hok
  by_cases hlt : s.unread.length < target.length
  · rw [readRaw_short hlt] at hrun
    cases hrun
    cases hok
  · have length := List.length_take_of_le (Nat.le_of_not_lt hlt)
    rw [readRaw_enough (Nat.le_of_not_lt hlt)] at hrun
    cases hrun
    exact ⟨hok, _, (List.take_append_drop _ _).symm, reads_raw (length.trans h),
      cut_raw (length.trans h)⟩

/-- Elements that were all there were each read off bytes of their own. -/
theorem Settles.pieces (h : Settles get get' P) :
    ∀ (n : Nat) (s : Stream) (as : List α) (s' : Stream),
      (repeatRead get n).run s = .ok (as, s') → s'.status = .ok →
      s.status = .ok ∧ as.length = n ∧ ∃ bs : List Bytes, s.unread = bs.flatten ++ s'.unread ∧
        List.Forall₂ (Reads get') bs as ∧ ∀ b ∈ bs, Cut get' b P
  | 0, s, as, s', hrun, hok => by
    cases hrun
    exact ⟨hok, rfl, [], rfl, .nil, nofun⟩
  | n + 1, s, as, s', hrun, hok => by
    obtain ⟨a, s₁, ha, hrest⟩ := run_bind_eq_ok.mp hrun
    obtain ⟨as', _, has, hpure⟩ := run_bind_eq_ok.mp hrest
    cases hpure
    obtain ⟨hs₁, length, bs, hbs, reads, cuts⟩ := h.pieces n s₁ as' s' has hok
    obtain ⟨hs, w, hw, read, cut⟩ := h s a s₁ ha hs₁
    exact ⟨hs, congrArg (· + 1) length, w :: bs,
      by rw [hw, hbs, List.flatten_cons, List.append_assoc], .cons read reads,
      List.forall_mem_cons.mpr ⟨cut, cuts⟩⟩

end Settles

/-- A cut run of elements holds whole elements, none of them the last, a cut
one and drained ones. -/
theorem Cut.repeat_dropLast {get : Reader ε α} {bs : List Bytes} {as : List α}
    (hr : List.Forall₂ (Reads get) bs as) (hc : ∀ b ∈ bs, Cut get b P)
    (hp : ∀ a ∈ as.dropLast, P a) (hd : Drains get P) :
    Cut (repeatRead get as.length) bs.flatten fun as' => ∀ a ∈ as', P a := by
  induction hr with
  | nil => exact Cut.nil _
  | @cons b a bs as head tail ih =>
    have drained : ∀ x, P x → Drains (repeatRead get as.length >>= fun xs => pure (x :: xs))
        fun as' => ∀ a ∈ as', P a := fun x hx =>
      (Drains.repeat hd as.length).bind fun _ hxs =>
        Drains.pure (List.forall_mem_cons.mpr ⟨hx, hxs⟩)
    refine Cut.bind head (hc b List.mem_cons_self) drained ?_
    cases tail with
    | nil => exact Cut.nil _
    | @cons b' a' bs as head' tail' =>
      have rest := ih (fun c hmem => hc c (List.mem_cons_of_mem _ hmem))
        fun x hx => hp x (List.mem_cons_of_mem _ hx)
      exact rest.bind_pure fun _ hxs =>
        List.forall_mem_cons.mpr ⟨hp a List.mem_cons_self, hxs⟩

/-! ## Where the end is passed -/

section Readable

variable {get m k : Reader ε α}

theorem Readable.pure {a : α} (h : P a) : Readable (pure a : Reader ε α) P :=
  ⟨[], a, h, Reads.pure a⟩

/-- The second reader goes on from what the first may answer. -/
theorem Readable.bind {f : α → Reader ε β} (hm : Readable m P)
    (hf : ∀ a, P a → Readable (f a) Q) : Readable (m >>= f) Q := by
  obtain ⟨w, a, ha, read⟩ := hm
  obtain ⟨w', c, hc, read'⟩ := hf a ha
  exact ⟨w ++ w', c, hc, read.bind read'⟩

theorem readable_scalar [Scalar σ] : Readable (readScalar : Reader ε σ) Anything :=
  ⟨_, Scalar.ofNat 0, trivial, reads_scalar _⟩

theorem readable_raw (target : Bytes) : Readable (readRaw target : Reader ε Bytes) Anything :=
  ⟨target, target, trivial, reads_raw rfl⟩

theorem Readable.repeat (h : Readable get P) :
    ∀ n, Readable (repeatRead get n) fun as => ∀ a ∈ as, P a
  | 0 => Readable.pure nofun
  | n + 1 => h.bind fun _ ha => (Readable.repeat h n).bind fun _ has =>
      Readable.pure (List.forall_mem_cons.mpr ⟨ha, has⟩)

end Readable

section Completes

variable {get get' m m' k k' : Reader ε α}

theorem Completes.pure (a : α) : Completes (pure a : Reader ε α) get' P := by
  intro t _ _ hrun hend
  cases hrun
  cases hend

theorem Completes.ite {p : Prop} [Decidable p] (h : Completes m m' P) (h' : Completes k k' P) :
    Completes (if p then m else k) (if p then m' else k') P := by
  split
  · exact h
  · exact h'

/-- Passed in the first part, the end leaves the second part to something it
reads; passed in the second part, it does so behind what the first one read. -/
theorem Completes.bind {L : α → Prop} {f f' : α → Reader ε β} (hl : Settles m m' L)
    (hm : Completes m m' P) (hr : ∀ a, P a → Readable (f' a) Q)
    (hf : ∀ a, Completes (f a) (f' a) Q) : Completes (m >>= f) (m' >>= f') Q := by
  intro t c s'' hrun hend
  obtain ⟨a, s', ha, hc⟩ := run_bind_eq_ok.mp hrun
  cases hst : s'.status with
  | ok =>
    obtain ⟨-, w, hw, read, -⟩ := hl _ _ _ ha hst
    have split : s' = ⟨s'.unread, .ok⟩ := by rw [← hst]
    rw [split] at hc
    obtain ⟨u, d, hd, read'⟩ := hf a _ _ _ hc hend
    simp only at hw
    exact ⟨u, d, hd, by rw [hw, List.append_assoc]; exact read.bind read'⟩
  | readPastEnd =>
    obtain ⟨u, a', ha', read⟩ := hm t a s' ha hst
    obtain ⟨w, d, hd, read'⟩ := hr a' ha'
    exact ⟨u ++ w, d, hd, by rw [← List.append_assoc]; exact read.bind read'⟩

/-- Bytes that were too few can be made enough. -/
theorem exists_append_length {t : Bytes} {n : Nat} (h : t.length ≤ n) :
    ∃ u, (t ++ u).length = n :=
  ⟨List.replicate (n - t.length) 0, by rw [List.length_append, List.length_replicate]; omega⟩

theorem completes_scalar [Scalar σ] : Completes (readScalar : Reader ε σ) readScalar Anything := by
  intro t x s' hrun hend
  by_cases hlt : t.length < Scalar.width σ
  · obtain ⟨u, length⟩ := exists_append_length (Nat.le_of_lt hlt)
    refine ⟨u, Scalar.ofNat (ofLE (t ++ u)), trivial, ?_⟩
    have read := reads_scalar (ε := ε) (Scalar.ofNat (ofLE (t ++ u)) : σ)
    rwa [Scalar.put_ofNat_ofLE length] at read
  · rw [readScalar_enough (Nat.le_of_not_lt hlt)] at hrun
    cases hrun
    cases hend

/-- An array that was cut is completed by any bytes of the number missing. -/
theorem completes_raw {target target' : Bytes} (h : target.length = target'.length) :
    Completes (readRaw target : Reader ε Bytes) (readRaw target') Anything := by
  intro t b s' hrun hend
  by_cases hlt : t.length < target.length
  · obtain ⟨u, length⟩ := exists_append_length (Nat.le_of_lt hlt)
    exact ⟨u, t ++ u, trivial, reads_raw (length.trans h)⟩
  · rw [readRaw_enough (Nat.le_of_not_lt hlt)] at hrun
    cases hrun
    cases hend

/-- An object behind a tag of one byte: passed in the tag, the end leaves
everything open. -/
theorem Completes.tagged {f f' : UInt8 → Reader ε β} (hr : Readable (readScalar >>= f') Q)
    (hf : ∀ tag, Completes (f tag) (f' tag) Q) :
    Completes (readScalar >>= f) (readScalar >>= f') Q := by
  intro t c s'' hrun hend
  cases t with
  | nil => exact hr
  | cons b t =>
    have there : (readScalar : Reader ε UInt8).run ⟨b :: t, .ok⟩ =
        .ok (Scalar.ofNat (ofLE [b]), ⟨t, .ok⟩) := readScalar_enough (Nat.le_add_left 1 _)
    rw [run_bind_ok there] at hrun
    obtain ⟨u, d, hd, read⟩ := hf _ t c s'' hrun hend
    have tag := (reads_scalar (ε := ε) (Scalar.ofNat (ofLE [b]) : UInt8)).bind read
    rw [Scalar.put_ofNat_ofLE rfl] at tag
    exact ⟨u, d, hd, tag⟩

/-- Passed in a run of elements, the end leaves a run that holds whole
elements, none of them the last, a completed one and others. -/
theorem Completes.repeat {L : α → Prop} (hl : Settles get get' L) (h : Completes get get' P)
    (hr : Readable get' P) : ∀ (n : Nat) (t : Bytes) (as : List α) (s' : Stream),
      (repeatRead get n).run ⟨t, .ok⟩ = .ok (as, s') → s'.status = .readPastEnd →
      ∃ u cs, (∀ c ∈ cs, c ∈ as.dropLast ∨ P c) ∧ Reads (repeatRead get' n) (t ++ u) cs
  | 0, t, as, s', hrun, hend => by
    cases hrun
    cases hend
  | n + 1, t, as, s', hrun, hend => by
    obtain ⟨a, s₁, ha, hrest⟩ := run_bind_eq_ok.mp hrun
    obtain ⟨as', _, has, hpure⟩ := run_bind_eq_ok.mp hrest
    cases hpure
    cases hst : s₁.status with
    | readPastEnd =>
      obtain ⟨u, c, hc, read⟩ := h t a s₁ ha hst
      obtain ⟨w, cs, hcs, reads⟩ := hr.repeat n
      refine ⟨u ++ w, c :: cs, List.forall_mem_cons.mpr ⟨.inr hc, fun x hx => .inr (hcs x hx)⟩, ?_⟩
      rw [← List.append_assoc]
      exact read.bind reads.bind_pure
    | ok =>
      obtain ⟨-, w, hw, read, -⟩ := hl _ _ _ ha hst
      have split : s₁ = ⟨s₁.unread, .ok⟩ := by rw [← hst]
      rw [split] at has
      obtain ⟨u, cs, hcs, reads⟩ := Completes.repeat hl h hr n _ as' s' has hend
      -- the end was passed behind the first element, so it is not the last
      have more : as' ≠ [] := by
        intro hnil
        have length := (Always.repeat (P := Anything) (fun _ _ _ _ => trivial) n _ _ _ has).1
        rw [hnil] at length
        subst length
        cases has
        cases hend
      simp only at hw
      refine ⟨u, a :: cs, ?_, by rw [hw, List.append_assoc]; exact read.bind reads.bind_pure⟩
      rw [List.dropLast_cons_of_ne_nil more]
      refine List.forall_mem_cons.mpr ⟨.inl List.mem_cons_self, fun c hc => ?_⟩
      exact (hcs c hc).imp_left (List.mem_cons_of_mem a)

end Completes

/-! ## Both -/

/-- `get` settles and completes what `get'` reads. -/
structure Continues (get get' : Reader ε α) (P : α → Prop) : Prop where
  settles : Settles get get' P
  completes : Completes get get' P

/-- So it does, and `get'` reads something and goes on past the end. -/
structure Resumes (get get' : Reader ε α) (P : α → Prop) : Prop extends
    Continues get get' P where
  drains : Drains get' P
  readable : Readable get' P

section Resumes

variable {get get' m m' k k' : Reader ε α}

theorem Continues.pure (a : α) : Continues (pure a : Reader ε α) (pure a) P :=
  ⟨Settles.pure a, Completes.pure a⟩

theorem Continues.ite {p : Prop} [Decidable p] (h : Continues m m' P) (h' : Continues k k' P) :
    Continues (if p then m else k) (if p then m' else k') P :=
  ⟨h.settles.ite h'.settles, h.completes.ite h'.completes⟩

theorem Resumes.pure {a : α} (h : P a) : Resumes (pure a : Reader ε α) (pure a) P :=
  ⟨Continues.pure a, Drains.pure h, Readable.pure h⟩

/-- The second reader resumes from what the first answers past the end too. -/
theorem Resumes.bind {f f' : α → Reader ε β} (hm : Resumes m m' P)
    (hf : ∀ a, P a → Resumes (f a) (f' a) Q) (rest : ∀ a, Continues (f a) (f' a) Q) :
    Resumes (m >>= f) (m' >>= f') Q where
  settles := hm.settles.bind (fun a ha => (hf a ha).drains) fun a => (rest a).settles
  completes := Completes.bind hm.settles hm.completes (fun a ha => (hf a ha).readable) fun a =>
    (rest a).completes
  drains := hm.drains.bind fun a ha => (hf a ha).drains
  readable := hm.readable.bind fun a ha => (hf a ha).readable

/-- One part after the other, whatever the first one answers. -/
theorem Resumes.then {f f' : α → Reader ε β} (hm : Resumes m m' Anything)
    (hf : ∀ a, Resumes (f a) (f' a) Q) : Resumes (m >>= f) (m' >>= f') Q :=
  hm.bind (fun a _ => hf a) fun a => (hf a).toContinues

theorem Resumes.ite {p : Prop} [Decidable p] (h : Resumes m m' P) (h' : Resumes k k' P) :
    Resumes (if p then m else k) (if p then m' else k') P := by
  split
  · exact h
  · exact h'

/-- Packing what was read up changes nothing. -/
theorem Resumes.packed {f : α → β} (h : Resumes get get' Anything) :
    Resumes (get >>= fun x => Pure.pure (f x)) (get' >>= fun x => Pure.pure (f x)) Anything :=
  h.then fun _ => Resumes.pure trivial

theorem Resumes.packed_some (h : Resumes get get' Anything) :
    Resumes (get >>= fun x => Pure.pure (some x)) (get' >>= fun x => Pure.pure (some x))
      (·.isSome) :=
  h.then fun _ => Resumes.pure rfl

theorem Resumes.scalar [Scalar σ] : Resumes (readScalar : Reader ε σ) readScalar Anything where
  settles := fun s a s' hrun hok => by
    obtain ⟨hs, w, hw, read, cut⟩ := settles_scalar s a s' hrun hok
    exact ⟨hs, w, hw, read, cut.anything⟩
  completes := completes_scalar
  drains := drains_scalar.anything
  readable := readable_scalar

theorem Resumes.raw {target target' : Bytes} (h : target.length = target'.length) :
    Resumes (readRaw target : Reader ε Bytes) (readRaw target') Anything :=
  ⟨⟨settles_raw h, completes_raw h⟩, drains_raw _, readable_raw _⟩

/-- An object behind a tag of one byte, for which the tag zero stands where
the end is passed. -/
theorem Resumes.tagged {f f' : UInt8 → Reader ε β} (zero : Resumes (f 0) (f' 0) Q)
    (hf : ∀ tag, Continues (f tag) (f' tag) Q) :
    Resumes (readScalar >>= f) (readScalar >>= f') Q := by
  have readable : Readable (readScalar >>= f') Q := by
    obtain ⟨w, c, hc, read⟩ := zero.readable
    exact ⟨_, c, hc, (reads_scalar (0 : UInt8)).bind read⟩
  exact ⟨⟨settles_scalar.bind (fun _ hzero => hzero ▸ zero.drains) fun tag => (hf tag).settles,
    Completes.tagged readable fun tag => (hf tag).completes⟩,
    drains_scalar.bind fun _ hzero => hzero ▸ zero.drains, readable⟩

theorem Resumes.repeat (h : Resumes get get' Anything) (n : Nat) :
    Resumes (repeatRead get n) (repeatRead get' n) Anything where
  settles := by
    intro s as s' hrun hok
    obtain ⟨hs, rfl, bs, hbs, reads, cuts⟩ := h.settles.pieces n s as s' hrun hok
    exact ⟨hs, bs.flatten, hbs, Reads.repeat reads,
      (Cut.repeat reads cuts (fun _ _ => trivial) h.drains).anything⟩
  completes := by
    intro t as s' hrun hend
    obtain ⟨u, cs, -, reads⟩ :=
      Completes.repeat h.settles h.completes h.readable n t as s' hrun hend
    exact ⟨u, cs, trivial, reads⟩
  drains := (h.drains.repeat n).anything
  readable := by
    obtain ⟨w, as, -, read⟩ := h.readable.repeat n
    exact ⟨w, as, trivial, read⟩

end Resumes

/-! ## What the status tells -/

section Status

variable {get : Reader ε α}

/-- The input is read, to its last byte and no further. -/
def Accepts (get : Reader ε α) (w : Bytes) : Prop := ∃ a, get.run ⟨w, .ok⟩ = .ok (a, ⟨[], .ok⟩)

/-- What is read back is accepted. -/
theorem accepts_of_reads {w : Bytes} {a : α} (h : Reads get w a) : Accepts get w :=
  ⟨a, by have run := h.run [] .ok; rwa [List.append_nil] at run⟩

/-- A run with the status `ok` is a value read back, with what is cut of it. -/
theorem Settles.reads (h : Settles get get P) {w rest : Bytes} {a : α}
    (hrun : get.run ⟨w, .ok⟩ = .ok (a, ⟨rest, .ok⟩)) :
    ∃ v, w = v ++ rest ∧ Reads get v a ∧ Cut get v P := (h _ _ _ hrun rfl).2

theorem Settles.reads_accepted (h : Settles get get P) {w : Bytes} (hw : Accepts get w) :
    ∃ a, Reads get w a ∧ Cut get w P := by
  obtain ⟨a, hrun⟩ := hw
  obtain ⟨v, heq, read, cut⟩ := h.reads hrun
  rw [List.append_nil] at heq
  exact ⟨a, heq ▸ read, heq ▸ cut⟩

/-- No accepted input is a proper prefix of another. -/
theorem Settles.accepts_prefix (h : Settles get get P) {v w : Bytes} (hv : Accepts get v)
    (hw : Accepts get w) (hpre : v <+: w) : v = w := by
  obtain ⟨t, rfl⟩ := hpre
  obtain ⟨a, readv, -⟩ := h.reads_accepted hv
  obtain ⟨c, readw, -⟩ := h.reads_accepted hw
  have rest := (readw.unique readv (s := []) (t := t) (List.append_nil _)).2
  rw [← rest, List.append_nil]

/-- Reading ends short of the end exactly on the inputs that start with an
accepted one. -/
theorem Settles.status_ok_iff (h : Settles get get P) (bs : Bytes) :
    (∃ a rest, get.run ⟨bs, .ok⟩ = .ok (a, ⟨rest, .ok⟩)) ↔ ∃ w, w <+: bs ∧ Accepts get w := by
  constructor
  · intro hrun
    obtain ⟨a, rest, hrun⟩ := hrun
    obtain ⟨v, rfl, read, -⟩ := h.reads hrun
    exact ⟨v, List.prefix_append _ _, accepts_of_reads read⟩
  · intro hw
    obtain ⟨w, ⟨t, rfl⟩, hw⟩ := hw
    obtain ⟨a, read, -⟩ := h.reads_accepted hw
    exact ⟨a, t, read.run t .ok⟩

/-- Reading passes the end exactly on the proper prefixes of accepted inputs. -/
theorem Continues.status_readPastEnd_iff (h : Continues get get P)
    (bs : Bytes) :
    (∃ a rest, get.run ⟨bs, .ok⟩ = .ok (a, ⟨rest, .readPastEnd⟩)) ↔
      ∃ w, bs <+: w ∧ bs ≠ w ∧ Accepts get w := by
  constructor
  · intro hrun
    obtain ⟨a, rest, hrun⟩ := hrun
    obtain ⟨u, c, -, read⟩ := h.completes bs a _ hrun rfl
    refine ⟨bs ++ u, List.prefix_append _ _, fun heq => ?_, accepts_of_reads read⟩
    obtain ⟨c', hrun'⟩ := accepts_of_reads read
    rw [← heq, hrun] at hrun'
    cases hrun'
  · intro hw
    obtain ⟨w, hpre, hne, hw⟩ := hw
    obtain ⟨-, -, cut⟩ := h.settles.reads_accepted hw
    obtain ⟨a, -, hrun⟩ := cut bs hpre hne .ok
    exact ⟨a, [], hrun⟩

/-- Reading faults exactly on the inputs that no accepted one goes on from
and that go on from none. -/
theorem Continues.fault_iff (h : Continues get get P) (bs : Bytes) :
    (∃ e, get.run ⟨bs, .ok⟩ = .error e) ↔
      ∀ w, Accepts get w → ¬ w <+: bs ∧ ¬ bs <+: w := by
  constructor
  · intro hrun w hw
    obtain ⟨e, hrun⟩ := hrun
    have short : ¬ w <+: bs := fun hpre => by
      obtain ⟨a, rest, hrun'⟩ := (h.settles.status_ok_iff bs).mpr ⟨w, hpre, hw⟩
      rw [hrun] at hrun'
      cases hrun'
    refine ⟨short, fun hpre => ?_⟩
    by_cases heq : bs = w
    · exact short (heq ▸ List.prefix_refl _)
    · obtain ⟨a, rest, hrun'⟩ := (h.status_readPastEnd_iff bs).mpr ⟨w, hpre, heq, hw⟩
      rw [hrun] at hrun'
      cases hrun'
  · intro none
    cases hrun : get.run ⟨bs, .ok⟩ with
    | error e => exact ⟨e, rfl⟩
    | ok p =>
      obtain ⟨a, rest, st⟩ := p
      cases st with
      | ok =>
        obtain ⟨w, hpre, hw⟩ := (h.settles.status_ok_iff bs).mp ⟨a, rest, hrun⟩
        exact absurd hpre (none w hw).1
      | readPastEnd =>
        obtain ⟨w, hpre, -, hw⟩ := (h.status_readPastEnd_iff bs).mp ⟨a, rest, hrun⟩
        exact absurd hpre (none w hw).2

/-- The status of the stream is exact: it is Ok on the inputs that start
with an accepted one, `ReadPastEnd` on those that are cut short of one, and
a fault is left for those that are neither. -/
structure StatusExact (get : Reader ε α) : Prop where
  ok_iff : ∀ bs, (∃ a rest, get.run ⟨bs, .ok⟩ = .ok (a, ⟨rest, .ok⟩)) ↔
    ∃ w, w <+: bs ∧ Accepts get w
  readPastEnd_iff : ∀ bs, (∃ a rest, get.run ⟨bs, .ok⟩ = .ok (a, ⟨rest, .readPastEnd⟩)) ↔
    ∃ w, bs <+: w ∧ bs ≠ w ∧ Accepts get w
  fault_iff : ∀ bs, (∃ e, get.run ⟨bs, .ok⟩ = .error e) ↔
    ∀ w, Accepts get w → ¬ w <+: bs ∧ ¬ bs <+: w
  prefix_free : ∀ v w, Accepts get v → Accepts get w → v <+: w → v = w

/-- The three ends of a run tell the three kinds of input apart. -/
theorem Continues.statusExact (h : Continues get get P) : StatusExact get :=
  ⟨h.settles.status_ok_iff, h.status_readPastEnd_iff, h.fault_iff,
    fun _ _ => h.settles.accepts_prefix⟩

end Status

end Wire
