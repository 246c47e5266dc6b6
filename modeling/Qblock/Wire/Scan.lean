import Qblock.Wire.Reader

/-!
# Scanning ahead of a reader

A scanner walks over a stream without building anything and rejects what it
does not like. `Judges get scan good spells bad` is what it takes for its
verdict to be about a reader: where the scanner accepts, the reader answers
something `good`, from the same bytes, and unless the end was passed those
bytes are what the answer `spells`; where it rejects, whatever the reader
may answer is `bad`.

The relation is closed under sequencing, choice and repetition. In
`Judges.bind` the bytes of the first part stand in front of those of the
second, and a bad first answer has to spoil every later one, which
`Always` says.
-/

namespace Wire

variable {ε α β γ δ σ : Type}

/-- A computation that walks over a stream and may reject it. -/
abbrev Scanner := Reader Unit

/-- The scanner that rejects. -/
def reject : Scanner β := lift (.error ())

/-- Walk over `n` bytes. -/
def skip (n : Nat) : Scanner Unit := do
  let _ ← readRaw (List.replicate n 0)
  return ()

/-- A scanner, with the number of bytes it walked over. -/
def measured (scan : Scanner β) : Scanner (β × Nat) := do
  let before ← get
  let b ← scan
  let after ← get
  return (b, before.unread.length - after.unread.length)

/-! ## Whatever is answered -/

/-- Whatever `get` answers satisfies `P`. -/
def Always (get : Reader ε α) (P : α → Prop) : Prop :=
  ∀ s a s', get.run s = .ok (a, s') → P a

theorem Always.pure {P : α → Prop} {a : α} (h : P a) : Always (pure a : Reader ε α) P := by
  rintro s _ _ ⟨⟩
  exact h

/-- A fact about the answers of the first reader may be used of the second. -/
theorem Always.bind {P : α → Prop} {Q : β → Prop} {m : Reader ε α} {f : α → Reader ε β}
    (hm : Always m P) (hf : ∀ a, P a → Always (f a) Q) : Always (m >>= f) Q := by
  intro s c s'' h
  obtain ⟨a, s', ha, hc⟩ := run_bind_eq_ok.mp h
  exact hf a (hm s a s' ha) s' c s'' hc

/-- Whatever came first. -/
theorem Always.behind {Q : β → Prop} {m : Reader ε α} {f : α → Reader ε β}
    (hf : ∀ a, Always (f a) Q) : Always (m >>= f) Q :=
  Always.bind (P := fun _ => True) (fun _ _ _ _ => trivial) fun a _ => hf a

theorem Always.ite {p : Prop} [Decidable p] {P : α → Prop} {m m' : Reader ε α}
    (h : p → Always m P) (h' : ¬ p → Always m' P) : Always (if p then m else m') P := by
  split
  · next hp => exact h hp
  · next hp => exact h' hp

theorem Always.lift {x : Except ε α} {P : α → Prop} (h : ∀ a, x = .ok a → P a) :
    Always (lift x) P := by
  intro s a s' hrun
  exact h a (run_lift_eq_ok.mp hrun).1

theorem Always.repeat {get : Reader ε α} {P : α → Prop} (h : Always get P) : ∀ n,
    Always (repeatRead get n) fun as => as.length = n ∧ ∀ a ∈ as, P a
  | 0 => Always.pure ⟨rfl, nofun⟩
  | n + 1 => h.bind fun _ ha => (Always.repeat h n).bind fun _ has =>
    Always.pure ⟨congrArg (· + 1) has.1, List.forall_mem_cons.mpr ⟨ha, has.2⟩⟩

/-! ## Judging -/

/-- The verdict of `scan` is about the answers of `get`. -/
def Judges (get : Reader ε α) (scan : Scanner β) (good : α → β → Prop)
    (spells : α → β → Bytes → Prop) (bad : α → Prop) : Prop :=
  ∀ s : Stream, match scan.run s with
    | .ok (b, s') => ∃ a, get.run s = .ok (a, s') ∧ good a b ∧
        (s'.status = .ok → s.status = .ok ∧ ∃ w, spells a b w ∧ s.unread = w ++ s'.unread)
    | .error _ => ∀ a s', get.run s = .ok (a, s') → bad a

/-- No answer is bad: the scanner never rejects. -/
abbrev Never : α → Prop := fun _ => False

section Judges

variable {get : Reader ε α} {scan : Scanner β} {good good' : α → β → Prop}
  {spells spells' : α → β → Bytes → Prop} {bad bad' : α → Prop}

/-- What is accepted is read, to the same place. -/
theorem Judges.accepts (h : Judges get scan good spells bad) {s s' : Stream} {b : β}
    (hscan : scan.run s = .ok (b, s')) :
    ∃ a, get.run s = .ok (a, s') ∧ good a b ∧
      (s'.status = .ok → s.status = .ok ∧ ∃ w, spells a b w ∧ s.unread = w ++ s'.unread) := by
  have := h s
  rwa [hscan] at this

/-- What is rejected but read is bad. -/
theorem Judges.rejects (h : Judges get scan good spells bad) {s s' : Stream} {a : α} {e : Unit}
    (hscan : scan.run s = .error e) (hget : get.run s = .ok (a, s')) : bad a := by
  have := h s
  rw [hscan] at this
  exact this a s' hget

/-- Good and bad may be weakened. -/
theorem Judges.imp (h : Judges get scan good spells bad) (hgood : ∀ a b, good a b → good' a b)
    (hspells : ∀ a b w, good a b → spells a b w → spells' a b w) (hbad : ∀ a, bad a → bad' a) :
    Judges get scan good' spells' bad' := by
  intro s
  cases hscan : scan.run s with
  | ok p =>
    obtain ⟨a, ha, hab, hok⟩ := h.accepts hscan
    refine ⟨a, ha, hgood a _ hab, fun hst => ?_⟩
    obtain ⟨hs, w, hw, heq⟩ := hok hst
    exact ⟨hs, w, hspells a _ w hab hw, heq⟩
  | error e => exact fun a s' hget => hbad a (h.rejects hscan hget)

theorem Judges.pure {a : α} {b : β} (hgood : good a b) (hspells : spells a b []) :
    Judges (pure a : Reader ε α) (pure b) good spells bad :=
  fun _ => ⟨a, rfl, hgood, fun hst => ⟨hst, [], hspells, rfl⟩⟩

/-- Rejecting is sound where everything read is bad. -/
theorem Judges.reject (h : Always get bad) : Judges get (reject : Scanner β) good spells bad :=
  fun s => h s

theorem Judges.ite {p : Prop} [Decidable p] {get' : Reader ε α} {scan' : Scanner β}
    (h : p → Judges get scan good spells bad) (h' : ¬ p → Judges get' scan' good spells bad) :
    Judges (if p then get else get') (if p then scan else scan') good spells bad := by
  split
  · next hp => exact h hp
  · next hp => exact h' hp

/-- One part after the other. -/
theorem Judges.bind {f : α → Reader ε γ} {scanf : β → Scanner δ} {goodf : γ → δ → Prop}
    {spellsf : γ → δ → Bytes → Prop} {badf : γ → Prop} (hm : Judges get scan good spells bad)
    (hf : ∀ a b, good a b → Judges (f a) (scanf b) goodf
      (fun c d w => ∀ w₁, spells a b w₁ → spellsf c d (w₁ ++ w)) badf)
    (spoils : ∀ a, bad a → Always (f a) badf) :
    Judges (get >>= f) (scan >>= scanf) goodf spellsf badf := by
  intro s
  cases hscan : scan.run s with
  | error e =>
    rw [run_bind_error hscan]
    intro c s'' hget
    obtain ⟨a, s', ha, hc⟩ := run_bind_eq_ok.mp hget
    exact spoils a (hm.rejects hscan ha) s' c s'' hc
  | ok p =>
    obtain ⟨b, s'⟩ := p
    obtain ⟨a, ha, hab, hok⟩ := hm.accepts hscan
    rw [run_bind_ok hscan, run_bind_ok ha]
    cases hscanf : (scanf b).run s' with
    | error e => exact fun c s'' hc => (hf a b hab).rejects hscanf hc
    | ok q =>
      obtain ⟨d, s''⟩ := q
      obtain ⟨c, hc, hcd, hok'⟩ := (hf a b hab).accepts hscanf
      refine ⟨c, hc, hcd, fun hst => ?_⟩
      obtain ⟨hs', w₂, hw₂, heq'⟩ := hok' hst
      obtain ⟨hs, w₁, hw₁, heq⟩ := hok hs'
      exact ⟨hs, w₁ ++ w₂, hw₂ w₁ hw₁, by rw [heq, heq', List.append_assoc]⟩

/-- A first part that is never rejected. -/
theorem Judges.then {f : α → Reader ε γ} {scanf : β → Scanner δ} {goodf : γ → δ → Prop}
    {spellsf : γ → δ → Bytes → Prop} {badf : γ → Prop} (hm : Judges get scan good spells Never)
    (hf : ∀ a b, good a b → Judges (f a) (scanf b) goodf
      (fun c d w => ∀ w₁, spells a b w₁ → spellsf c d (w₁ ++ w)) badf) :
    Judges (get >>= f) (scan >>= scanf) goodf spellsf badf :=
  hm.bind hf fun _ => False.elim

theorem Judges.lift {x : Except ε α} {r : Except Unit β}
    (h : match r with
      | .ok b => ∃ a, x = .ok a ∧ good a b ∧ spells a b []
      | .error _ => ∀ a, x = .ok a → bad a) : Judges (lift x) (lift r) good spells bad := by
  intro s
  cases r with
  | ok b =>
    obtain ⟨a, rfl, hab, hw⟩ := h
    exact ⟨a, rfl, hab, fun hst => ⟨hst, [], hw, rfl⟩⟩
  | error e =>
    intro a s' hget
    exact h a (run_lift_eq_ok.mp hget).1

/-- A scanner that rejects nothing walks over what its reader reads. -/
theorem Judges.reads {a : α} {b : β} {w : Bytes} (h : Judges get scan good spells Never)
    (hget : Reads get w a) (hgood : ∀ b', good a b' → b' = b) : Reads scan w b := by
  intro rest st
  cases hscan : scan.run ⟨w ++ rest, st⟩ with
  | error e => exact (h.rejects hscan (hget rest st)).elim
  | ok p =>
    obtain ⟨b', s'⟩ := p
    obtain ⟨a', ha', hab, -⟩ := h.accepts hscan
    rw [hget rest st] at ha'
    cases ha'
    rw [hgood b' hab]

/-- The measure is the number of bytes walked over. -/
theorem run_measured {s s' : Stream} {b : β} (h : scan.run s = .ok (b, s')) :
    (measured scan).run s = .ok ((b, s.unread.length - s'.unread.length), s') := by
  rw [measured, StateT.run_bind, StateT.run_get, pure_bind, run_bind_ok h]
  rfl

theorem run_measured_error {s : Stream} {e : Unit} (h : scan.run s = .error e) :
    (measured scan).run s = .error e := by
  rw [measured, StateT.run_bind, StateT.run_get, pure_bind, run_bind_error h]

/-- Of written bytes, it is their length. -/
theorem Reads.measured {b : β} {w : Bytes} (h : Reads scan w b) :
    Reads (measured scan) w (b, w.length) := by
  intro rest st
  rw [run_measured (h rest st)]
  simp

/-- Unless the end was passed, as many bytes are walked over as are spelled. -/
theorem Judges.measured (h : Judges get scan good spells bad) :
    Judges get (measured scan) (fun a b => good a b.1)
      (fun a b w => spells a b.1 w ∧ b.2 = w.length) bad := by
  intro s
  cases hscan : scan.run s with
  | error e =>
    rw [run_measured_error hscan]
    exact fun a s' hget => h.rejects hscan hget
  | ok p =>
    obtain ⟨b, s'⟩ := p
    rw [run_measured hscan]
    obtain ⟨a, ha, hab, hok⟩ := h.accepts hscan
    refine ⟨a, ha, hab, fun hst => ?_⟩
    obtain ⟨hs, w, hw, heq⟩ := hok hst
    refine ⟨hs, w, ⟨hw, ?_⟩, heq⟩
    have := congrArg List.length heq
    rw [List.length_append] at this
    show s.unread.length - s'.unread.length = w.length
    omega

end Judges

/-! ## The two primitive reads -/

/-- With the status `ok`, a block is a piece of the stream. -/
theorem readBlock_ok {s : Stream} {n : Nat} (h : (s.readBlock n).2.status = .ok) :
    s.status = .ok ∧ (s.readBlock n).1.length = n ∧
      s.unread = (s.readBlock n).1 ++ (s.readBlock n).2.unread := by
  unfold Stream.readBlock at h ⊢
  split
  · next hle =>
    rw [if_pos hle] at h
    exact ⟨h, List.length_take_of_le hle, (List.take_append_drop n s.unread).symm⟩
  · next hle =>
    rw [if_neg hle] at h
    cases h

theorem run_skip (n : Nat) (s : Stream) : (skip n).run s = .ok ((), (s.readBlock n).2) := by
  show (.ok ((), (s.readBlock (List.replicate n (0 : UInt8)).length).2) :
    Except Unit (Unit × Stream)) = _
  rw [List.length_replicate]

theorem reads_skip {w : Bytes} {n : Nat} (h : w.length = n) : Reads (skip n) w () := by
  have walked : Reads (readRaw (List.replicate n 0) : Scanner Bytes) w w :=
    reads_raw (by rw [h, List.length_replicate])
  exact walked.bind_pure

/-- What a raw read makes of a block. -/
theorem run_readRaw (target : Bytes) (s : Stream) :
    (readRaw target : Reader ε Bytes).run s =
      .ok ((s.readBlock target.length).1 ++ target.drop (s.readBlock target.length).1.length,
        (s.readBlock target.length).2) := rfl

/-- A raw read spells what it answers. -/
theorem readRaw_spells {target : Bytes} {s : Stream}
    (h : (s.readBlock target.length).2.status = .ok) :
    s.status = .ok ∧ s.unread =
      ((s.readBlock target.length).1 ++ target.drop (s.readBlock target.length).1.length) ++
        (s.readBlock target.length).2.unread := by
  obtain ⟨hs, hlen, heq⟩ := readBlock_ok h
  refine ⟨hs, ?_⟩
  rw [hlen, List.drop_length, List.append_nil]
  exact heq

theorem readRaw_length (target : Bytes) (s : Stream) :
    ((s.readBlock target.length).1 ++
      target.drop (s.readBlock target.length).1.length).length = target.length := by
  simp [Stream.readBlock]

/-- Raw bytes, which the scanner walks over. -/
theorem judges_raw {target : Bytes} {n : Nat} (h : target.length = n) :
    Judges (readRaw target : Reader ε Bytes) (skip n) (fun a _ => a.length = n)
      (fun a _ w => w = a) Never := by
  intro s
  subst h
  rw [run_skip]
  refine ⟨_, run_readRaw target s, readRaw_length target s, fun hst => ?_⟩
  obtain ⟨hs, heq⟩ := readRaw_spells hst
  exact ⟨hs, _, rfl, heq⟩

/-- Raw bytes, which the scanner looks at. -/
theorem judges_bytes {target : Bytes} {n : Nat} (h : target.length = n) :
    Judges (readRaw target : Reader ε Bytes) (readRaw target : Scanner Bytes)
      (fun a b => a = b ∧ a.length = n) (fun a _ w => w = a) Never := by
  intro s
  subst h
  rw [run_readRaw]
  refine ⟨_, run_readRaw target s, ⟨rfl, readRaw_length target s⟩, fun hst => ?_⟩
  obtain ⟨hs, heq⟩ := readRaw_spells hst
  exact ⟨hs, _, rfl, heq⟩

/-- What a word read makes of a block. -/
theorem run_readScalar [Scalar σ] (s : Stream) :
    (readScalar : Reader ε σ).run s =
      .ok (if (s.readBlock (Scalar.width σ)).1.length = Scalar.width σ then
          Scalar.ofNat (ofLE (s.readBlock (Scalar.width σ)).1) else Scalar.ofNat 0,
        (s.readBlock (Scalar.width σ)).2) := rfl

/-- A word read spells what it answers. -/
theorem readScalar_spells [Scalar σ] {s : Stream}
    (h : (s.readBlock (Scalar.width σ)).2.status = .ok) :
    s.status = .ok ∧ s.unread =
      Scalar.put (if (s.readBlock (Scalar.width σ)).1.length = Scalar.width σ then
          Scalar.ofNat (ofLE (s.readBlock (Scalar.width σ)).1) else Scalar.ofNat 0 : σ) ++
        (s.readBlock (Scalar.width σ)).2.unread := by
  obtain ⟨hs, hlen, heq⟩ := readBlock_ok h
  refine ⟨hs, ?_⟩
  rw [if_pos hlen, Scalar.put_ofNat_ofLE hlen]
  exact heq

/-- A word that ends the stream is all there was. -/
theorem readScalar_whole [Scalar σ] {b : Bytes} {x : σ}
    (h : (readScalar : Reader ε σ).run ⟨b, .ok⟩ = .ok (x, ⟨[], .ok⟩)) : b = Scalar.put x := by
  rw [run_readScalar] at h
  injection h with hpair
  injection hpair with hx hrest
  obtain ⟨-, spelled⟩ := readScalar_spells (congrArg Stream.status hrest)
  rwa [hx, hrest, List.append_nil] at spelled

/-- A machine word, which the scanner walks over. -/
theorem judges_scalar [Scalar σ] : Judges (readScalar : Reader ε σ) (skip (Scalar.width σ))
    (fun _ _ => True) (fun x _ w => w = Scalar.put x) Never := by
  intro s
  rw [run_skip]
  refine ⟨_, run_readScalar s, trivial, fun hst => ?_⟩
  obtain ⟨hs, heq⟩ := readScalar_spells hst
  exact ⟨hs, _, rfl, heq⟩

/-- A machine word, which the scanner looks at. -/
theorem judges_word [Scalar σ] : Judges (readScalar : Reader ε σ) (readScalar : Scanner σ)
    (fun x y => x = y) (fun x _ w => w = Scalar.put x) Never := by
  intro s
  rw [run_readScalar]
  refine ⟨_, run_readScalar s, rfl, fun hst => ?_⟩
  obtain ⟨hs, heq⟩ := readScalar_spells hst
  exact ⟨hs, _, rfl, heq⟩

/-! ## Repetition -/

/-- Element by element. One bad element spoils the run. -/
theorem Judges.repeat {get : Reader ε α} {scan : Scanner β} {good : α → β → Prop}
    {spells : α → Bytes → Prop} {bad : α → Prop}
    (h : Judges get scan good (fun a _ => spells a) bad) : ∀ n,
    Judges (repeatRead get n) (repeatRead scan n)
      (fun as bs => as.length = n ∧ List.Forall₂ good as bs)
      (fun as _ w => ∃ ws, List.Forall₂ spells as ws ∧ w = ws.flatten) (fun as => ∃ a ∈ as, bad a)
  | 0 => Judges.pure ⟨rfl, .nil⟩ ⟨[], .nil, rfl⟩
  | n + 1 => by
    refine h.bind (fun a b hab => ?_) fun a ha => ?_
    · refine (Judges.repeat h n).bind (fun as bs hall => ?_) fun as has => ?_
      · refine Judges.pure ⟨congrArg (· + 1) hall.1, .cons hab hall.2⟩ ?_
        rintro _ ⟨ws, hws, rfl⟩ w hw
        exact ⟨w :: ws, .cons hw hws, by rw [List.append_nil, List.flatten_cons]⟩
      · obtain ⟨a', ha', hbad⟩ := has
        exact Always.pure ⟨a', List.mem_cons_of_mem _ ha', hbad⟩
    · exact Always.behind fun as => Always.pure ⟨a, List.mem_cons_self, ha⟩

/-! ## Values

The same without a stream. -/

/-- The verdict `r` is about the outcome `x`. -/
def JudgesValue (x : Except ε α) (r : Except Unit β) (good : α → β → Prop) (bad : α → Prop) :
    Prop :=
  match r with
  | .ok b => ∃ a, x = .ok a ∧ good a b
  | .error _ => ∀ a, x = .ok a → bad a

section Values

variable {x : Except ε α} {r : Except Unit β} {good good' : α → β → Prop} {bad bad' : α → Prop}

theorem JudgesValue.ok {a : α} {b : β} (h : good a b) :
    JudgesValue (.ok a : Except ε α) (.ok b) good bad := ⟨a, rfl, h⟩

theorem JudgesValue.error (h : ∀ a, x = .ok a → bad a) :
    JudgesValue x (.error () : Except Unit β) good bad := h

theorem JudgesValue.imp (h : JudgesValue x r good bad) (hgood : ∀ a b, good a b → good' a b)
    (hbad : ∀ a, bad a → bad' a) : JudgesValue x r good' bad' := by
  cases r with
  | ok b =>
    obtain ⟨a, ha, hab⟩ := h
    exact ⟨a, ha, hgood a b hab⟩
  | error e => exact fun a ha => hbad a (h a ha)

/-- What was bad has to spoil what comes of it. -/
theorem JudgesValue.bind {f : α → Except ε γ} {g : β → Except Unit δ} {goodf : γ → δ → Prop}
    {badf : γ → Prop} (h : JudgesValue x r good bad)
    (hf : ∀ a b, good a b → JudgesValue (f a) (g b) goodf badf)
    (spoils : ∀ a, bad a → ∀ c, f a = .ok c → badf c) :
    JudgesValue (x >>= f) (r >>= g) goodf badf := by
  cases r with
  | ok b =>
    obtain ⟨a, rfl, hab⟩ := h
    exact hf a b hab
  | error e =>
    intro c hc
    obtain ⟨a, ha, hfa⟩ := bind_eq_ok.mp hc
    exact spoils a (h a ha) c hfa

end Values

end Wire
