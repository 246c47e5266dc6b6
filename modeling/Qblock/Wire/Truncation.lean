import Qblock.Wire.Reader

/-!
# Truncated input

What a reader does on a front part of a string it would read. A reader that
does not look at the status keeps going over an empty stream, so the claim
about one cut point is a claim about everything that runs after it:

- `Drains get P` — on an exhausted stream `get` still answers, something
  that `P` describes, and the stream stays exhausted;
- `Cut get b P` — on every PROPER prefix of `b`, from either status, `get`
  answers something that `P` describes and leaves the stream exhausted,
  its end passed.

`Cut.bind` is the one rule. A cut inside the first part hands its answer to
a second part that drains; a cut behind it is a cut of the second part.
`Cut.tagged` is its form for an object that starts with a tag.
-/

namespace Wire

variable {ε α β σ : Type} {P : α → Prop} {Q : β → Prop}

/-- Whatever a reader answers will do. -/
abbrev Anything : α → Prop := fun _ => True

/-- The stream that has been read past its end. -/
def exhausted : Stream := ⟨[], .readPastEnd⟩

/-- On the exhausted stream, `get` answers and the stream stays exhausted. -/
def Drains (get : Reader ε α) (P : α → Prop) : Prop :=
  ∃ a, P a ∧ get.run exhausted = .ok (a, exhausted)

/-- On a proper prefix of `b`, `get` answers and exhausts the stream. -/
def Cut (get : Reader ε α) (b : Bytes) (P : α → Prop) : Prop :=
  ∀ t, t <+: b → t ≠ b → ∀ st, ∃ a, P a ∧ get.run ⟨t, st⟩ = .ok (a, exhausted)

/-! ## Draining -/

theorem Drains.pure {a : α} (h : P a) : Drains (pure a : Reader ε α) P := ⟨a, h, rfl⟩

/-- The second reader drains from what the first answers past the end. -/
theorem Drains.bind {m : Reader ε α} {f : α → Reader ε β} (hm : Drains m P)
    (hf : ∀ a, P a → Drains (f a) Q) : Drains (m >>= f) Q := by
  obtain ⟨a, ha, hrun⟩ := hm
  obtain ⟨c, hc, hrun'⟩ := hf a ha
  exact ⟨c, hc, by rw [run_bind_ok hrun, hrun']⟩

theorem Drains.imp {get : Reader ε α} {P' : α → Prop} (h : Drains get P)
    (himp : ∀ a, P a → P' a) : Drains get P' := by
  obtain ⟨a, ha, hrun⟩ := h
  exact ⟨a, himp a ha, hrun⟩

theorem Drains.anything {get : Reader ε α} (h : Drains get P) : Drains get Anything :=
  h.imp fun _ _ => trivial

/-- A last part that only packs the answer, whatever it is. -/
theorem Drains.packed {m : Reader ε α} {f : α → β} (hm : Drains m Anything) :
    Drains (m >>= fun x => Pure.pure (f x)) Anything :=
  hm.bind fun _ _ => Drains.pure trivial

theorem Drains.packed_some {m : Reader ε α} (hm : Drains m Anything) :
    Drains (m >>= fun x => Pure.pure (some x)) (·.isSome) :=
  hm.bind fun _ _ => Drains.pure rfl

theorem drains_raw (target : Bytes) : Drains (readRaw target : Reader ε Bytes) Anything := by
  refine ⟨target, trivial, ?_⟩
  cases target with
  | nil => rfl
  | cons b bs => exact readRaw_short (by simp [exhausted])

/-- A word read off the exhausted stream is zero. -/
theorem drains_scalar [Scalar σ] :
    Drains (readScalar : Reader ε σ) (· = Scalar.ofNat 0) := by
  refine ⟨Scalar.ofNat 0, rfl, ?_⟩
  by_cases h : Scalar.width σ = 0
  · simp [readScalar, StateT.run, h, Stream.readBlock, exhausted, ofLE]
  · exact readScalar_short (by simp only [exhausted, List.length_nil]; omega)

/-- So many values past the end. -/
theorem Drains.repeat {get : Reader ε α} (h : Drains get P) :
    ∀ n, Drains (repeatRead get n) fun as => ∀ a ∈ as, P a
  | 0 => Drains.pure (by simp)
  | n + 1 => h.bind fun a ha => (Drains.repeat h n).bind fun as has =>
      Drains.pure fun x hx => by
        rcases List.mem_cons.mp hx with rfl | hx
        · exact ha
        · exact has x hx

/-! ## Cutting -/

/-- Nothing can be cut off nothing. -/
theorem Cut.nil (get : Reader ε α) : Cut get [] P := by
  intro t ht hne
  exact absurd (List.prefix_nil.mp ht) hne

/-- A proper prefix of a concatenation ends inside the first part or inside
the second. -/
theorem prefix_append_cases {t b₁ b₂ : Bytes} (ht : t <+: b₁ ++ b₂) (hne : t ≠ b₁ ++ b₂) :
    (t <+: b₁ ∧ t ≠ b₁) ∨ ∃ t', t = b₁ ++ t' ∧ t' <+: b₂ ∧ t' ≠ b₂ := by
  rcases List.prefix_or_prefix_of_prefix ht (List.prefix_append b₁ b₂) with h | ⟨t', rfl⟩
  · by_cases heq : t = b₁
    · refine .inr ⟨[], by simp [heq], List.nil_prefix, fun hb => hne ?_⟩
      rw [heq, ← hb, List.append_nil]
    · exact .inl ⟨h, heq⟩
  · refine .inr ⟨t', rfl, (List.prefix_append_right_inj b₁).mp ht, fun hb => hne (by rw [hb])⟩

/-- The rule of sequences: what the first part answers when cut must be
something the second part drains on. -/
theorem Cut.bind {m : Reader ε α} {f : α → Reader ε β} {b₁ b₂ : Bytes} {a₀ : α}
    (hr : Reads m b₁ a₀) (hm : Cut m b₁ P) (hd : ∀ a, P a → Drains (f a) Q)
    (hf : Cut (f a₀) b₂ Q) : Cut (m >>= f) (b₁ ++ b₂) Q := by
  intro t ht hne st
  rcases prefix_append_cases ht hne with ⟨hpre, hneq⟩ | ⟨t', rfl, hpre, hneq⟩
  · obtain ⟨a, ha, hrun⟩ := hm t hpre hneq st
    obtain ⟨c, hc, hrun'⟩ := hd a ha
    exact ⟨c, hc, by rw [run_bind_ok hrun, hrun']⟩
  · obtain ⟨c, hc, hrun⟩ := hf t' hpre hneq st
    exact ⟨c, hc, by rw [run_bind_ok (hr.run t' st), hrun]⟩

/-- A last part that only packs the answer adds no cut point. -/
theorem Cut.bind_pure {m : Reader ε α} {f : α → β} {b : Bytes} (hm : Cut m b P)
    (hf : ∀ a, P a → Q (f a)) : Cut (m >>= fun x => pure (f x)) b Q := by
  intro t ht hne st
  obtain ⟨a, ha, hrun⟩ := hm t ht hne st
  exact ⟨f a, hf a ha, by rw [run_bind_ok hrun]; rfl⟩

theorem Cut.packed {m : Reader ε α} {f : α → β} {b : Bytes} (hm : Cut m b Anything) :
    Cut (m >>= fun x => pure (f x)) b Anything := hm.bind_pure fun _ _ => trivial

theorem Cut.packed_some {m : Reader ε α} {b : Bytes} (hm : Cut m b Anything) :
    Cut (m >>= fun x => pure (some x)) b (·.isSome) := hm.bind_pure fun _ _ => rfl

/-- Nor does one that reads nothing and cannot fault on the answer. -/
theorem Cut.bind_lift {m : Reader ε α} {f : α → Except ε β} {b : Bytes} (hm : Cut m b P)
    (hf : ∀ a, P a → ∃ c, f a = .ok c ∧ Q c) : Cut (m >>= fun x => Wire.lift (f x)) b Q := by
  intro t ht hne st
  obtain ⟨a, ha, hrun⟩ := hm t ht hne st
  obtain ⟨c, hc, hq⟩ := hf a ha
  exact ⟨c, hq, by rw [run_bind_ok hrun, hc]; rfl⟩

theorem Cut.imp {get : Reader ε α} {b : Bytes} {P' : α → Prop} (h : Cut get b P)
    (himp : ∀ a, P a → P' a) : Cut get b P' := by
  intro t ht hne st
  obtain ⟨a, ha, hrun⟩ := h t ht hne st
  exact ⟨a, himp a ha, hrun⟩

theorem Cut.anything {get : Reader ε α} {b : Bytes} (h : Cut get b P) : Cut get b Anything :=
  h.imp fun _ _ => trivial

/-- A cut string is shorter. -/
theorem cut_length_lt {t b : Bytes} (ht : t <+: b) (hne : t ≠ b) : t.length < b.length :=
  Nat.lt_of_le_of_ne ht.length_le fun h => hne (ht.eq_of_length h)

/-- An array is cut anywhere. -/
theorem cut_raw {target b : Bytes} (h : b.length = target.length) :
    Cut (readRaw target : Reader ε Bytes) b Anything := by
  intro t ht hne st
  have hlt := cut_length_lt ht hne
  exact ⟨_, trivial, readRaw_short (by simp only; omega)⟩

/-- A word cut short is zero. -/
theorem cut_scalar [Scalar σ] (x : σ) :
    Cut (readScalar : Reader ε σ) (Scalar.put x) (· = Scalar.ofNat 0) := by
  intro t ht hne st
  have hlt := cut_length_lt ht hne
  rw [Scalar.put_length] at hlt
  exact ⟨_, rfl, readScalar_short hlt⟩

/-- What a reader that starts with a word drains to, it drains to from zero. -/
theorem Drains.of_scalar [Scalar σ] {f : σ → Reader ε β} (h : Drains (readScalar >>= f) Q) :
    Drains (f (Scalar.ofNat 0)) Q := by
  obtain ⟨c, hc, hrun⟩ := h
  obtain ⟨_, rfl, hzero⟩ := (drains_scalar : Drains (readScalar : Reader ε σ) _)
  exact ⟨c, hc, by rwa [run_bind_ok hzero] at hrun⟩

/-- A tagged object: cut in the tag, it reads as on the exhausted stream. -/
theorem Cut.tagged [Scalar σ] {f : σ → Reader ε β} {tag : σ} {b : Bytes}
    (hd : Drains (readScalar >>= f) Q) (hf : Cut (f tag) b Q) :
    Cut (readScalar >>= f) (Scalar.put tag ++ b) Q :=
  Cut.bind (reads_scalar tag) (cut_scalar tag) (fun _ hzero => hzero ▸ hd.of_scalar) hf

/-- A cut run of elements is a run of whole elements, one cut element and
then drained ones. -/
theorem Cut.repeat {get : Reader ε α} {bs : List Bytes} {as : List α}
    (hr : List.Forall₂ (Reads get) bs as) (hc : ∀ b ∈ bs, Cut get b P) (hp : ∀ a ∈ as, P a)
    (hd : Drains get P) :
    Cut (repeatRead get as.length) bs.flatten fun as' => ∀ a ∈ as', P a := by
  induction hr with
  | nil => exact Cut.nil _
  | @cons b a bs as head _ ih =>
    have cons_all : ∀ x : α, P x → ∀ xs : List α, (∀ y ∈ xs, P y) → ∀ y ∈ x :: xs, P y := by
      intro x hx xs hxs y hy
      rcases List.mem_cons.mp hy with rfl | hy
      · exact hx
      · exact hxs y hy
    refine Cut.bind head (hc b List.mem_cons_self)
      (fun x hx => (Drains.repeat hd as.length).bind fun xs hxs =>
        Drains.pure (cons_all x hx xs hxs)) ?_
    exact (ih (fun b' hb => hc b' (List.mem_cons_of_mem _ hb))
      (fun a' ha => hp a' (List.mem_cons_of_mem _ ha))).bind_pure
        (cons_all a (hp a List.mem_cons_self))

end Wire
