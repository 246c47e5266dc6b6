import Qblock.Wire.Scan

/-!
# What an answer may cost

A reader that fills containers as its input tells it to answers objects of
a size. `Pays k get size` says that this size is paid for with bytes: it is
at most the number of bytes that were taken, and `k` more that were taken
before. It is a matter of the status, because past the end a reader makes
its answers of nothing.

`Pays.bind` hands what the first part took to the second one as its credit,
so that the reader of a record owes the sum of its fields at the end.
-/

namespace Wire

variable {ε α β σ : Type} {size size' : α → Nat} {k : Nat}

/-- With a credit of `k` bytes, `get` answers nothing larger than the bytes
it took and those, unless it passed the end. -/
def Pays (k : Nat) (get : Reader ε α) (size : α → Nat) : Prop :=
  ∀ s a s', get.run s = .ok (a, s') → s'.status = .ok →
    s.status = .ok ∧ size a + s'.unread.length ≤ k + s.unread.length

theorem Pays.pure {a : α} (h : size a ≤ k) : Pays k (pure a : Reader ε α) size := by
  intro s _ _ hrun hok
  cases hrun
  exact ⟨hok, Nat.add_le_add_right h _⟩

theorem Pays.lift {x : Except ε α} (h : ∀ a, x = .ok a → size a ≤ k) : Pays k (lift x) size := by
  intro s a s' hrun hok
  obtain ⟨hx, rfl⟩ := run_lift_eq_ok.mp hrun
  exact ⟨hok, Nat.add_le_add_right (h a hx) _⟩

/-- What the first part answers is what the second one has to spend. -/
theorem Pays.pass {m : Reader ε α} {f : α → Reader ε β} {total : β → Nat} (hm : Pays k m size)
    (hf : ∀ a, Pays (size a) (f a) total) : Pays k (m >>= f) total := by
  intro s c s'' hrun hok
  obtain ⟨a, s', ha, hc⟩ := run_bind_eq_ok.mp hrun
  obtain ⟨hs', second⟩ := hf a s' c s'' hc hok
  obtain ⟨hs, first⟩ := hm s a s' ha hs'
  exact ⟨hs, Nat.le_trans second first⟩

/-- What is not asked for is left as a credit. -/
theorem Pays.credit {get : Reader ε α} (h : Pays 0 get size) (hle : ∀ a, size' a ≤ k + size a) :
    Pays k get size' := by
  intro s a s' hrun hok
  obtain ⟨hs, paid⟩ := h s a s' hrun hok
  have := hle a
  exact ⟨hs, by omega⟩

theorem Pays.bind {m : Reader ε α} {f : α → Reader ε β} {total : β → Nat} (hm : Pays 0 m size)
    (hf : ∀ a, Pays (k + size a) (f a) total) : Pays k (m >>= f) total :=
  (hm.credit fun _ => Nat.le_refl _).pass hf

theorem Pays.ite {p : Prop} [Decidable p] {m m' : Reader ε α} (h : Pays k m size)
    (h' : Pays k m' size) : Pays k (if p then m else m') size := by
  split
  · exact h
  · exact h'

/-- A last part that only packs the answer. -/
theorem Pays.packed {get : Reader ε α} {f : α → β} {total : β → Nat} (h : Pays 0 get size)
    (hle : ∀ a, total (f a) ≤ k + size a) : Pays k (get >>= fun x => Pure.pure (f x)) total :=
  h.bind fun a => Pays.pure (hle a)

theorem pays_scalar [Scalar σ] : Pays 0 (readScalar : Reader ε σ) fun _ => Scalar.width σ := by
  intro s x s' hrun hok
  rw [run_readScalar] at hrun
  injection hrun with hpair
  injection hpair with _ hs'
  subst hs'
  obtain ⟨hs, length, heq⟩ := readBlock_ok hok
  refine ⟨hs, ?_⟩
  conv_rhs => rw [heq, List.length_append, length]
  exact (Nat.zero_add _).ge

/-- Raw bytes that are there fill the target. -/
theorem pays_raw (target : Bytes) :
    Pays 0 (readRaw target : Reader ε Bytes) fun _ => target.length := by
  intro s b s' hrun hok
  rw [run_readRaw] at hrun
  injection hrun with hpair
  injection hpair with _ hs'
  subst hs'
  obtain ⟨hs, length, heq⟩ := readBlock_ok hok
  refine ⟨hs, ?_⟩
  conv_rhs => rw [heq, List.length_append, length]
  exact (Nat.zero_add _).ge

theorem pays_bytes (target : Bytes) : Pays 0 (readRaw target : Reader ε Bytes) List.length := by
  intro s b s' hrun hok
  have paid := pays_raw target s b s' hrun hok
  rw [run_readRaw] at hrun
  injection hrun with hpair
  injection hpair with hb _
  subst hb
  rwa [readRaw_length]

/-- What a constructor makes is put behind a pointer. -/
theorem Pays.made {make : Reader ε α} (h : Pays k make size) :
    Pays k (make >>= fun x => Pure.pure (some x)) fun p => p.elim 0 size :=
  h.pass fun _ => Pays.pure (Nat.le_refl _)

/-- A null pointer costs nothing. -/
theorem Pays.null : Pays k (Pure.pure none : Reader ε (Option α)) fun p => p.elim 0 size :=
  Pays.pure (Nat.zero_le k)

theorem Pays.repeat {get : Reader ε α} (h : Pays 0 get size) :
    ∀ n, Pays 0 (repeatRead get n) fun as => (as.map size).sum
  | 0 => Pays.pure (Nat.le_refl 0)
  | n + 1 => h.bind fun a => (Pays.repeat h n).packed fun as => by
      rw [List.map_cons, List.sum_cons, Nat.zero_add]

end Wire
