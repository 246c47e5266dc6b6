import Qblock.Wire.Truncation

/-!
# Codewords one after the other

What becomes of a code when its words are written one behind the other with
nothing between them. Words that are not empty, and of which none begins
another, can be told apart there (`Concat.told`); a reader of the words,
called again and again, reads them back; and in a string that was cut short
it reads the words before the cut, and answers the one the cut is in past
the end (`Reads.recover`).
-/

namespace Wire

variable {ε α T : Type} {code : T → Bytes → Prop} {same : T → T → Prop}

/-- The words of some objects, one after the other. -/
def Concat (code : T → Bytes → Prop) : List T → Bytes → Prop
  | [], b => b = []
  | p :: ps, b => ∃ x rest, code p x ∧ Concat code ps rest ∧ b = x ++ rest

/-- A code is read without looking at what follows: of two strings that
begin with a word and are the same, the words are the same. -/
structure Told (code : T → Bytes → Prop) (same : T → T → Prop) : Prop where
  nonempty : ∀ p x, code p x → x ≠ []
  front : ∀ p q x y s t, code p x → code q y → x ++ s = y ++ t → same p q ∧ x = y

theorem Concat.imp {code' : T → Bytes → Prop} : ∀ {ps : List T} {b : Bytes}, Concat code ps b →
    (∀ p ∈ ps, ∀ x, code p x → code' p x) → Concat code' ps b
  | [], _, h, _ => h
  | p :: ps, _, h, himp => by
    obtain ⟨x, rest, hx, hrest, rfl⟩ := h
    exact ⟨x, rest, himp p List.mem_cons_self x hx,
      hrest.imp fun q hq => himp q (List.mem_cons_of_mem _ hq), rfl⟩

theorem exists_concat : ∀ {ps : List T}, (∀ p ∈ ps, ∃ x, code p x) → ∃ b, Concat code ps b
  | [], _ => ⟨[], rfl⟩
  | p :: ps, h => by
    obtain ⟨x, hx⟩ := h p List.mem_cons_self
    obtain ⟨rest, hrest⟩ := exists_concat fun q hq => h q (List.mem_cons_of_mem _ hq)
    exact ⟨x ++ rest, x, rest, hx, hrest, rfl⟩

/-- A string that goes on from the words of some objects is of the words of
the same objects and some more. -/
theorem Concat.told (told : Told code same) : ∀ {ps qs : List T} {x s : Bytes},
    Concat code ps x → Concat code qs (x ++ s) →
      ∃ ds es, qs = ds ++ es ∧ List.Forall₂ same ps ds ∧ Concat code es s
  | [], qs, x, s, hp, hq => by
    cases hp
    exact ⟨[], qs, rfl, .nil, hq⟩
  | p :: ps, [], x, s, hp, hq => by
    obtain ⟨c, rest, hc, -, rfl⟩ := hp
    have empty : c ++ rest = [] := (List.append_eq_nil_iff.mp hq).1
    exact absurd (List.append_eq_nil_iff.mp empty).1 (told.nonempty p c hc)
  | p :: ps, q :: qs, x, s, hp, hq => by
    obtain ⟨c, rest, hc, hrest, rfl⟩ := hp
    obtain ⟨d, rest', hd, hrest', heq⟩ := hq
    rw [List.append_assoc] at heq
    obtain ⟨head, rfl⟩ := told.front p q c d _ _ hc hd heq
    rw [← List.append_cancel_left heq] at hrest'
    obtain ⟨ds, es, rfl, tail, hes⟩ := Concat.told told hrest hrest'
    exact ⟨q :: ds, es, rfl, .cons head tail, hes⟩

/-! ## Reading -/

/-- The words, and what is read of each. -/
theorem Concat.pieces {get : Reader ε α} {f : T → α} : ∀ {ps : List T} {b : Bytes},
    Concat code ps b → (∀ p ∈ ps, ∀ x, code p x → Reads get x (f p)) →
      ∃ bs, b = bs.flatten ∧ List.Forall₂ (Reads get) bs (ps.map f) ∧
        ∀ x ∈ bs, ∃ p ∈ ps, code p x
  | [], _, h, _ => by
    cases h
    exact ⟨[], rfl, .nil, fun _ hx => absurd hx List.not_mem_nil⟩
  | p :: ps, _, h, reads => by
    obtain ⟨x, rest, hx, hrest, rfl⟩ := h
    obtain ⟨bs, rfl, all, words⟩ :=
      Concat.pieces hrest fun q hq => reads q (List.mem_cons_of_mem _ hq)
    refine ⟨x :: bs, rfl, .cons (reads p List.mem_cons_self x hx) all, fun y hy => ?_⟩
    rcases List.mem_cons.mp hy with rfl | hy
    · exact ⟨p, List.mem_cons_self, hx⟩
    · obtain ⟨q, hq, hy⟩ := words y hy
      exact ⟨q, List.mem_cons_of_mem _ hq, hy⟩

/-- A run of words that was cut short: those before the cut are read as they
were written, and the next one past the end. -/
theorem Reads.recover {get : Reader ε α} {P : α → Prop} {bs : List Bytes} {as : List α}
    (hr : List.Forall₂ (Reads get) bs as) (hc : ∀ b ∈ bs, Cut get b P) {t : Bytes}
    (ht : t <+: bs.flatten) (hne : t ≠ bs.flatten) :
    ∃ k < as.length, ∃ rest, ∀ st,
      (repeatRead get k).run ⟨t, st⟩ = .ok (as.take k, ⟨rest, st⟩) ∧
        ∃ a, P a ∧ get.run ⟨rest, st⟩ = .ok (a, exhausted) := by
  induction hr generalizing t with
  | nil => exact absurd (List.prefix_nil.mp ht) hne
  | @cons b a bs as head _ ih =>
    rcases prefix_append_cases ht hne with ⟨hpre, hneq⟩ | ⟨t', rfl, hpre, hneq⟩
    · refine ⟨0, Nat.zero_lt_succ _, t, fun st => ⟨rfl, ?_⟩⟩
      exact hc b List.mem_cons_self t hpre hneq st
    · obtain ⟨k, hk, rest, run⟩ := ih (fun x hx => hc x (List.mem_cons_of_mem _ hx)) hpre hneq
      refine ⟨k + 1, Nat.succ_lt_succ hk, rest, fun st => ⟨?_, (run st).2⟩⟩
      rw [repeatRead, run_bind_ok (head.run t' st), run_bind_ok (run st).1]
      rfl

end Wire
