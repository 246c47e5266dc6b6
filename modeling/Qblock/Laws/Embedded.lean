import Qblock.Laws.Unambiguous

/-!
# Embedded payloads

`Transaction_Essence::serialize` closes the slot of its payload with a zero
of four bytes also when there is a payload. The constructor that reads the
slot leaves that zero on the stream, and the transaction around the essence
takes the first two bytes of it for the count of its unlocks. So each level
of nesting leaves two more runs of unlocks behind than the one inside: the
other half of its zero, and its own unlocks.

`Payload.leaves` counts those runs, and `Payload.embedded_never_reads` is
what it comes to: no transaction that embeds a payload reads back.
-/

namespace Qblock

open Wire Qt

/-- Each of the strings reads as the unlocks of some transaction. -/
def UnlockRuns (runs : List Bytes) : Prop :=
  ∀ run ∈ runs, 2 ≤ run.length ∧
    ∃ unlocks, Reads (deserializeVector UInt16 Unlock.fromQDataStream) run unlocks

theorem Payload.nesting_pos : ∀ {p : Payload}, ¬ p.Flat → 0 < p.nesting
  | .taggedData _ _, h => absurd trivial h
  | .transaction none _, h => absurd (fun e he => by cases he) h
  | .transaction (some (.transaction _ _ _ _ none)) _, h =>
    absurd (fun e he => by cases he; rfl) h
  | .transaction (some (.transaction _ _ _ _ (some q))) _, _ => by
    rw [nesting, Essence.nesting]
    exact Nat.succ_pos _

/-- No unlocks, which is half of a closing zero. -/
def noUnlocks : Bytes := Scalar.put (0 : UInt16)

theorem zero_eq_noUnlocks : Scalar.put (0 : UInt32) = noUnlocks ++ noUnlocks := by decide

theorem reads_noUnlocks :
    Reads (deserializeVector UInt16 Unlock.fromQDataStream) noUnlocks [] := by
  have fits : AllFit Unlock.Fits [] := nofun
  exact reads_unlocks fits (by decide) rfl

/-- At least two bytes a run. -/
theorem UnlockRuns.length_le : ∀ {runs : List Bytes}, UnlockRuns runs →
    2 * runs.length ≤ runs.flatten.length
  | [], _ => Nat.le_refl 0
  | run :: runs, h => by
    have first := (h run List.mem_cons_self).1
    have rest := UnlockRuns.length_le fun r hr => h r (List.mem_cons_of_mem _ hr)
    rw [List.flatten_cons, List.length_append, List.length_cons]
    omega

section Reading

variable [Platform] [LawfulPlatform]

/-- What a payload leaves behind: two runs of unlocks for each level. -/
theorem Payload.leaves : ∀ {p : Payload} {b : Bytes}, p.Fits → p.serialize = .ok b →
    ∃ p' runs, UnlockRuns runs ∧ runs.length = 2 * p.nesting ∧
      Leaves fromQDataStream b (some p') runs.flatten
  | .taggedData tag data, b, fits, h =>
    ⟨_, [], nofun, rfl, Payload.reads fits trivial h⟩
  | .transaction none _, b, _, h => by
    obtain ⟨_, _, _, ⟨⟩, -⟩ := serialize_eq_ok.mp h
  | .transaction (some (.transaction _ _ _ _ none)) _, b, fits, h =>
    ⟨_, [], nofun, rfl, Payload.reads fits (by rintro e ⟨⟩; rfl) h⟩
  | .transaction (some (.transaction _ _ _ _ (some q))) unlocks, b, fits, h => by
    obtain ⟨he, hu, hcount⟩ := fits_transaction.mp fits
    obtain ⟨hq, small⟩ := (Essence.fits_transaction.mp (he _ rfl)).2.2.2.2.2 q rfl
    obtain ⟨_, essence', unlocks', ⟨⟩, hessence, hunlocks, rfl⟩ := serialize_eq_ok.mp h
    obtain ⟨_, _, _, -, -, hembedded, -⟩ := Essence.serialize_eq_ok.mp hessence
    obtain ⟨serialized, hs, -⟩ := bind_eq_ok.mp hembedded
    obtain ⟨q', runs, hruns, hlength, inner⟩ := Payload.leaves hq hs
    have slot : ∀ embedded, Essence.serializeEmbedded (some q) = .ok embedded →
        Leaves (readSlot fromQDataStream) (embedded ++ Scalar.put (0 : UInt32)) (some q')
          (runs.flatten ++ Scalar.put (0 : UInt32)) := by
      rw [Essence.serializeEmbedded, hs]
      intro _ hmem
      cases hmem
      exact leaves_slot (small _ hs) (serialize_ne_nil hs) (inner.append _)
    have essence := Essence.leaves (he _ rfl) hessence slot
    -- the runs on the stream when the unlocks of this transaction are read
    obtain ⟨first, rest, hsplit⟩ : ∃ first rest,
        runs ++ [noUnlocks, noUnlocks, unlocks'] = first :: rest := by
      cases runs with
      | nil => exact ⟨_, _, rfl⟩
      | cons run runs => exact ⟨_, _, rfl⟩
    have hall : UnlockRuns (first :: rest) := by
      rw [← hsplit]
      intro run hrun
      simp only [List.mem_append, List.mem_cons, List.not_mem_nil, or_false] at hrun
      rcases hrun with hrun | rfl | rfl | rfl
      · exact hruns run hrun
      · exact ⟨by decide, _, reads_noUnlocks⟩
      · exact ⟨by decide, _, reads_noUnlocks⟩
      · exact ⟨width_le_serializeCounted hunlocks, _, reads_unlocks hu hcount hunlocks⟩
    have hbytes : runs.flatten ++ Scalar.put (0 : UInt32) ++ unlocks' = first ++ rest.flatten := by
      have flat := congrArg List.flatten hsplit
      simpa [zero_eq_noUnlocks] using flat
    obtain ⟨-, us, hfirst⟩ := hall first List.mem_cons_self
    have whole := leaves_transaction essence hbytes hfirst
    rw [← fromQDataStream_eq] at whole
    have levels : rest.length = 2 * (q.nesting + 1) := by
      have count := congrArg List.length hsplit
      simp only [List.length_append, List.length_cons, List.length_nil] at count
      omega
    exact ⟨_, rest, fun run hrun => hall run (List.mem_cons_of_mem _ hrun), levels, whole⟩

/-- A payload that embeds one leaves at least four bytes of its own behind. -/
theorem Payload.leaves_some {p : Payload} {x : Bytes} (fits : p.Fits) (embeds : ¬ p.Flat)
    (hx : p.serialize = .ok x) :
    ∃ p' left, 4 ≤ left.length ∧ Leaves fromQDataStream x (some p') left := by
  obtain ⟨p', runs, hruns, hlength, leaves⟩ := Payload.leaves fits hx
  have pos := nesting_pos embeds
  have two := hruns.length_le
  exact ⟨p', runs.flatten, by omega, leaves⟩

/-- A payload reads back in front of `s`: equal to what was written, and
with exactly `s` left. -/
def Payload.ReadsBack (p : Payload) (s : Bytes) : Prop :=
  ∃ x, p.serialize = .ok x ∧ fromQDataStream.run ⟨x ++ s, .ok⟩ = .ok (some p, ⟨s, .ok⟩)

/-- No transaction that embeds a payload reads back in front of anything:
at least four bytes too many are left. -/
theorem Payload.embedded_never_reads {p : Payload} (nonNull : p.NonNull) (fits : p.Fits)
    (embeds : ¬ p.Flat) (s : Bytes) :
    ¬ p.ReadsBack s ∧ ∃ x p' left, p.serialize = .ok x ∧ 4 ≤ left.length ∧
      fromQDataStream.run ⟨x ++ s, .ok⟩ = .ok (some p', ⟨left ++ s, .ok⟩) := by
  obtain ⟨x, hx⟩ := serialize_ok nonNull
  obtain ⟨p', left, four, leaves⟩ := leaves_some fits embeds hx
  have hrun := leaves s .ok
  refine ⟨?_, x, p', left, hx, four, hrun⟩
  intro h
  obtain ⟨y, hy, hback⟩ := h
  cases hx.symm.trans hy
  rw [hrun] at hback
  injection hback with hback
  injection hback with _ hstream
  injection hstream with hleft
  have := congrArg List.length hleft
  rw [List.length_append] at this
  omega

end Reading

section Sample

open Plain

theorem Payload.sampleNested_embeds : ¬ sampleNested.Flat := by
  intro h
  cases h _ rfl

theorem Payload.embedded_never_reads_sampleNested :
    ¬ sampleNested.ReadsBack [255] ∧ ∃ x p' left, sampleNested.serialize = .ok x ∧
      4 ≤ left.length ∧
      fromQDataStream.run ⟨x ++ [255], .ok⟩ = .ok (some p', ⟨left ++ [255], .ok⟩) :=
  embedded_never_reads sampleNested_nonNull sampleNested_fits sampleNested_embeds [255]

/-- Of the sample, alone on its stream, the second half of the closing zero
and the unlocks are left: 102 bytes. -/
theorem Payload.sampleNested_leaves_unlocks :
    sampleNested.NonNull ∧ sampleNested.Fits ∧ ¬ sampleNested.Flat ∧
      ¬ sampleNested.ReadsBack [] := by
  refine ⟨sampleNested_nonNull, sampleNested_fits, sampleNested_embeds, ?_⟩
  intro h
  obtain ⟨x, hx, hback⟩ := h
  have left : (do
      let x ← sampleNested.serialize
      let (_, s) ← fromQDataStream.run ⟨x, .ok⟩
      return s.unread.length) = Except.ok 102 := by decide +kernel
  rw [List.append_nil] at hback
  rw [hx] at left
  change (do
      let (_, s) ← fromQDataStream.run ⟨x, .ok⟩
      return s.unread.length) = Except.ok 102 at left
  rw [hback] at left
  cases left

end Sample

end Qblock
