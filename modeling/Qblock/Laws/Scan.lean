import Qblock.Scan
import Qblock.Laws.Layout
import Qblock.Laws.Recursion

/-!
# The scanners judge the decoders

Each scanner of the layout is about the decoder of the source that walks
the same way (`Wire.Judges`): what it accepts is decoded, into an object
without null pointers unless the policy is the comparable one, and from the
canonical form into one that is written as the same bytes; what the lenient
one rejects has a null pointer in it or makes the decoder look through one,
and what the comparable one rejects does make it look through one.

For a set this is `enterSet_insertAll`: a run of insertions, of which the
scanner only sees keys.
-/

namespace Qblock

open Wire Qt

/-! ## Policies -/

/-- What a scanner grants that accepts an object. The comparable policy is
about the decoder only and says nothing of what it decodes. -/
def Policy.Grants (policy : Policy) (P : Prop) : Prop := policy ≠ .comparable → P

/-- What a scanner denies that rejects an object. The canonical policy may
reject any, and the comparable one only what is not decoded at all. -/
def Policy.Denies (policy : Policy) (P : Prop) : Prop :=
  match policy with
  | .comparable => False
  | .lenient => ¬ P
  | .canonical => True

/-- What holds is granted. -/
theorem Policy.grants {P : Prop} {policy : Policy} (h : P) : policy.Grants P := fun _ => h

/-- The canonical policy grants what it says. -/
theorem Policy.Grants.canonical {P : Prop} {policy : Policy} (h : policy.Grants P)
    (hcanonical : policy = .canonical) : P :=
  h (by rw [hcanonical]; nofun)

/-- What does not hold is denied by all policies that look at it. -/
theorem Policy.denies {P : Prop} {policy : Policy} (hpolicy : policy ≠ .comparable) (h : ¬ P) :
    policy.Denies P := by
  cases policy with
  | comparable => exact absurd rfl hpolicy
  | lenient => exact h
  | canonical => trivial

/-- What a part of an object is denied, the object is. -/
theorem Policy.Denies.of_part {P Q : Prop} {policy : Policy} (h : policy.Denies Q)
    (part : P → Q) : policy.Denies P := by
  cases policy with
  | comparable => exact h
  | lenient => exact fun hp => h (part hp)
  | canonical => trivial

/-! ## Sets -/

section Sets

variable {T : Type} [Keyed T] {nonNull : T → Prop} {s s' : PSet T}
  {keys : List (Keyed.Key T)}

/-- What is seen of an element is so. -/
def Matches (nonNull : T → Prop) : Option T → Seen (Keyed.Key T) → Prop
  | none, e => e = none
  | some x, e => ∃ whole : Bool, e = some (Keyed.key x, whole) ∧ (nonNull x ↔ whole = true)

/-- A set without null pointers and the keys of its elements. -/
structure Entered (nonNull : T → Prop) (s : PSet T) (keys : List (Keyed.Key T)) : Prop where
  nonNull : AllNonNull nonNull s.elems
  keys : ∀ k, k ∈ keys ↔ ∃ x, some x ∈ s.elems ∧ Keyed.key x = k

/-- Nothing is in the empty set. -/
theorem Entered.empty : Entered nonNull (PSet.empty : PSet T) [] :=
  ⟨nofun, fun _ => ⟨nofun, fun ⟨_, hx, _⟩ => absurd hx List.not_mem_nil⟩⟩

/-- An element of a key that is there is dropped. -/
theorem Entered.again (h : Entered nonNull s keys) {x y : T} (hy : some y ∈ s.elems)
    (hkey : Keyed.key y = Keyed.key x) (hs' : s.insert (some x) = .ok s') :
    Entered nonNull s' keys := by
  have old : ∀ q ∈ s'.elems, q ∈ s.elems := by
    intro q hq
    rcases PSet.mem_of_mem_insert hs' hq with rfl | hq'
    · rwa [← PSet.eq_of_key_eq (PSet.mem_insert_of_mem hs' hy) hq hkey]
    · exact hq'
  refine ⟨fun q hq => h.nonNull q (old q hq), fun k => (h.keys k).trans ?_⟩
  constructor
  · intro h
    obtain ⟨z, hz, hk⟩ := h
    exact ⟨z, PSet.mem_insert_of_mem hs' hz, hk⟩
  · intro h
    obtain ⟨z, hz, hk⟩ := h
    exact ⟨z, old _ hz, hk⟩

/-- An element of a new key that is whole is let in. -/
theorem Entered.new (h : Entered nonNull s keys) {x : T} (hx : nonNull x)
    (hs' : s.insert (some x) = .ok s') (hmem : some x ∈ s'.elems) :
    Entered nonNull s' (Keyed.key x :: keys) := by
  refine ⟨fun q hq => ?_, fun k => ?_⟩
  · rcases PSet.mem_of_mem_insert hs' hq with rfl | hq'
    · exact ⟨x, rfl, hx⟩
    · exact h.nonNull q hq'
  · rw [List.mem_cons, h.keys]
    constructor
    · rintro (rfl | ⟨z, hz, hk⟩)
      · exact ⟨x, hmem, rfl⟩
      · exact ⟨z, PSet.mem_insert_of_mem hs' hz, hk⟩
    · intro h
      obtain ⟨z, hz, hk⟩ := h
      rcases PSet.mem_of_mem_insert hs' hz with heq | hz'
      · cases heq
        exact .inl hk.symm
      · exact .inr ⟨z, hz', hk⟩

/-- So no insertion into it faults. -/
theorem Entered.isSome (h : Entered nonNull s keys) : ∀ p ∈ s.elems, p.isSome := by
  intro p hp
  obtain ⟨y, rfl, -⟩ := h.nonNull p hp
  rfl

/-- What an insertion makes of a set, if the scanner enters the element's
key and if it does not. -/
def Enters (nonNull : T → Prop) (policy : Policy) (s : PSet T) (p : Option T) :
    Except Unit (List (Keyed.Key T)) → Prop
  | .ok keys' => ∃ s', s.insert p = .ok s' ∧ Entered nonNull s' keys' ∧
      (policy = .canonical → s'.elems = s.elems ++ [p])
  | .error _ => policy = .lenient → ∀ s', s.insert p = .ok s' →
      ∃ q ∈ s'.elems, ¬ ∃ x ∈ q, nonNull x

/-- The lenient policy drops an element of a key that is there, whatever the
pointer in it, and else wants that pointer to be there. -/
theorem enters_lenient {x : T} {whole : Bool} (h : Entered nonNull s keys)
    (hwhole : nonNull x ↔ whole = true) :
    Enters nonNull .lenient s (some x) (enter .lenient keys (some (Keyed.key x, whole))) := by
  simp only [enter]
  by_cases hk : ∃ k ∈ keys, ¬ k < Keyed.key x ∧ ¬ Keyed.key x < k
  · rw [if_pos hk]
    obtain ⟨k, hmem, hle, hge⟩ := hk
    obtain ⟨y, hy, rfl⟩ := (h.keys k).mp hmem
    obtain ⟨s', hs'⟩ := PSet.insert_ok (x := x) h.isSome
    exact ⟨s', hs', h.again hy (Keyed.trichotomous _ _ hle hge) hs', nofun⟩
  · have enters : ∀ {s'}, s.insert (some x) = .ok s' → some x ∈ s'.elems := by
      intro s' hs'
      rcases PSet.mem_insert_self hs' with hmem | ⟨_, y, ⟨⟩, hy, hkey⟩
      · exact hmem
      · refine absurd ⟨_, (h.keys _).mpr ⟨y, hy, rfl⟩, ?_⟩ hk
        rw [hkey]
        exact ⟨fun hlt => Keyed.asymm _ _ hlt hlt, fun hlt => Keyed.asymm _ _ hlt hlt⟩
    rw [if_neg hk]
    cases whole with
    | true =>
      obtain ⟨s', hs'⟩ := PSet.insert_ok (x := x) h.isSome
      exact ⟨s', hs', h.new (hwhole.mpr rfl) hs' (enters hs'), nofun⟩
    | false =>
      refine fun _ s' hs' => ⟨some x, enters hs', ?_⟩
      intro h
      obtain ⟨_, ⟨⟩, hx⟩ := h
      exact Bool.false_ne_true (hwhole.mp hx)

/-- The canonical policy wants an element greater than all others, which
goes to the end. -/
theorem enters_canonical {x : T} {whole : Bool} (h : Entered nonNull s keys)
    (hwhole : nonNull x ↔ whole = true) :
    Enters nonNull .canonical s (some x) (enter .canonical keys (some (Keyed.key x, whole))) := by
  simp only [enter]
  by_cases hk : whole = true ∧ ∀ k ∈ keys, k < Keyed.key x
  · rw [if_pos hk]
    obtain ⟨s', hs', helems⟩ := PSet.insert_last (x := x) (s := s) fun p hp => by
      obtain ⟨y, rfl, -⟩ := h.nonNull p hp
      exact ⟨y, rfl, hk.2 _ ((h.keys _).mpr ⟨y, hp, rfl⟩)⟩
    have hmem : some x ∈ s'.elems := by
      rw [helems]
      exact List.mem_append_right _ List.mem_cons_self
    exact ⟨s', hs', h.new (hwhole.mpr hk.1) hs' hmem, fun _ => helems⟩
  · rw [if_neg hk]
    exact fun hpolicy => by cases hpolicy

/-- One insertion, seen by its key. -/
theorem enter_insert {policy : Policy} (hpolicy : policy ≠ .comparable) {p : Option T}
    {e : Seen (Keyed.Key T)} (h : Entered nonNull s keys) (hp : Matches nonNull p e) :
    Enters nonNull policy s p (enter policy keys e) := by
  cases p with
  | none =>
    subst hp
    intro _ s' hs'
    rcases PSet.mem_insert_self hs' with hmem | ⟨_, _, ⟨⟩, _⟩
    exact ⟨none, hmem, nofun⟩
  | some x =>
    obtain ⟨whole, rfl, hwhole⟩ := hp
    cases policy with
    | comparable => exact absurd rfl hpolicy
    | lenient => exact enters_lenient h hwhole
    | canonical => exact enters_canonical h hwhole

/-- A run of insertions, seen by its keys. -/
theorem enterAll_insertAll {policy : Policy} (hpolicy : policy ≠ .comparable)
    {ps : List (Option T)} {es : List (Seen (Keyed.Key T))}
    (hps : List.Forall₂ (Matches nonNull) ps es) : ∀ {s : PSet T} {keys : List (Keyed.Key T)},
    Entered nonNull s keys →
    match enterAll policy keys es with
    | .ok _ => ∃ s', PSet.insertAll ps s = .ok s' ∧ AllNonNull nonNull s'.elems ∧
        (policy = .canonical → s'.elems = s.elems ++ ps)
    | .error _ => policy = .lenient → ∀ s', PSet.insertAll ps s = .ok s' →
        ¬ AllNonNull nonNull s'.elems := by
  induction hps with
  | nil => exact fun h => ⟨_, rfl, h.nonNull, fun _ => (List.append_nil _).symm⟩
  | @cons p e ps es head _ ih =>
    intro s keys h
    have first := enter_insert hpolicy h head
    cases henter : enter policy keys e with
    | error _ =>
      rw [henter] at first
      simp only [enterAll, henter, bind, Except.bind]
      intro hpolicy s'' hs''
      obtain ⟨s', hs', hrest⟩ := bind_eq_ok.mp hs''
      obtain ⟨q, hq, hbad⟩ := first hpolicy s' hs'
      exact fun hall => hbad (hall q (PSet.mem_insertAll_of_mem hrest hq))
    | ok keys' =>
      rw [henter] at first
      obtain ⟨s', hs', hentered, hlast⟩ := first
      have rest := ih hentered
      simp only [enterAll, henter, PSet.insertAll, hs', bind, Except.bind]
      cases hall : enterAll policy keys' es with
      | error _ =>
        rw [hall] at rest
        exact rest
      | ok _ =>
        rw [hall] at rest
        obtain ⟨s'', hs'', hnonNull, helems⟩ := rest
        refine ⟨s'', hs'', hnonNull, fun hcanonical => ?_⟩
        rw [helems hcanonical, hlast hcanonical, List.append_assoc, List.singleton_append]

/-- Of a run of insertions that are to be comparable, the tags are known. -/
theorem enterAll_comparable {K : Type} [LT K] [DecidableLT K] (keys : List K) :
    ∀ es : List (Seen K),
      enterAll .comparable keys es = if ∀ e ∈ es, e.isSome then .ok keys else .error ()
  | [] => rfl
  | none :: es => (if_neg fun h => Bool.false_ne_true (h none List.mem_cons_self)).symm
  | some e :: es => by
    have same : (∀ e' ∈ some e :: es, e'.isSome) ↔ ∀ e' ∈ es, e'.isSome := by
      rw [List.forall_mem_cons]
      exact and_iff_right rfl
    simp only [same]
    exact enterAll_comparable keys es

/-- A pointer is there exactly if its tag is known. -/
theorem isSome_matches {ps : List (Option T)} {es : List (Seen (Keyed.Key T))}
    (hps : List.Forall₂ (Matches nonNull) ps es) :
    (∀ p ∈ ps, p.isSome) ↔ ∀ e ∈ es, e.isSome := by
  induction hps with
  | nil => exact iff_of_true nofun nofun
  | @cons p e ps es head _ ih =>
    have same : p.isSome = e.isSome := by
      cases p with
      | none =>
        cases show e = none from head
        rfl
      | some x =>
        obtain ⟨whole, rfl, -⟩ := head
        rfl
    rw [List.forall_mem_cons, List.forall_mem_cons, ih, same]

/-- The comparable policy wants the tags known of more elements than one. -/
theorem enterSet_comparable {K : Type} [LT K] [DecidableLT K] {es : List (Seen K)} :
    enterSet .comparable es = .ok () ↔ es.length ≤ 1 ∨ ∀ e ∈ es, e.isSome := by
  by_cases short : es.length ≤ 1
  · rw [enterSet, if_pos ⟨rfl, short⟩]
    exact iff_of_true rfl (.inl short)
  · rw [enterSet, if_neg fun h => short h.2, enterAll_comparable]
    by_cases known : ∀ e ∈ es, e.isSome
    · rw [if_pos known]
      exact iff_of_true rfl (.inr known)
    · rw [if_neg known]
      exact iff_of_false nofun (not_or.mpr ⟨short, known⟩)

/-- So it accepts exactly the runs of insertions that come to their end. -/
theorem enterSet_comparable_iff {ps : List (Option T)} {es : List (Seen (Keyed.Key T))}
    (hps : List.Forall₂ (Matches nonNull) ps es) :
    enterSet .comparable es = .ok () ↔ ∃ s, PSet.insertAll ps .empty = .ok s := by
  rw [enterSet_comparable, PSet.insertAll_ok_iff, isSome_matches hps, hps.length_eq]

/-- Pointers into the empty set: the comparable policy is about the
insertions, the others are about the set. -/
theorem enterSet_insertAll (policy : Policy) {ps : List (Option T)}
    {es : List (Seen (Keyed.Key T))} (hps : List.Forall₂ (Matches nonNull) ps es) :
    match enterSet policy es with
    | .ok _ => ∃ s, PSet.insertAll ps .empty = .ok s ∧
        policy.Grants (AllNonNull nonNull s.elems) ∧ (policy = .canonical → s.elems = ps)
    | .error _ => ∀ s, PSet.insertAll ps .empty = .ok s →
        policy.Denies (AllNonNull nonNull s.elems) := by
  by_cases hpolicy : policy = .comparable
  · subst hpolicy
    have accepts := enterSet_comparable_iff hps
    cases henter : enterSet .comparable es with
    | ok _ =>
      obtain ⟨s, hs⟩ := accepts.mp henter
      exact ⟨s, hs, fun h => absurd rfl h, nofun⟩
    | error _ =>
      intro s hs
      rw [accepts.mpr ⟨s, hs⟩] at henter
      cases henter
  · have inserted := enterAll_insertAll hpolicy hps Entered.empty
    rw [enterSet, if_neg fun h => hpolicy h.1]
    cases henter : enterAll policy [] es with
    | error _ =>
      rw [henter] at inserted
      intro s hs
      cases policy with
      | comparable => exact absurd rfl hpolicy
      | lenient => exact inserted rfl s hs
      | canonical => trivial
    | ok _ =>
      rw [henter] at inserted
      obtain ⟨s, hs, hall, helems⟩ := inserted
      exact ⟨s, hs, Policy.grants hall, helems⟩

end Sets

/-! ## Pointers -/

section Pointers

variable {T : Type} {policy : Policy} {nonNull : T → Prop} {serialize : T → Except Fault Bytes}
  {from_ : Read (Option T)}

/-- In the canonical form, the bytes are those the object is written as. -/
def Spells (policy : Policy) (nonNull : T → Prop) (serialize : T → Except Fault Bytes)
    (p : Option T) (w : Bytes) : Prop :=
  policy = .canonical → ∀ x ∈ p, nonNull x → serialize x = .ok w

/-- The scanner tells whether the reader answers an object, which has no
pointers, and does not reject. -/
abbrev JudgesPlain (serialize : T → Bytes) (from_ : Read (Option T)) (scan : Scanner Bool) : Prop :=
  Judges from_ scan (fun p known => p.isSome = known) (fun p _ w => ∀ x ∈ p, w = serialize x) Never

/-- The scanner tells whether the reader answers an object, and grants that
no pointer of it is null. -/
abbrev JudgesPointer (policy : Policy) (nonNull : T → Prop) (serialize : T → Except Fault Bytes)
    (from_ : Read (Option T)) (scan : Scanner Bool) : Prop :=
  Judges from_ scan (fun p known => p.isSome = known ∧ policy.Grants (∀ x ∈ p, nonNull x))
    (fun p _ => Spells policy nonNull serialize p)
    (fun p => policy.Denies (∀ x ∈ p, nonNull x))

/-- The same of a pointer that has to be there. -/
abbrev JudgesRequired (policy : Policy) (nonNull : T → Prop) (serialize : T → Except Fault Bytes)
    (from_ : Read (Option T)) (scan : Scanner Unit) : Prop :=
  Judges from_ scan (fun p _ => policy.Grants (∃ x ∈ p, nonNull x))
    (fun p _ => Spells policy nonNull serialize p)
    (fun p => policy.Denies (∃ x ∈ p, nonNull x))

/-- The scanner tells the key of the element that the reader answers, and
whether the pointer in it is there. -/
abbrev JudgesElement [Keyed T] (policy : Policy) (nonNull : T → Prop)
    (serialize : T → Except Fault Bytes) (from_ : Read (Option T))
    (scan : Scanner (Seen (Keyed.Key T))) : Prop :=
  Judges from_ scan (Matches nonNull) (fun p _ => Spells policy nonNull serialize p) Never

/-- An object without pointers has none that is null. -/
theorem JudgesPlain.pointer {serialize : T → Bytes} {scan : Scanner Bool}
    (h : JudgesPlain serialize from_ scan) :
    JudgesPointer policy (fun _ => True) (fun x => .ok (serialize x)) from_ scan :=
  h.imp (fun _ _ hp => ⟨hp, Policy.grants fun _ _ => trivial⟩)
    (fun _ _ _ _ hw _ x hx _ => congrArg Except.ok (hw x hx).symm) fun _ => False.elim

/-- A pointer that has to be there, unless the policy only wants it comparable. -/
theorem JudgesPointer.required {scan : Scanner Bool}
    (h : JudgesPointer policy nonNull serialize from_ scan) :
    JudgesRequired policy nonNull serialize from_ (required policy scan) := by
  rw [← bind_pure from_]
  refine h.bind (fun p known hp => ?_) fun p hp => Always.pure (hp.of_part ?_)
  · obtain ⟨rfl, hall⟩ := hp
    show Judges _ (if policy = .comparable ∨ p.isSome = true then _ else _) _ _ _
    split
    · next hknown =>
      refine Judges.pure (fun hpolicy => ?_) fun w hw => ?_
      · obtain ⟨x, rfl⟩ := Option.isSome_iff_exists.mp (hknown.resolve_left hpolicy)
        exact ⟨x, rfl, hall hpolicy x rfl⟩
      · rwa [List.append_nil]
    · next hunknown =>
      obtain ⟨hpolicy, hnone⟩ := not_or.mp hunknown
      refine Judges.reject (Always.pure (Policy.denies hpolicy ?_))
      rintro ⟨x, rfl, -⟩
      exact hnone rfl
  · rintro ⟨x, rfl, hx⟩ _ ⟨⟩
    exact hx

/-! ## Containers -/

variable {σ : Type} [Scalar σ]

/-- Elements written one after the other. -/
theorem serializeCounted_of_spells {ps : List (Option T)} {ws : List Bytes} {n : σ}
    (hcanonical : policy = .canonical) (hws : List.Forall₂ (Spells policy nonNull serialize) ps ws)
    (hall : AllNonNull nonNull ps) (hlength : ps.length = Scalar.toNat n) :
    serializeCounted σ serialize ps = .ok (Scalar.put n ++ ws.flatten) := by
  have elems : List.Forall₂ (fun c p => ∃ x, p = some x ∧ serialize x = .ok c) ws ps := by
    clear hlength
    induction hws with
    | nil => exact .nil
    | cons head _ ih =>
      obtain ⟨x, hx, hnonNull⟩ := hall _ List.mem_cons_self
      refine .cons ⟨x, hx, head hcanonical x hx hnonNull⟩ ?_
      exact ih fun p hp => hall p (List.mem_cons_of_mem _ hp)
  rw [serializeCounted_eq_ok]
  refine ⟨_, serializeAll_eq_ok.mpr ⟨ws, elems, rfl⟩, ?_⟩
  rw [hlength, Scalar.ofNat_toNat]

/-- The pointers of a vector are all wanted. -/
theorem judges_vector {scan : Scanner Unit}
    (h : JudgesRequired policy nonNull serialize from_ scan) :
    Judges (deserializeVector σ from_) (scanVector σ scan)
      (fun ps _ => policy.Grants (AllNonNull nonNull ps))
      (fun ps _ w => policy = .canonical → serializeCounted σ serialize ps = .ok w)
      (fun ps => policy.Denies (AllNonNull nonNull ps)) := by
  apply judges_word.then
  intro n _ heq
  subst heq
  rw [← bind_pure (repeatRead from_ _)]
  refine (Judges.repeat h _).bind (fun ps es hps => ?_) fun ps hps => ?_
  · obtain ⟨hlength, hgood⟩ := hps
    have hall : policy.Grants (AllNonNull nonNull ps) := by
      intro hpolicy
      clear hlength
      induction hgood with
      | nil => exact nofun
      | cons head _ ih => exact List.forall_mem_cons.mpr ⟨head hpolicy, ih⟩
    refine Judges.pure hall ?_
    rintro _ ⟨ws, hws, rfl⟩ _ rfl hcanonical
    rw [List.append_nil]
    exact serializeCounted_of_spells hcanonical hws (hall.canonical hcanonical) hlength
  · obtain ⟨p, hp, hbad⟩ := hps
    exact Always.pure (hbad.of_part fun hall => hall p hp)

/-- The elements of a set are wanted as its policy says. -/
theorem judges_list [Keyed T] {scan : Scanner (Seen (Keyed.Key T))}
    (forward : Advances (fun _ => False) from_)
    (h : JudgesElement policy nonNull serialize from_ scan) :
    Judges (deserializeList σ from_) (scanList policy σ scan)
      (fun s _ => policy.Grants (AllNonNull nonNull s.elems))
      (fun s _ w => policy = .canonical → serializeList σ serialize s = .ok w)
      (fun s => policy.Denies (AllNonNull nonNull s.elems)) := by
  rw [deserializeList_eq forward, deserializeVector, bind_assoc]
  apply judges_word.then
  intro n _ heq
  subst heq
  refine (Judges.repeat h _).bind (fun ps es hps => ?_) fun ps hps => ?_
  · obtain ⟨hlength, hmatches⟩ := hps
    have run : Judges (lift (PSet.insertAll ps .empty)) (lift (enterSet policy es))
        (fun s _ => policy.Grants (AllNonNull nonNull s.elems))
        (fun s _ w => w = [] ∧ (policy = .canonical → s.elems = ps))
        (fun s => policy.Denies (AllNonNull nonNull s.elems)) := by
      have inserted := enterSet_insertAll policy hmatches
      apply Judges.lift
      cases henter : enterSet policy es with
      | error _ =>
        rw [henter] at inserted
        exact inserted
      | ok _ =>
        rw [henter] at inserted
        obtain ⟨s, hs, hall, helems⟩ := inserted
        exact ⟨s, hs, hall, rfl, helems⟩
    refine run.imp (fun _ _ => id) ?_ fun _ => id
    rintro s _ _ hall ⟨rfl, helems⟩ _ ⟨ws, hws, rfl⟩ _ rfl hcanonical
    have nonNull := hall.canonical hcanonical
    rw [List.append_nil, serializeList, helems hcanonical]
    exact serializeCounted_of_spells hcanonical hws (helems hcanonical ▸ nonNull) hlength
  · obtain ⟨_, _, hbad⟩ := hps
    exact hbad.elim

end Pointers

/-! ## Tagged objects -/

theorem judges_array (n : Nat) : Judges (readArray n) (skip n) (fun a _ => a.length = n)
    (fun a _ w => w = a) Never := judges_raw List.length_replicate

/-- An address is there exactly if its tag is known. -/
theorem judges_address : Judges Address.fromQDataStream scanAddress
    (fun a known => a.isSome = known) (fun a _ w => ∀ x ∈ a, w = x.serialize) Never := by
  have body : ∀ type, Judges (Address.ofQDataStream type >>= fun a => pure (some a))
      (skip 32 >>= fun _ => pure true) (fun a known => a.isSome = known)
      (fun a _ w => ∀ w₁, w₁ = Scalar.put type.toUInt8 → ∀ x ∈ a, w₁ ++ w = x.serialize)
      Never := by
    intro type
    simp only [Address.ofQDataStream, bind_assoc, pure_bind]
    refine (judges_array 32).then fun addrhash _ _ => Judges.pure rfl ?_
    rintro _ rfl _ rfl _ ⟨⟩
    rw [List.append_nil]
    rfl
  apply judges_word.then
  intro type _ heq
  subst heq
  by_cases hnft : type = Address.Types.nft.toUInt8
  · subst hnft
    exact body .nft
  by_cases halias : type = Address.Types.alias.toUInt8
  · subst halias
    exact body .alias
  by_cases hed : type = Address.Types.ed25519.toUInt8
  · subst hed
    exact body .ed25519
  rw [if_neg hnft, if_neg halias, if_neg hed, if_neg (by simp [hnft, halias, hed])]
  exact Judges.pure rfl nofun

variable {policy : Policy}

/-- An element that is a tag and an address. -/
theorem judges_holder {T : Type} [Keyed T] {nonNull : T → Prop}
    {serialize : T → Except Fault Bytes} {key : Keyed.Key T} {tag : UInt8}
    (kind : Option Address → T) (hkey : ∀ a, Keyed.key (kind a) = key)
    (present : ∀ a, nonNull (kind a) ↔ a.isSome)
    (written : ∀ a, serialize (kind (some a)) = .ok (Scalar.put tag ++ a.serialize)) :
    Judges (Address.fromQDataStream >>= fun a => pure (some (kind a))) (scanHolder key)
      (Matches nonNull)
      (fun p _ w => ∀ w₁, w₁ = Scalar.put tag → Spells policy nonNull serialize p (w₁ ++ w))
      Never := by
  refine judges_address.then fun a known ha => Judges.pure ⟨known, ?_, ?_⟩ ?_
  · rw [hkey]
  · rw [present, ha]
  · rintro w hw _ rfl - _ ⟨⟩ hnonNull
    obtain ⟨x, rfl⟩ := Option.isSome_iff_exists.mp ((present a).mp hnonNull)
    rw [written, hw x rfl, List.append_nil]

/-- What is seen of an unlock condition is its type and whether its address is
there. -/
theorem judges_unlockCondition : JudgesElement policy UnlockCondition.NonNull
    UnlockCondition.serialize UnlockCondition.fromQDataStream scanUnlockCondition := by
  apply judges_word.then
  intro type _ heq
  subst heq
  refine Judges.ite ?_ fun _ => Judges.ite ?_ fun _ => Judges.ite ?_ fun _ => ?_
  · intro heq
    subst heq
    simp only [UnlockCondition.expirationOfQDataStream, scanHolder, bind_assoc, pure_bind]
    refine judges_address.then fun a known ha => judges_scalar.then fun t _ _ =>
      Judges.pure ⟨known, rfl, ?_⟩ ?_
    · rw [← ha]
      rfl
    · rintro _ rfl w hw _ rfl - _ ⟨⟩ present
      obtain ⟨x, rfl⟩ := Option.isSome_iff_exists.mp present
      rw [hw x rfl, List.append_nil, ← List.append_assoc]
      rfl
  · intro heq
    subst heq
    simp only [UnlockCondition.timelockOfQDataStream, bind_assoc, pure_bind]
    refine judges_scalar.then fun t _ _ => Judges.pure ⟨true, rfl, iff_of_true trivial rfl⟩ ?_
    rintro _ rfl _ rfl - _ ⟨⟩ -
    rw [List.append_nil]
    rfl
  · intro heq
    subst heq
    simp only [UnlockCondition.storageDepositReturnOfQDataStream, scanHolder, bind_assoc, pure_bind]
    refine judges_address.then fun a known ha => judges_scalar.then fun t _ _ =>
      Judges.pure ⟨known, rfl, ?_⟩ ?_
    · rw [← ha]
      rfl
    · rintro _ rfl w hw _ rfl - _ ⟨⟩ present
      obtain ⟨x, rfl⟩ := Option.isSome_iff_exists.mp present
      rw [hw x rfl, List.append_nil, ← List.append_assoc]
      rfl
  · simp only [UnlockCondition.addressOfQDataStream, bind_assoc, pure_bind]
    by_cases ha : type = UnlockCondition.Types.address.toUInt8
    · subst ha
      exact judges_holder UnlockCondition.address (fun _ => rfl) (fun _ => Iff.rfl) fun _ => rfl
    by_cases hs : type = UnlockCondition.Types.stateControllerAddress.toUInt8
    · subst hs
      exact judges_holder UnlockCondition.stateControllerAddress (fun _ => rfl)
        (fun _ => Iff.rfl) fun _ => rfl
    by_cases hg : type = UnlockCondition.Types.governorAddress.toUInt8
    · subst hg
      exact judges_holder UnlockCondition.governorAddress (fun _ => rfl)
        (fun _ => Iff.rfl) fun _ => rfl
    by_cases hi : type = UnlockCondition.Types.immutableAliasAddress.toUInt8
    · subst hi
      exact judges_holder UnlockCondition.immutableAliasAddress (fun _ => rfl)
        (fun _ => Iff.rfl) fun _ => rfl
    rw [if_neg ha, if_neg hs, if_neg hg, if_neg hi, if_neg (by simp [ha, hs, hg, hi])]
    exact Judges.pure rfl fun _ _ _ => nofun

theorem judges_input : JudgesPlain Input.serialize Input.fromQDataStream scanInput := by
  apply judges_word.then
  intro type _ heq
  subst heq
  refine Judges.ite ?_ fun _ => Judges.pure rfl fun _ _ => nofun
  intro heq
  subst heq
  simp only [Input.ofQDataStream, bind_assoc, pure_bind]
  refine (judges_array 32).then fun transactionId _ _ =>
    judges_scalar.then fun index _ _ => Judges.pure rfl ?_
  rintro _ rfl _ rfl _ rfl _ ⟨⟩
  rw [List.append_nil, ← List.append_assoc]
  rfl

theorem judges_signature :
    JudgesPlain Signature.serialize Signature.fromQDataStream scanSignature := by
  apply judges_word.then
  intro type _ heq
  subst heq
  refine Judges.ite ?_ fun _ => Judges.pure rfl fun _ _ => nofun
  intro heq
  subst heq
  simp only [Signature.ofQDataStream, bind_assoc, pure_bind]
  refine (judges_array 32).then fun publicKey _ _ =>
    (judges_array 64).then fun signature _ _ => Judges.pure rfl ?_
  rintro _ rfl _ rfl _ rfl _ ⟨⟩
  rw [List.append_nil, ← List.append_assoc]
  rfl

/-- Only a signature unlock has a pointer. -/
theorem judges_unlock :
    JudgesPointer policy Unlock.NonNull Unlock.serialize Unlock.fromQDataStream
      (scanUnlock policy) := by
  have index : ∀ kind : UInt16 → Unlock, (∀ i, (kind i).NonNull) →
      (∀ i, (kind i).serialize = .ok (Scalar.put (kind 0).type.toUInt8 ++ Scalar.put i)) →
      Judges (Unlock.indexOfQDataStream kind >>= fun u => pure (some u))
        (skip 2 >>= fun _ => pure true)
        (fun p known => p.isSome = known ∧ policy.Grants (∀ x ∈ p, x.NonNull))
        (fun p _ w => ∀ w₁, w₁ = Scalar.put (kind 0).type.toUInt8 →
          Spells policy Unlock.NonNull Unlock.serialize p (w₁ ++ w))
        (fun p => policy.Denies (∀ x ∈ p, x.NonNull)) := by
    intro kind nonNull written
    simp only [Unlock.indexOfQDataStream, bind_assoc, pure_bind]
    refine judges_scalar.then fun i _ _ => Judges.pure ⟨rfl, Policy.grants ?_⟩ ?_
    · intro _ hmem
      cases hmem
      exact nonNull i
    · rintro _ rfl _ rfl - _ ⟨⟩ -
      rw [List.append_nil, written]
  apply judges_word.then
  intro type _ heq
  subst heq
  refine Judges.ite ?_ fun _ => ?_
  · intro heq
    subst heq
    simp only [Unlock.signatureOfQDataStream, bind_assoc, pure_bind]
    have signature : JudgesRequired policy _ _ _ _ := judges_signature.pointer.required
    refine signature.bind (fun s _ hs => ?_) ?_
    · refine Judges.pure ⟨rfl, fun hpolicy => ?_⟩ ?_
      · obtain ⟨x, rfl, -⟩ := hs hpolicy
        intro _ hmem
        cases hmem
        rfl
      · rintro w hw _ rfl hcanonical _ ⟨⟩ -
        obtain ⟨x, rfl, -⟩ := hs.canonical hcanonical
        cases hw hcanonical x rfl trivial
        rw [List.append_nil]
        rfl
    · refine fun s hs => Always.pure (hs.of_part fun hall => ?_)
      obtain ⟨x, rfl⟩ := Option.isSome_iff_exists.mp (hall _ rfl)
      exact ⟨x, rfl, trivial⟩
  · by_cases hr : type = Unlock.Types.reference.toUInt8
    · subst hr
      exact index .reference (fun _ => trivial) fun _ => rfl
    by_cases ha : type = Unlock.Types.alias.toUInt8
    · subst ha
      exact index .alias (fun _ => trivial) fun _ => rfl
    by_cases hn : type = Unlock.Types.nft.toUInt8
    · subst hn
      exact index .nft (fun _ => trivial) fun _ => rfl
    rw [if_neg hr, if_neg ha, if_neg hn, if_neg (by simp [hr, ha, hn])]
    exact Judges.pure ⟨rfl, Policy.grants of_mem_none⟩ fun _ _ _ => nofun

section Lawful

variable [Platform] [LawfulPlatform]

theorem judges_flArray {σ : Type} [Scalar σ] : Judges (readFlArray σ) (skipFlArray σ)
    (fun _ _ => True) (fun a _ w => w = writeFlArray σ a) Never := by
  apply judges_word.then
  intro size _ heq
  subst heq
  rw [← bind_pure (readRaw _), ← bind_pure (skip _)]
  refine (judges_raw (LawfulPlatform.uninitialized_length _)).then fun a _ hlength =>
    Judges.pure trivial ?_
  rintro _ rfl _ rfl
  rw [List.append_nil, writeFlArray, hlength, Scalar.ofNat_toNat]

theorem judges_quint256 : Judges readQuint256 (skip 32) (fun _ _ => True)
    (fun q _ w => w = Platform.quint256Bytes q) Never := by
  rw [← bind_pure (skip 32)]
  refine (judges_array 32).then fun raw _ hlength => Judges.pure trivial ?_
  rintro _ rfl
  rw [List.append_nil, LawfulPlatform.quint256Bytes_ofBytes _ hlength]

/-- What is seen of a feature is its type and whether its address is there. -/
theorem judges_feature : JudgesElement policy Feature.NonNull Feature.serialize
    Feature.fromQDataStream scanFeature := by
  apply judges_word.then
  intro type _ heq
  subst heq
  refine Judges.ite ?_ fun _ => Judges.ite ?_ fun _ => ?_
  · intro heq
    subst heq
    simp only [Feature.metadataOfQDataStream, bind_assoc, pure_bind]
    refine judges_flArray.then fun data _ _ => Judges.pure ⟨true, rfl, iff_of_true trivial rfl⟩ ?_
    rintro _ rfl _ rfl - _ ⟨⟩ -
    rw [List.append_nil]
    rfl
  · intro heq
    subst heq
    simp only [Feature.tagOfQDataStream, bind_assoc, pure_bind]
    refine judges_flArray.then fun data _ _ => Judges.pure ⟨true, rfl, iff_of_true trivial rfl⟩ ?_
    rintro _ rfl _ rfl - _ ⟨⟩ -
    rw [List.append_nil]
    rfl
  · simp only [Feature.senderOfQDataStream, Feature.issuerOfQDataStream, bind_assoc, pure_bind]
    by_cases hs : type = Feature.Types.sender.toUInt8
    · subst hs
      exact judges_holder Feature.sender (fun _ => rfl) (fun _ => Iff.rfl) fun _ => rfl
    by_cases hi : type = Feature.Types.issuer.toUInt8
    · subst hi
      exact judges_holder Feature.issuer (fun _ => rfl) (fun _ => Iff.rfl) fun _ => rfl
    rw [if_neg hs, if_neg hi, if_neg (by simp [hs, hi])]
    exact Judges.pure rfl fun _ _ _ => nofun

/-- What is seen of a native token is its id. -/
theorem judges_nativeToken : JudgesElement policy (fun _ => True)
    (fun t => .ok t.serialize) NativeToken.fromQDataStream scanNativeToken := by
  simp only [NativeToken.fromQDataStream, NativeToken.ofQDataStream, bind_assoc, pure_bind]
  apply (judges_bytes List.length_replicate).then
  rintro tokenId _ ⟨rfl, -⟩
  refine judges_quint256.then fun amount _ _ =>
    Judges.pure ⟨true, rfl, iff_of_true trivial rfl⟩ ?_
  rintro _ rfl _ rfl - _ ⟨⟩ -
  rw [List.append_nil]
  rfl

theorem judges_tokenScheme :
    JudgesPlain TokenScheme.serialize TokenScheme.fromQDataStream scanTokenScheme := by
  apply judges_word.then
  intro type _ heq
  subst heq
  refine Judges.ite ?_ fun _ => Judges.pure rfl fun _ _ => nofun
  intro heq
  subst heq
  simp only [TokenScheme.ofQDataStream, bind_assoc, pure_bind]
  refine judges_quint256.then fun minted _ _ => judges_quint256.then fun melted _ _ =>
    judges_quint256.then fun maximum _ _ => Judges.pure rfl ?_
  rintro _ rfl _ rfl _ rfl _ rfl _ ⟨⟩
  rw [List.append_nil, ← List.append_assoc, ← List.append_assoc]
  rfl

/-! ## Outputs -/

/-- The scanner of a set judges its decoder. -/
abbrev JudgesSet {T : Type} [Keyed T] (policy : Policy) (nonNull : T → Prop)
    (serialize : PSet T → Except Fault Bytes) (get : Read (PSet T)) (scan : Scanner Unit) : Prop :=
  Judges get scan (fun s _ => policy.Grants (AllNonNull nonNull s.elems))
    (fun s _ w => policy = .canonical → serialize s = .ok w)
    (fun s => policy.Denies (AllNonNull nonNull s.elems))

theorem judges_nativeTokens : JudgesSet policy (fun _ => True) Output.serializeNativeTokens
    Output.deserializeNativeTokens (scanList policy UInt8 scanNativeToken) :=
  judges_list advances_nativeToken judges_nativeToken

omit [Platform] [LawfulPlatform] in
theorem judges_unlockConditions : JudgesSet policy UnlockCondition.NonNull
    Output.serializeUnlockConditions Output.deserializeUnlockConditions
    (scanList policy UInt8 scanUnlockCondition) :=
  judges_list advances_unlockCondition judges_unlockCondition

theorem judges_features : JudgesSet policy Feature.NonNull Output.serializeFeatures
    Output.deserializeFeatures (scanList policy UInt8 scanFeature) :=
  judges_list advances_feature judges_feature

/-- The sets every output but a basic one closes with. -/
theorem judges_sets (kind : Output.Kind) (type : Output.Types) {amount : UInt64}
    {nativeTokens : PSet NativeToken} (hkind : policy.Grants kind.NonNull)
    (hnativeTokens : policy.Grants (AllNonNull (fun _ => True) nativeTokens.elems))
    (hlast : ∀ o : Output, o.kind = kind →
      o.serializeLast = Output.serializeFeatures o.immutableFeatures ∧ o.type = type) :
    Judges (do
        let unlockConditions ← Output.deserializeUnlockConditions
        let features ← Output.deserializeFeatures
        let immutableFeatures ← Output.deserializeFeatures
        return some ⟨kind, amount, unlockConditions, features, immutableFeatures, nativeTokens⟩)
      (scanSets policy true)
      (fun p known => p.isSome = known ∧ policy.Grants (∀ o ∈ p, o.NonNull))
      (fun p _ w => ∀ tokens fields, (policy = .canonical →
          Output.serializeNativeTokens nativeTokens = .ok tokens ∧ kind.serialize = .ok fields) →
        Spells policy Output.NonNull Output.serialize p
          (Scalar.put type.toUInt8 ++ (Scalar.put amount ++ (tokens ++ (fields ++ w)))))
      (fun p => policy.Denies (∀ o ∈ p, o.NonNull)) := by
  refine judges_unlockConditions.bind (fun unlockConditions _ hc => ?_) fun s hs =>
    Always.behind fun _ => Always.behind fun _ =>
      Always.pure (hs.of_part fun hall => (hall _ rfl).unlockConditions)
  refine judges_features.bind (fun features _ hf => ?_) fun s hs =>
    Always.behind fun _ => Always.pure (hs.of_part fun hall => (hall _ rfl).features)
  refine judges_features.bind (fun immutableFeatures _ hif => ?_) fun s hs =>
    Always.pure (hs.of_part fun hall => (hall _ rfl).immutableFeatures)
  refine Judges.pure ⟨rfl, fun hpolicy => ?_⟩ ?_
  · intro _ hmem
    cases hmem
    exact ⟨hkind hpolicy, hc hpolicy, hf hpolicy, hif hpolicy, hnativeTokens hpolicy⟩
  · rintro w₃ h₃ w₂ h₂ w₁ h₁ tokens fields written hcanonical o ho -
    obtain ⟨htokens, hfields⟩ := written hcanonical
    cases ho
    obtain ⟨hl, htype⟩ := hlast ⟨kind, amount, unlockConditions, features, immutableFeatures,
      nativeTokens⟩ rfl
    rw [Output.serialize_eq_ok]
    refine ⟨tokens, fields, w₁, w₂, w₃, htokens, hfields, h₁ hcanonical, h₂ hcanonical, ?_, ?_⟩
    · rw [hl]
      exact h₃ hcanonical
    · rw [htype, List.append_nil]

/-- The scanner of one kind of output, behind its tag. -/
abbrev JudgesKind (policy : Policy) (type : Output.Types) (from_ : Read Output)
    (scan : Scanner Bool) : Prop :=
  Judges (from_ >>= fun o => pure (some o)) scan
    (fun p known => p.isSome = known ∧ policy.Grants (∀ o ∈ p, o.NonNull))
    (fun p _ w => ∀ tag, tag = Scalar.put type.toUInt8 →
      Spells policy Output.NonNull Output.serialize p (tag ++ w))
    (fun p => policy.Denies (∀ o ∈ p, o.NonNull))

theorem judges_basic :
    JudgesKind policy .basic Output.basicOfQDataStream (do
      skip 8
      scanList policy UInt8 scanNativeToken
      scanSets policy false) := by
  unfold JudgesKind
  simp only [Output.basicOfQDataStream, scanSets, bind_assoc, pure_bind]
  refine judges_scalar.then fun amount _ _ => ?_
  refine judges_nativeTokens.bind (fun nativeTokens _ ht => ?_) fun s hs =>
    Always.behind fun _ => Always.behind fun _ =>
      Always.pure (hs.of_part fun hall => (hall _ rfl).nativeTokens)
  refine judges_unlockConditions.bind (fun unlockConditions _ hc => ?_) fun s hs =>
    Always.behind fun _ => Always.pure (hs.of_part fun hall => (hall _ rfl).unlockConditions)
  refine judges_features.bind (fun features _ hf => ?_) fun s hs =>
    Always.pure (hs.of_part fun hall => (hall _ rfl).features)
  refine Judges.pure ⟨rfl, fun hpolicy => ?_⟩ ?_
  · intro _ hmem
    cases hmem
    exact ⟨trivial, hc hpolicy, hf hpolicy, nofun, ht hpolicy⟩
  · rintro w₃ h₃ w₂ h₂ w₁ h₁ _ rfl _ rfl hcanonical o ho -
    cases ho
    rw [Output.serialize_eq_ok]
    exact ⟨w₁, [], w₂, w₃, [], h₁ hcanonical, rfl, h₂ hcanonical, h₃ hcanonical, rfl, rfl⟩

theorem judges_nft :
    JudgesKind policy .nft Output.nftOfQDataStream (do
      skip 8
      scanList policy UInt8 scanNativeToken
      skip 32
      scanSets policy true) := by
  unfold JudgesKind
  simp only [Output.nftOfQDataStream, bind_assoc, pure_bind]
  refine judges_scalar.then fun amount _ _ => ?_
  refine judges_nativeTokens.bind (fun nativeTokens _ ht => ?_) fun s hs =>
    Always.behind fun _ => Always.behind fun _ => Always.behind fun _ => Always.behind fun _ =>
      Always.pure (hs.of_part fun hall => (hall _ rfl).nativeTokens)
  refine (judges_array 32).then fun nftId _ _ => ?_
  refine (judges_sets (.nft nftId) .nft (Policy.grants trivial) ht ?_).imp (fun _ _ => id) ?_ fun _ => id
  · rintro ⟨_, _, _, _, _, _⟩ rfl
    exact ⟨rfl, rfl⟩
  · rintro p _ w - spells _ rfl tokens htokens _ rfl _ rfl
    exact spells tokens _ fun hcanonical => ⟨htokens hcanonical, rfl⟩

theorem judges_foundry :
    JudgesKind policy .foundry Output.foundryOfQDataStream (do
      skip 8
      scanList policy UInt8 scanNativeToken
      skip 4
      required policy scanTokenScheme
      scanSets policy true) := by
  unfold JudgesKind
  simp only [Output.foundryOfQDataStream, bind_assoc, pure_bind]
  refine judges_scalar.then fun amount _ _ => ?_
  refine judges_nativeTokens.bind (fun nativeTokens _ ht => ?_) fun s hs =>
    Always.behind fun _ => Always.behind fun _ => Always.behind fun _ => Always.behind fun _ =>
      Always.behind fun _ => Always.pure (hs.of_part fun hall => (hall _ rfl).nativeTokens)
  refine judges_scalar.then fun serialNumber _ _ => ?_
  have scheme : JudgesRequired policy _ _ _ _ := judges_tokenScheme.pointer.required
  refine scheme.bind (fun tokenScheme _ hscheme => ?_) fun s hs =>
    Always.behind fun _ => Always.behind fun _ => Always.behind fun _ =>
      Always.pure (hs.of_part fun hall => ?_)
  · have present : policy.Grants (Output.Kind.foundry tokenScheme serialNumber).NonNull := by
      intro hpolicy
      obtain ⟨x, rfl, -⟩ := hscheme hpolicy
      rfl
    refine (judges_sets (.foundry tokenScheme serialNumber) .foundry present ht ?_).imp
      (fun _ _ => id) ?_ fun _ => id
    · rintro ⟨_, _, _, _, _, _⟩ rfl
      exact ⟨rfl, rfl⟩
    · rintro p _ w - spells scheme written _ rfl tokens htokens _ rfl _ rfl hcanonical
      obtain ⟨tokenScheme, rfl, -⟩ := hscheme.canonical hcanonical
      have same : tokenScheme.serialize = scheme :=
        Except.ok.inj (written hcanonical _ rfl trivial)
      have := spells tokens (Scalar.put serialNumber ++ scheme)
        (fun hcanonical => ⟨htokens hcanonical, same ▸ rfl⟩) hcanonical
      rwa [List.append_assoc] at this
  · obtain ⟨x, rfl⟩ := Option.isSome_iff_exists.mp (hall _ rfl).kind
    exact ⟨x, rfl, trivial⟩

theorem judges_alias :
    JudgesKind policy .alias Output.aliasOfQDataStream (do
      skip 8
      scanList policy UInt8 scanNativeToken
      skip 32
      skip 4
      skipFlArray UInt16
      skip 4
      scanSets policy true) := by
  unfold JudgesKind
  simp only [Output.aliasOfQDataStream, bind_assoc, pure_bind]
  refine judges_scalar.then fun amount _ _ => ?_
  refine judges_nativeTokens.bind (fun nativeTokens _ ht => ?_) fun s hs =>
    Always.behind fun _ => Always.behind fun _ => Always.behind fun _ => Always.behind fun _ =>
      Always.behind fun _ => Always.behind fun _ => Always.behind fun _ =>
        Always.pure (hs.of_part fun hall => (hall _ rfl).nativeTokens)
  refine (judges_array 32).then ?_
  intro aliasId _ _
  refine judges_scalar.then ?_
  intro stateIndex _ _
  refine judges_flArray.then ?_
  intro stateMetadata _ _
  refine judges_scalar.then ?_
  intro foundryCounter _ _
  refine (judges_sets (.alias aliasId stateIndex foundryCounter stateMetadata) .alias
    (Policy.grants trivial) ht ?_).imp (fun _ _ => id) ?_ fun _ => id
  · rintro ⟨_, _, _, _, _, _⟩ rfl
    exact ⟨rfl, rfl⟩
  · rintro p _ w - spells _ rfl _ rfl _ rfl _ rfl tokens htokens _ rfl _ rfl
    have := spells tokens _ fun hcanonical => ⟨htokens hcanonical, rfl⟩
    simpa only [List.append_assoc] using this

/-- Outputs, by their kind. -/
theorem judges_output : JudgesPointer policy Output.NonNull Output.serialize
    Output.fromQDataStream (scanOutput policy) := by
  apply judges_word.then
  intro type _ heq
  subst heq
  refine Judges.ite ?_ fun _ => Judges.ite ?_ fun _ => Judges.ite ?_ fun _ => Judges.ite ?_ fun _ =>
    Judges.pure ⟨rfl, Policy.grants of_mem_none⟩ fun _ _ _ => nofun
  · intro heq
    subst heq
    exact judges_basic
  · intro heq
    subst heq
    exact judges_nft
  · intro heq
    subst heq
    exact judges_foundry
  · intro heq
    subst heq
    exact judges_alias

/-! ## Payloads -/

section Payloads

variable {payloadFrom : Read (Option Payload)} {scanPayload : Scanner Bool}

omit [LawfulPlatform] in
/-- The slot of an essence, which has to be empty in the canonical form. -/
theorem judges_embedded
    (h : JudgesPointer policy Payload.NonNull Payload.serialize payloadFrom scanPayload) :
    Judges (readSlot payloadFrom) (scanEmbedded policy scanPayload)
      (fun p _ => policy.Grants (∀ x ∈ p, x.NonNull))
      (fun p _ w => policy = .canonical → p = none ∧ w = Scalar.put (0 : UInt32))
      (fun p => policy.Denies (∀ x ∈ p, x.NonNull)) := by
  apply judges_word.then
  intro length _ heq
  subst heq
  refine Judges.ite (fun _ => ?_) fun hzero => ?_
  · have walked : Judges payloadFrom (scanPayload >>= fun _ => pure ())
        (fun p _ => policy.Grants (∀ x ∈ p, x.NonNull)) (fun _ _ _ => True)
        (fun p => policy.Denies (∀ x ∈ p, x.NonNull)) := by
      rw [← bind_pure payloadFrom]
      exact h.bind (fun p _ hp => Judges.pure hp.2 fun _ _ => trivial) fun p hp => Always.pure hp
    cases policy with
    | comparable => exact walked.imp (fun _ _ => id) (fun _ _ _ _ _ => nofun) fun _ => id
    | lenient => exact walked.imp (fun _ _ => id) (fun _ _ _ _ _ => nofun) fun _ => id
    | canonical => exact Judges.reject fun _ _ _ _ => trivial
  · refine Judges.pure (Policy.grants of_mem_none) ?_
    rintro _ rfl _
    rw [List.append_nil, not_ne_iff.mp hzero]
    exact ⟨rfl, rfl⟩

omit [LawfulPlatform] in
/-- The slot of a block. -/
theorem judges_slot
    (h : JudgesPointer policy Payload.NonNull Payload.serialize payloadFrom scanPayload) :
    Judges (readSlot payloadFrom) (scanSlot policy scanPayload)
      (fun p _ => policy.Grants (∀ x ∈ p, x.NonNull))
      (fun p _ w => policy = .canonical → Block.serializeSlot p = .ok w)
      (fun p => policy.Denies (∀ x ∈ p, x.NonNull)) := by
  apply judges_word.then
  intro length _ heq
  subst heq
  refine Judges.ite (fun _ => ?_) fun hzero => ?_
  · rw [← bind_pure payloadFrom]
    refine h.measured.bind (fun p seen hp => ?_) fun p hp => Always.pure hp
    obtain ⟨known, size⟩ := seen
    cases policy with
    | comparable => exact Judges.pure hp.2 fun _ _ _ _ => nofun
    | lenient => exact Judges.pure hp.2 fun _ _ _ _ => nofun
    | canonical =>
      show Judges _ (if known = true ∧ Scalar.ofNat size = length then _ else _) _ _ _
      split
      · next hsize =>
        obtain ⟨rfl, hsize⟩ := hsize
        obtain ⟨x, rfl⟩ := Option.isSome_iff_exists.mp hp.1
        refine Judges.pure hp.2 ?_
        rintro w ⟨hw, hlength⟩ _ rfl hcanonical
        have written := hw hcanonical x rfl (hp.2.canonical hcanonical x rfl)
        have same : (Scalar.ofNat w.length : UInt32) = length := by
          rw [← hlength]
          exact hsize
        rw [Block.serializeSlot, written, List.append_nil]
        show Except.ok (lengthPrefixed w) = _
        rw [lengthPrefixed, same]
      · exact Judges.reject fun _ _ _ _ => trivial
  · refine Judges.pure (Policy.grants of_mem_none) ?_
    rintro _ rfl _
    rw [List.append_nil, not_ne_iff.mp hzero]
    rfl

/-- Essences, given the scanner of embedded payloads. -/
theorem judges_essence
    (h : JudgesPointer policy Payload.NonNull Payload.serialize payloadFrom scanPayload) :
    JudgesPointer policy Essence.NonNull Essence.serialize (Essence.fromQDataStream payloadFrom)
      (scanEssence policy scanPayload) := by
  apply judges_word.then
  intro type _ heq
  subst heq
  refine Judges.ite ?_ fun _ =>
    Judges.pure ⟨rfl, Policy.grants of_mem_none⟩ fun _ _ _ => nofun
  intro heq
  subst heq
  simp only [Essence.ofQDataStream, bind_assoc, pure_bind]
  apply judges_scalar.then
  intro networkId _ _
  have input : JudgesRequired policy _ _ _ _ := judges_input.pointer.required
  apply (judges_vector input).bind
  · intro inputs _ hinputs
    apply (judges_array 32).then
    intro inputsCommitment _ _
    apply (judges_vector judges_output.required).bind
    · intro outputs _ houtputs
      apply (judges_embedded h).bind
      · intro payload _ hpayload
        refine Judges.pure ⟨rfl, fun hpolicy => ?_⟩ ?_
        · intro _ hmem
          cases hmem
          exact Essence.nonNull_transaction.mpr
            ⟨hinputs hpolicy, houtputs hpolicy, hpayload hpolicy⟩
        · rintro slot hslot outputs' houtputs' _ rfl inputs' hinputs' _ rfl _ rfl hcanonical _ ⟨⟩ -
          obtain ⟨rfl, rfl⟩ := hslot hcanonical
          rw [Essence.serialize_eq_ok, List.append_nil]
          exact ⟨_, _, [], hinputs' hcanonical, houtputs' hcanonical, rfl, rfl⟩
      · intro payload hbad
        refine Always.pure (hbad.of_part fun hall => ?_)
        exact (Essence.nonNull_transaction.mp (hall _ rfl)).2.2
    · intro outputs hbad
      refine Always.behind fun _ => Always.pure (hbad.of_part fun hall => ?_)
      exact (Essence.nonNull_transaction.mp (hall _ rfl)).2.1
  · intro inputs hbad
    refine Always.behind fun _ => Always.behind fun _ => Always.behind fun _ =>
      Always.pure (hbad.of_part fun hall => ?_)
    exact (Essence.nonNull_transaction.mp (hall _ rfl)).1

/-- Payloads, given the scanner of embedded payloads. -/
theorem judges_dispatch
    (h : JudgesPointer policy Payload.NonNull Payload.serialize payloadFrom scanPayload) :
    JudgesPointer policy Payload.NonNull Payload.serialize (Payload.dispatchQDataStream payloadFrom)
      (scanPayloadWith policy scanPayload) := by
  apply judges_word.then
  intro type _ heq
  subst heq
  refine Judges.ite ?_ fun _ => Judges.ite ?_ fun _ =>
    Judges.pure ⟨rfl, Policy.grants of_mem_none⟩ fun _ _ _ _ h => by cases h
  · intro heq
    subst heq
    simp only [Payload.transactionOfQDataStream, bind_assoc, pure_bind]
    apply (judges_essence h).required.bind
    · intro essence _ hessence
      have unlock : JudgesRequired policy _ _ _ _ := judges_unlock.required
      apply (judges_vector unlock).bind
      · intro unlocks _ hunlocks
        refine Judges.pure ⟨rfl, fun hpolicy => ?_⟩ ?_
        · intro _ hmem
          cases hmem
          exact Payload.nonNull_transaction.mpr ⟨hessence hpolicy, hunlocks hpolicy⟩
        · rintro unlocks' hunlocks' essence' hessence' _ rfl hcanonical _ ⟨⟩ -
          obtain ⟨e, rfl, he⟩ := hessence.canonical hcanonical
          rw [Payload.serialize_eq_ok, List.append_nil]
          exact ⟨e, _, _, rfl, hessence' hcanonical e rfl he, hunlocks' hcanonical, rfl⟩
      · intro unlocks hbad
        refine Always.pure (hbad.of_part fun hall => ?_)
        exact (Payload.nonNull_transaction.mp (hall _ rfl)).2
    · intro essence hbad
      refine Always.behind fun _ => Always.pure (hbad.of_part fun hall => ?_)
      exact (Payload.nonNull_transaction.mp (hall _ rfl)).1
  · intro heq
    subst heq
    simp only [Payload.taggedDataOfQDataStream, bind_assoc, pure_bind]
    apply judges_flArray.then
    intro tag _ _
    apply judges_flArray.then
    intro data _ _
    refine Judges.pure ⟨rfl, Policy.grants ?_⟩ ?_
    · intro _ hmem
      cases hmem
      trivial
    · rintro _ rfl _ rfl _ rfl - _ ⟨⟩ -
      rw [List.append_nil, Payload.serialize, List.append_assoc]
      rfl

end Payloads

/-- Reader and scanner are bounded alike. -/
theorem judges_payloadUpTo : ∀ n, JudgesPointer policy Payload.NonNull Payload.serialize
    (Payload.fromQDataStreamUpTo n) (scanPayloadUpTo policy n)
  | 0 => Judges.reject fun _ _ _ => nofun
  | n + 1 => judges_dispatch (judges_payloadUpTo n)

theorem judges_payload : JudgesPointer policy Payload.NonNull Payload.serialize
    Payload.fromQDataStream (scanPayload policy) := by
  intro s
  have run : (scanPayload policy).run s =
      (scanPayloadUpTo policy (s.unread.length + 1)).run s := by
    rw [scanPayload, StateT.run_bind, StateT.run_get]
    rfl
  rw [run, Payload.fromQDataStream_run]
  exact judges_payloadUpTo (s.unread.length + 1) s

/-! ## Blocks -/

/-- The whole block. -/
theorem judges_block : Judges Block.ofQDataStream (scanBlock policy)
    (fun b _ => policy.Grants b.NonNull) (fun b _ w => policy = .canonical → b.serialize = .ok w)
    (fun b => policy.Denies b.NonNull) := by
  rw [scanBlock, ← bind_pure (skip 8)]
  simp only [Block.ofQDataStream, Block.readParents, bind_assoc]
  apply judges_scalar.then
  intro protocolVersion _ _
  apply judges_word.then
  intro count _ heq
  subst heq
  apply (Judges.repeat (judges_array 32) _).bind
  · intro parents _ hparents
    apply (judges_slot judges_payload).bind
    · intro payload _ hpayload
      apply judges_scalar.then
      intro nonce _ _
      refine Judges.pure hpayload ?_
      rintro _ rfl slot hslot _ ⟨ws, hws, rfl⟩ _ rfl _ rfl hcanonical
      have same : (Scalar.ofNat parents.length : UInt8) = count := by
        rw [hparents.1, Scalar.ofNat_toNat]
      have ids : ws = parents := by
        clear hparents same
        induction hws with
        | nil => rfl
        | cons head _ ih => rw [head, ih]
      rw [Block.serialize_eq_ok, List.append_nil]
      refine ⟨slot, hslot hcanonical, ?_⟩
      rw [same, ids, List.append_assoc]
    · intro payload hbad
      exact Always.behind fun _ => Always.pure hbad
  · rintro parents ⟨_, _, hbad⟩
    exact hbad.elim

end Lawful

end Qblock
