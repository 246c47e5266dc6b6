import Qblock.Wire.Scalar

/-!
# Names that are hashes

An object is named by a hash of its bytes, or by a hash of what is made of
such a name. Two objects of one name need not be the same, as a hash has
collisions; `Binds` says that they are, or that among what was hashed to
name the one and the other there is a collision, at hand.

A name is given with the list of what was hashed on the way to it:

- `binds_written` — bytes that tell the object, nothing hashed;
- `Binds.hashed` — the hash of a name;
- `Binds.wrapped` — a name with something put around it;
- `Binds.comap` — the names of what an object is made of.
-/

namespace Wire

variable {S T I : Type} {hash : Bytes → Bytes}

/-- Two different inputs that are hashed alike. -/
structure Collision (hash : Bytes → Bytes) (x y : Bytes) : Prop where
  ne : x ≠ y
  same : hash x = hash y

/-- A relation of objects to their names and what was hashed for them. -/
abbrev Naming (T : Type) := T → Bytes → List Bytes → Prop

/-- Objects of one name are `same`, or what was hashed for their names holds
a collision. -/
def Binds (hash : Bytes → Bytes) (names : Naming T) (same : T → T → Prop) : Prop :=
  ∀ p q name trail trail', names p name trail → names q name trail' →
    same p q ∨ ∃ x ∈ trail, ∃ y ∈ trail', Collision hash x y

/-- Naming an object by what it is written as. -/
def Written (written : T → Bytes → Prop) : Naming T := fun p name trail =>
  written p name ∧ trail = []

/-- Naming an object by the hash of another name. -/
def Hashed (hash : Bytes → Bytes) (names : Naming T) : Naming T := fun p name trail =>
  ∃ x rest, names p x rest ∧ name = hash x ∧ trail = x :: rest

/-- Naming an object by another name and something put around it. -/
def Wrapped (wrap : I → Bytes → Bytes) (names : Naming T) : Naming (I × T) := fun p name trail =>
  ∃ x, names p.2 x trail ∧ name = wrap p.1 x

/-- Bytes that tell the object bind it without any hash. -/
theorem binds_written {written : T → Bytes → Prop} {same : T → T → Prop}
    (h : ∀ p q x, written p x → written q x → same p q) : Binds hash (Written written) same := by
  intro p q name _ _ hp hq
  exact .inl (h p q name hp.1 hq.1)

/-- Hashing a name keeps what it binds, but for a collision. -/
theorem Binds.hashed {names : Naming T} {same : T → T → Prop} (h : Binds hash names same) :
    Binds hash (Hashed hash names) same := by
  intro p q name trail trail' hp hq
  obtain ⟨x, rest, hx, rfl, rfl⟩ := hp
  obtain ⟨y, rest', hy, heq, rfl⟩ := hq
  by_cases hxy : x = y
  · subst hxy
    rcases h p q x rest rest' hx hy with same | ⟨a, ha, b, hb, collision⟩
    · exact .inl same
    · exact .inr ⟨a, List.mem_cons_of_mem _ ha, b, List.mem_cons_of_mem _ hb, collision⟩
  · exact .inr ⟨x, List.mem_cons_self, y, List.mem_cons_self, hxy, heq⟩

/-- A name inside other bytes that tell it. -/
theorem Binds.wrapped {names : Naming T} {same : T → T → Prop} {wrap : I → Bytes → Bytes}
    {proper : Bytes → Prop} (h : Binds hash names same)
    (hproper : ∀ p x trail, names p x trail → proper x)
    (inj : ∀ i j x y, proper x → proper y → wrap i x = wrap j y → i = j ∧ x = y) :
    Binds hash (Wrapped wrap names) fun p q => p.1 = q.1 ∧ same p.2 q.2 := by
  intro p q name trail trail' hp hq
  obtain ⟨x, hx, rfl⟩ := hp
  obtain ⟨y, hy, heq⟩ := hq
  obtain ⟨hi, rfl⟩ := inj _ _ x y (hproper _ _ _ hx) (hproper _ _ _ hy) heq
  exact (h p.2 q.2 x trail trail' hx hy).imp_left fun same => ⟨hi, same⟩

/-- Objects that are named by what they hold. -/
theorem Binds.comap {names : Naming T} {same : T → T → Prop} {names' : Naming S}
    {same' : S → S → Prop} (h : Binds hash names same) (part : S → T)
    (hnames : ∀ p name trail, names' p name trail → names (part p) name trail)
    (hsame : ∀ p q name trail trail', names' p name trail → names' q name trail' →
      same (part p) (part q) → same' p q) : Binds hash names' same' := by
  intro p q name trail trail' hp hq
  exact (h _ _ name trail trail' (hnames _ _ _ hp) (hnames _ _ _ hq)).imp_left
    (hsame p q name trail trail' hp hq)

end Wire
