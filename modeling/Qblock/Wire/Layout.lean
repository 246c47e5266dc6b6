import Qblock.Wire.Scalar

/-!
# Layouts

A `Layout` is a byte string in which the lengths and counts are told from
the bytes they announce. `flatten` is the string itself, and `Truthful` says
that each length is that of the bytes it announces, and each count the
number of items.

A prefix is written by a cast to a machine word (`sizedAs`, `countedAs`), so
it is true exactly if what it announces has not outgrown the word:

- `truthful_sizedAs`, `truthful_countedAs` — the bound of one prefix;
- `truthful_seq_cons` — a sequence is truthful if its parts are.
-/

namespace Wire

/-- A byte string with its prefixes. -/
inductive Layout where
  | raw (bytes : Bytes)
  | seq (parts : List Layout)
  /-- The number of bytes, then the bytes. -/
  | sized (length : Bytes) (body : Layout)
  /-- The number of items, then the items. -/
  | counted (count : Bytes) (items : List Layout)

namespace Layout

mutual

/-- The bytes of a layout. -/
def flatten : Layout → Bytes
  | raw bytes => bytes
  | seq parts => flattenAll parts
  | sized length body => length ++ body.flatten
  | counted count items => count ++ flattenAll items

def flattenAll : List Layout → Bytes
  | [] => []
  | part :: parts => part.flatten ++ flattenAll parts

end

mutual

/-- Every prefix says how much there is behind it. -/
def Truthful : Layout → Prop
  | raw _ => True
  | seq parts => TruthfulAll parts
  | sized length body => ofLE length = body.flatten.length ∧ body.Truthful
  | counted count items => ofLE count = items.length ∧ TruthfulAll items

def TruthfulAll : List Layout → Prop
  | [] => True
  | part :: parts => part.Truthful ∧ TruthfulAll parts

end

/-- Parts are written one behind the other. -/
@[simp] theorem flattenAll_eq : ∀ parts : List Layout, flattenAll parts = parts.flatMap flatten
  | [] => rfl
  | part :: parts => by rw [flattenAll, flattenAll_eq parts, List.flatMap_cons]

/-- Parts are truthful one by one. -/
@[simp] theorem truthfulAll_iff : ∀ {parts : List Layout},
    TruthfulAll parts ↔ ∀ part ∈ parts, part.Truthful
  | [] => iff_of_true trivial nofun
  | part :: parts => by rw [TruthfulAll, truthfulAll_iff, List.forall_mem_cons]

@[simp] theorem flatten_raw (bytes : Bytes) : (raw bytes).flatten = bytes := by rw [flatten]

@[simp] theorem flatten_seq_nil : (seq []).flatten = [] := by rw [flatten, flattenAll]

@[simp] theorem flatten_seq_cons (part : Layout) (parts : List Layout) :
    (seq (part :: parts)).flatten = part.flatten ++ (seq parts).flatten := by
  rw [flatten, flattenAll, flatten]

@[simp] theorem truthful_raw (bytes : Bytes) : (raw bytes).Truthful ↔ True := by rw [Truthful]

@[simp] theorem truthful_seq_nil : (seq []).Truthful ↔ True := by rw [Truthful, TruthfulAll]

@[simp] theorem truthful_seq_cons {part : Layout} {parts : List Layout} :
    (seq (part :: parts)).Truthful ↔ part.Truthful ∧ (seq parts).Truthful := by
  rw [Truthful, TruthfulAll, Truthful]

/-! ## Prefixes that are casts -/

section Casts

variable (σ : Type) [Scalar σ]

/-- The length of a body cast to a machine word, then the body. -/
def sizedAs (body : Layout) : Layout :=
  sized (Scalar.put (Scalar.ofNat body.flatten.length : σ)) body

/-- The number of some items cast to a machine word, then the items. -/
def countedAs (items : List Layout) : Layout :=
  counted (Scalar.put (Scalar.ofNat items.length : σ)) items

/-- A size is the low bytes of the length of what follows it. -/
@[simp] theorem flatten_sizedAs (body : Layout) :
    (sizedAs σ body).flatten =
      Scalar.put (Scalar.ofNat body.flatten.length : σ) ++ body.flatten := by
  rw [sizedAs, flatten]

/-- A count is the low bytes of the number of items that follow it. -/
@[simp] theorem flatten_countedAs (items : List Layout) :
    (countedAs σ items).flatten =
      Scalar.put (Scalar.ofNat items.length : σ) ++ items.flatMap flatten := by
  rw [countedAs, flatten, flattenAll_eq]

/-- A number is written as it is exactly if the word can hold it. -/
theorem ofLE_put_ofNat {n : Nat} :
    ofLE (Scalar.put (Scalar.ofNat n : σ)) = n ↔ n < 256 ^ Scalar.width σ := by
  rw [Scalar.put, ofLE_toLE, Scalar.toNat_ofNat, Nat.mod_mod]
  exact ⟨fun h => h ▸ Nat.mod_lt n (Nat.pow_pos (by decide)), Nat.mod_eq_of_lt⟩

/-- So it is true exactly if that length fits its width. -/
@[simp] theorem truthful_sizedAs {body : Layout} :
    (sizedAs σ body).Truthful ↔
      body.flatten.length < 256 ^ Scalar.width σ ∧ body.Truthful := by
  rw [sizedAs, Truthful, ofLE_put_ofNat]

/-- So it is true exactly if that number fits its width. -/
@[simp] theorem truthful_countedAs {items : List Layout} :
    (countedAs σ items).Truthful ↔
      items.length < 256 ^ Scalar.width σ ∧ ∀ item ∈ items, item.Truthful := by
  rw [countedAs, Truthful, ofLE_put_ofNat, truthfulAll_iff]

end Casts

end Layout

end Wire
