import Qblock.Laws.Json
import Qblock.Wire.Scan

/-!
# Addresses from arrays, and the ids of foundries

`Address::from_array` reads an address off an array and looks at no status,
so an array that ends too soon is read as if zeros followed it: what decides
is the first byte alone, and the empty array begins with a zero too.

The id of a foundry is the 33 bytes of the address that controls it, its
serial number and the type of its token scheme, all of fixed width, so the
three can be told from it. What it is made of is what `consume` leaves and
what both codecs keep.

- `Address.fromArray_eq` — what `from_array` makes of an array;
- `Output.FoundryOf.getId` — what the id of a foundry is;
- `Output.foundryId_laws` — what it tells and what keeps it.
-/

namespace Qblock

open Wire Qt

/-! ## Addresses from arrays -/

theorem put_uint8 (x : UInt8) : Scalar.put x = [x] :=
  congrArg (· :: []) UInt8.ofNat_toNat

/-- A byte read off any array: the one past the end is zero. -/
theorem run_readByte (v : Bytes) :
    ∃ st, (readScalar : Read UInt8).run ⟨v, .ok⟩ = .ok (v.headD 0, ⟨v.tail, st⟩) := by
  cases v with
  | nil => exact ⟨_, readScalar_short (Nat.zero_lt_one)⟩
  | cons x rest =>
    have read := (reads_scalar (ε := Fault) x).run rest .ok
    rw [put_uint8] at read
    exact ⟨_, read⟩

/-- An array read off any array: what is past the end is zero. -/
theorem run_readArray (n : Nat) (v : Bytes) (st : Status) :
    ∃ s, (readArray n).run ⟨v, st⟩ = .ok ((v ++ List.replicate n 0).take n, s) := by
  refine ⟨_, (run_readRaw _ _).trans (congrArg (fun b => Except.ok (b, _)) ?_)⟩
  simp only [Stream.readBlock, List.length_replicate, List.drop_replicate, List.take_append,
    List.take_replicate, List.length_take]
  congr 2
  omega

namespace Address

/-- What `from_array` makes of an array: the first byte is the type, and a
hash that is too short is filled up with zeros. -/
theorem fromArray_eq (v : Bytes) :
    (∃ type : Types, v.headD 0 = type.toUInt8 ∧
      fromArray v = .ok (some ⟨type, (v.tail ++ List.replicate 32 0).take 32⟩)) ∨
    ((∀ type : Types, v.headD 0 ≠ type.toUInt8) ∧ fromArray v = .ok none) := by
  obtain ⟨st, htype⟩ := run_readByte v
  obtain ⟨s, hhash⟩ := run_readArray 32 v.tail st
  have kind : ∀ type, (ofQDataStream type >>= fun a => pure (some a)).run ⟨v.tail, st⟩ =
      .ok (some ⟨type, (v.tail ++ List.replicate 32 0).take 32⟩, s) := by
    intro type
    rw [ofQDataStream, bind_assoc, run_bind_ok hhash]
    rfl
  rw [fromArray, fromQDataStream, run_bind_ok htype]
  by_cases hnft : v.headD 0 = Types.nft.toUInt8
  · rw [if_pos hnft, kind]
    exact .inl ⟨.nft, hnft, rfl⟩
  rw [if_neg hnft]
  by_cases halias : v.headD 0 = Types.alias.toUInt8
  · rw [if_pos halias, kind]
    exact .inl ⟨.alias, halias, rfl⟩
  rw [if_neg halias]
  by_cases hed25519 : v.headD 0 = Types.ed25519.toUInt8
  · rw [if_pos hed25519, kind]
    exact .inl ⟨.ed25519, hed25519, rfl⟩
  rw [if_neg hed25519]
  refine .inr ⟨fun type => ?_, rfl⟩
  cases type with
  | ed25519 => exact hed25519
  | «alias» => exact halias
  | nft => exact hnft

theorem fromArray_addr {a : Address} (fits : a.Fits) : fromArray a.addr = .ok (some a) := by
  have read := (Address.reads fits).run [] .ok
  rw [List.append_nil] at read
  exact congrArg (Prod.fst <$> ·) read

theorem addr_length {a : Address} (fits : a.Fits) : a.addr.length = 33 := by
  rw [addr, serialize, List.length_append, Scalar.put_length, fits]
  rfl

theorem addr_inj {a a' : Address} (fits : a.Fits) (fits' : a'.Fits) (h : a.addr = a'.addr) :
    a = a' := by
  have read := fromArray_addr fits
  rw [h, fromArray_addr fits'] at read
  cases read
  rfl

/-- An array is an address exactly if it begins with the byte of one of the
three types, an empty array with a zero. It need not be long enough: zeros
stand in the address for the bytes it does not have. -/
theorem fromArray_accepts (v : Bytes) : ∃ p, fromArray v = .ok p ∧
    (p.isSome ↔ v.headD 0 = 0 ∨ v.headD 0 = 8 ∨ v.headD 0 = 16) ∧
    ∀ a ∈ p, a.type.toUInt8 = v.headD 0 ∧ a.addr = (v ++ List.replicate 33 0).take 33 ∧
      (33 ≤ v.length → a.addr = v.take 33) ∧ fromArray a.addr = .ok (some a) := by
  rcases fromArray_eq v with ⟨type, htype, heq⟩ | ⟨htype, heq⟩
  · refine ⟨_, heq, iff_of_true rfl ?_, ?_⟩
    · rw [htype]
      cases type with
      | ed25519 | «alias» | nft => decide
    · intro _ hmem
      cases hmem
      have addr : addr ⟨type, (v.tail ++ List.replicate 32 0).take 32⟩ =
          (v ++ List.replicate 33 0).take 33 := by
        have more : List.replicate 33 (0 : UInt8) = List.replicate 32 0 ++ [0] := rfl
        rw [Address.addr, serialize, ← htype, put_uint8]
        cases v with
        | nil => rfl
        | cons x rest =>
          show x :: (rest ++ List.replicate 32 0).take 32 = x :: (rest ++ List.replicate 33 0).take 32
          have enough : 32 ≤ (rest ++ List.replicate 32 (0 : UInt8)).length := by simp
          rw [more, ← List.append_assoc, List.take_append_of_le_length enough]
      refine ⟨htype.symm, addr, ?_, fromArray_addr ?_⟩
      · intro hlength
        rw [addr, List.take_append_of_le_length hlength]
      · simp [Fits]
  · refine ⟨_, heq, iff_of_false Bool.false_ne_true ?_, of_mem_none⟩
    intro known
    rcases known with h | h | h
    · exact htype .ed25519 h
    · exact htype .alias h
    · exact htype .nft h

/-- Three bytes are made an address. -/
theorem fromArray_short :
    ¬ ((∃ a, fromArray [8, 1, 2] = .ok (some a)) ↔
      33 ≤ ([8, 1, 2] : Bytes).length ∧ ((8 : UInt8) = 0 ∨ (8 : UInt8) = 8 ∨ (8 : UInt8) = 16)) := by
  intro h
  have long := (h.mp ⟨⟨.alias, [1, 2] ++ List.replicate 30 0⟩, rfl⟩).1
  exact absurd long (by decide)

end Address

/-! ## Ids of foundries -/

namespace Output

/-- A foundry whose lowest unlock condition carries the given address, with
a hash of 32 bytes, and with the given token scheme and serial number. -/
structure FoundryOf (address : Address) (tokenScheme : TokenScheme) (serialNumber : UInt32)
    (o : Output) : Prop where
  kind : o.kind = .foundry (some tokenScheme) serialNumber
  lowest : ∃ c, some c ∈ o.unlockConditions.elems ∧ c.addressOf = some address ∧
    ∀ d, some d ∈ o.unlockConditions.elems → ¬ d.type.toUInt8 < c.type.toUInt8
  fits : address.Fits

end Output

/-- The least element of a set is its first. -/
theorem PSet.head?_eq_of_least {T : Type} [Keyed T] {s : PSet T} {x : T} (hx : some x ∈ s.elems)
    (least : ∀ y, some y ∈ s.elems → ¬ Keyed.key y < Keyed.key x) :
    s.elems.head? = some (some x) := by
  cases hs : s.elems with
  | nil =>
    rw [hs] at hx
    cases hx
  | cons p ps =>
    rw [hs] at hx
    rcases List.mem_cons.mp hx with rfl | hrest
    · rfl
    · have ordered := s.ordered
      rw [hs] at ordered
      obtain ⟨y, z, rfl, hz, hlt⟩ := ptrLess_eq_ok ((List.pairwise_cons.mp ordered).1 _ hrest)
      cases hz
      exact absurd (of_decide_eq_true hlt.symm) (least y (hs ▸ List.mem_cons_self))

namespace Output

variable {o : Output} {address : Address} {tokenScheme : TokenScheme} {serialNumber : UInt32}

/-- The id of a foundry. -/
def foundryId (address : Address) (tokenScheme : TokenScheme) (serialNumber : UInt32) : Bytes :=
  address.addr ++ Scalar.put serialNumber ++ Scalar.put tokenScheme.type

theorem FoundryOf.getId (h : FoundryOf address tokenScheme serialNumber o) :
    o.getId = .ok (foundryId address tokenScheme serialNumber) := by
  obtain ⟨c, hc, haddress, least⟩ := h.lowest
  have first := PSet.head?_eq_of_least hc least
  rw [Output.getId, h.kind]
  simp only [first, Option.join_some, deref, haddress, bind, Except.bind]
  rfl

theorem foundryId_length (fits : address.Fits) :
    (foundryId address tokenScheme serialNumber).length = 38 := by
  simp only [foundryId, List.length_append, address.addr_length fits, Scalar.put_length]
  rfl

/-- The parts of an id are of fixed width, so that it tells them. -/
theorem foundryId_inj {address' : Address} {tokenScheme' : TokenScheme} {serialNumber' : UInt32}
    (fits : address.Fits) (fits' : address'.Fits) :
    foundryId address tokenScheme serialNumber = foundryId address' tokenScheme' serialNumber' ↔
      address = address' ∧ serialNumber = serialNumber' ∧ tokenScheme.type = tokenScheme'.type := by
  constructor
  · intro heq
    have width : address.addr.length = address'.addr.length :=
      (address.addr_length fits).trans (address'.addr_length fits').symm
    have widths : (address.addr ++ Scalar.put serialNumber).length =
        (address'.addr ++ Scalar.put serialNumber').length := by
      simp only [List.length_append, width, Scalar.put_length]
    obtain ⟨front, type⟩ := List.append_inj heq widths
    obtain ⟨addr, serial⟩ := List.append_inj front width
    exact ⟨Address.addr_inj fits fits' addr, Scalar.put_injective serial,
      Scalar.put_injective type⟩
  · intro parts
    obtain ⟨rfl, rfl, htype⟩ := parts
    rw [foundryId, foundryId, htype]

/-- What a foundry has its id from is left alone by whatever keeps the kind
and the unlock conditions. -/
theorem FoundryOf.congr {o' : Output} (h : FoundryOf address tokenScheme serialNumber o)
    (kind : o'.kind = o.kind) (unlockConditions : o'.unlockConditions = o.unlockConditions) :
    FoundryOf address tokenScheme serialNumber o' :=
  ⟨kind.trans h.kind, unlockConditions ▸ h.lowest, h.fits⟩

theorem FoundryOf.consume (h : FoundryOf address tokenScheme serialNumber o) :
    FoundryOf address tokenScheme serialNumber o.consume := by
  obtain ⟨kind, _, _, _, _, _⟩ := o
  cases h.kind
  exact h.congr rfl rfl

variable [Platform] [LawfulPlatform]

theorem FoundryOf.clone (h : FoundryOf address tokenScheme serialNumber o) (nonNull : o.NonNull)
    (fits : o.Fits) : o.clone = .ok (some o) := by
  have written : o.AllWritten := by
    intro hbasic
    rw [h.kind] at hbasic
    cases hbasic
  rw [clone_eq nonNull fits, wireForm_eq_self written]

/-- The id of a foundry has 38 bytes, which tell the address that controls
it, its serial number and the type of its token scheme. Consuming it, any
change of its amount, its features and its native tokens, a clone and a
round trip through JSON keep it, and a native token of that id reads back. -/
theorem foundryId_laws (h : FoundryOf address tokenScheme serialNumber o) :
    ∃ id, o.getId = .ok id ∧ id.length = 38 ∧
      (∀ {address' tokenScheme' serialNumber' o'},
        FoundryOf address' tokenScheme' serialNumber' o' →
        (o'.getId = .ok id ↔ (address'.type = address.type ∧ address'.addrhash = address.addrhash) ∧
          serialNumber' = serialNumber ∧ tokenScheme'.type = tokenScheme.type)) ∧
      o.consume.getId = .ok id ∧
      (∀ amount features immutableFeatures nativeTokens,
        ({ o with amount, features, immutableFeatures, nativeTokens } : Output).getId = .ok id) ∧
      (o.NonNull → o.Fits → ∃ o', o.clone = .ok (some o') ∧ o'.getId = .ok id) ∧
      (o.NonNull → ∃ j o', o.getJson = .ok j ∧ fromQJsonValue (.object j) = .ok (some o') ∧
        o'.getId = .ok id) ∧
      ∀ amount, Reads NativeToken.fromQDataStream (NativeToken.mk id amount).serialize
        (some ⟨id, amount⟩) := by
  have hlength : (foundryId address tokenScheme serialNumber).length = 38 :=
    foundryId_length h.fits
  refine ⟨_, h.getId, hlength, ?_, h.consume.getId, ?_, ?_, ?_, ?_⟩
  · intro address' tokenScheme' serialNumber' o' h'
    have parts : address' = address ↔
        address'.type = address.type ∧ address'.addrhash = address.addrhash := by
      cases address'
      cases address
      exact Address.mk.injEq _ _ _ _ ▸ Iff.rfl
    rw [h'.getId, Except.ok.injEq, foundryId_inj h'.fits h.fits, parts]
  · intro amount features immutableFeatures nativeTokens
    exact (h.congr rfl rfl).getId
  · intro nonNull fits
    exact ⟨o, h.clone nonNull fits, h.getId⟩
  · intro nonNull
    obtain ⟨j, hj⟩ := getJson_ok.mpr nonNull
    exact ⟨j, o, hj, fromJson hj, h.getId⟩
  · intro amount
    exact NativeToken.reads hlength

end Output

/-! ## At a foundry -/

section Sample

open Plain

namespace Output

/-- A foundry of an alias, with native tokens of the given id. -/
def sampleFoundry (tokenId : Bytes) : Output where
  kind := .foundry (some ⟨0, 0, 0⟩) 1
  amount := 5
  unlockConditions := ⟨[some (.immutableAliasAddress (some ⟨.alias, List.replicate 32 2⟩))],
    List.pairwise_singleton _ _⟩
  features := .empty
  immutableFeatures := .empty
  nativeTokens := ⟨[some ⟨tokenId, 0⟩], List.pairwise_singleton _ _⟩

theorem sampleFoundry_of (tokenId : Bytes) :
    FoundryOf ⟨.alias, List.replicate 32 2⟩ ⟨0, 0, 0⟩ 1 (sampleFoundry tokenId) where
  kind := rfl
  lowest := by
    refine ⟨_, List.mem_cons_self, rfl, fun d hd => ?_⟩
    cases List.mem_singleton.mp hd
    decide
  fits := List.length_replicate

theorem foundryId_laws_sample : ∃ id, (sampleFoundry (List.replicate 38 6)).getId = .ok id ∧
    id.length = 38 ∧ (sampleFoundry (List.replicate 38 6)).consume.getId = .ok id := by
  obtain ⟨id, hid, hlength, -, hconsume, -⟩ := foundryId_laws (sampleFoundry_of (List.replicate 38 6))
  exact ⟨id, hid, hlength, hconsume⟩

/-- With a token id of 37 bytes, there is no clone to have an id. -/
theorem sampleFoundry_clone_faults :
    FoundryOf ⟨.alias, List.replicate 32 2⟩ ⟨0, 0, 0⟩ 1 (sampleFoundry (List.replicate 37 6)) ∧
    ¬ ∃ o', (sampleFoundry (List.replicate 37 6)).clone = .ok (some o') ∧
      o'.getId = (sampleFoundry (List.replicate 37 6)).getId := by
  have faults : ((sampleFoundry (List.replicate 37 6)).clone >>= deref >>= Output.getId) =
      .error .nullPointer := by decide +kernel
  refine ⟨sampleFoundry_of _, ?_⟩
  intro cloned
  obtain ⟨o', hclone, hid⟩ := cloned
  rw [hclone] at faults
  have id : o'.getId = .error .nullPointer := faults
  rw [hid] at id
  cases id

end Output

end Sample

end Qblock
