import Bdns.Blockchain.StandIn
import Bdns.Lib.Numeral
import Bdns.Lib.Outcome

/-!
# Addresses

`Base58Encode`, `Base58Decode` and the addresses of `key_pair.go`. The text and the bytes are
compared through the number that both stand for. The number does not know the leading zero bytes,
and both functions put back one of them only, so a string with two is not restored.
-/

namespace Bdns.Blockchain

open Lib

/-! ## Base58 -/

def b58Alphabet : Bytes :=
  utf8 "123456789ABCDEFGHJKLMNPQRSTUVWXYZabcdefghijkmnopqrstuvwxyz"

/-- `big.Int.Bytes`: the bytes of the absolute value, without leading zeros. -/
def bigIntBytes (x : Int) : Bytes := (Nat.digits 256 x.natAbs).reverse.map UInt8.ofNat

/-- `Base58Encode`; the digits come out in reverse. -/
def base58Encode (input : Bytes) : Go Bytes :=
  let result := (Nat.digits 58 (beNat input)).map fun mod => b58Alphabet.getD mod 0
  match input with
  | [] => throw .indexOutOfRange
  | first :: _ =>
    let result := if first = 0x00 then result ++ [b58Alphabet.getD 0 0] else result
    pure result.reverse

/-- `bytes.IndexByte`, which is -1 for a byte that is not in the alphabet. -/
def charIndex (b : UInt8) : Int :=
  match b58Alphabet.idxOf? b with
  | some i => i
  | none => -1

def base58Decode (input : Bytes) : Go Bytes :=
  let result := input.foldl (fun (acc : Int) b => acc * 58 + charIndex b) 0
  let decoded := bigIntBytes result
  match input with
  | [] => throw .indexOutOfRange
  | first :: _ => pure (if first = b58Alphabet.getD 0 0 then 0x00 :: decoded else decoded)

/-! ## The alphabet -/

theorem charIndex_getD {d : Nat} (hd : d < 58) : charIndex (b58Alphabet.getD d 0) = d := by
  have hAll : ∀ d < 58, charIndex (b58Alphabet.getD d 0) = (d : Int) := by decide +kernel
  exact hAll d hd

theorem getD_eq_first {d : Nat} (hd : d < 58) :
    b58Alphabet.getD d 0 = b58Alphabet.getD 0 0 ↔ d = 0 := by
  constructor
  · intro hSame
    have hIndex := congrArg charIndex hSame
    rw [charIndex_getD hd, charIndex_getD (by omega)] at hIndex
    exact Int.ofNat.inj hIndex
  · rintro rfl
    rfl

/-- The number of a text of the alphabet. -/
theorem foldl_charIndex {ds : List Nat} (hDigits : ∀ d ∈ ds, d < 58) :
    (ds.map fun d => b58Alphabet.getD d 0).foldl (fun (acc : Int) b => acc * 58 + charIndex b) 0 =
      ((Nat.ofDigits 58 ds.reverse : Nat) : Int) := by
  rw [List.foldl_map, Nat.coe_ofDigits, ← foldl_digit]
  apply List.foldl_ext
  intro acc d hd
  rw [charIndex_getD (hDigits d hd)]
  rfl

/-! ## Bytes and their number -/

def stripZeros (b : Bytes) : Bytes := b.dropWhile (· = 0)

theorem beNat_eq_ofDigits (b : Bytes) :
    beNat b = Nat.ofDigits 256 (b.map UInt8.toNat).reverse := by
  rw [← foldl_digit, List.foldl_map]
  rfl

/-- The bytes of the number of a byte string are the string without its leading zeros. -/
theorem bigIntBytes_beNat (b : Bytes) : bigIntBytes (beNat b) = stripZeros b := by
  have hDigits : ∀ d ∈ b.map UInt8.toNat, d < 256 := by
    intro d hd
    obtain ⟨c, -, rfl⟩ := List.mem_map.mp hd
    exact UInt8.toNat_lt c
  have hZero : ∀ c : UInt8, (decide (c.toNat = 0)) = decide (c = 0) := by
    intro c
    rw [decide_eq_decide, ← UInt8.toNat_inj]
    rfl
  unfold bigIntBytes stripZeros
  rw [Int.natAbs_natCast, beNat_eq_ofDigits, digits_ofDigits_reverse (by decide) hDigits,
    List.dropWhile_map, List.map_map]
  simp [Function.comp_def, hZero]

/-- What comes back from the text of a byte string. -/
theorem base58Decode_encode (first : UInt8) (rest : Bytes) :
    (base58Encode (first :: rest) >>= base58Decode) =
      .ok (if first = 0 then 0 :: stripZeros rest else first :: rest) := by
  have hLt : ∀ d ∈ (Nat.digits 58 (beNat (first :: rest))).reverse, d < 58 :=
    fun d hd => Nat.digits_lt_base (by decide) (List.mem_reverse.mp hd)
  obtain ⟨ds, hDs⟩ : ∃ ds, ds = (Nat.digits 58 (beNat (first :: rest))).reverse := ⟨_, rfl⟩
  rw [← hDs] at hLt
  have hNumber : Nat.ofDigits 58 ds.reverse = beNat (first :: rest) := by
    rw [hDs, List.reverse_reverse, Nat.ofDigits_digits]
  have hText : base58Encode (first :: rest) =
      .ok ((if first = 0 then 0 :: ds else ds).map fun d => b58Alphabet.getD d 0) := by
    rw [hDs]
    by_cases hFirst : first = 0
    · simp [base58Encode, hFirst, pure, Except.pure, List.map_reverse]
    · simp [base58Encode, hFirst, pure, Except.pure, List.map_reverse]
  rw [hText]
  by_cases hFirst : first = 0
  · -- the text starts with a digit zero, which does not count
    have hFold := foldl_charIndex (List.forall_mem_cons.mpr ⟨(by decide : 0 < 58), hLt⟩)
    rw [Nat.ofDigits_reverse_zero_cons, hNumber, List.map_cons] at hFold
    rw [if_pos hFirst, if_pos hFirst]
    simp only [bind, Except.bind, base58Decode, List.map_cons, hFold, bigIntBytes_beNat, if_true]
    rw [hFirst]
    rfl
  · have hFold := foldl_charIndex hLt
    rw [hNumber] at hFold
    have hStrip : stripZeros (first :: rest) = first :: rest := by simp [stripZeros, hFirst]
    -- the number is not zero, so its text has a first digit, and this one is not zero
    have hHead : ds.head? ≠ some 0 := hDs ▸ head_digits_reverse _ _
    cases ds with
    | nil =>
      rw [List.map_nil, List.foldl_nil] at hFold
      rw [← bigIntBytes_beNat, ← hFold] at hStrip
      simp [bigIntBytes] at hStrip
    | cons d ds =>
      have hd : ¬ b58Alphabet.getD d 0 = b58Alphabet.getD 0 0 := by
        rw [getD_eq_first (hLt d List.mem_cons_self)]
        simpa using hHead
      rw [if_neg hFirst, if_neg hFirst]
      rw [List.map_cons] at hFold
      simp only [bind, Except.bind, base58Decode, List.map_cons, hFold, bigIntBytes_beNat,
        if_neg hd, hStrip]
      rfl

theorem stripZeros_eq_self {b : Bytes} : stripZeros b = b ↔ b.head? ≠ some 0 := by
  unfold stripZeros
  cases b with
  | nil => simp
  | cons c b =>
    by_cases hc : c = 0
    · subst hc
      have hLess : (b.dropWhile (· = 0)).length ≤ b.length := (List.dropWhile_sublist _).length_le
      constructor
      · intro hSame
        have hLength := congrArg List.length hSame
        rw [List.dropWhile_cons_of_pos (by simp), List.length_cons] at hLength
        omega
      · simp
    · simp [hc]

/-- The text of a byte string is decoded to the string unless it begins with two zeros. -/
theorem base58Decode_encode_iff {x : Bytes} (hSome : x ≠ []) :
    (base58Encode x >>= base58Decode) = .ok x ↔ ∀ rest, x ≠ 0 :: 0 :: rest := by
  obtain ⟨first, rest, rfl⟩ := List.exists_cons_of_ne_nil hSome
  rw [base58Decode_encode, Except.ok.injEq]
  by_cases hFirst : first = 0
  · subst hFirst
    rw [if_pos rfl, List.cons.injEq, stripZeros_eq_self]
    cases rest with
    | nil => simp
    | cons c rest => simp
  · simp [hFirst]

/-! ## Addresses -/

section Addresses

variable (E : External)

def hashPubKey (pubKey : Bytes) : Bytes := (E.sha256 (E.sha256 pubKey)).take 20

def addressChecksumLen : Nat := 4

def checksum (payload : Bytes) : Bytes := (E.sha256 (E.sha256 payload)).take addressChecksumLen

/-- The bytes that an address is the text of: version, hash of the key and checksum. -/
def fullPayload (publicKey : Bytes) : Bytes :=
  let versionedPayload := 0x00 :: hashPubKey E publicKey
  versionedPayload ++ checksum E versionedPayload

/-- `KeyPair.GetAddress`. -/
def getAddress (publicKey : Bytes) : Go Bytes := base58Encode (fullPayload E publicKey)

/-- `ValidateAddress`. The slices panic where fewer than five bytes are decoded. -/
def validateAddress (address : Bytes) : Go Bool := do
  let pubKeyHash ← base58Decode address
  match pubKeyHash with
  | [] => throw .indexOutOfRange
  | version :: _ =>
    if pubKeyHash.length < addressChecksumLen + 1 then throw .indexOutOfRange
    else
      let actualChecksum := pubKeyHash.drop (pubKeyHash.length - addressChecksumLen)
      let pubKeyHash := (pubKeyHash.take (pubKeyHash.length - addressChecksumLen)).drop 1
      pure (actualChecksum == checksum E (version :: pubKeyHash))

/-- The last four bytes are the checksum of the bytes before them. -/
def ChecksumFits (payload : Bytes) : Prop :=
  ∃ front, front ≠ [] ∧ payload = front ++ checksum E front

variable {E}

@[simp] theorem length_checksum (payload : Bytes) : (checksum E payload).length = 4 := by
  simp [checksum, addressChecksumLen]

@[simp] theorem length_hashPubKey (pubKey : Bytes) : (hashPubKey E pubKey).length = 20 := by
  simp [hashPubKey]

/-- An address is valid where the checksum fits in what is decoded. -/
theorem validateAddress_eq_true {address payload : Bytes}
    (hDecode : base58Decode address = .ok payload) :
    validateAddress E address = .ok true ↔ ChecksumFits E payload := by
  unfold validateAddress
  rw [hDecode]
  simp only [bind, Except.bind]
  cases payload with
  | nil =>
    constructor
    · intro hTrue
      cases hTrue
    · rintro ⟨front, hFront, hPayload⟩
      exact absurd (List.append_eq_nil_iff.mp hPayload.symm).1 hFront
  | cons version rest =>
    dsimp only
    split
    · rename_i hShort
      constructor
      · intro hTrue
        cases hTrue
      · rintro ⟨front, hFront, hPayload⟩
        have hLength := congrArg List.length hPayload
        have hPos := List.length_pos_of_ne_nil hFront
        rw [List.length_append, length_checksum] at hLength
        unfold addressChecksumLen at hShort
        omega
    · rename_i hLong
      obtain ⟨n, hn⟩ : ∃ n, (version :: rest).length = n + 1 + 4 :=
        ⟨(version :: rest).length - 5, by unfold addressChecksumLen at hLong; omega⟩
      have hCut : (version :: rest).length - addressChecksumLen = n + 1 := by
        rw [hn]
        rfl
      have hFront : (version :: rest).take (n + 1) = version :: rest.take n := rfl
      rw [hCut, hFront, List.drop_one, List.tail_cons, pure_eq_ok, beq_iff_eq]
      constructor
      · intro hSame
        refine ⟨version :: rest.take n, List.cons_ne_nil _ _, ?_⟩
        rw [← hSame, ← hFront, List.take_append_drop]
      · rintro ⟨front, -, hPayload⟩
        have hLength : front.length = n + 1 := by
          rw [hPayload, List.length_append, length_checksum] at hn
          omega
        rw [← hFront, hPayload, ← hLength, List.drop_left, List.take_left]

/-- The address of a key is valid exactly where the hash of the key does not begin with a zero
byte, or the checksum happens to fit without the zero bytes. -/
theorem validateAddress_getAddress (publicKey : Bytes) :
    (getAddress E publicKey >>= validateAddress E) = .ok true ↔
      (hashPubKey E publicKey).head? ≠ some 0 ∨
        ChecksumFits E (0 :: stripZeros (hashPubKey E publicKey ++
          checksum E (0 :: hashPubKey E publicKey))) := by
  have hDecode := base58Decode_encode 0
    (hashPubKey E publicKey ++ checksum E (0 :: hashPubKey E publicKey))
  rw [if_pos rfl] at hDecode
  obtain ⟨address, hAddress, hDecode⟩ := bind_eq_ok.mp hDecode
  have hGet : getAddress E publicKey = .ok address := hAddress
  have hBind : (getAddress E publicKey >>= validateAddress E) = validateAddress E address := by
    rw [hGet]
    rfl
  rw [hBind, validateAddress_eq_true hDecode]
  constructor
  · exact Or.inr
  · rintro (hHead | hFits)
    · have hStrip : stripZeros (hashPubKey E publicKey ++ checksum E (0 :: hashPubKey E publicKey)) =
          hashPubKey E publicKey ++ checksum E (0 :: hashPubKey E publicKey) := by
        have hSome : hashPubKey E publicKey ≠ [] := by
          intro hNone
          have hLength := length_hashPubKey (E := E) publicKey
          simp [hNone] at hLength
        rw [stripZeros_eq_self, List.head?_append_of_ne_nil _ hSome]
        exact hHead
      rw [hStrip]
      exact ⟨0 :: hashPubKey E publicKey, List.cons_ne_nil _ _, rfl⟩
    · exact hFits

/-- Base58 gives back every byte string but those that begin with two zeros; so the address of a
key is valid exactly where the hash of the key does not begin with a zero, or the checksum happens
to fit to what is left of the payload. -/
theorem address_round_trip_iff (E : External) :
    (∀ x : Bytes, x ≠ [] →
      ((base58Encode x >>= base58Decode) = .ok x ↔ ∀ rest, x ≠ 0 :: 0 :: rest)) ∧
    ∀ publicKey, (getAddress E publicKey >>= validateAddress E) = .ok true ↔
      (hashPubKey E publicKey).head? ≠ some 0 ∨
        ChecksumFits E (0 :: stripZeros (hashPubKey E publicKey ++
          checksum E (0 :: hashPubKey E publicKey))) :=
  ⟨fun _ hSome => base58Decode_encode_iff hSome, validateAddress_getAddress⟩

end Addresses

/-! ## Two keys -/

/-- The stand-in with the digest in reverse: the first bytes of a digest change with every byte. -/
def StandIn.littleEndian : External :=
  { External.standIn fun _ => none with
    sha256 := fun b => (StandIn.digest b).reverse
    sha256_length := fun _ => by simp [StandIn.digest] }

/-- Strings with no and with one leading zero, and a key with a valid address. -/
theorem address_round_trip_iff_sample :
    (base58Encode [1, 2] >>= base58Decode) = .ok [1, 2] ∧
      (base58Encode [0, 1] >>= base58Decode) = .ok [0, 1] ∧
      (getAddress StandIn.littleEndian [1] >>= validateAddress StandIn.littleEndian) =
        .ok true := by
  obtain ⟨hText, hKey⟩ := address_round_trip_iff StandIn.littleEndian
  refine ⟨(hText _ (by simp)).mpr (by simp), (hText _ (by simp)).mpr (by simp), ?_⟩
  exact (hKey _).mpr (.inl (by decide +kernel))

/-- Two zeros come back as one, and the address of a key whose hash begins with a zero is not
valid. -/
theorem second_zero_is_lost :
    (base58Encode [0, 0] >>= base58Decode) = .ok [0] ∧
      (getAddress StandIn.littleEndian [223] >>= validateAddress StandIn.littleEndian) =
        .ok false := by
  constructor
  · decide +kernel
  · decide +kernel

end Bdns.Blockchain
