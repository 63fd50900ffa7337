import Mathlib

/-!
# Byte strings and the texts written into them

Go strings and slices of bytes are both `Bytes`. The encodings below are those of the
standard library that the blockchain hashes or uses as map keys: fixed-width big-endian
integers, hexadecimal text, decimal text. Each comes with the fact its readers rely on:
it can be read back.

* `beNat_beBytes`, `beBytes_inj`: big-endian integers of one width.
* `hexDecode_hexEncode`, `hexEncode_injective`: hexadecimal text.
* `decimal_injective`, `decimal_digits`: decimal text and its alphabet.
* `append_sep_inj`: a field that avoids its separator ends where the separator stands.
-/

namespace Bdns.Lib

abbrev Bytes := List UInt8

/-- The bytes of a text literal of the source. -/
def utf8 (s : String) : Bytes := s.toUTF8.toList

/-! ## Big-endian integers -/

/-- `n` in `w` bytes, most significant first; what does not fit is cut off. -/
def beBytes : Nat → Nat → Bytes
  | 0, _ => []
  | w + 1, n => UInt8.ofNat (n / 256 ^ w) :: beBytes w n

/-- The number a byte string stands for, most significant byte first. -/
def beNat (b : Bytes) : Nat := b.foldl (fun n c => n * 256 + c.toNat) 0

@[simp] theorem length_beBytes (w n : Nat) : (beBytes w n).length = w := by
  induction w with
  | zero => rfl
  | succ w ih => simp [beBytes, ih]

theorem foldl_beNat (b : Bytes) (acc : Nat) :
    b.foldl (fun n c => n * 256 + c.toNat) acc = acc * 256 ^ b.length + beNat b := by
  induction b generalizing acc with
  | nil => simp [beNat]
  | cons c b ih =>
    simp only [beNat, List.foldl_cons, List.length_cons, ih (acc * 256 + c.toNat),
      ih (0 * 256 + c.toNat)]
    ring

theorem beNat_cons (c : UInt8) (b : Bytes) :
    beNat (c :: b) = c.toNat * 256 ^ b.length + beNat b := by
  simpa [beNat] using foldl_beNat b c.toNat

theorem beNat_beBytes (w n : Nat) : beNat (beBytes w n) = n % 256 ^ w := by
  induction w with
  | zero => simp [beBytes, beNat, Nat.mod_one]
  | succ w ih =>
    have hByte : (UInt8.ofNat (n / 256 ^ w)).toNat = n / 256 ^ w % 256 := UInt8.toNat_ofNat'
    rw [beBytes, beNat_cons, length_beBytes, ih, hByte, pow_succ, Nat.mod_mul]
    ring

theorem beBytes_inj {w m n : Nat} (hm : m < 256 ^ w) (hn : n < 256 ^ w)
    (h : beBytes w m = beBytes w n) : m = n := by
  have hNat := congrArg beNat h
  rwa [beNat_beBytes, beNat_beBytes, Nat.mod_eq_of_lt hm, Nat.mod_eq_of_lt hn] at hNat

/-! ## Hexadecimal text -/

/-- The lower-case digit of a value below sixteen. -/
def hexDigit (n : Nat) : UInt8 := UInt8.ofNat (if n < 10 then 48 + n else 87 + n)

/-- `hex.EncodeToString`. -/
def hexEncode (b : Bytes) : Bytes :=
  b.flatMap fun c => [hexDigit (c.toNat / 16), hexDigit (c.toNat % 16)]

/-- The value of a hexadecimal digit of either case. -/
def unhexDigit (c : UInt8) : Option Nat :=
  if 48 ≤ c ∧ c ≤ 57 then some (c.toNat - 48)
  else if 97 ≤ c ∧ c ≤ 102 then some (c.toNat - 87)
  else if 65 ≤ c ∧ c ≤ 70 then some (c.toNat - 55)
  else none

/-- `hex.DecodeString` with its error dropped: the bytes before the first bad digit. -/
def hexDecode : Bytes → Bytes
  | c :: d :: rest =>
    match unhexDigit c, unhexDigit d with
    | some hi, some lo => UInt8.ofNat (hi * 16 + lo) :: hexDecode rest
    | _, _ => []
  | _ => []

/-- The errors of `hex.DecodeString`. -/
inductive HexError
  | oddLength
  | invalidByte (c : UInt8)
  deriving DecidableEq

/-- `hex.DecodeString`. -/
def hexDecodeString : Bytes → Except HexError Bytes
  | [] => pure []
  | [c] => if (unhexDigit c).isSome then throw .oddLength else throw (.invalidByte c)
  | c :: d :: rest =>
    match unhexDigit c with
    | none => throw (.invalidByte c)
    | some hi =>
      match unhexDigit d with
      | none => throw (.invalidByte d)
      | some lo => do
        let b ← hexDecodeString rest
        pure (UInt8.ofNat (hi * 16 + lo) :: b)

theorem unhexDigit_hexDigit {n : Nat} (hn : n < 16) : unhexDigit (hexDigit n) = some n := by
  interval_cases n <;> rfl

@[simp] theorem hexEncode_nil : hexEncode [] = [] := rfl

theorem hexEncode_cons (c : UInt8) (b : Bytes) :
    hexEncode (c :: b) = hexDigit (c.toNat / 16) :: hexDigit (c.toNat % 16) :: hexEncode b := rfl

@[simp] theorem length_hexEncode (b : Bytes) : (hexEncode b).length = 2 * b.length := by
  induction b with
  | nil => rfl
  | cons c b ih => simp only [hexEncode_cons, List.length_cons, ih]; ring

theorem hexDecode_hexEncode (b : Bytes) : hexDecode (hexEncode b) = b := by
  induction b with
  | nil => rfl
  | cons c b ih =>
    have hc : c.toNat < 256 := c.toNat_lt
    rw [hexEncode_cons, hexDecode, unhexDigit_hexDigit (by omega), unhexDigit_hexDigit (by omega)]
    simp only [ih, List.cons.injEq, and_true]
    rw [show c.toNat / 16 * 16 + c.toNat % 16 = c.toNat by omega]
    exact UInt8.ofNat_toNat

theorem hexDecodeString_hexEncode (b : Bytes) : hexDecodeString (hexEncode b) = .ok b := by
  induction b with
  | nil => rfl
  | cons c b ih =>
    have hc : c.toNat < 256 := c.toNat_lt
    rw [hexEncode_cons, hexDecodeString, unhexDigit_hexDigit (by omega),
      unhexDigit_hexDigit (by omega)]
    simp only [ih]
    rw [show c.toNat / 16 * 16 + c.toNat % 16 = c.toNat by omega, UInt8.ofNat_toNat]
    rfl

theorem hexEncode_injective : Function.Injective hexEncode :=
  Function.LeftInverse.injective hexDecode_hexEncode

@[simp] theorem hexEncode_inj {a b : Bytes} : hexEncode a = hexEncode b ↔ a = b :=
  hexEncode_injective.eq_iff

@[simp] theorem hexEncode_eq_nil {b : Bytes} : hexEncode b = [] ↔ b = [] := by
  simpa using hexEncode_inj (a := b) (b := [])

/-- Text made of decimal digits and lower-case letters only. -/
def Alnum (b : Bytes) : Prop := ∀ c ∈ b, (48 ≤ c ∧ c ≤ 57) ∨ (97 ≤ c ∧ c ≤ 122)

theorem hexDigit_alnum {n : Nat} (hn : n < 16) :
    (48 ≤ hexDigit n ∧ hexDigit n ≤ 57) ∨ (97 ≤ hexDigit n ∧ hexDigit n ≤ 122) := by
  interval_cases n <;> decide

theorem hexEncode_alnum (b : Bytes) : Alnum (hexEncode b) := by
  intro c hc
  obtain ⟨d, -, hd⟩ := List.mem_flatMap.mp hc
  have := d.toNat_lt
  simp only [List.mem_cons, List.not_mem_nil, or_false] at hd
  rcases hd with rfl | rfl
  · exact hexDigit_alnum (by omega)
  · exact hexDigit_alnum (by omega)

/-! ## Decimal text -/

/-- `%d` of a natural number. -/
def decimal (n : Nat) : Bytes := (Nat.toDigits 10 n).map fun c => UInt8.ofNat c.toNat

/-- `%d` of an integer. -/
def decimalInt : Int → Bytes
  | .ofNat n => decimal n
  | .negSucc n => 45 :: decimal (n + 1)

theorem decimal_digits (n : Nat) : ∀ c ∈ decimal n, 48 ≤ c ∧ c ≤ 57 := by
  intro c hc
  obtain ⟨d, hd, rfl⟩ := List.mem_map.mp hc
  have hDigit := Nat.isDigit_of_mem_toDigits (by decide) (by decide) hd
  simp only [Char.isDigit, Bool.and_eq_true, decide_eq_true_eq, ge_iff_le] at hDigit
  have hLow : 48 ≤ d.toNat := hDigit.1
  have hHigh : d.toNat ≤ 57 := hDigit.2
  constructor
  · rw [UInt8.le_iff_toNat_le, UInt8.toNat_ofNat', Nat.mod_eq_of_lt (by omega)]
    exact hLow
  · rw [UInt8.le_iff_toNat_le, UInt8.toNat_ofNat', Nat.mod_eq_of_lt (by omega)]
    exact hHigh

theorem decimal_alnum (n : Nat) : Alnum (decimal n) := fun c hc => Or.inl (decimal_digits n c hc)

/-- The digits of a number, read back from its text. -/
theorem toDigits_eq_map_decimal (n : Nat) :
    (decimal n).map (fun c => Char.ofNat c.toNat) = Nat.toDigits 10 n := by
  rw [decimal, List.map_map]
  conv_rhs => rw [← List.map_id (Nat.toDigits 10 n)]
  apply List.map_congr_left
  intro d hd
  have hDigit := Nat.isDigit_of_mem_toDigits (by decide) (by decide) hd
  simp only [Char.isDigit, Bool.and_eq_true, decide_eq_true_eq, ge_iff_le] at hDigit
  have hHigh : d.toNat ≤ 57 := hDigit.2
  simp only [Function.comp_apply, UInt8.toNat_ofNat', id_eq]
  rw [Nat.mod_eq_of_lt (by omega), Char.ofNat_toNat]

theorem decimal_injective : Function.Injective decimal := by
  intro m n h
  have hDigits : Nat.toDigits 10 m = Nat.toDigits 10 n := by
    rw [← toDigits_eq_map_decimal, ← toDigits_eq_map_decimal, h]
  rw [← Nat.ofDigitChars_ten_toDigits (n := m), hDigits, Nat.ofDigitChars_ten_toDigits]

/-! ## Separated fields -/

theorem utf8_colon : utf8 ":" = [58] := by decide +kernel

theorem utf8_newline : utf8 "\n" = [10] := by decide +kernel

/-- Two texts that agree, each cut at the first element outside of `A`, agree on both sides of
the cut and in the element. -/
theorem append_stop_inj {α : Type} {A : α → Prop} {s t : α} {a b x y : List α}
    (ha : ∀ c ∈ a, A c) (hb : ∀ c ∈ b, A c) (hs : ¬ A s) (ht : ¬ A t)
    (h : a ++ s :: x = b ++ t :: y) : a = b ∧ s = t ∧ x = y := by
  induction a generalizing b with
  | nil =>
    cases b with
    | nil => simpa using h
    | cons c b =>
      obtain ⟨rfl, -⟩ := List.cons.inj h
      exact absurd (hb s List.mem_cons_self) hs
  | cons c a ih =>
    cases b with
    | nil =>
      obtain ⟨rfl, -⟩ := List.cons.inj h
      exact absurd (ha c List.mem_cons_self) ht
    | cons d b =>
      obtain ⟨rfl, hTail⟩ := List.cons.inj h
      obtain ⟨rfl, hStop, hRest⟩ := ih (fun c hc => ha c (List.mem_cons_of_mem _ hc))
        (fun c hc => hb c (List.mem_cons_of_mem _ hc)) hTail
      exact ⟨rfl, hStop, hRest⟩

/-- Two texts that agree, each cut at the first separator, agree on both sides of it. -/
theorem append_sep_inj {α : Type} {sep : α} {a b x y : List α} (ha : sep ∉ a) (hb : sep ∉ b)
    (h : a ++ sep :: x = b ++ sep :: y) : a = b ∧ x = y := by
  obtain ⟨hLeft, -, hRight⟩ := append_stop_inj (A := fun c => c ≠ sep)
    (fun c hc hEq => ha (hEq ▸ hc)) (fun c hc hEq => hb (hEq ▸ hc)) (by simp) (by simp) h
  exact ⟨hLeft, hRight⟩

/-- Where the encoding of an element can be cut off from any text that follows it, and `g` read
from it, a concatenation of encodings determines `g` of each element. -/
theorem map_eq_of_flatMap_eq {α β γ : Type} {f : α → List β} {P : α → Prop} (g : α → γ)
    (hNe : ∀ a, f a ≠ [])
    (hCut : ∀ a b x y, P a → P b → f a ++ x = f b ++ y → g a = g b ∧ x = y) {xs ys : List α}
    (hxs : ∀ a ∈ xs, P a) (hys : ∀ a ∈ ys, P a) (h : xs.flatMap f = ys.flatMap f) :
    xs.map g = ys.map g := by
  induction xs generalizing ys with
  | nil =>
    cases ys with
    | nil => rfl
    | cons b ys => simp [hNe] at h
  | cons a xs ih =>
    cases ys with
    | nil => simp [hNe] at h
    | cons b ys =>
      rw [List.flatMap_cons, List.flatMap_cons] at h
      obtain ⟨hHead, hRest⟩ := hCut a b _ _ (hxs a List.mem_cons_self) (hys b List.mem_cons_self) h
      have hTail := ih (fun c hc => hxs c (List.mem_cons_of_mem _ hc))
        (fun c hc => hys c (List.mem_cons_of_mem _ hc)) hRest
      rw [List.map_cons, List.map_cons, hHead, hTail]

/-- The same, where the whole element can be read. -/
theorem eq_of_flatMap_eq {α β : Type} {f : α → List β} {P : α → Prop} (hNe : ∀ a, f a ≠ [])
    (hCut : ∀ a b x y, P a → P b → f a ++ x = f b ++ y → a = b ∧ x = y) {xs ys : List α}
    (hxs : ∀ a ∈ xs, P a) (hys : ∀ a ∈ ys, P a) (h : xs.flatMap f = ys.flatMap f) : xs = ys := by
  simpa using map_eq_of_flatMap_eq (fun a => a) hNe hCut hxs hys h

/-- Alphanumeric text contains no punctuation below the letters. -/
theorem Alnum.not_mem {b : Bytes} (hb : Alnum b) {c : UInt8}
    (hc : ¬ ((48 ≤ c ∧ c ≤ 57) ∨ (97 ≤ c ∧ c ≤ 122))) : c ∉ b := fun hm => hc (hb c hm)

theorem not_mem_decimalInt {c : UInt8} (hc : ¬ ((48 ≤ c ∧ c ≤ 57) ∨ (97 ≤ c ∧ c ≤ 122)))
    (hMinus : c ≠ 45) (n : Int) : c ∉ decimalInt n := by
  cases n with
  | ofNat n => exact (decimal_alnum n).not_mem hc
  | negSucc n =>
    simp only [decimalInt, List.mem_cons, not_or]
    exact ⟨hMinus, (decimal_alnum _).not_mem hc⟩

theorem decimalInt_injective : Function.Injective decimalInt := by
  intro m n h
  -- A minus sign is no digit, so the two signs agree.
  cases m with
  | ofNat m =>
    cases n with
    | ofNat n => exact congrArg Int.ofNat (decimal_injective h)
    | negSucc n =>
      have hText : decimal m = 45 :: decimal (n + 1) := h
      have hMem : (45 : UInt8) ∈ decimal m := hText ▸ List.mem_cons_self
      exact absurd (decimal_digits m 45 hMem) (by decide)
  | negSucc m =>
    cases n with
    | ofNat n =>
      have hText : decimal n = 45 :: decimal (m + 1) := h.symm
      have hMem : (45 : UInt8) ∈ decimal n := hText ▸ List.mem_cons_self
      exact absurd (decimal_digits n 45 hMem) (by decide)
    | negSucc n =>
      have hSucc := decimal_injective (List.cons.inj h).2
      exact congrArg Int.negSucc (Nat.succ.inj hSucc)

end Bdns.Lib
