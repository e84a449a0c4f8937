import SoloMiner.Lib.Base256
import SoloMiner.Lib.Checked
import SoloMiner.Lib.FixedArray

/-!
# Hex strings

Bytes travel as hex in every message of the protocol, and numbers as hex of a fixed
width. Encoding is `SoloMiner.Hex.encode` and `SoloMiner.Hex.fixedHex`; what was
encoded decodes to what it was (`SoloMiner.Hex.decode_encode`,
`SoloMiner.Hex.fromStrRadix16_fixedHex`).

The decoder works on a `&str`, which is a sequence of Unicode characters laid out in
UTF-8 and indexed by *byte*. It cuts the string into slices of two bytes, and a slice
whose end falls inside a character is a panic in the source. Where that happens is
said exactly by `SoloMiner.Hex.decode_eq_panic_iff`: the string has an even number of
bytes, and after some readable pairs comes a place where two bytes end inside a
character (`SoloMiner.Hex.SplitsChar`).

The digits are read by the standard library's parser, which takes a leading plus
sign; so two characters are a readable pair when the first is a digit or that sign,
and the second a digit (`SoloMiner.Hex.ReadablePair`).
-/

namespace SoloMiner

/-- A `str` or a `String`: its characters in order. -/
abbrev Str := List Char

/-- Rust's `char::is_whitespace`. -/
def isWhitespace (c : Char) : Bool :=
  let n := c.toNat
  (0x09 ≤ n && n ≤ 0x0D) || n == 0x20 || n == 0x85 || n == 0xA0 || n == 0x1680 ||
    (0x2000 ≤ n && n ≤ 0x200A) || n == 0x2028 || n == 0x2029 || n == 0x202F || n == 0x205F ||
      n == 0x3000

namespace Hex

/-! ### Strings by byte offset -/

/-- `str::len`: the length of a string in bytes. -/
def utf8Len : Str → ℕ
  | [] => 0
  | c :: s => c.utf8Size + utf8Len s

/-- The two halves of a string at a byte offset, if it is a character boundary. -/
def splitAtByte : Str → ℕ → Option (Str × Str)
  | s, 0 => some ([], s)
  | [], _ + 1 => none
  | c :: s, n + 1 =>
    if c.utf8Size ≤ n + 1 then
      (splitAtByte s (n + 1 - c.utf8Size)).map fun halves => (c :: halves.1, halves.2)
    else none

/-- `&s[i..j]`: the slice between two byte offsets, or nothing where the source
panics. -/
def sliceBytes (s : Str) (i j : ℕ) : Option Str := do
  let (_, rest) ← splitAtByte s i
  let (slice, _) ← splitAtByte rest (j - i)
  pure slice

/-! ### Digits -/

/-- `char::to_digit(16)`. -/
def toDigit (c : Char) : Option ℕ :=
  if '0' ≤ c ∧ c ≤ '9' then some (c.toNat - '0'.toNat)
  else if 'a' ≤ c ∧ c ≤ 'f' then some (c.toNat - 'a'.toNat + 10)
  else if 'A' ≤ c ∧ c ≤ 'F' then some (c.toNat - 'A'.toNat + 10)
  else none

/-- A lowercase hex digit. -/
def digitChar (d : ℕ) : Char := ("0123456789abcdef".toList).getD d '0'

/-- One step of `from_str_radix`: another digit, unless the value outgrows the type. -/
def pushDigit (bits acc : ℕ) (c : Char) : Option ℕ := do
  let digit ← toDigit c
  if acc * 16 + digit < 2 ^ bits then pure (acc * 16 + digit) else none

/-- `from_str_radix(s, 16)` at an unsigned type of the given width. A leading plus
sign is dropped; a sign alone or an empty string is an error. -/
def fromStrRadix16 (bits : ℕ) (s : Str) : Option ℕ :=
  match s with
  | [] => none
  | ['+'] => none
  | ['-'] => none
  | '+' :: digits => digits.foldlM (pushDigit bits) 0
  | digits => digits.foldlM (pushDigit bits) 0

/-- The `n` lowest hex digits of a value, highest first: `{:0n x}` at a type of that
many digits. -/
def fixedHex : ℕ → ℕ → Str
  | 0, _ => []
  | n + 1, v => fixedHex n (v / 16) ++ [digitChar (v % 16)]

/-! ### Encoding and decoding bytes -/

/-- Why a hex string could not be decoded. -/
inductive HexError where
  /-- A hex string must have an even number of characters. -/
  | oddLength (length : ℕ)
  /-- A pair that is not hex, and where it stands. -/
  | notHex (offset : ℕ) (found : Str)
  /-- The string decoded, but to the wrong number of bytes. -/
  | wrongLength (expected found : ℕ)
  deriving DecidableEq

/-- Encodes bytes as lowercase hex. -/
def encode (bytes : Bytes) : Str := bytes.flatMap fun byte => fixedHex 2 byte.toNat

/-- The byte that the two bytes of a string at an offset spell. -/
def decodePair (s : Str) (i : ℕ) : Checked HexError UInt8 :=
  match sliceBytes s i (i + 2) with
  | none => .panic
  | some pair => Checked.okOr (.notHex i pair) ((fromStrRadix16 8 pair).map UInt8.ofNat)

/-- Decodes a hex string, pair by pair from the front. -/
def decode (s : Str) : Checked HexError Bytes :=
  if utf8Len s % 2 ≠ 0 then .err (.oddLength (utf8Len s))
  else (List.range' 0 (utf8Len s / 2) 2).mapM (decodePair s)

/-- Decodes a hex string known to be exactly `n` bytes. -/
def decodeArray (n : ℕ) (s : Str) : Checked HexError (ByteArr n) := do
  let bytes ← decode s
  if h : bytes.length = n then pure (toArr bytes h) else .err (.wrongLength n bytes.length)

/-! ### Splitting -/

@[simp] theorem splitAtByte_zero (s : Str) : splitAtByte s 0 = some ([], s) := by
  cases s <;> rfl

theorem splitAtByte_cons {c : Char} {s : Str} {n : ℕ} (hc : c.utf8Size ≤ n) :
    splitAtByte (c :: s) n =
      (splitAtByte s (n - c.utf8Size)).map fun halves => (c :: halves.1, halves.2) := by
  have hpos : 0 < c.utf8Size := c.utf8Size_pos
  obtain ⟨m, rfl⟩ : ∃ m, n = m + 1 := ⟨n - 1, by omega⟩
  rw [splitAtByte, if_pos hc]

theorem splitAtByte_cons_of_lt {c : Char} {s : Str} {n : ℕ} (hn : 0 < n) (hc : n < c.utf8Size) :
    splitAtByte (c :: s) n = none := by
  obtain ⟨m, rfl⟩ : ∃ m, n = m + 1 := ⟨n - 1, by omega⟩
  rw [splitAtByte, if_neg (by omega)]

/-- A split further on goes through the first one. -/
theorem splitAtByte_add {s u t : Str} {i : ℕ} (n : ℕ) (h : splitAtByte s i = some (u, t)) :
    splitAtByte s (i + n) = (splitAtByte t n).map fun halves => (u ++ halves.1, halves.2) := by
  induction s generalizing i u t with
  | nil =>
    cases i with
    | zero =>
      obtain ⟨rfl, rfl⟩ : [] = u ∧ [] = t := by simpa using h
      simp
    | succ i => simp [splitAtByte] at h
  | cons c s ih =>
    rcases Nat.eq_zero_or_pos i with rfl | hi
    · obtain ⟨rfl, rfl⟩ : [] = u ∧ c :: s = t := by simpa using h
      simp
    · by_cases hc : c.utf8Size ≤ i
      · rw [splitAtByte_cons hc, Option.map_eq_some_iff] at h
        obtain ⟨⟨u', t'⟩, hsplit, heq⟩ := h
        obtain ⟨rfl, rfl⟩ := Prod.mk.inj heq
        rw [splitAtByte_cons (by omega), show i + n - c.utf8Size = i - c.utf8Size + n by omega,
          ih hsplit, Option.map_map]
        rfl
      · rw [splitAtByte_cons_of_lt hi (by omega)] at h
        exact absurd h (by simp)

/-- The slice at a boundary is read off the rest of the string. -/
theorem sliceBytes_of_split {s u t : Str} {i : ℕ} (n : ℕ) (h : splitAtByte s i = some (u, t)) :
    sliceBytes s i (i + n) = (splitAtByte t n).map Prod.fst := by
  simp only [sliceBytes, h, Nat.add_sub_cancel_left]
  cases hn : splitAtByte t n <;> simp [hn]

theorem utf8Len_append (s t : Str) : utf8Len (s ++ t) = utf8Len s + utf8Len t := by
  induction s with
  | nil => simp [utf8Len]
  | cons c s ih =>
    rw [List.cons_append, utf8Len, ih, utf8Len]
    omega

/-- A split gives a start of the string with so many bytes, and the rest. -/
theorem append_of_split {s u t : Str} {i : ℕ} (h : splitAtByte s i = some (u, t)) :
    s = u ++ t ∧ utf8Len u = i := by
  induction s generalizing i u t with
  | nil =>
    cases i with
    | zero =>
      obtain ⟨rfl, rfl⟩ : [] = u ∧ [] = t := by simpa using h
      exact ⟨rfl, rfl⟩
    | succ i => simp [splitAtByte] at h
  | cons c s ih =>
    rcases Nat.eq_zero_or_pos i with rfl | hi
    · obtain ⟨rfl, rfl⟩ : [] = u ∧ c :: s = t := by simpa using h
      exact ⟨rfl, rfl⟩
    · by_cases hc : c.utf8Size ≤ i
      · rw [splitAtByte_cons hc, Option.map_eq_some_iff] at h
        obtain ⟨⟨u', t'⟩, hsplit, heq⟩ := h
        obtain ⟨rfl, rfl⟩ := Prod.mk.inj heq
        obtain ⟨rfl, hlen⟩ := ih hsplit
        refine ⟨rfl, ?_⟩
        rw [utf8Len, hlen]
        omega
      · rw [splitAtByte_cons_of_lt hi (by omega)] at h
        exact absurd h (by simp)

/-- **A string is split behind any start of it.** -/
theorem splitAtByte_append (u t : Str) : splitAtByte (u ++ t) (utf8Len u) = some (u, t) := by
  induction u with
  | nil => exact splitAtByte_zero t
  | cons c u ih =>
    rw [List.cons_append, utf8Len, splitAtByte_cons (Nat.le_add_right _ _), Nat.add_sub_cancel_left,
      ih]
    rfl

/-- A split at a boundary leaves the bytes it has not passed. -/
theorem utf8Len_of_split {s u t : Str} {i : ℕ} (h : splitAtByte s i = some (u, t)) :
    utf8Len s = i + utf8Len t := by
  obtain ⟨rfl, rfl⟩ := append_of_split h
  exact utf8Len_append u t

/-! ### The decoder on the rest of the string -/

/-- The decoder from a boundary on: what is left of the loop once the pairs before
`offset` are read. -/
def decodeRest : ℕ → ℕ → Str → Checked HexError Bytes
  | _, 0, _ => .ok []
  | offset, k + 1, t =>
    match splitAtByte t 2 with
    | none => .panic
    | some (pair, t') => do
      let byte ← Checked.okOr (.notHex offset pair) ((fromStrRadix16 8 pair).map UInt8.ofNat)
      let bytes ← decodeRest (offset + 2) k t'
      pure (byte :: bytes)

/-- **The loop from a boundary on** sees only the rest of the string. -/
theorem mapM_decodePair_eq {s u t : Str} {offset : ℕ} (k : ℕ)
    (h : splitAtByte s offset = some (u, t)) :
    (List.range' offset k 2).mapM (decodePair s) = decodeRest offset k t := by
  induction k generalizing offset u t with
  | zero => rfl
  | succ k ih =>
    rw [List.range'_succ, List.mapM_cons, decodePair, sliceBytes_of_split 2 h, decodeRest]
    cases hsplit : splitAtByte t 2 with
    | none => rfl
    | some halves =>
      obtain ⟨pair, t'⟩ := halves
      have hnext : splitAtByte s (offset + 2) = some (u ++ pair, t') := by
        rw [splitAtByte_add 2 h, hsplit]
        rfl
      rw [ih hnext]
      rfl

theorem decode_eq_decodeRest {s : Str} (h : utf8Len s % 2 = 0) :
    decode s = decodeRest 0 (utf8Len s / 2) s := by
  rw [decode, if_neg (by omega), mapM_decodePair_eq _ (splitAtByte_zero s)]

/-! ### What was encoded is decoded -/

theorem toDigit_digitChar {d : ℕ} (h : d < 16) : toDigit (digitChar d) = some d := by
  have hall : ∀ d : Fin 16, toDigit (digitChar d) = some (d : ℕ) := by decide
  exact hall ⟨d, h⟩

theorem utf8Size_digitChar {d : ℕ} (h : d < 16) : (digitChar d).utf8Size = 1 := by
  have hall : ∀ d : Fin 16, (digitChar d).utf8Size = 1 := by decide
  exact hall ⟨d, h⟩

theorem digitChar_ne_plus {d : ℕ} (h : d < 16) : digitChar d ≠ '+' := by
  have hall : ∀ d : Fin 16, digitChar d ≠ '+' := by decide
  exact hall ⟨d, h⟩

@[simp] theorem length_fixedHex (n v : ℕ) : (fixedHex n v).length = n := by
  induction n generalizing v with
  | zero => rfl
  | succ n ih => simp [fixedHex, ih]

/-- The first character of a fixed-width number is a digit. -/
theorem fixedHex_head (n v : ℕ) : ∃ d < 16, ∃ s, fixedHex (n + 1) v = digitChar d :: s := by
  induction n generalizing v with
  | zero => exact ⟨v % 16, Nat.mod_lt _ (by norm_num), [], rfl⟩
  | succ n ih =>
    obtain ⟨d, hd, s, hs⟩ := ih (v / 16)
    exact ⟨d, hd, s ++ [digitChar (v % 16)], by rw [fixedHex, hs]; rfl⟩

/-- Reading the digits of a value that fits gives the value. -/
theorem foldlM_pushDigit_fixedHex {bits n v : ℕ} (hv : v < 16 ^ n) (hbits : v < 2 ^ bits) :
    (fixedHex n v).foldlM (pushDigit bits) 0 = some v := by
  induction n generalizing v with
  | zero =>
    have h0 : v = 0 := by simpa using hv
    simp [fixedHex, h0]
  | succ n ih =>
    have hdiv : v / 16 < 16 ^ n := by
      rw [pow_succ] at hv
      omega
    have hmod : v / 16 * 16 + v % 16 = v := Nat.div_add_mod' v 16
    rw [fixedHex, List.foldlM_append, ih hdiv (by omega)]
    simp [pushDigit, toDigit_digitChar (Nat.mod_lt v (by norm_num : 0 < 16)), hmod, hbits]

/-- A string that does not open with a plus sign is read digit by digit. -/
theorem fromStrRadix16_of_ne {bits : ℕ} {c : Char} (hplus : c ≠ '+') (s : Str) :
    fromStrRadix16 bits (c :: s) = (c :: s).foldlM (pushDigit bits) 0 := by
  by_cases hminus : c :: s = ['-']
  · rw [hminus]
    rfl
  · rw [fromStrRadix16]
    · exact fun heq => absurd heq (by simp)
    · exact fun heq => hplus (List.cons.inj heq).1
    · exact hminus
    · exact fun _ heq => hplus (List.cons.inj heq).1

/-- **A fixed-width number is read back**, at any type it fits. -/
theorem fromStrRadix16_fixedHex {bits n v : ℕ} (hn : 0 < n) (hv : v < 16 ^ n)
    (hbits : v < 2 ^ bits) : fromStrRadix16 bits (fixedHex n v) = some v := by
  obtain ⟨m, rfl⟩ : ∃ m, n = m + 1 := ⟨n - 1, by omega⟩
  obtain ⟨d, hd, s, hs⟩ := fixedHex_head m v
  rw [hs, fromStrRadix16_of_ne (digitChar_ne_plus hd), ← hs, foldlM_pushDigit_fixedHex hv hbits]

theorem fixedHex_two (v : ℕ) :
    fixedHex 2 v = [digitChar (v / 16 % 16), digitChar (v % 16)] := rfl

theorem encode_cons (byte : UInt8) (bytes : Bytes) :
    encode (byte :: bytes) = fixedHex 2 byte.toNat ++ encode bytes := rfl

/-- A pair of one-byte characters is split off in front. -/
theorem splitAtByte_two {c d : Char} (hc : c.utf8Size = 1) (hd : d.utf8Size = 1) (s : Str) :
    splitAtByte (c :: d :: s) 2 = some ([c, d], s) := by
  rw [splitAtByte_cons (by omega), hc, splitAtByte_cons (by omega), hd]
  simp

theorem utf8Len_encode (bytes : Bytes) : utf8Len (encode bytes) = bytes.length * 2 := by
  induction bytes with
  | nil => rfl
  | cons byte bytes ih =>
    have hdiv := utf8Size_digitChar (Nat.mod_lt (byte.toNat / 16) (by norm_num : 0 < 16))
    have hmod := utf8Size_digitChar (Nat.mod_lt byte.toNat (by norm_num : 0 < 16))
    rw [encode_cons, fixedHex_two, List.cons_append, List.cons_append, List.nil_append,
      utf8Len, utf8Len, hdiv, hmod, ih, List.length_cons]
    omega

theorem decodeRest_encode (offset : ℕ) (bytes : Bytes) :
    decodeRest offset bytes.length (encode bytes) = .ok bytes := by
  induction bytes generalizing offset with
  | nil => rfl
  | cons byte bytes ih =>
    have hlt : byte.toNat < 256 := byte.toNat_lt
    have hread : fromStrRadix16 8 (fixedHex 2 byte.toNat) = some byte.toNat :=
      fromStrRadix16_fixedHex (by norm_num) (by omega) (by omega)
    have hsplit : splitAtByte (encode (byte :: bytes)) 2 =
        some (fixedHex 2 byte.toNat, encode bytes) :=
      splitAtByte_two (utf8Size_digitChar (Nat.mod_lt _ (by norm_num)))
        (utf8Size_digitChar (Nat.mod_lt _ (by norm_num))) _
    rw [List.length_cons, decodeRest, hsplit]
    simp [hread, ih, pure, Except.pure]

/-- **What was encoded is decoded to what it was.** -/
@[simp] theorem decode_encode (bytes : Bytes) : decode (encode bytes) = .ok bytes := by
  have hlen := utf8Len_encode bytes
  rw [decode_eq_decodeRest (by omega), show utf8Len (encode bytes) / 2 = bytes.length by omega,
    decodeRest_encode]

theorem encode_injective : Function.Injective encode := by
  intro bytes bytes' h
  have hdecode := decode_encode bytes
  rw [h, decode_encode] at hdecode
  exact (Except.ok.inj hdecode).symm

@[simp] theorem decodeArray_encode {n : ℕ} (bytes : ByteArr n) :
    decodeArray n (encode bytes.toList) = .ok bytes := by
  rw [decodeArray, decode_encode, Checked.ok_bind, dif_pos bytes.toList_length]
  rfl

/-! ### Where the decoder panics -/

/-- A character the parser takes as a hex digit. -/
def IsHexDigit (c : Char) : Prop := (toDigit c).isSome = true

instance (c : Char) : Decidable (IsHexDigit c) := inferInstanceAs (Decidable (_ = true))

/-- Two characters that the decoder reads as a byte. -/
def ReadablePair (p : Char × Char) : Prop := (IsHexDigit p.1 ∨ p.1 = '+') ∧ IsHexDigit p.2

instance (p : Char × Char) : Decidable (ReadablePair p) := inferInstanceAs (Decidable (_ ∧ _))

/-- The characters of a list of pairs. -/
def pairChars (ps : List (Char × Char)) : Str := ps.flatMap fun p => [p.1, p.2]

/-- Two bytes into the string, a character is cut in two. -/
def SplitsHere : Str → Prop
  | [] => False
  | [c] => 2 < c.utf8Size
  | c :: d :: _ => 2 < c.utf8Size ∨ (c.utf8Size = 1 ∧ 1 < d.utf8Size)

instance : (s : Str) → Decidable (SplitsHere s)
  | [] => inferInstanceAs (Decidable False)
  | [c] => inferInstanceAs (Decidable (2 < c.utf8Size))
  | _ :: _ :: _ => inferInstanceAs (Decidable (_ ∨ _))

/-- **The strings the decoder panics on**: an even number of bytes and, after some
readable pairs, a place where the next two bytes end inside a character. -/
def SplitsChar (s : Str) : Prop :=
  utf8Len s % 2 = 0 ∧ ∃ ps t, s = pairChars ps ++ t ∧ (∀ p ∈ ps, ReadablePair p) ∧ SplitsHere t

/-- Every hex digit is one byte long. -/
theorem IsHexDigit.utf8Size {c : Char} (h : IsHexDigit c) : c.utf8Size = 1 := by
  have hle : c.toNat ≤ 'f'.toNat := by
    simp only [IsHexDigit, toDigit] at h
    split_ifs at h with h1 h2 h3
    · exact le_trans h1.2 (by decide)
    · exact h2.2
    · exact le_trans h3.2 (by decide)
    · exact absurd h (by simp)
  rw [Char.utf8Size_eq_one_iff]
  exact le_trans hle (by decide)

theorem toDigit_lt {c : Char} {d : ℕ} (h : toDigit c = some d) : d < 16 := by
  simp only [toDigit] at h
  split_ifs at h with h1 h2 h3
  · have hle : c.toNat ≤ '9'.toNat := h1.2
    have hge : '0'.toNat ≤ c.toNat := h1.1
    have h9 : '9'.toNat = 57 := rfl
    have h0 : '0'.toNat = 48 := rfl
    simp only [Option.some.injEq] at h
    omega
  · have hle : c.toNat ≤ 'f'.toNat := h2.2
    have hge : 'a'.toNat ≤ c.toNat := h2.1
    have hf : 'f'.toNat = 102 := rfl
    have ha : 'a'.toNat = 97 := rfl
    simp only [Option.some.injEq] at h
    omega
  · have hle : c.toNat ≤ 'F'.toNat := h3.2
    have hge : 'A'.toNat ≤ c.toNat := h3.1
    have hf : 'F'.toNat = 70 := rfl
    have ha : 'A'.toNat = 65 := rfl
    simp only [Option.some.injEq] at h
    omega

theorem isHexDigit_iff {c : Char} : IsHexDigit c ↔ ∃ d < 16, toDigit c = some d := by
  rw [IsHexDigit, Option.isSome_iff_exists]
  exact ⟨fun ⟨d, hd⟩ => ⟨d, toDigit_lt hd, hd⟩, fun ⟨d, _, hd⟩ => ⟨d, hd⟩⟩

theorem not_isHexDigit_plus : ¬ IsHexDigit '+' := by decide

/-- **Two characters are read as a byte** precisely when they are a readable pair. -/
theorem fromStrRadix16_pair_isSome {c d : Char} :
    (fromStrRadix16 8 [c, d]).isSome = true ↔ ReadablePair (c, d) := by
  rw [Option.isSome_iff_exists]
  by_cases hplus : c = '+'
  · subst hplus
    have hread : fromStrRadix16 8 ['+', d] = pushDigit 8 0 d := by
      rw [fromStrRadix16]
      · simp
      · simp
    rw [hread]
    constructor
    · rintro ⟨v, hv⟩
      obtain ⟨x, hx, -⟩ := Option.bind_eq_some_iff.mp hv
      exact ⟨Or.inr rfl, isHexDigit_iff.mpr ⟨x, toDigit_lt hx, hx⟩⟩
    · rintro ⟨-, hd⟩
      obtain ⟨x, hlt, hx⟩ := isHexDigit_iff.mp hd
      exact ⟨x, by simp [pushDigit, hx, show x < 256 by omega]⟩
  · rw [fromStrRadix16_of_ne hplus]
    constructor
    · rintro ⟨v, hv⟩
      obtain ⟨x, hx, hrest⟩ := Option.bind_eq_some_iff.mp hv
      obtain ⟨y, hy, -⟩ := Option.bind_eq_some_iff.mp hx
      obtain ⟨z, hz, -⟩ := Option.bind_eq_some_iff.mp hrest
      obtain ⟨w, hw, -⟩ := Option.bind_eq_some_iff.mp hz
      exact ⟨Or.inl (isHexDigit_iff.mpr ⟨y, toDigit_lt hy, hy⟩),
        isHexDigit_iff.mpr ⟨w, toDigit_lt hw, hw⟩⟩
    · rintro ⟨hc | hc, hd⟩
      · obtain ⟨x, hxlt, hx⟩ := isHexDigit_iff.mp hc
        obtain ⟨y, hylt, hy⟩ := isHexDigit_iff.mp hd
        exact ⟨x * 16 + y, by
          simp [pushDigit, hx, hy, show x < 256 by omega, show x * 16 + y < 256 by omega]⟩
      · exact absurd hc hplus

/-- **The next two bytes** of a string that has them are a pair of characters, one
character, or the place where a character is cut in two. -/
theorem splitAtByte_two_cases {t : Str} (h : 2 ≤ utf8Len t) :
    (SplitsHere t ∧ splitAtByte t 2 = none) ∨
    (∃ c d t', t = c :: d :: t' ∧ c.utf8Size = 1 ∧ d.utf8Size = 1 ∧
      splitAtByte t 2 = some ([c, d], t')) ∨
    ∃ c t', t = c :: t' ∧ c.utf8Size = 2 ∧ splitAtByte t 2 = some ([c], t') := by
  cases t with
  | nil => simp [utf8Len] at h
  | cons c t =>
    rcases Nat.lt_trichotomy c.utf8Size 2 with hc | hc | hc
    · have hc1 : c.utf8Size = 1 := by
        have := c.utf8Size_pos
        omega
      cases t with
      | nil => simp [utf8Len, hc1] at h
      | cons d t =>
        by_cases hd : d.utf8Size = 1
        · exact Or.inr (Or.inl ⟨c, d, t, rfl, hc1, hd, splitAtByte_two hc1 hd t⟩)
        · have hd2 : 1 < d.utf8Size := by
            have := d.utf8Size_pos
            omega
          refine Or.inl ⟨Or.inr ⟨hc1, hd2⟩, ?_⟩
          rw [splitAtByte_cons (by omega), hc1, splitAtByte_cons_of_lt (by norm_num) hd2]
          rfl
    · refine Or.inr (Or.inr ⟨c, t, rfl, hc, ?_⟩)
      rw [splitAtByte_cons (by omega), hc]
      simp
    · refine Or.inl ⟨?_, splitAtByte_cons_of_lt (by norm_num) hc⟩
      cases t with
      | nil => exact hc
      | cons d t => exact Or.inl hc

theorem not_splitsHere_pair {c d : Char} {t : Str} (hc : c.utf8Size = 1) (hd : d.utf8Size = 1) :
    ¬ SplitsHere (c :: d :: t) := by
  rintro (h | h) <;> omega

theorem ReadablePair.utf8Size {p : Char × Char} (h : ReadablePair p) :
    p.1.utf8Size = 1 ∧ p.2.utf8Size = 1 := by
  refine ⟨?_, h.2.utf8Size⟩
  rcases h.1 with h | h
  · exact h.utf8Size
  · rw [h]
    decide

/-- A single two-byte character is not read as a byte. -/
theorem fromStrRadix16_single {c : Char} (hc : c.utf8Size = 2) : fromStrRadix16 8 [c] = none := by
  have hplus : c ≠ '+' := by
    rintro rfl
    exact absurd hc (by decide)
  have hdigit : toDigit c = none := by
    cases hd : toDigit c with
    | none => rfl
    | some d =>
      have h1 := IsHexDigit.utf8Size (isHexDigit_iff.mpr ⟨d, toDigit_lt hd, hd⟩)
      omega
  rw [fromStrRadix16_of_ne hplus]
  simp [pushDigit, hdigit]

/-- One step of the decoder on a pair of one-byte characters. -/
theorem decodeRest_pair (offset k : ℕ) {c d : Char} {t t' : Str}
    (h : splitAtByte t 2 = some ([c, d], t')) :
    (ReadablePair (c, d) ∧ ∃ byte, decodeRest offset (k + 1) t =
      (decodeRest (offset + 2) k t').map (byte :: ·)) ∨
    (¬ ReadablePair (c, d) ∧ decodeRest offset (k + 1) t = .err (.notHex offset [c, d])) := by
  rw [decodeRest, h]
  cases hread : fromStrRadix16 8 [c, d] with
  | some v =>
    refine Or.inl ⟨fromStrRadix16_pair_isSome.mp (by simp [hread]), UInt8.ofNat v, ?_⟩
    cases hrest : decodeRest (offset + 2) k t' <;>
      simp [hrest, hread, bind, Except.bind, pure, Except.pure, Except.map]
  | none =>
    refine Or.inr ⟨fun hp => ?_, by simp [hread]⟩
    exact absurd (fromStrRadix16_pair_isSome.mpr hp) (by simp [hread])

/-- One step of the decoder on a character of two bytes. -/
theorem decodeRest_single (offset k : ℕ) {c : Char} {t t' : Str} (hc : c.utf8Size = 2)
    (h : splitAtByte t 2 = some ([c], t')) :
    decodeRest offset (k + 1) t = .err (.notHex offset [c]) := by
  rw [decodeRest, h]
  simp [fromStrRadix16_single hc]

theorem eq_nil_of_utf8Len {t : Str} (h : utf8Len t = 0) : t = [] := by
  cases t with
  | nil => rfl
  | cons c t =>
    have hpos := c.utf8Size_pos
    rw [utf8Len] at h
    omega

/-- Behind some readable pairs, a character is cut in two. -/
def SplitsBehind (t : Str) : Prop :=
  ∃ ps t', t = pairChars ps ++ t' ∧ (∀ p ∈ ps, ReadablePair p) ∧ SplitsHere t'

theorem not_splitsBehind_nil : ¬ SplitsBehind [] := by
  rintro ⟨ps, t', heq, -, hsplit⟩
  obtain ⟨-, rfl⟩ := List.append_eq_nil_iff.mp heq.symm
  exact hsplit

/-- Two characters of a byte each are passed over if they can be read. -/
theorem splitsBehind_pair_iff {c d : Char} {t : Str} (hc : c.utf8Size = 1) (hd : d.utf8Size = 1) :
    SplitsBehind (c :: d :: t) ↔ ReadablePair (c, d) ∧ SplitsBehind t := by
  constructor
  · rintro ⟨ps, u, hcd, hps, hu⟩
    cases ps with
    | nil =>
      rw [show u = c :: d :: t from hcd.symm] at hu
      exact absurd hu (not_splitsHere_pair hc hd)
    | cons p ps =>
      obtain ⟨rfl, rfl, rfl⟩ : c = p.1 ∧ d = p.2 ∧ t = pairChars ps ++ u := by
        simpa [pairChars] using hcd
      exact ⟨hps p List.mem_cons_self, ps, u, rfl,
        fun q hq => hps q (List.mem_cons_of_mem p hq), hu⟩
  · rintro ⟨hp, ps, u, rfl, hps, hu⟩
    exact ⟨(c, d) :: ps, u, rfl, List.forall_mem_cons.mpr ⟨hp, hps⟩, hu⟩

/-- A character of two bytes is not passed over. -/
theorem not_splitsBehind_single {c : Char} {t : Str} (hc : c.utf8Size = 2) :
    ¬ SplitsBehind (c :: t) := by
  rintro ⟨ps, u, hcd, hps, hu⟩
  cases ps with
  | nil =>
    rw [show u = c :: t from hcd.symm] at hu
    cases t with
    | nil =>
      simp only [SplitsHere] at hu
      omega
    | cons d t => rcases hu with hu | hu <;> omega
  | cons p ps =>
    obtain ⟨rfl, -⟩ : c = p.1 ∧ t = p.2 :: (pairChars ps ++ u) := by
      simpa [pairChars] using hcd
    have h1 := (hps p List.mem_cons_self).utf8Size.1
    omega

/-- **Where the decoder panics from a boundary on.** -/
theorem decodeRest_eq_panic_iff {offset k : ℕ} {t : Str} (hlen : utf8Len t = 2 * k) :
    decodeRest offset k t = .panic ↔ SplitsBehind t := by
  induction k generalizing offset t with
  | zero =>
    obtain rfl := eq_nil_of_utf8Len hlen
    exact iff_of_false (by simp [decodeRest]) not_splitsBehind_nil
  | succ k ih =>
    rcases splitAtByte_two_cases (t := t) (by omega) with
      ⟨hhere, hsplit⟩ | ⟨c, d, t', rfl, hc, hd, hsplit⟩ | ⟨c, t', rfl, hc, hsplit⟩
    · refine iff_of_true ?_ ⟨[], t, rfl, by simp, hhere⟩
      rw [decodeRest, hsplit]
    · have hlen' : utf8Len t' = 2 * k := by
        have := utf8Len_of_split hsplit
        omega
      rw [splitsBehind_pair_iff hc hd]
      rcases decodeRest_pair offset k hsplit with ⟨hp, byte, heq⟩ | ⟨hp, heq⟩
      · rw [heq, Checked.map_eq_panic, ih hlen', and_iff_right hp]
      · exact iff_of_false (by simp [heq]) fun h => hp h.1
    · refine iff_of_false ?_ (not_splitsBehind_single hc)
      rw [decodeRest_single offset k hc hsplit]
      simp

/-- **Where the decoder panics.** -/
theorem decode_eq_panic_iff (s : Str) : decode s = .panic ↔ SplitsChar s := by
  by_cases heven : utf8Len s % 2 = 0
  · rw [decode_eq_decodeRest heven, decodeRest_eq_panic_iff (by omega), SplitsChar]
    exact (and_iff_right heven).symm
  · rw [decode, if_pos heven]
    exact iff_of_false (by simp) fun h => heven h.1

/-! ### What the number parser accepts -/

theorem isHexDigit_of_foldlM {bits acc n : ℕ} {s : Str}
    (h : s.foldlM (pushDigit bits) acc = some n) : ∀ c ∈ s, IsHexDigit c := by
  induction s generalizing acc with
  | nil => exact fun c hc => absurd hc List.not_mem_nil
  | cons d s ih =>
    rw [List.foldlM_cons] at h
    obtain ⟨acc', hacc, hrest⟩ := Option.bind_eq_some_iff.mp h
    obtain ⟨digit, hdigit, -⟩ := Option.bind_eq_some_iff.mp hacc
    intro c hc
    rcases List.mem_cons.mp hc with rfl | hc
    · rw [IsHexDigit, hdigit]
      rfl
    · exact ih hrest c hc

/-- A number without a plus sign is a string of digits. -/
theorem isHexDigit_of_fromStrRadix16 {bits n : ℕ} {s : Str} (h : fromStrRadix16 bits s = some n)
    (hplus : '+' ∉ s) : s ≠ [] ∧ ∀ c ∈ s, IsHexDigit c := by
  cases s with
  | nil => exact absurd h (by simp [fromStrRadix16])
  | cons c s =>
    have hc : c ≠ '+' := fun heq => hplus (heq ▸ List.mem_cons_self)
    rw [fromStrRadix16_of_ne hc] at h
    exact ⟨List.cons_ne_nil c s, isHexDigit_of_foldlM h⟩

/-! ### What the decoder accepts -/

theorem pairChars_cons (p : Char × Char) (ps : List (Char × Char)) :
    pairChars (p :: ps) = p.1 :: p.2 :: pairChars ps := rfl

theorem utf8Len_pairChars {ps : List (Char × Char)} (h : ∀ p ∈ ps, ReadablePair p) :
    utf8Len (pairChars ps) = 2 * ps.length := by
  induction ps with
  | nil => rfl
  | cons p ps ih =>
    obtain ⟨h1, h2⟩ := (h p List.mem_cons_self).utf8Size
    rw [pairChars_cons, utf8Len, utf8Len, h1, h2, ih fun q hq => h q (List.mem_cons_of_mem p hq),
      List.length_cons]
    omega

theorem length_pairChars (ps : List (Char × Char)) : (pairChars ps).length = 2 * ps.length := by
  induction ps with
  | nil => rfl
  | cons p ps ih =>
    rw [pairChars_cons, List.length_cons, List.length_cons, ih, List.length_cons]
    omega

/-- Readable pairs without a plus sign are digits. -/
theorem isHexDigit_of_pairChars {ps : List (Char × Char)} (h : ∀ p ∈ ps, ReadablePair p)
    (hplus : '+' ∉ pairChars ps) : ∀ c ∈ pairChars ps, IsHexDigit c := by
  intro c hc
  obtain ⟨p, hp, hmem⟩ := List.mem_flatMap.mp hc
  have hc' : c ≠ '+' := fun heq => hplus (heq ▸ hc)
  obtain ⟨hfirst, hsecond⟩ := h p hp
  rcases List.mem_cons.mp hmem with rfl | hmem
  · exact hfirst.resolve_right hc'
  · obtain rfl := List.mem_singleton.mp hmem
    exact hsecond

theorem decodeRest_pairChars {ps : List (Char × Char)} (h : ∀ p ∈ ps, ReadablePair p)
    (offset : ℕ) : ∃ bytes, decodeRest offset ps.length (pairChars ps) = .ok bytes ∧
      bytes.length = ps.length := by
  induction ps generalizing offset with
  | nil => exact ⟨[], rfl, rfl⟩
  | cons p ps ih =>
    have hp := h p List.mem_cons_self
    obtain ⟨bytes, hbytes, hlen⟩ := ih (fun q hq => h q (List.mem_cons_of_mem p hq)) (offset + 2)
    have hsplit : splitAtByte (pairChars (p :: ps)) 2 = some ([p.1, p.2], pairChars ps) :=
      splitAtByte_two hp.utf8Size.1 hp.utf8Size.2 _
    rcases decodeRest_pair offset ps.length hsplit with
      ⟨-, byte, heq⟩ | ⟨hnot, -⟩
    · exact ⟨byte :: bytes, by rw [List.length_cons, heq, hbytes]; rfl, by simp [hlen]⟩
    · exact absurd hp hnot

theorem decodeRest_eq_ok {offset k : ℕ} {t : Str} {bytes : Bytes} (hlen : utf8Len t = 2 * k)
    (h : decodeRest offset k t = .ok bytes) :
    ∃ ps, t = pairChars ps ∧ (∀ p ∈ ps, ReadablePair p) ∧ bytes.length = ps.length := by
  induction k generalizing offset t bytes with
  | zero =>
    obtain rfl := eq_nil_of_utf8Len hlen
    obtain rfl : [] = bytes := Except.ok.inj h
    exact ⟨[], rfl, by simp, rfl⟩
  | succ k ih =>
    rcases splitAtByte_two_cases (t := t) (by omega) with
      ⟨-, hsplit⟩ | ⟨c, d, t', rfl, hc, hd, hsplit⟩ | ⟨c, t', rfl, hc, hsplit⟩
    · rw [decodeRest, hsplit] at h
      exact absurd h (by simp [Checked.panic])
    · have hlen' : utf8Len t' = 2 * k := by
        have := utf8Len_of_split hsplit
        omega
      rcases decodeRest_pair offset k hsplit with ⟨hp, byte, heq⟩ | ⟨-, heq⟩
      · rw [heq] at h
        obtain ⟨rest, hrest, rfl⟩ := Checked.map_eq_ok.mp h
        obtain ⟨ps, rfl, hps, hl⟩ := ih hlen' hrest
        exact ⟨(c, d) :: ps, rfl, List.forall_mem_cons.mpr ⟨hp, hps⟩, by simp [hl]⟩
      · rw [heq] at h
        exact absurd h (by simp [Checked.err])
    · rw [decodeRest_single offset k hc hsplit] at h
      exact absurd h (by simp [Checked.err])

/-- **What the decoder accepts**: the strings of readable pairs, one byte for each. -/
theorem decode_isOk_iff (s : Str) (n : ℕ) :
    (∃ bytes, decode s = .ok bytes ∧ bytes.length = n) ↔
      ∃ ps, s = pairChars ps ∧ (∀ p ∈ ps, ReadablePair p) ∧ ps.length = n := by
  constructor
  · rintro ⟨bytes, h, rfl⟩
    have heven : utf8Len s % 2 = 0 := by
      by_contra hodd
      rw [decode, if_pos hodd] at h
      exact absurd h (by simp [Checked.err])
    rw [decode_eq_decodeRest heven] at h
    obtain ⟨ps, hs, hps, hl⟩ := decodeRest_eq_ok (by omega) h
    exact ⟨ps, hs, hps, hl.symm⟩
  · rintro ⟨ps, rfl, hps, rfl⟩
    have hlen := utf8Len_pairChars hps
    rw [decode_eq_decodeRest (by omega),
      show utf8Len (pairChars ps) / 2 = ps.length by omega]
    exact decodeRest_pairChars hps 0

/-! ### Hex without leading zeros -/

theorem eq_of_digitChar_eq : ∀ c < 16, ∀ d < 16, Nat.digitChar c = Nat.digitChar d → c = d := by
  decide

/-- **`{:x}` tells numbers apart.** -/
theorem toDigits_injective : Function.Injective (Nat.toDigits 16) := by
  intro m
  induction m using Nat.strongRecOn with
  | ind m ih =>
    intro n h
    have hb : 1 < 16 := by decide
    rcases Nat.lt_or_ge m 16 with hm | hm <;> rcases Nat.lt_or_ge n 16 with hn | hn
    · rw [Nat.toDigits_of_lt_base hm, Nat.toDigits_of_lt_base hn] at h
      exact eq_of_digitChar_eq m hm n hn (List.singleton_inj.mp h)
    · rw [Nat.toDigits_of_lt_base hm, Nat.toDigits_of_base_le hb hn] at h
      have hlen := congrArg List.length h
      have hpos := Nat.length_toDigits_pos (b := 16) (n := n / 16)
      simp only [List.length_append, List.length_singleton] at hlen
      omega
    · rw [Nat.toDigits_of_base_le hb hm, Nat.toDigits_of_lt_base hn] at h
      have hlen := congrArg List.length h
      have hpos := Nat.length_toDigits_pos (b := 16) (n := m / 16)
      simp only [List.length_append, List.length_singleton] at hlen
      omega
    · rw [Nat.toDigits_of_base_le hb hm, Nat.toDigits_of_base_le hb hn] at h
      obtain ⟨hdiv, hmod⟩ := List.append_inj' h rfl
      have hdiv := ih (m / 16) (by omega) hdiv
      have hmod := eq_of_digitChar_eq _ (by omega) _ (by omega) (List.singleton_inj.mp hmod)
      omega
end Hex

end SoloMiner
