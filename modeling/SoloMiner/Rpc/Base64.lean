import SoloMiner.Primitives.Hex

/-!
# Base64

The node authenticates its clients by a cookie, which travels in a header of the
request, in base64. Three bytes at a time are a number of 24 bits, and its four digits
to the base 64 are letters; a last chunk of one or two bytes is filled up with zeros,
and the digits that hold none of its bits are written as `=`.

The encoder only is in the program. What it has to agree with is the decoder of a node,
so there is one here as well, `SoloMiner.Base64.decode`, which is a strict one: it takes
no padding but at the end and no bits that are set behind the data. It gives back what was
encoded (`SoloMiner.Base64.isBase64_base64Encode`).
-/

namespace SoloMiner

namespace Base64

/-! ### The encoder -/

/-- The 64 letters, by the digit that each stands for. -/
def ALPHABET : Str := "ABCDEFGHIJKLMNOPQRSTUVWXYZabcdefghijklmnopqrstuvwxyz0123456789+/".toList

theorem and_0x3F_lt (n : ℕ) : n &&& 0x3F < ALPHABET.length :=
  Nat.and_lt_two_pow n (show 0x3F < 2 ^ 6 by decide)

/-- The letter of the lowest six bits. -/
def letter (n : UInt32) : Char := ALPHABET.get ⟨n.toNat &&& 0x3F, and_0x3F_lt n.toNat⟩

/-- `chunks(3)`. -/
def chunks : Bytes → List Bytes
  | [] => []
  | [b0] => [[b0]]
  | [b0, b1] => [[b0, b1]]
  | b0 :: b1 :: b2 :: rest => [b0, b1, b2] :: chunks rest

/-- The 24 bits of a chunk, with zeros for the bytes that it has not. -/
def triple (chunk : Bytes) : UInt32 :=
  let b0 := (chunk.getD 0 0).toUInt32
  let b1 := (chunk.getD 1 0).toUInt32
  let b2 := (chunk.getD 2 0).toUInt32
  (b0 <<< 16) ||| (b1 <<< 8) ||| b2

/-- The four characters of a chunk. -/
def encodeChunk (chunk : Bytes) : Str :=
  [letter (triple chunk >>> 18), letter (triple chunk >>> 12),
    if chunk.length = 1 then '=' else letter (triple chunk >>> 6),
    if chunk.length = 3 then letter (triple chunk) else '=']

/-- Standard base64. -/
def base64Encode (input : Bytes) : Str := (chunks input).flatMap encodeChunk

/-! ### The decoder -/

/-- The digit that a letter stands for. -/
def value (c : Char) : Option ℕ :=
  if 'A' ≤ c ∧ c ≤ 'Z' then some (c.toNat - 'A'.toNat)
  else if 'a' ≤ c ∧ c ≤ 'z' then some (c.toNat - 'a'.toNat + 26)
  else if '0' ≤ c ∧ c ≤ '9' then some (c.toNat - '0'.toNat + 52)
  else if c = '+' then some 62
  else if c = '/' then some 63
  else none

/-- Reads four characters at a time. Padding stands at the end only, and the bits of the
digit before it that hold no data are zero. -/
def decode : Str → Option Bytes
  | [] => some []
  | a :: b :: c :: d :: rest => do
    let x ← value a
    let y ← value b
    if c = '=' ∧ d = '=' ∧ rest = [] then
      if y % 16 = 0 then some [UInt8.ofNat (4 * x + y / 16)] else none
    else
      let z ← value c
      if d = '=' ∧ rest = [] then
        if z % 4 = 0 then
          some [UInt8.ofNat (4 * x + y / 16), UInt8.ofNat (y % 16 * 16 + z / 4)]
        else none
      else
        let w ← value d
        let bytes ← decode rest
        some (UInt8.ofNat (4 * x + y / 16) :: UInt8.ofNat (y % 16 * 16 + z / 4) ::
          UInt8.ofNat (z % 4 * 64 + w) :: bytes)
  | _ => none

/-! ### Letters and digits -/

/-- **The alphabet is the standard one**: a letter stands for its place. -/
theorem value_letter (n : UInt32) : value (letter n) = some (n.toNat % 64) := by
  have hall : ∀ i : Fin ALPHABET.length, value (ALPHABET.get i) = some i.val := by decide
  have hand : n.toNat &&& 0x3F = n.toNat % 64 := Nat.and_two_pow_sub_one_eq_mod n.toNat 6
  rw [letter, hall]
  exact congrArg some hand

theorem value_pad : value '=' = none := by decide

/-- A letter is not padding. -/
theorem letter_ne_pad (n : UInt32) : letter n ≠ '=' := by
  intro h
  have hvalue := value_letter n
  rw [h, value_pad] at hvalue
  exact Option.some_ne_none _ hvalue.symm

/-- The bytes of a chunk, one behind the other, are its number. -/
theorem toNat_triple (chunk : Bytes) :
    (triple chunk).toNat = 65536 * (chunk.getD 0 0).toNat + 256 * (chunk.getD 1 0).toNat +
      (chunk.getD 2 0).toNat := by
  have h0 := (chunk.getD 0 0).toNat_lt
  have h1 := (chunk.getD 1 0).toNat_lt
  have h2 := (chunk.getD 2 0).toNat_lt
  simp only [triple, UInt32.toNat_or, UInt32.toNat_shiftLeft, UInt8.toNat_toUInt32]
  generalize (chunk.getD 0 0).toNat = b0 at h0 ⊢
  generalize (chunk.getD 1 0).toNat = b1 at h1 ⊢
  generalize (chunk.getD 2 0).toNat = b2 at h2 ⊢
  -- No byte reaches into the place of another, so `|||` is a sum.
  have hhigh : b0 <<< 16 % 2 ^ 32 = (b0 <<< 8) <<< 8 := by
    rw [Nat.mod_eq_of_lt (by rw [Nat.shiftLeft_eq]; omega), ← Nat.shiftLeft_add]
  have hmid : b1 <<< 8 % 2 ^ 32 = b1 <<< 8 :=
    Nat.mod_eq_of_lt (by rw [Nat.shiftLeft_eq]; omega)
  have hword : b0 <<< 16 % 2 ^ 32 ||| b1 <<< 8 % 2 ^ 32 = (b0 <<< 8 + b1) <<< 8 := by
    rw [hhigh, hmid, ← Nat.shiftLeft_or_distrib, Nat.shiftLeft_add_eq_or_of_lt h1]
  calc (b0 <<< 16 % 2 ^ 32 ||| b1 <<< 8 % 2 ^ 32) ||| b2
      = (b0 <<< 8 + b1) <<< 8 + b2 := by rw [hword, Nat.shiftLeft_add_eq_or_of_lt h2]
    _ = 65536 * b0 + 256 * b1 + b2 := by
      rw [Nat.shiftLeft_eq, Nat.shiftLeft_eq]
      omega

/-- The digit of a chunk above its `k` lowest bits. -/
theorem value_digit (chunk : Bytes) {k : UInt32} (hk : k.toNat < 32) :
    value (letter (triple chunk >>> k)) =
      some ((65536 * (chunk.getD 0 0).toNat + 256 * (chunk.getD 1 0).toNat +
        (chunk.getD 2 0).toNat) / 2 ^ k.toNat % 64) := by
  rw [value_letter, UInt32.toNat_shiftRight, Nat.mod_eq_of_lt hk, Nat.shiftRight_eq_div_pow,
    toNat_triple]

/-- **The four digits of a chunk**, by the bits of its bytes. -/
theorem value_digits (chunk : Bytes) :
    value (letter (triple chunk >>> 18)) = some ((chunk.getD 0 0).toNat / 4) ∧
      value (letter (triple chunk >>> 12)) =
        some ((chunk.getD 0 0).toNat % 4 * 16 + (chunk.getD 1 0).toNat / 16) ∧
      value (letter (triple chunk >>> 6)) =
        some ((chunk.getD 1 0).toNat % 16 * 4 + (chunk.getD 2 0).toNat / 64) ∧
      value (letter (triple chunk)) = some ((chunk.getD 2 0).toNat % 64) := by
  have h0 := (chunk.getD 0 0).toNat_lt
  have h1 := (chunk.getD 1 0).toNat_lt
  have h2 := (chunk.getD 2 0).toNat_lt
  rw [value_digit chunk (by decide), value_digit chunk (by decide), value_digit chunk (by decide),
    value_letter, toNat_triple]
  simp only [UInt32.reduceToNat, Option.some.injEq]
  omega

/-- The first byte is put together from two digits, whatever comes next, -/
theorem first_byte (b0 b1 : UInt8) :
    UInt8.ofNat (4 * (b0.toNat / 4) + (b0.toNat % 4 * 16 + b1.toNat / 16) / 16) = b0 := by
  have h1 := b1.toNat_lt
  have hnat : 4 * (b0.toNat / 4) + (b0.toNat % 4 * 16 + b1.toNat / 16) / 16 = b0.toNat := by omega
  rw [hnat, UInt8.ofNat_toNat]

/-- the second one likewise, -/
theorem second_byte (b0 b1 b2 : UInt8) :
    UInt8.ofNat ((b0.toNat % 4 * 16 + b1.toNat / 16) % 16 * 16 +
      (b1.toNat % 16 * 4 + b2.toNat / 64) / 4) = b1 := by
  have h1 := b1.toNat_lt
  have h2 := b2.toNat_lt
  have hnat : (b0.toNat % 4 * 16 + b1.toNat / 16) % 16 * 16 +
      (b1.toNat % 16 * 4 + b2.toNat / 64) / 4 = b1.toNat := by omega
  rw [hnat, UInt8.ofNat_toNat]

/-- and the third one. -/
theorem third_byte (b1 b2 : UInt8) :
    UInt8.ofNat ((b1.toNat % 16 * 4 + b2.toNat / 64) % 4 * 64 + b2.toNat % 64) = b2 := by
  have h2 := b2.toNat_lt
  have hnat : (b1.toNat % 16 * 4 + b2.toNat / 64) % 4 * 64 + b2.toNat % 64 = b2.toNat := by omega
  rw [hnat, UInt8.ofNat_toNat]

/-! ### What was encoded -/

/-- A last chunk of one byte: the four bits behind it are zero. -/
theorem decode_encodeChunk_one (b0 : UInt8) : decode (encodeChunk [b0]) = some [b0] := by
  obtain ⟨hx, hy, -, -⟩ := value_digits [b0]
  simp only [List.getD_cons_zero, List.getD_cons_succ, List.getD_nil] at hx hy
  have hbits : (b0.toNat % 4 * 16 + (0 : UInt8).toNat / 16) % 16 = 0 := by
    rw [UInt8.toNat_zero]
    omega
  simp only [encodeChunk, List.length_singleton, if_true, OfNat.one_ne_ofNat, if_false, decode, hx,
    hy, Option.bind_eq_bind, Option.bind_some, and_self, hbits, first_byte]

/-- A last chunk of two bytes: the two bits behind them are zero. -/
theorem decode_encodeChunk_two (b0 b1 : UInt8) :
    decode (encodeChunk [b0, b1]) = some [b0, b1] := by
  obtain ⟨hx, hy, hz, -⟩ := value_digits [b0, b1]
  simp only [List.getD_cons_zero, List.getD_cons_succ, List.getD_nil] at hx hy hz
  have hbits : (b1.toNat % 16 * 4 + (0 : UInt8).toNat / 64) % 4 = 0 := by
    rw [UInt8.toNat_zero]
    omega
  simp only [encodeChunk, List.length_cons, List.length_nil, Nat.reduceAdd, OfNat.ofNat_ne_one,
    Nat.reduceEqDiff, if_false, decode, letter_ne_pad, false_and, hx, hy, hz, Option.bind_eq_bind,
    Option.bind_some, and_self, if_true, hbits, first_byte, second_byte]

/-- A whole chunk, and what follows it. -/
theorem decode_encodeChunk_append (b0 b1 b2 : UInt8) (rest : Str) :
    decode (encodeChunk [b0, b1, b2] ++ rest) =
      (decode rest).map fun bytes => b0 :: b1 :: b2 :: bytes := by
  obtain ⟨hx, hy, hz, hw⟩ := value_digits [b0, b1, b2]
  simp only [List.getD_cons_zero, List.getD_cons_succ] at hx hy hz hw
  simp only [encodeChunk, List.length_cons, List.length_nil, Nat.reduceAdd, OfNat.ofNat_ne_one,
    if_false, if_true, List.cons_append, List.nil_append, decode, letter_ne_pad, false_and, hx, hy,
    hz, hw, Option.bind_eq_bind, Option.bind_some, first_byte, second_byte, third_byte]
  cases decode rest <;> rfl

/-- Text in the form of base64 that decodes to the data. -/
structure IsBase64 (input : Bytes) (text : Str) : Prop where
  /-- Four characters stand for every three bytes, or for what is left of them. -/
  length : text.length = 4 * ((input.length + 2) / 3)
  /-- They are letters of the alphabet, but for the last two at most, -/
  form : ∃ letters pads, text = letters ++ List.replicate pads '=' ∧ pads ≤ 2 ∧
    ∀ c ∈ letters, (value c).isSome
  /-- and hold the data. -/
  decode : decode text = some input

theorem isSome_value_letter (n : UInt32) : (value (letter n)).isSome := by
  rw [value_letter]
  rfl

/-- Four letters for a whole chunk go before any base64. -/
theorem IsBase64.append {rest : Bytes} {text : Str} (h : IsBase64 rest text) (b0 b1 b2 : UInt8) :
    IsBase64 (b0 :: b1 :: b2 :: rest) (encodeChunk [b0, b1, b2] ++ text) := by
  obtain ⟨letters, pads, htext, hpads, hletters⟩ := h.form
  refine ⟨?_, ⟨encodeChunk [b0, b1, b2] ++ letters, pads, ?_, hpads, ?_⟩, ?_⟩
  · have hfour : (encodeChunk [b0, b1, b2]).length = 4 := rfl
    rw [List.length_append, hfour, h.length, List.length_cons, List.length_cons, List.length_cons]
    omega
  · rw [htext, List.append_assoc]
  · intro c hc
    rcases List.mem_append.mp hc with hc | hc
    · simp only [encodeChunk, List.mem_cons, List.not_mem_nil, or_false] at hc
      rcases hc with rfl | rfl | rfl | rfl <;> exact isSome_value_letter _
    · exact hletters c hc
  · rw [decode_encodeChunk_append, h.decode]
    rfl

/-- **Encoding is lossless and standard**: what it writes is base64 of its input. -/
theorem isBase64_base64Encode (input : Bytes) : IsBase64 input (base64Encode input) := by
  rw [base64Encode]
  induction input using chunks.induct with
  | case1 => exact ⟨rfl, ⟨[], 0, rfl, by decide, by simp⟩, rfl⟩
  | case2 b0 =>
    rw [chunks, List.flatMap_singleton]
    refine ⟨by simp [encodeChunk], ⟨[letter (triple [b0] >>> 18), letter (triple [b0] >>> 12)], 2,
      rfl, le_rfl, ?_⟩, decode_encodeChunk_one b0⟩
    simp [isSome_value_letter]
  | case3 b0 b1 =>
    rw [chunks, List.flatMap_singleton]
    refine ⟨by simp [encodeChunk], ⟨[letter (triple [b0, b1] >>> 18),
      letter (triple [b0, b1] >>> 12), letter (triple [b0, b1] >>> 6)], 1, rfl, by decide, ?_⟩,
      decode_encodeChunk_two b0 b1⟩
    simp [isSome_value_letter]
  | case4 b0 b1 b2 rest ih =>
    rw [chunks, List.flatMap_cons]
    exact ih.append b0 b1 b2

/-- The texts of six, five and four bytes. -/
example : base64Encode [0x66, 0x6F, 0x6F, 0x62, 0x61, 0x72] = "Zm9vYmFy".toList ∧
    base64Encode [0x66, 0x6F, 0x6F, 0x62, 0x61] = "Zm9vYmE=".toList ∧
    base64Encode [0x66, 0x6F, 0x6F, 0x62] = "Zm9vYg==".toList := by decide

end Base64

end SoloMiner
