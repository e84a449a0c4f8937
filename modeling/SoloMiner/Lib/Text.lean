import Mathlib.Data.List.Basic

/-!
# Text on a byte stream

Text is read off a stream of bytes: line by line, so many bytes at once, or up to the end.
The stream may end anywhere, also in the middle of a character, and it may fail instead of
ending (`SoloMiner.ByteStream`). The functions here are those of the standard library that
the programs use.

The encoding is Lean's own, and what is decoded is precisely what was encoded
(`SoloMiner.Utf8.decode_eq_some_iff`). A byte of the lower half stands for itself wherever it
occurs in a text (`SoloMiner.Utf8.mem_encode_iff`), so a line ends where its text does
(`SoloMiner.ByteStream.readLine_encode`), and a stream that is cut yields a part of the line
(`SoloMiner.ByteStream.readLine_prefix`).
-/

namespace SoloMiner

universe u

namespace Utf8

/-! ### Encoding and decoding -/

/-- The bytes of a text. -/
def encode (s : List Char) : List UInt8 := s.flatMap String.utf8EncodeChar

/-- The text that the bytes are of, if they are of one. -/
def decode (bytes : List UInt8) : Option (List Char) :=
  bytes.toByteArray.utf8Decode?.map Array.toList

@[simp] theorem encode_nil : encode [] = [] := rfl

@[simp] theorem encode_cons (c : Char) (s : List Char) :
    encode (c :: s) = String.utf8EncodeChar c ++ encode s := rfl

@[simp] theorem encode_append (s t : List Char) : encode (s ++ t) = encode s ++ encode t :=
  List.flatMap_append

theorem toByteArray_encode (s : List Char) : (encode s).toByteArray = s.utf8Encode := rfl

@[simp] theorem decode_encode (s : List Char) : decode (encode s) = some s := by
  rw [decode, toByteArray_encode, List.utf8Decode?_utf8Encode]
  rfl

/-- **What is decoded was encoded.** -/
theorem decode_eq_some_iff {bytes : List UInt8} {s : List Char} :
    decode bytes = some s ↔ bytes = encode s := by
  constructor
  · intro h
    obtain ⟨chars, hchars, rfl⟩ := Option.map_eq_some_iff.mp h
    have hsome : bytes.toByteArray.utf8Decode?.isSome := by rw [hchars]; rfl
    obtain ⟨t, ht⟩ := ByteArray.isSome_utf8Decode?_iff.mp hsome
    have hbytes : bytes = encode t := List.toByteArray_inj.mp ht
    rw [hbytes, toByteArray_encode, List.utf8Decode?_utf8Encode] at hchars
    rw [hbytes, ← Option.some.inj hchars]
  · rintro rfl
    exact decode_encode s

theorem encode_injective {s t : List Char} (h : encode s = encode t) : s = t := by
  have hdecode := decode_encode s
  rw [h, decode_encode] at hdecode
  exact (Option.some.inj hdecode).symm

/-- A text whose bytes are the first of another's is its beginning. -/
theorem prefix_of_encode_prefix {s t : List Char} (h : encode s <+: encode t) : s <+: t := by
  obtain ⟨rest, hrest⟩ := h
  refine List.isPrefix_of_utf8Encode_append_eq_utf8Encode rest.toByteArray ?_
  rw [← toByteArray_encode, ← List.toByteArray_append, hrest, toByteArray_encode]

/-! ### Single bytes -/

theorem toNat_ofNat_of_lt {n : ℕ} (h : n < 256) : (UInt8.ofNat n).toNat = n := by
  rw [UInt8.toNat_ofNat', Nat.mod_eq_of_lt h]

/-- **The bytes of a character** are in the upper half, unless it is a byte itself. -/
theorem utf8EncodeChar_cases (c : Char) :
    c.toNat < 0x80 ∧ String.utf8EncodeChar c = [UInt8.ofNat c.toNat] ∨
      0x80 ≤ c.toNat ∧ ∀ b ∈ String.utf8EncodeChar c, 0x80 ≤ b.toNat := by
  have hval : c.val.toNat = c.toNat := rfl
  unfold String.utf8EncodeChar
  dsimp only
  rw [hval]
  -- Each byte of a longer sequence has its highest bit from the constant that is added.
  have hbyte : ∀ {x k : ℕ}, 0x80 ≤ k → x + k < 256 → 0x80 ≤ (UInt8.ofNat (x + k)).toNat := by
    intro x k hk hlt
    rw [toNat_ofNat_of_lt hlt]
    omega
  split_ifs with h1 h2 h3
  · exact Or.inl ⟨by omega, rfl⟩
  all_goals refine Or.inr ⟨by omega, fun b hb => ?_⟩
  · simp only [List.mem_cons, List.not_mem_nil, or_false] at hb
    rcases hb with rfl | rfl
    · exact hbyte (by decide) (by omega)
    · exact hbyte (by decide) (by omega)
  · simp only [List.mem_cons, List.not_mem_nil, or_false] at hb
    rcases hb with rfl | rfl | rfl
    · exact hbyte (by decide) (by omega)
    · exact hbyte (by decide) (by omega)
    · exact hbyte (by decide) (by omega)
  · simp only [List.mem_cons, List.not_mem_nil, or_false] at hb
    rcases hb with rfl | rfl | rfl | rfl
    · exact hbyte (by decide) (by omega)
    · exact hbyte (by decide) (by omega)
    · exact hbyte (by decide) (by omega)
    · exact hbyte (by decide) (by omega)

/-- A byte of the lower half is in a text precisely if its character is. -/
theorem mem_encode_iff {b : UInt8} (hb : b.toNat < 0x80) {s : List Char} :
    b ∈ encode s ↔ ∃ c ∈ s, c.toNat = b.toNat := by
  rw [encode, List.mem_flatMap]
  refine exists_congr fun c => and_congr_right fun _ => ?_
  rcases utf8EncodeChar_cases c with ⟨hc, hsingle⟩ | ⟨hc, hupper⟩
  · rw [hsingle, List.mem_singleton]
    constructor
    · rintro rfl
      exact (toNat_ofNat_of_lt (by omega)).symm
    · intro heq
      rw [heq, UInt8.ofNat_toNat]
  · refine iff_of_false (fun hmem => ?_) (by omega)
    have := hupper b hmem
    omega

theorem mem_encode_newline {s : List Char} : 10 ∈ encode s ↔ '\n' ∈ s := by
  rw [mem_encode_iff (by decide)]
  constructor
  · rintro ⟨c, hc, heq⟩
    obtain rfl : c = '\n' := Char.toNat_inj.mp heq
    exact hc
  · intro h
    exact ⟨_, h, rfl⟩

/-! ### Lossy decoding -/

/-- Whether the byte can be the second one of a character that begins so. -/
def second (lead b : UInt8) : Bool :=
  if lead = 0xE0 then 0xA0 ≤ b && b ≤ 0xBF
  else if lead = 0xED then 0x80 ≤ b && b ≤ 0x9F
  else if lead = 0xF0 then 0x90 ≤ b && b ≤ 0xBF
  else if lead = 0xF4 then 0x80 ≤ b && b ≤ 0x8F
  else 0x80 ≤ b && b ≤ 0xBF

/-- How many bytes that are of no character are replaced at once: those that could have been
the beginning of one, and at least one. -/
def badLength : List UInt8 → ℕ
  | lead :: b1 :: rest =>
    if 0xE0 ≤ lead && lead ≤ 0xF4 && second lead b1 then
      match rest with
      | b2 :: _ => if 0xF0 ≤ lead && 0x80 ≤ b2 && b2 ≤ 0xBF then 3 else 2
      | [] => 2
    else 1
  | _ => 1

theorem badLength_pos (bytes : List UInt8) : 0 < badLength bytes := by
  unfold badLength
  split
  · split_ifs
    · split
      · split_ifs <;> decide
      · decide
    · decide
  · decide

/-- `String::from_utf8_lossy`: what is no text is replaced. -/
def decodeLossy : List UInt8 → List Char
  | [] => []
  | b :: rest =>
    match (b :: rest).toByteArray.utf8DecodeChar? 0 with
    | some c => c :: decodeLossy ((b :: rest).drop c.utf8Size)
    | none => '\uFFFD' :: decodeLossy ((b :: rest).drop (badLength (b :: rest)))
  termination_by bytes => bytes.length
  decreasing_by
    · have hpos := c.utf8Size_pos
      rw [List.length_drop, List.length_cons]
      omega
    · have hpos := badLength_pos (b :: rest)
      rw [List.length_drop, List.length_cons]
      omega

/-- Text is read as it is. -/
theorem decodeLossy_encode (s : List Char) : decodeLossy (encode s) = s := by
  induction s with
  | nil =>
    rw [encode_nil, decodeLossy]
  | cons c s ih =>
    have hlen := String.length_utf8EncodeChar c
    have hdrop : (encode (c :: s)).drop c.utf8Size = encode s := by
      rw [encode_cons, ← hlen, List.drop_left]
    obtain ⟨b, rest, hcons⟩ : ∃ b rest, encode (c :: s) = b :: rest := by
      refine List.exists_cons_of_length_pos ?_
      have hpos := c.utf8Size_pos
      rw [encode_cons, List.length_append, hlen]
      omega
    have hhead : (encode (c :: s)).toByteArray.utf8DecodeChar? 0 = some c := by
      rw [encode_cons, List.toByteArray_append]
      exact ByteArray.utf8DecodeChar?_utf8EncodeChar_append
    rw [hcons] at hdrop hhead ⊢
    rw [decodeLossy, hhead]
    dsimp only
    rw [hdrop, ih]

end Utf8

/-! ### Streams -/

/-- Why a stream cannot be read. -/
inductive IoError where
  /-- It ended before all bytes that are needed had come. -/
  | unexpectedEof
  /-- What has come is no text. -/
  | invalidData
  /-- Anything else. -/
  | other (message : List Char)
  deriving DecidableEq

/-- What comes on a stream: its bytes, and then an error, or else the end. -/
structure ByteStream where
  bytes : List UInt8
  fault : Option IoError

namespace ByteStream

/-- The bytes up to the end of the line and with it, and those after. -/
def cutLine : List UInt8 → List UInt8 × List UInt8
  | [] => ([], [])
  | b :: rest => if b = 10 then ([b], rest) else (b :: (cutLine rest).1, (cutLine rest).2)

/-- `BufRead::read_line`: a line with its end, or what there is before the stream ends. -/
def readLine (self : ByteStream) : Except IoError (List Char × ByteStream) :=
  let (line, rest) := cutLine self.bytes
  match if line.getLast? = some 10 then none else self.fault with
  | some error => .error error
  | none =>
    match Utf8.decode line with
    | none => .error .invalidData
    | some text => .ok (text, ⟨rest, self.fault⟩)

/-- `Read::read_exact`. -/
def readExact (self : ByteStream) (n : ℕ) : Except IoError (List UInt8 × ByteStream) :=
  if n ≤ self.bytes.length then .ok (self.bytes.take n, ⟨self.bytes.drop n, self.fault⟩)
  else .error (self.fault.getD .unexpectedEof)

/-- `Read::read_to_string`. -/
def readToString (self : ByteStream) : Except IoError (List Char) :=
  match self.fault with
  | some error => .error error
  | none =>
    match Utf8.decode self.bytes with
    | none => .error .invalidData
    | some text => .ok text

theorem append_cutLine (bytes : List UInt8) :
    (cutLine bytes).1 ++ (cutLine bytes).2 = bytes := by
  induction bytes with
  | nil => rfl
  | cons b rest ih =>
    rw [cutLine]
    split_ifs
    · rfl
    · rw [List.cons_append, ih]

/-- Reading a line shortens the stream. -/
theorem length_readLine {s rest : ByteStream} {line : List Char} (h : s.readLine = .ok (line, rest))
    (hline : line ≠ []) : rest.bytes.length < s.bytes.length := by
  have happend := congrArg List.length (append_cutLine s.bytes)
  rw [List.length_append] at happend
  unfold readLine at h
  dsimp only at h
  split at h
  · exact absurd h (by simp)
  · split at h
    · exact absurd h (by simp)
    · next text hdecode =>
      obtain ⟨rfl, rfl⟩ := Prod.mk.inj (Except.ok.inj h)
      have hbytes := Utf8.decode_eq_some_iff.mp hdecode
      have hpos : 0 < (cutLine s.bytes).1.length := by
        refine List.length_pos_iff.mpr fun hnil => hline ?_
        exact Utf8.encode_injective (hbytes.symm.trans hnil)
      dsimp only
      omega

theorem cutLine_append {line rest : List UInt8} (h : 10 ∉ line) :
    cutLine (line ++ 10 :: rest) = (line ++ [10], rest) := by
  induction line with
  | nil => rfl
  | cons b line ih =>
    rw [List.mem_cons, not_or] at h
    rw [List.cons_append, cutLine, if_neg (Ne.symm h.1), ih h.2]
    rfl

theorem cutLine_of_not_mem {line : List UInt8} (h : 10 ∉ line) : cutLine line = (line, []) := by
  induction line with
  | nil => rfl
  | cons b line ih =>
    rw [List.mem_cons, not_or] at h
    rw [cutLine, if_neg (Ne.symm h.1), ih h.2]

/-- What has come of two parts ends in the first one, or in the second with the first whole. -/
theorem prefix_append_cases {bytes first second : List UInt8} (h : bytes <+: first ++ second) :
    bytes <+: first ∨ ∃ more, bytes = first ++ more ∧ more <+: second := by
  obtain ⟨tail, htail⟩ := h
  rcases List.append_eq_append_iff.mp htail with ⟨more, hfirst, -⟩ | ⟨more, hbytes, hsecond⟩
  · exact Or.inl ⟨more, hfirst.symm⟩
  · exact Or.inr ⟨more, hbytes, ⟨tail, hsecond.symm⟩⟩

/-- **A line that has come whole** is read, whatever follows. -/
theorem readLine_encode {s : List Char} (h : '\n' ∉ s) (rest : List UInt8)
    (fault : Option IoError) :
    readLine ⟨Utf8.encode s ++ 10 :: rest, fault⟩ = .ok (s ++ ['\n'], ⟨rest, fault⟩) := by
  have hline : Utf8.encode s ++ [10] = Utf8.encode (s ++ ['\n']) :=
    (Utf8.encode_append s ['\n']).symm
  rw [readLine, cutLine_append (mt Utf8.mem_encode_newline.mp h)]
  dsimp only
  rw [List.getLast?_concat, if_pos rfl, hline, Utf8.decode_encode]

/-- **A line that is cut** is read as far as it has come, if the stream ends there and not in the
middle of a character. -/
theorem readLine_prefix {s line : List Char} (h : '\n' ∉ s) {bytes : List UInt8}
    (hbytes : bytes <+: Utf8.encode s) {fault : Option IoError} {rest : ByteStream}
    (hread : readLine ⟨bytes, fault⟩ = .ok (line, rest)) :
    fault = none ∧ rest = ⟨[], none⟩ ∧ bytes = Utf8.encode line ∧ line <+: s := by
  have hnot : 10 ∉ bytes := fun hmem =>
    h (Utf8.mem_encode_newline.mp (hbytes.subset hmem))
  have hlast : bytes.getLast? ≠ some 10 := fun hlast => hnot (List.mem_of_getLast? hlast)
  rw [readLine, cutLine_of_not_mem hnot] at hread
  dsimp only at hread
  rw [if_neg hlast] at hread
  cases fault with
  | some error => exact absurd hread (by simp)
  | none =>
    dsimp only at hread
    cases hdecode : Utf8.decode bytes with
    | none =>
      rw [hdecode] at hread
      exact absurd hread (by simp)
    | some text =>
      rw [hdecode] at hread
      obtain ⟨rfl, rfl⟩ := Prod.mk.inj (Except.ok.inj hread)
      have hencode := Utf8.decode_eq_some_iff.mp hdecode
      exact ⟨rfl, rfl, hencode, Utf8.prefix_of_encode_prefix (hencode ▸ hbytes)⟩

end ByteStream

end SoloMiner
