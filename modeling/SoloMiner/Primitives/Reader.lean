import SoloMiner.Lib.PrefixParser
import SoloMiner.Primitives.Hash
import SoloMiner.Primitives.Varint

/-!
# The bounds-checked reader

A `SoloMiner.Reader` is a byte slice and a position in it. Its operations either
return a field and move past it, or fail and leave the position alone; each is a
parser over the reader as its cursor (`SoloMiner.Reader.cursor`), and each section
below ends with the format its operation reads.

A slice of the source is an object in memory, so its length fits a `usize`; that is a
field of `SoloMiner.Slice`, and it is what makes the checked addition of a position
and a count fail only where the slice ends anyway. A `usize` has 64 bits here.
-/

namespace SoloMiner

open PrefixParser

/-- A `&[u8]`: bytes that fit in memory. -/
structure Slice where
  /-- The bytes. -/
  bytes : Bytes
  /-- The length of a slice is a `usize`. -/
  length_lt : bytes.length < 2 ^ 64

/-- `&bytes[..k]`, for a `k` inside. -/
def Slice.take (b : Slice) (k : ℕ) : Slice :=
  ⟨b.bytes.take k, lt_of_le_of_lt (List.length_take_le' k b.bytes) b.length_lt⟩

/-- `&bytes[k..]`, for a `k` inside. -/
def Slice.drop (b : Slice) (k : ℕ) : Slice :=
  ⟨b.bytes.drop k, lt_of_le_of_lt ((List.drop_sublist k b.bytes).length_le) b.length_lt⟩

/-- A cursor over a byte slice. -/
structure Reader where
  /-- The slice. -/
  bytes : Slice
  /-- How many bytes of it are read. -/
  position : ℕ

/-- Why a read failed. -/
inductive ReadError where
  /-- The input ended before the field did. -/
  | unexpectedEnd
  /-- A CompactSize field was malformed. -/
  | badVarInt (e : Varint.VarIntError)
  deriving DecidableEq

/-- An operation of the reader. A failure keeps the reader as it then is. -/
abbrev ReaderM (α : Type) : Type := Parser (Fault ReadError) Reader α

namespace Reader

/-- Starts reading at the beginning. -/
def new (bytes : Slice) : Reader := ⟨bytes, 0⟩

/-- How many bytes are left unread. -/
def remaining (reader : Reader) : ℕ := reader.bytes.bytes.length - reader.position

/-- Reads exactly `count` bytes. -/
def readBytes (count : ℕ) : ReaderM Bytes := do
  let reader ← get
  let «end» := reader.position + count
  -- `checked_add`, then the bounds check of `get`.
  if 2 ^ 64 ≤ «end» then throw (.error .unexpectedEnd)
  else if reader.bytes.bytes.length < «end» then throw (.error .unexpectedEnd)
  else do
    set { reader with position := «end» }
    pure ((reader.bytes.bytes.drop reader.position).take count)

/-- Reads a fixed-size array. -/
def readArray (n : ℕ) : ReaderM (ByteArr n) := do
  let slice ← readBytes n
  if h : slice.length = n then pure (toArr slice h) else throw .panic

/-- Reads a little-endian `u32`. -/
def readU32 : ReaderM UInt32 := do
  let bytes ← readArray 4
  pure (UInt32.ofNat (Base256.ofLE bytes.toList))

/-- Reads a little-endian `i32`. -/
def readI32 : ReaderM Int32 := do
  let bytes ← readArray 4
  pure (UInt32.ofNat (Base256.ofLE bytes.toList)).toInt32

/-- Reads a little-endian `u64`. -/
def readU64 : ReaderM UInt64 := do
  let bytes ← readArray 8
  pure (UInt64.ofNat (Base256.ofLE bytes.toList))

/-- Reads a 32-byte hash in internal order. -/
def readHash : ReaderM Sha256dHash := do
  let bytes ← readArray 32
  pure ⟨bytes⟩

/-- Reads a CompactSize integer. -/
def readVarint : ReaderM UInt64 := do
  let reader ← get
  -- `&self.bytes[self.position..]` panics on a position past the end.
  if reader.bytes.bytes.length < reader.position then throw .panic
  else
    match Varint.decode (reader.bytes.bytes.drop reader.position) with
    | .error e => throw (.error (.badVarInt e))
    | .ok (value, consumed) => do
      set { reader with position := reader.position + consumed }
      pure value

/-- Reads a CompactSize length followed by that many bytes. -/
def readVarBytes : ReaderM Bytes := do
  let length ← readVarint
  readBytes length.toNat

/-! ### The reader as a cursor -/

/-- The place of a reader in its slice. -/
def cursor : Cursor Reader UInt8 where
  Valid reader := reader.position ≤ reader.bytes.bytes.length
  rest reader := reader.bytes.bytes.drop reader.position
  skip reader n := { reader with position := reader.position + n }
  skip_zero _ := rfl
  skip_skip reader m n := by rw [Nat.add_assoc]
  valid_skip {reader n} hvalid hn := by
    rw [List.length_drop] at hn
    show reader.position + n ≤ reader.bytes.bytes.length
    omega
  rest_skip {reader n} _ _ := by
    show reader.bytes.bytes.drop (reader.position + n) = _
    rw [List.drop_drop]

theorem valid_new (bytes : Slice) : cursor.Valid (new bytes) := Nat.zero_le _

@[simp] theorem rest_new (bytes : Slice) : cursor.rest (new bytes) = bytes.bytes := rfl

/-! ### What the primitive operations do -/

/-- Reading bytes moves past them if they are there, and fails in place if not. -/
theorem run_readBytes (count : ℕ) (reader : Reader) :
    run (readBytes count) reader =
      if reader.bytes.bytes.length < reader.position + count then
        (.error (.error .unexpectedEnd), reader)
      else (.ok ((cursor.rest reader).take count), cursor.skip reader count) := by
  have hlt := reader.bytes.length_lt
  split_ifs with hend
  · simp only [readBytes, run_bind, run_get, if_pos hend, ite_self, run_throw]
  · have h64 : ¬ 2 ^ 64 ≤ reader.position + count := by omega
    simp only [readBytes, run_bind, run_get, if_neg h64, if_neg hend, run_set, run_pure]
    rfl

/-- Reading a CompactSize moves past it if it decodes, and fails in place if not. -/
theorem run_readVarint {reader : Reader} (hvalid : cursor.Valid reader) :
    run readVarint reader =
      match Varint.decode (cursor.rest reader) with
      | .error e => (.error (.error (.badVarInt e)), reader)
      | .ok (value, consumed) => (.ok value, cursor.skip reader consumed) := by
  have hvalid' : ¬ reader.bytes.bytes.length < reader.position := not_lt.mpr hvalid
  have hrest : cursor.rest reader = reader.bytes.bytes.drop reader.position := rfl
  simp only [readVarint, run_bind, run_get, if_neg hvalid', hrest]
  cases Varint.decode (reader.bytes.bytes.drop reader.position) with
  | error e => rfl
  | ok read => simp only [run_bind, run_set, run_pure, cursor]

/-! ### The formats of the operations -/

/-- **Reading bytes**: any bytes of that number, as they are. -/
theorem readBytes_matches (count : ℕ) :
    Matches cursor (readBytes count) fun w bytes => w.length = count ∧ bytes = w := by
  intro reader hvalid bytes reader'
  have hvalid' : reader.position ≤ reader.bytes.bytes.length := hvalid
  have hrest : (cursor.rest reader).length = reader.bytes.bytes.length - reader.position :=
    List.length_drop
  rw [run_readBytes]
  split_ifs with hend
  · refine iff_of_false (by simp) ?_
    rintro ⟨w, ⟨hlen, rfl⟩, hpre, -⟩
    have hle := hpre.length_le
    omega
  · rw [Prod.mk.injEq]
    constructor
    · rintro ⟨hok, rfl⟩
      have hbytes := Except.ok.inj hok
      have hlen : bytes.length = count := by
        rw [← hbytes, List.length_take]
        omega
      refine ⟨bytes, ⟨hlen, rfl⟩, ?_, by rw [hlen]⟩
      rw [← hbytes]
      exact List.take_prefix count _
    · rintro ⟨w, ⟨hlen, rfl⟩, hpre, rfl⟩
      refine ⟨?_, by rw [hlen]⟩
      rw [Except.ok.injEq, ← hlen]
      exact (List.prefix_iff_eq_take.mp hpre).symm

/-- **Reading a CompactSize**: the encoding of the value, and no other. -/
theorem readVarint_matches :
    Matches cursor readVarint fun w value => w = Varint.encode value := by
  intro reader hvalid value reader'
  rw [run_readVarint hvalid]
  cases hdec : Varint.decode (cursor.rest reader) with
  | error e =>
    refine iff_of_false (by simp) ?_
    rintro ⟨w, rfl, hpre, -⟩
    have hok := (Varint.decode_eq_ok_iff (cursor.rest reader) value _).mpr ⟨hpre, rfl⟩
    rw [hdec] at hok
    exact absurd hok (by simp)
  | ok read =>
    obtain ⟨value₀, consumed⟩ := read
    obtain ⟨hpre₀, rfl⟩ := (Varint.decode_eq_ok_iff _ _ _).mp hdec
    rw [Prod.mk.injEq, Except.ok.injEq]
    constructor
    · rintro ⟨rfl, rfl⟩
      exact ⟨_, rfl, hpre₀, rfl⟩
    · rintro ⟨w, rfl, hpre, rfl⟩
      have hok := (Varint.decode_eq_ok_iff (cursor.rest reader) value _).mpr ⟨hpre, rfl⟩
      rw [hdec, Except.ok.injEq, Prod.mk.injEq] at hok
      exact ⟨hok.1, by rw [hok.1]⟩

/-- **Reading a length and that many bytes**: the encoding of the length, then the
bytes. -/
theorem readVarBytes_matches :
    Matches cursor readVarBytes fun w bytes => bytes.length < 2 ^ 64 ∧
      w = Varint.encode (UInt64.ofNat bytes.length) ++ bytes := by
  refine (matches_bind readVarint_matches fun length =>
    readBytes_matches length.toNat).congr fun w bytes => ⟨?_, ?_⟩
  · rintro ⟨u, v, length, rfl, rfl, hlen, rfl⟩
    have hlt : length.toNat < 2 ^ 64 := length.toNat_lt
    exact ⟨by omega, by rw [hlen, UInt64.ofNat_toNat]⟩
  · rintro ⟨hlt, rfl⟩
    refine ⟨_, bytes, UInt64.ofNat bytes.length, rfl, rfl, ?_, rfl⟩
    rw [UInt64.toNat_ofNat_of_lt' hlt]

/-- **Reading an array**: its bytes. -/
theorem readArray_matches (n : ℕ) :
    Matches cursor (readArray n) fun w bytes => w = bytes.toList := by
  intro reader hvalid bytes reader'
  rw [readArray, run_bind_ok]
  constructor
  · rintro ⟨slice, reader₁, hread, hpure⟩
    obtain ⟨w, ⟨hlen, rfl⟩, hpre, rfl⟩ := (readBytes_matches n reader hvalid slice _).mp hread
    rw [dif_pos hlen, run_pure, Prod.mk.injEq, Except.ok.injEq] at hpure
    obtain ⟨rfl, rfl⟩ := hpure
    exact ⟨slice, rfl, hpre, rfl⟩
  · rintro ⟨w, rfl, hpre, rfl⟩
    refine ⟨bytes.toList, _, (readBytes_matches n reader hvalid _ _).mpr
      ⟨bytes.toList, ⟨bytes.toList_length, rfl⟩, hpre, rfl⟩, ?_⟩
    rw [dif_pos bytes.toList_length]
    rfl

/-- A field that is an array in disguise: the bytes that its encoder writes. -/
theorem readField_matches {α : Type} {n : ℕ} {f : ByteArr n → α} (enc : α → ByteArr n)
    (hf : ∀ bytes, enc (f bytes) = bytes) (henc : ∀ a, f (enc a) = a) :
    Matches cursor (do let bytes ← readArray n; pure (f bytes) : ReaderM α)
      fun w a => w = (enc a).toList := by
  refine (matches_bind (readArray_matches n) fun bytes =>
    matches_pure (f bytes)).congr fun w a => ⟨?_, ?_⟩
  · rintro ⟨u, v, bytes, rfl, rfl, rfl, rfl⟩
    rw [List.append_nil, hf]
  · rintro rfl
    exact ⟨_, [], enc a, (List.append_nil _).symm, rfl, rfl, (henc a).symm⟩

/-- The bytes of a little-endian `u32`. -/
theorem readU32_matches :
    Matches cursor readU32 fun w value => w = Base256.toLE 4 value.toNat :=
  readField_matches (fun value : UInt32 => toArr (Base256.toLE 4 value.toNat) (by simp))
    (fun bytes => arr_ext (Base256.toLE_ofLE_u32 bytes.toList_length)) Base256.ofLE_toLE_u32

/-- The bytes of a little-endian `u64`. -/
theorem readU64_matches :
    Matches cursor readU64 fun w value => w = Base256.toLE 8 value.toNat :=
  readField_matches (fun value : UInt64 => toArr (Base256.toLE 8 value.toNat) (by simp))
    (fun bytes => arr_ext (Base256.toLE_ofLE_u64 bytes.toList_length)) Base256.ofLE_toLE_u64

/-- The bytes of a little-endian `i32`, which are those of its bit pattern. -/
theorem readI32_matches :
    Matches cursor readI32 fun w value => w = Base256.toLE 4 value.toUInt32.toNat :=
  readField_matches
    (fun value : Int32 => toArr (Base256.toLE 4 value.toUInt32.toNat) (by simp))
    (fun bytes => arr_ext (Base256.toLE_ofLE_u32 bytes.toList_length))
    fun value => congrArg UInt32.toInt32 (Base256.ofLE_toLE_u32 value.toUInt32)

/-- The bytes of a hash. -/
theorem readHash_matches :
    Matches cursor readHash fun w hash => w = hash.bytes.toList :=
  readField_matches Sha256dHash.bytes (fun _ => rfl) fun _ => rfl

end Reader

end SoloMiner
