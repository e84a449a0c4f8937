import SoloMiner.Primitives.Reader

/-!
# Any sequence of reads

The counts that a parser passes to its reader are whatever the sender of the bytes
wrote there, and a parser may go on after a read has failed. So here the reader is
called in any order and any number of times, successes and failures mixed.

Every call leaves the reader in its slice and no further back
(`SoloMiner.Reader.Moves`), and none of them panics. A call that reads one field either
moves past it or stays where it is (`SoloMiner.Reader.InPlace`). A length and its bytes
are two fields, so a failure of the second leaves the reader behind the first.
-/

namespace SoloMiner

open PrefixParser

namespace Reader

/-! ### What every operation does -/

/-- The same slice, no further back, and still inside. -/
structure Ahead (reader reader' : Reader) : Prop where
  bytes : reader'.bytes = reader.bytes
  le : reader.position ≤ reader'.position
  valid : cursor.Valid reader'

theorem Ahead.refl {reader : Reader} (hvalid : cursor.Valid reader) : Ahead reader reader :=
  ⟨rfl, le_rfl, hvalid⟩

theorem Ahead.trans {r₁ r₂ r₃ : Reader} (h : Ahead r₁ r₂) (h' : Ahead r₂ r₃) : Ahead r₁ r₃ :=
  ⟨h'.bytes.trans h.bytes, h.le.trans h'.le, h'.valid⟩

theorem ahead_skip {reader : Reader} (hvalid : cursor.Valid reader) {n : ℕ}
    (h : n ≤ (cursor.rest reader).length) : Ahead reader (cursor.skip reader n) :=
  ⟨rfl, Nat.le_add_right _ _, cursor.valid_skip hvalid h⟩

variable {α β : Type} {m : ReaderM α} {f : α → ReaderM β}

/-- From inside its slice, the operation moves on inside it, and does not panic. -/
def Moves (m : ReaderM α) : Prop :=
  ∀ reader, cursor.Valid reader →
    Ahead reader (run m reader).2 ∧ (run m reader).1 ≠ .error .panic

/-- An operation that fails leaves the reader alone. -/
def InPlace (m : ReaderM α) : Prop :=
  ∀ reader, cursor.Valid reader → ∀ e, (run m reader).1 = .error e → (run m reader).2 = reader

theorem moves_pure (a : α) : Moves (pure a) := fun _ hvalid =>
  ⟨Ahead.refl hvalid, by simp⟩

/-- **One operation after another** moves on as both do. -/
theorem moves_bind (hm : Moves m) (hf : ∀ a, Moves (f a)) : Moves (m >>= f) := by
  intro reader hvalid
  obtain ⟨hahead, hpanic⟩ := hm reader hvalid
  rw [run_bind]
  cases hrun : run m reader with
  | mk r reader₁ =>
    rw [hrun] at hahead hpanic
    cases r with
    | error e => exact ⟨hahead, fun he => hpanic (congrArg Except.error (Except.error.inj he))⟩
    | ok a =>
      obtain ⟨hahead', hpanic'⟩ := hf a reader₁ hahead.valid
      exact ⟨hahead.trans hahead', hpanic'⟩

/-- What is made of the value does not matter to a failure. -/
theorem inPlace_map (hm : InPlace m) (g : α → β) : InPlace (do let a ← m; pure (g a)) := by
  intro reader hvalid e he
  rw [run_bind] at he ⊢
  cases hrun : run m reader with
  | mk r reader₁ =>
    rw [hrun] at he
    cases r with
    | error e' =>
      have hstay := hm reader hvalid e' (by rw [hrun])
      rw [hrun] at hstay
      exact hstay
    | ok a => exact absurd he (by simp)

/-! ### The operations -/

theorem readBytes_moves (count : ℕ) : Moves (readBytes count) := by
  intro reader hvalid
  have hvalid' : reader.position ≤ reader.bytes.bytes.length := hvalid
  have hrest : (cursor.rest reader).length = reader.bytes.bytes.length - reader.position :=
    List.length_drop
  rw [run_readBytes]
  split_ifs with hend
  · exact ⟨Ahead.refl hvalid, by simp⟩
  · exact ⟨ahead_skip hvalid (by omega), by simp⟩

theorem readBytes_inPlace (count : ℕ) : InPlace (readBytes count) := by
  intro reader hvalid e he
  rw [run_readBytes] at he ⊢
  split_ifs at he ⊢
  rfl

theorem readVarint_moves : Moves readVarint := by
  intro reader hvalid
  rw [run_readVarint hvalid]
  cases hdec : Varint.decode (cursor.rest reader) with
  | error e => exact ⟨Ahead.refl hvalid, by simp⟩
  | ok read =>
    obtain ⟨value, consumed⟩ := read
    obtain ⟨hpre, rfl⟩ := (Varint.decode_eq_ok_iff _ _ _).mp hdec
    exact ⟨ahead_skip hvalid hpre.length_le, by simp⟩

theorem readVarint_inPlace : InPlace readVarint := by
  intro reader hvalid e he
  rw [run_readVarint hvalid] at he ⊢
  cases hdec : Varint.decode (cursor.rest reader) with
  | error e' => rfl
  | ok read =>
    rw [hdec] at he
    exact absurd he (by simp)

theorem readVarBytes_moves : Moves readVarBytes :=
  moves_bind readVarint_moves fun length => readBytes_moves length.toNat

/-- Reading an array is reading its bytes: they are as many as were asked for. -/
theorem run_readArray (n : ℕ) {reader : Reader} (hvalid : cursor.Valid reader) :
    (∃ bytes, run (readArray n) reader = (.ok bytes, (run (readBytes n) reader).2)) ∨
      ∃ e, (run (readBytes n) reader).1 = .error e ∧
        run (readArray n) reader = (.error e, (run (readBytes n) reader).2) := by
  rw [readArray, run_bind]
  cases hrun : run (readBytes n) reader with
  | mk r reader₁ =>
    cases r with
    | error e => exact Or.inr ⟨e, rfl, rfl⟩
    | ok slice =>
      obtain ⟨w, ⟨hlen, rfl⟩, -⟩ := (readBytes_matches n reader hvalid slice reader₁).mp hrun
      exact Or.inl ⟨toArr slice hlen, by simp only [dif_pos hlen, run_pure]⟩

theorem readArray_moves (n : ℕ) : Moves (readArray n) := by
  intro reader hvalid
  obtain ⟨hahead, hpanic⟩ := readBytes_moves n reader hvalid
  rcases run_readArray n hvalid with ⟨bytes, hrun⟩ | ⟨e, he, hrun⟩
  · rw [hrun]
    exact ⟨hahead, by simp⟩
  · rw [hrun]
    rw [he] at hpanic
    exact ⟨hahead, fun h => hpanic (congrArg Except.error (Except.error.inj h))⟩

theorem readArray_inPlace (n : ℕ) : InPlace (readArray n) := by
  intro reader hvalid e he
  rcases run_readArray n hvalid with ⟨bytes, hrun⟩ | ⟨e', he', hrun⟩
  · rw [hrun] at he
    exact absurd he (by simp)
  · rw [hrun]
    exact readBytes_inPlace n reader hvalid e' he'

end Reader

/-! ### Sequences of calls -/

/-- A call on a reader. What is left to read is asked for without a call. -/
inductive ReaderCall where
  | readBytes (count : ℕ)
  | readU32
  | readI32
  | readU64
  | readHash
  | readVarint
  | readVarBytes

namespace ReaderCall

/-- What the call returns if it succeeds. -/
def Answer : ReaderCall → Type
  | readBytes _ => Bytes
  | readU32 => UInt32
  | readI32 => Int32
  | readU64 => UInt64
  | readHash => Sha256dHash
  | readVarint => UInt64
  | readVarBytes => Bytes

/-- The operation that is called. -/
def perform : (call : ReaderCall) → ReaderM call.Answer
  | readBytes count => Reader.readBytes count
  | readU32 => Reader.readU32
  | readI32 => Reader.readI32
  | readU64 => Reader.readU64
  | readHash => Reader.readHash
  | readVarint => Reader.readVarint
  | readVarBytes => Reader.readVarBytes

theorem perform_moves (call : ReaderCall) : Reader.Moves call.perform := by
  cases call with
  | readBytes count => exact Reader.readBytes_moves count
  | readU32 => exact Reader.moves_bind (Reader.readArray_moves 4) fun _ => Reader.moves_pure _
  | readI32 => exact Reader.moves_bind (Reader.readArray_moves 4) fun _ => Reader.moves_pure _
  | readU64 => exact Reader.moves_bind (Reader.readArray_moves 8) fun _ => Reader.moves_pure _
  | readHash => exact Reader.moves_bind (Reader.readArray_moves 32) fun _ => Reader.moves_pure _
  | readVarint => exact Reader.readVarint_moves
  | readVarBytes => exact Reader.readVarBytes_moves

/-- Only a length with its bytes can fail halfway. -/
theorem perform_inPlace {call : ReaderCall} (h : call ≠ .readVarBytes) :
    Reader.InPlace call.perform := by
  cases call with
  | readBytes count => exact Reader.readBytes_inPlace count
  | readU32 => exact Reader.inPlace_map (Reader.readArray_inPlace 4) _
  | readI32 => exact Reader.inPlace_map (Reader.readArray_inPlace 4) _
  | readU64 => exact Reader.inPlace_map (Reader.readArray_inPlace 8) _
  | readHash => exact Reader.inPlace_map (Reader.readArray_inPlace 32) _
  | readVarint => exact Reader.readVarint_inPlace
  | readVarBytes => exact absurd rfl h

end ReaderCall

namespace Reader

/-- The reader after some calls, whether they succeeded or not. -/
def after : Reader → List ReaderCall → Reader
  | reader, [] => reader
  | reader, call :: calls => after (run call.perform reader).2 calls

/-- **The run lemma**: after any calls the reader is in its slice, and no further back. -/
theorem ahead_after {reader : Reader} (hvalid : cursor.Valid reader) (calls : List ReaderCall) :
    Ahead reader (after reader calls) := by
  induction calls generalizing reader with
  | nil => exact Ahead.refl hvalid
  | cons call calls ih =>
    have hstep := (call.perform_moves reader hvalid).1
    exact hstep.trans (ih hstep.valid)

/-- What one call does to a reader of a slice. -/
structure Inside (bytes : Slice) (reader : Reader) (call : ReaderCall) : Prop where
  /-- The slice is the one that was given, -/
  slice : reader.bytes = bytes
  /-- and the position is in it. -/
  position : reader.position ≤ bytes.bytes.length
  /-- The call does not panic, -/
  noPanic : (run call.perform reader).1 ≠ .error .panic
  /-- and does not move back. -/
  forward : reader.position ≤ (run call.perform reader).2.position
  /-- If it fails, it does not move, unless it reads two fields. -/
  inPlace : call ≠ .readVarBytes → ∀ e, (run call.perform reader).1 = .error e →
    (run call.perform reader).2.position = reader.position
  /-- Bytes that are read are those of the slice at the position. -/
  own : ∀ count data reader', run (readBytes count) reader = (.ok data, reader') →
    data = (bytes.bytes.drop reader.position).take count ∧ data.length = count ∧
      reader'.position = reader.position + count

/-- **The reader never leaves its slice**, whatever is called on it, and in which order. -/
theorem inside_after (bytes : Slice) (before : List ReaderCall) (call : ReaderCall) :
    Inside bytes (after (new bytes) before) call := by
  have hahead := ahead_after (valid_new bytes) before
  generalize after (new bytes) before = reader at hahead ⊢
  have hslice : reader.bytes = bytes := hahead.bytes
  have hvalid : reader.position ≤ reader.bytes.bytes.length := hahead.valid
  obtain ⟨hmove, hpanic⟩ := call.perform_moves reader hahead.valid
  refine ⟨hslice, hslice ▸ hvalid, hpanic, hmove.le, fun hcall e he => ?_, ?_⟩
  · exact congrArg position (ReaderCall.perform_inPlace hcall reader hahead.valid e he)
  · intro count data reader' hread
    obtain ⟨w, ⟨hlen, rfl⟩, hpre, rfl⟩ :=
      (readBytes_matches count reader hahead.valid data reader').mp hread
    have hdata : data = (reader.bytes.bytes.drop reader.position).take data.length :=
      List.prefix_iff_eq_take.mp hpre
    rw [hlen, hslice] at hdata
    exact ⟨hdata, hlen, congrArg (reader.position + ·) hlen⟩

/-- A length of 200 with one byte behind it: the bytes fail, and the length stays read. -/
example : (after (new ⟨[200, 7], by decide⟩) [.readVarBytes, .readBytes 1]).position = 2 := by
  decide

end Reader

end SoloMiner
