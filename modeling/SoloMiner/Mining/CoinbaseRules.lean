import SoloMiner.Mining.Coinbase

/-!
# The rules a coinbase has to obey

Three rules of consensus meet on the coinbase: its `scriptSig` opens with the height
of the block and is 2 to 100 bytes long; its outputs total what the block may pay; and
the witness commitment, the last output, comes with a witness of one 32-byte item.

The first is about how a node reads the script, not about how it was written. So this
file has a reader of scripts that only push: `SoloMiner.Script.readPush` takes one
opcode off the front, in any of the forms there are for pushing data, and
`SoloMiner.Script.ReadsAs` says that a script is pushes and nothing else, and which.
Whatever the extranonce and the tag hold, their bytes are never read as opcodes
(`SoloMiner.CoinbaseBuilder.readsAs_scriptBytes`). With that, what the builder builds
obeys the rules, and it refuses exactly what breaks the bounds on the length
(`SoloMiner.CoinbaseBuilder.build_obeysRules`).
-/

namespace SoloMiner

namespace Script

/-! ### Reading a script that only pushes -/

/-- The first `n` bytes, and the rest, if there are that many. -/
def takeData (n : ℕ) (bytes : Bytes) : Option (Bytes × Bytes) :=
  if n ≤ bytes.length then some (bytes.take n, bytes.drop n) else none

/-- The data after a length of `n` bytes, lowest first. -/
def takeSized (n : ℕ) (bytes : Bytes) : Option (Bytes × Bytes) := do
  let (length, rest) ← takeData n bytes
  takeData (Base256.ofLE length) rest

/-- What the first opcode of a script pushes, and the script after it. It is nothing for
an opcode that does not push, or whose data is cut off. -/
def readPush : Bytes → Option (Bytes × Bytes)
  | [] => none
  | opcode :: rest =>
    -- `OP_0` pushes the empty string, which is the data of length zero.
    if opcode.toNat ≤ 75 then takeData opcode.toNat rest
    else if opcode = 0x4C then takeSized 1 rest
    else if opcode = 0x4D then takeSized 2 rest
    else if opcode = 0x4E then takeSized 4 rest
    else if opcode = 0x4F then some ([0x81], rest)
    -- `OP_1` to `OP_16` push the number they name.
    else if 0x51 ≤ opcode ∧ opcode ≤ 0x60 then some ([opcode - 0x50], rest)
    else none

/-- The script is pushes from its first byte to its last, of these strings. -/
inductive ReadsAs : Bytes → List Bytes → Prop
  | nil : ReadsAs [] []
  | cons {script rest data : Bytes} {datas : List Bytes} :
    readPush script = some (data, rest) → ReadsAs rest datas → ReadsAs script (data :: datas)

/-- A script is read in one way. -/
theorem ReadsAs.unique {script : Bytes} {datas datas' : List Bytes} (h : ReadsAs script datas)
    (h' : ReadsAs script datas') : datas = datas' := by
  induction h generalizing datas' with
  | nil =>
    cases h' with
    | nil => rfl
    | cons hread _ => exact absurd hread (by simp [readPush])
  | cons hread _ ih =>
    cases h' with
    | nil => exact absurd hread (by simp [readPush])
    | cons hread' hrest' =>
      rw [hread, Option.some.injEq, Prod.mk.injEq] at hread'
      obtain ⟨rfl, rfl⟩ := hread'
      rw [ih hrest']

/-- The number that a string stands for in a script: lowest byte first, the top bit of
the last one a sign. -/
def scriptNumber (data : Bytes) : ℤ :=
  if data.getLastD 0 &&& 0x80 ≠ 0 then 2 ^ (8 * data.length - 1) - (Base256.ofLE data : ℤ)
  else Base256.ofLE data

/-! ### The pushes of the builder are read as pushes -/

theorem takeData_append (data rest : Bytes) :
    takeData data.length (data ++ rest) = some (data, rest) := by
  rw [takeData, if_pos (by rw [List.length_append]; omega), List.take_left' rfl,
    List.drop_left' rfl]

/-- Data after its own length is taken off, whatever the width of the length. -/
theorem takeSized_append {n : ℕ} {length data : Bytes} (hn : length.length = n)
    (hlength : Base256.ofLE length = data.length) (rest : Bytes) :
    takeSized n (length ++ (data ++ rest)) = some (data, rest) := by
  subst hn
  rw [takeSized, takeData_append]
  exact (congrArg (fun n => takeData n (data ++ rest)) hlength).trans (takeData_append data rest)

/-- **A push is read as its data**, in each of its three forms. -/
theorem readPush_pushHead {data : Bytes} (h : data.length ≤ 520) (rest : Bytes) :
    readPush (pushHead data.length ++ (data ++ rest)) = some (data, rest) := by
  rw [pushHead]
  split_ifs with h75 h255
  · have hop : (UInt8.ofNat data.length).toNat = data.length :=
      UInt8.toNat_ofNat_of_lt' (show data.length < 256 by omega)
    rw [List.singleton_append, readPush, hop, if_pos h75, takeData_append]
  · have hlen : Base256.ofLE [UInt8.ofNat data.length] = data.length := by
      rw [Base256.ofLE_cons, UInt8.toNat_ofNat_of_lt' (show data.length < 256 by omega),
        Base256.ofLE_nil]
      omega
    have hone : [UInt8.ofNat data.length].length = 1 := rfl
    exact takeSized_append hone hlen rest
  · have hlen : Base256.ofLE (Base256.toLE 2 data.length) = data.length :=
      Base256.ofLE_toLE_of_lt (by omega)
    exact takeSized_append (Base256.length_toLE _ _) hlen rest

/-- The loop of `encode_script_number` writes the digits of the value. -/
theorem ofLE_lowBytes {fuel : ℕ} {value : UInt32} (h : value.toNat < 256 ^ fuel) :
    Base256.ofLE (lowBytes fuel value) = value.toNat := by
  induction fuel generalizing value with
  | zero =>
    have hzero : value.toNat = 0 := by simpa using h
    rw [lowBytes, Base256.ofLE_nil, hzero]
  | succ fuel ih =>
    rw [lowBytes]
    split_ifs with hpos
    · have hlow : (value &&& 0xFF).toUInt8.toNat = value.toNat % 256 := by
        have hand : value.toNat % 256 &&& 255 = value.toNat % 256 % 256 :=
          Nat.and_two_pow_sub_one_eq_mod (value.toNat % 256) 8
        simp [hand]
      have hhigh : (value >>> 8).toNat = value.toNat / 256 := by
        simp [Nat.shiftRight_eq_div_pow]
      have hlt : (value >>> 8).toNat < 256 ^ fuel := by
        rw [pow_succ] at h
        omega
      rw [Base256.ofLE_cons, ih hlt, hlow, hhigh]
      omega
    · have hzero : value.toNat = 0 := by
        have hle := UInt32.lt_iff_toNat_lt.not.mp hpos
        simpa using hle
      rw [Base256.ofLE_nil, hzero]

/-- **A number written for a script is read back.** -/
theorem scriptNumber_encodeScriptNumber (value : UInt32) :
    scriptNumber (encodeScriptNumber value) = value.toNat := by
  have hlow : Base256.ofLE (lowBytes 4 value) = value.toNat := ofLE_lowBytes value.toNat_lt
  rw [encodeScriptNumber]
  split_ifs with h0
  · rw [h0]
    rfl
  · simp only
    split_ifs with hsign
    · -- The zero byte put after the digits is the last one, and has no sign.
      rw [scriptNumber, List.getLastD_concat, if_neg (by decide), Base256.ofLE_append, hlow]
      simp
    · rw [scriptNumber, if_neg hsign, hlow]

/-- The opcodes of the heights 1 to 16. -/
theorem smallHeight_opcode {height : UInt32} (h0 : height ≠ 0) (h16 : height ≤ 16) (rest : Bytes) :
    readPush ((0x51 + height.toUInt8 - 1) :: rest) = some (encodeScriptNumber height, rest) := by
  have hall : ∀ n : Fin 17, n ≠ 0 →
      ¬ (0x51 + (UInt32.ofNat n).toUInt8 - 1).toNat ≤ 75 ∧
      0x51 + (UInt32.ofNat n).toUInt8 - 1 ≠ 0x4C ∧ 0x51 + (UInt32.ofNat n).toUInt8 - 1 ≠ 0x4D ∧
      0x51 + (UInt32.ofNat n).toUInt8 - 1 ≠ 0x4E ∧ 0x51 + (UInt32.ofNat n).toUInt8 - 1 ≠ 0x4F ∧
      (0x51 ≤ 0x51 + (UInt32.ofNat n).toUInt8 - 1 ∧ 0x51 + (UInt32.ofNat n).toUInt8 - 1 ≤ 0x60) ∧
      [0x51 + (UInt32.ofNat n).toUInt8 - 1 - 0x50] = encodeScriptNumber (UInt32.ofNat n) := by
    decide
  have hlt : height.toNat < 17 := Nat.lt_succ_of_le (UInt32.le_iff_toNat_le.mp h16)
  have hne : (⟨height.toNat, hlt⟩ : Fin 17) ≠ 0 := by
    intro heq
    have hzero : height.toNat = 0 := congrArg Fin.val heq
    exact h0 (UInt32.toNat_inj.mp hzero)
  obtain ⟨h75, h4c, h4d, h4e, h4f, hsmall, hdata⟩ := hall ⟨height.toNat, hlt⟩ hne
  simp only [UInt32.ofNat_toNat] at h75 h4c h4d h4e h4f hsmall hdata
  rw [readPush, if_neg h75, if_neg h4c, if_neg h4d, if_neg h4e, if_neg h4f, if_pos hsmall, hdata]

/-- **The height is read as one push of the number**, whichever form it has. -/
theorem readPush_heightBytes (height : UInt32) (rest : Bytes) :
    readPush (heightBytes height ++ rest) = some (encodeScriptNumber height, rest) := by
  have hlen := length_encodeScriptNumber_le height
  rw [heightBytes]
  split_ifs with h0 h16
  · rw [h0]
    exact takeData_append [] rest
  · exact smallHeight_opcode h0 h16 rest
  · rw [List.append_assoc]
    exact readPush_pushHead (by omega) rest

end Script

namespace CoinbaseBuilder

/-! ### The script of a coinbase -/

/-- A part of the script that is left out when it is empty. -/
def nonEmpty (data : Bytes) : List Bytes := if data.isEmpty then [] else [data]

/-- A push that is left out when there is no data is read as the data that is there. -/
theorem readsAs_pushHead {data rest : Bytes} {datas : List Bytes} (h : data.length ≤ 520)
    (hrest : Script.ReadsAs rest datas) :
    Script.ReadsAs (pushHead data.length ++ (data ++ rest)) (nonEmpty data ++ datas) := by
  cases data with
  | nil => exact hrest
  | cons b data => exact .cons (Script.readPush_pushHead h rest) hrest

/-- **The script is the height, the extranonce and the tag**, and no other opcode: what
the extranonce and the tag hold is never read as one. -/
theorem readsAs_scriptBytes (self : CoinbaseBuilder) (hextra : self.extranonce.length ≤ 520)
    (htag : self.tag.length ≤ 520) :
    Script.ReadsAs self.scriptBytes (Script.encodeScriptNumber self.height ::
      (nonEmpty self.extranonce ++ nonEmpty self.tag)) := by
  have htail := readsAs_pushHead htag .nil
  rw [List.append_nil, List.append_nil] at htail
  exact .cons (Script.readPush_heightBytes self.height _) (readsAs_pushHead hextra htail)

/-! ### What is built -/

/-- The transaction is a coinbase of what the builder was given, with this input. -/
structure ObeysRules (self : CoinbaseBuilder) (tx : Transaction) (input : TxIn) : Prop where
  /-- There is one input, -/
  inputs : tx.inputs = [input]
  /-- and it spends nothing. -/
  outpoint : input.previousOutput = OutPoint.NULL
  /-- The script starts with the height as the node expects it, -/
  height : ∃ head, (Script.encodeBlockHeight self.height : Checked CoinbaseError Bytes) =
    .ok head ∧ head <+: input.scriptSig
  /-- and is read as the height, the extranonce and the tag. -/
  pushes : ∃ number, Script.scriptNumber number = self.height.toNat ∧
    Script.ReadsAs input.scriptSig (number :: (nonEmpty self.extranonce ++ nonEmpty self.tag))
  /-- The outputs total the value. -/
  value : (tx.outputs.map fun output => output.value.toNat).sum = self.value.toNat
  /-- There is a witness only with a commitment; -/
  noCommitment : self.witnessCommitment = none → input.witness = []
  /-- then it is one 32-byte item, and the commitment is the last output. -/
  commitment : ∀ script, self.witnessCommitment = some script →
    (∃ item, input.witness = [item] ∧ item.length = 32) ∧
      tx.outputs.getLast?.map TxOut.scriptPubkey = some script

/-- The transaction around the script obeys the rules. -/
theorem obeysRules_transaction (self : CoinbaseBuilder) (hextra : self.extranonce.length ≤ 520)
    (htag : self.tag.length ≤ 520) :
    ∃ input, input.scriptSig = self.scriptBytes ∧
      self.ObeysRules (self.transaction self.scriptBytes) input := by
  refine ⟨_, rfl, ⟨rfl, rfl, ⟨_, Script.encodeBlockHeight_eq_ok _, List.prefix_append _ _⟩,
    ⟨_, Script.scriptNumber_encodeScriptNumber self.height,
      self.readsAs_scriptBytes hextra htag⟩, ?_, ?_, ?_⟩⟩
  · cases hcommit : self.witnessCommitment <;> simp [transaction, hcommit]
  · intro hnone
    simp [hnone]
  · intro script hsome
    simp [transaction, hsome]

/-- **Every coinbase that is built obeys the rules**, and one is built precisely when its
script keeps to 2 to 100 bytes. -/
theorem build_obeysRules (self : CoinbaseBuilder) (hextra : self.extranonce.length ≤ 520)
    (htag : self.tag.length ≤ 520) :
    ∃ script, (self.scriptSig : Checked CoinbaseError Bytes) = .ok script ∧
      ((∃ tx, self.build = .ok tx) ↔ 2 ≤ script.length ∧ script.length ≤ 100) ∧
      (¬ (2 ≤ script.length ∧ script.length ≤ 100) →
        self.build = .err (.scriptSigLength script.length)) ∧
      ∀ tx, self.build = .ok tx → ∃ input, input.scriptSig = script ∧ self.ObeysRules tx input := by
  refine ⟨self.scriptBytes, scriptSig_eq self hextra htag, ?_⟩
  rw [build_eq hextra htag]
  by_cases hlen : self.scriptBytes.length < 2 ∨ 100 < self.scriptBytes.length
  · rw [if_pos hlen]
    exact ⟨iff_of_false (by simp [Checked.err]) (by omega), fun _ => rfl,
      fun tx htx => absurd htx (by simp [Checked.err])⟩
  · rw [if_neg hlen]
    refine ⟨iff_of_true ⟨_, rfl⟩ (by omega), fun hnot => absurd hnot (by omega), fun tx htx => ?_⟩
    obtain rfl := Except.ok.inj htx
    exact self.obeysRules_transaction hextra htag

/-- A coinbase at height 1 with an extranonce, a tag and a commitment. -/
theorem build_obeysRules_sample :
    ∃ script, (CoinbaseBuilder.scriptSig
        ⟨1, 5000000000, [0x51], [0, 0, 0, 1], [0x2F], some [0x6A]⟩ :
        Checked CoinbaseError Bytes) = .ok script ∧
      ((∃ tx, build ⟨1, 5000000000, [0x51], [0, 0, 0, 1], [0x2F], some [0x6A]⟩ = .ok tx) ↔
        2 ≤ script.length ∧ script.length ≤ 100) := by
  obtain ⟨script, hscript, hbuild, -⟩ := build_obeysRules
    ⟨1, 5000000000, [0x51], [0, 0, 0, 1], [0x2F], some [0x6A]⟩ (by decide) (by decide)
  exact ⟨script, hscript, hbuild⟩

end CoinbaseBuilder

end SoloMiner
