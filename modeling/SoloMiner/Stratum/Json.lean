import SoloMiner.Primitives.Hex

/-!
# JSON values

Messages are JSON, and the program handles them as trees. Turning a line into a tree
and back is the business of a library; what is here is the tree and the few ways the
program looks into it.
-/

namespace SoloMiner

namespace Json

/-- A number: an unsigned or a negative integer of 64 bits, or a float, of which only
the bits are kept. -/
inductive Number where
  | posInt (n : UInt64)
  | negInt (n : Int64)
  | float (bits : UInt64)
  deriving DecidableEq

/-- A `serde_json::Value`. An object is its fields in order. -/
inductive Value where
  | null
  | bool (b : Bool)
  | number (n : Number)
  | string (s : Str)
  | array (items : List Value)
  | object (fields : List (Str × Value))

namespace Value

/-- `as_array`. -/
def asArray : Value → Option (List Value)
  | array items => some items
  | _ => none

/-- `as_str`. -/
def asStr : Value → Option Str
  | string s => some s
  | _ => none

/-- `as_bool`. -/
def asBool : Value → Option Bool
  | bool b => some b
  | _ => none

/-- `as_u64`. -/
def asU64 : Value → Option UInt64
  | number (.posInt n) => some n
  | _ => none

/-- `as_i64`: an unsigned integer counts as long as it fits. -/
def asI64 : Value → Option Int64
  | number (.posInt n) => if n.toNat < 2 ^ 63 then some n.toInt64 else none
  | number (.negInt n) => some n
  | _ => none

/-- `is_null`. -/
def isNull : Value → Bool
  | null => true
  | _ => false

/-- `get` with a field name. -/
def getField (value : Value) (name : Str) : Option Value :=
  match value with
  | object fields => fields.lookup name
  | _ => none

@[simp] theorem asArray_array (items : List Value) : (array items).asArray = some items := rfl

@[simp] theorem asStr_string (s : Str) : (string s).asStr = some s := rfl

@[simp] theorem asBool_bool (b : Bool) : (bool b).asBool = some b := rfl

@[simp] theorem asU64_posInt (n : UInt64) : (number (.posInt n)).asU64 = some n := rfl

mutual

/-- Equality of values is decided part by part. -/
def decEq (a b : Value) : Decidable (a = b) :=
  match a, b with
  | null, null => isTrue rfl
  | bool a, bool b => decidable_of_iff (a = b) (by simp)
  | number a, number b => decidable_of_iff (a = b) (by simp)
  | string a, string b => decidable_of_iff (a = b) (by simp)
  | array items, array items' =>
    have := decEqItems items items'
    decidable_of_iff (items = items') (by simp)
  | object fields, object fields' =>
    have := decEqFields fields fields'
    decidable_of_iff (fields = fields') (by simp)
  | null, bool _ | null, number _ | null, string _ | null, array _ | null, object _
  | bool _, null | bool _, number _ | bool _, string _ | bool _, array _ | bool _, object _
  | number _, null | number _, bool _ | number _, string _ | number _, array _
  | number _, object _ | string _, null | string _, bool _ | string _, number _
  | string _, array _ | string _, object _ | array _, null | array _, bool _ | array _, number _
  | array _, string _ | array _, object _ | object _, null | object _, bool _
  | object _, number _ | object _, string _ | object _, array _ => isFalse (by simp)

@[inherit_doc decEq]
def decEqItems (items items' : List Value) : Decidable (items = items') :=
  match items, items' with
  | [], [] => isTrue rfl
  | item :: items, item' :: items' =>
    have := decEq item item'
    have := decEqItems items items'
    decidable_of_iff (item = item' ∧ items = items') (by simp)
  | [], _ :: _ | _ :: _, [] => isFalse (by simp)

@[inherit_doc decEq]
def decEqFields (fields fields' : List (Str × Value)) : Decidable (fields = fields') :=
  match fields, fields' with
  | [], [] => isTrue rfl
  | (name, value) :: fields, (name', value') :: fields' =>
    have := decEq value value'
    have := decEqFields fields fields'
    decidable_of_iff (name = name' ∧ value = value' ∧ fields = fields') (by simp [and_assoc])
  | [], _ :: _ | _ :: _, [] => isFalse (by simp)

end

instance : DecidableEq Value := decEq

end Value

variable {ε : Type}

/-- `array[index].as_str()` under the given error: an index past the end panics. -/
def stringAt (notAString : ℕ → ε) (array : List Value) (index : ℕ) : Checked ε Str :=
  match array[index]? with
  | none => .panic
  | some value => Checked.okOr (notAString index) value.asStr

/-- `u32::from_str_radix(.., 16)` on a string parameter. -/
def u32FromHexAt (notAString notHex : ℕ → ε) (array : List Value) (index : ℕ) :
    Checked ε UInt32 := do
  let s ← stringAt notAString array index
  Checked.okOr (notHex index) ((Hex.fromStrRadix16 32 s).map UInt32.ofNat)

/-- `format!("{:08x}", value)` at a `u32`. -/
def hexString (value : UInt32) : Value := .string (Hex.fixedHex 8 value.toNat)

theorem stringAt_string {notAString : ℕ → ε} {array : List Value} {index : ℕ} {s : Str}
    (h : array[index]? = some (.string s)) : stringAt notAString array index = .ok s := by
  rw [stringAt, h]
  rfl

/-- A string parameter is read precisely where a string stands. -/
theorem stringAt_eq_ok_iff {notAString : ℕ → ε} {array : List Value} {index : ℕ} {s : Str} :
    stringAt notAString array index = .ok s ↔ array[index]? = some (.string s) := by
  rw [stringAt]
  cases array[index]? with
  | none => simp [Checked.panic]
  | some value =>
    rw [Checked.okOr_eq_ok]
    cases value <;> simp [Value.asStr]

/-- Reading a string parameter panics only past the end. -/
theorem stringAt_eq_panic_iff {notAString : ℕ → ε} {array : List Value} {index : ℕ} :
    stringAt notAString array index = .panic ↔ array.length ≤ index := by
  rw [stringAt, ← List.getElem?_eq_none_iff]
  cases array[index]? with
  | none => simp
  | some value => simp [Checked.okOr_ne_panic]

theorem u32FromHexAt_eq_ok_iff {notAString notHex : ℕ → ε} {array : List Value} {index : ℕ}
    {value : UInt32} :
    u32FromHexAt notAString notHex array index = .ok value ↔
      ∃ s n, array[index]? = some (.string s) ∧ Hex.fromStrRadix16 32 s = some n ∧
        value = UInt32.ofNat n := by
  rw [u32FromHexAt, Checked.bind_eq_ok]
  constructor
  · rintro ⟨s, hs, h⟩
    obtain ⟨n, hn, rfl⟩ := Option.map_eq_some_iff.mp (Checked.okOr_eq_ok.mp h)
    exact ⟨s, n, stringAt_eq_ok_iff.mp hs, hn, rfl⟩
  · rintro ⟨s, n, hs, hn, rfl⟩
    exact ⟨s, stringAt_eq_ok_iff.mpr hs, by rw [hn]; rfl⟩

theorem u32FromHexAt_eq_panic_iff {notAString notHex : ℕ → ε} {array : List Value} {index : ℕ} :
    u32FromHexAt notAString notHex array index = .panic ↔ array.length ≤ index := by
  rw [u32FromHexAt, Checked.bind_eq_panic, stringAt_eq_panic_iff]
  refine or_iff_left ?_
  rintro ⟨s, -, h⟩
  exact Checked.okOr_ne_panic h

/-- **A `u32` parameter is read back.** -/
theorem u32FromHexAt_hexString {notAString notHex : ℕ → ε} {array : List Value} {index : ℕ}
    (value : UInt32) (h : array[index]? = some (hexString value)) :
    u32FromHexAt notAString notHex array index = .ok value := by
  have hlt : value.toNat < 2 ^ 32 := value.toNat_lt
  rw [u32FromHexAt, stringAt_string h, Checked.ok_bind,
    Hex.fromStrRadix16_fixedHex (by norm_num) (by omega) hlt]
  simp

end Json

end SoloMiner
