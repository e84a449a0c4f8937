import Mathlib.Data.List.DropRight
import SoloMiner.Lib.Text

/-!
# Messages over HTTP

A reader of requests, as a server has it: a request line, fields up to an empty line, and
as many bytes of a body as the fields say (`SoloMiner.Http.readRequest`). Whatever comes
after them would be the next request. So what a client has written is *one* request
precisely if nothing is left, and it is the request that was meant only if no part of it
was taken for another one; this holds of what `SoloMiner.Http.Request.bytes` writes
(`SoloMiner.Http.readRequest_bytes`) if none of the parts has a byte in it that ends it.

And the replies of a server (`SoloMiner.Http.Reply`), which carry what makes them
well-formed.
-/

namespace SoloMiner

namespace Http

/-! ### Reading a request -/

/-- The bytes up to the end of the line, which is a carriage return and a line feed, and
those after it. -/
def line : List UInt8 → Option (List UInt8 × List UInt8)
  | [] => none
  | [_] => none
  | a :: b :: rest =>
    if a = 13 ∧ b = 10 then some ([], rest)
    else (line (b :: rest)).map fun cut => (a :: cut.1, cut.2)

/-- The bytes before the first such byte, and those after it. -/
def cut (sep : UInt8) : List UInt8 → Option (List UInt8 × List UInt8)
  | [] => none
  | b :: rest => if b = sep then some ([], rest) else (cut sep rest).map fun c => (b :: c.1, c.2)

/-- The version of the protocol. -/
def version : List UInt8 := Utf8.encode "HTTP/1.1".toList

/-- The method and the target in a request line. -/
def requestLine (bytes : List UInt8) : Option (List UInt8 × List UInt8) := do
  let (method, rest) ← cut 32 bytes
  let (target, rest) ← cut 32 rest
  if rest = version then some (method, target) else none

/-- A value without the blanks around it. -/
def trimBlank (bytes : List UInt8) : List UInt8 :=
  (bytes.dropWhile fun b => b == 32 || b == 9).rdropWhile fun b => b == 32 || b == 9

/-- A name and a value. -/
def field (bytes : List UInt8) : Option (List UInt8 × List UInt8) := do
  let (name, value) ← cut 58 bytes
  some (name, trimBlank value)

/-- The fields up to the empty line, and what follows it. There are at most so many. -/
def fields : ℕ → List UInt8 → Option (List (List UInt8 × List UInt8) × List UInt8)
  | 0, _ => none
  | n + 1, bytes => do
    let (first, rest) ← line bytes
    if first = [] then some ([], rest)
    else do
      let entry ← field first
      let (entries, rest) ← fields n rest
      some (entry :: entries, rest)

/-- A request. -/
structure Request where
  method : List UInt8
  target : List UInt8
  fields : List (List UInt8 × List UInt8)
  body : List UInt8
  deriving DecidableEq

/-- The number in decimal digits, and nothing else. -/
def number (bytes : List UInt8) : Option ℕ := do
  let digits ← Utf8.decode bytes
  if digits ≠ [] ∧ digits.all Char.isDigit then some (Nat.ofDigitChars 10 digits 0) else none

/-- A letter as a small one. -/
def lower (b : UInt8) : UInt8 := if 65 ≤ b ∧ b ≤ 90 then b + 32 else b

/-- How long the body is: one field says so, whatever the size of its letters, or there is
no body. -/
def bodyLength (entries : List (List UInt8 × List UInt8)) : Option ℕ :=
  match entries.filter fun entry => entry.1.map lower = Utf8.encode "content-length".toList with
  | [] => some 0
  | [entry] => number entry.2
  | _ => none

/-- **The first request** in the bytes, and what follows it. -/
def readRequest (bytes : List UInt8) : Option (Request × List UInt8) := do
  let (first, rest) ← line bytes
  let (method, target) ← requestLine first
  let (entries, rest) ← fields rest.length rest
  let length ← bodyLength entries
  if length ≤ rest.length then some (⟨method, target, entries, rest.take length⟩, rest.drop length)
  else none

/-! ### Writing a request -/

/-- The bytes of a field. -/
def fieldBytes (entry : List UInt8 × List UInt8) : List UInt8 :=
  entry.1 ++ 58 :: 32 :: (entry.2 ++ [13, 10])

/-- The bytes of a request. -/
def Request.bytes (self : Request) : List UInt8 :=
  self.method ++ 32 :: (self.target ++ 32 :: (version ++ 13 :: 10 ::
    (self.fields.flatMap fieldBytes ++ 13 :: 10 :: self.body)))

/-- **No part has a byte in it that ends it**, and the fields tell the length of the body. -/
structure Request.Clean (r : Request) : Prop where
  method : 32 ∉ r.method ∧ 10 ∉ r.method
  target : 32 ∉ r.target ∧ 10 ∉ r.target
  names : ∀ entry ∈ r.fields, 58 ∉ entry.1 ∧ 10 ∉ entry.1
  values : ∀ entry ∈ r.fields, 10 ∉ entry.2 ∧ trimBlank entry.2 = entry.2
  body : bodyLength r.fields = some r.body.length

/-- A value that neither begins nor ends with a blank. -/
theorem trimBlank_eq_self {bytes : List UInt8} (hfirst : ∀ b ∈ bytes.head?, b ≠ 32 ∧ b ≠ 9)
    (hlast : ∀ b ∈ bytes.getLast?, b ≠ 32 ∧ b ≠ 9) : trimBlank bytes = bytes := by
  have hdrop : (bytes.dropWhile fun b => b == 32 || b == 9) = bytes := by
    cases bytes with
    | nil => rfl
    | cons b bytes => exact List.dropWhile_cons_of_neg (by simpa using hfirst b rfl)
  rw [trimBlank, hdrop, List.rdropWhile_eq_self_iff]
  intro hne
  simpa using hlast _ (List.getLast?_eq_some_getLast hne)

theorem line_append {bytes : List UInt8} (h : 10 ∉ bytes) (rest : List UInt8) :
    line (bytes ++ 13 :: 10 :: rest) = some (bytes, rest) := by
  induction bytes with
  | nil => rfl
  | cons a bytes ih =>
    rw [List.mem_cons, not_or] at h
    cases bytes with
    | nil =>
      have hstep : line (13 :: 10 :: rest) = some ([], rest) := rfl
      rw [List.singleton_append, line, if_neg (by simp), hstep]
      rfl
    | cons b bytes =>
      have hne : ¬ (a = 13 ∧ b = 10) := fun heq => h.2 (heq.2 ▸ List.mem_cons_self)
      rw [List.cons_append, List.cons_append, line, if_neg hne, ← List.cons_append, ih h.2]
      rfl

theorem cut_append {sep : UInt8} {bytes : List UInt8} (h : sep ∉ bytes) (rest : List UInt8) :
    cut sep (bytes ++ sep :: rest) = some (bytes, rest) := by
  induction bytes with
  | nil => rw [List.nil_append, cut, if_pos rfl]
  | cons b bytes ih =>
    rw [List.mem_cons, not_or] at h
    rw [List.cons_append, cut, if_neg (Ne.symm h.1), ih h.2]
    rfl

theorem field_append {entry : List UInt8 × List UInt8} (hname : 58 ∉ entry.1)
    (hvalue : trimBlank entry.2 = entry.2) :
    field (entry.1 ++ 58 :: 32 :: entry.2) = some entry := by
  rw [field, cut_append hname]
  have hblank : trimBlank (32 :: entry.2) = trimBlank entry.2 := rfl
  exact congrArg (fun value => some (entry.1, value)) (hblank.trans hvalue)

/-- **The fields** are read back, and what follows the empty line is left. -/
theorem fields_flatMap {entries : List (List UInt8 × List UInt8)}
    (hnames : ∀ entry ∈ entries, 58 ∉ entry.1 ∧ 10 ∉ entry.1)
    (hvalues : ∀ entry ∈ entries, 10 ∉ entry.2 ∧ trimBlank entry.2 = entry.2)
    {n : ℕ} (hn : entries.length < n) (rest : List UInt8) :
    fields n (entries.flatMap fieldBytes ++ 13 :: 10 :: rest) = some (entries, rest) := by
  induction entries generalizing n with
  | nil =>
    obtain ⟨n, rfl⟩ := Nat.exists_eq_add_one_of_ne_zero (Nat.ne_of_gt hn)
    rfl
  | cons entry entries ih =>
    obtain ⟨n, rfl⟩ := Nat.exists_eq_add_one_of_ne_zero (Nat.ne_of_gt (Nat.zero_lt_of_lt hn))
    obtain ⟨⟨hcolon, hname⟩, hnames⟩ := List.forall_mem_cons.mp hnames
    obtain ⟨⟨hvalue, htrim⟩, hvalues⟩ := List.forall_mem_cons.mp hvalues
    have hbytes : (entry :: entries).flatMap fieldBytes ++ 13 :: 10 :: rest =
        (entry.1 ++ 58 :: 32 :: entry.2) ++ 13 :: 10 ::
          (entries.flatMap fieldBytes ++ 13 :: 10 :: rest) := by
      simp [fieldBytes]
    have hnot : 10 ∉ entry.1 ++ 58 :: 32 :: entry.2 := by
      simp [hname, hvalue]
    have hcons : entry.1 ++ 58 :: 32 :: entry.2 ≠ [] := by simp
    rw [hbytes, fields, line_append hnot]
    simp only [Option.bind_eq_bind, Option.bind_some, if_neg hcons, field_append hcolon htrim,
      ih hnames hvalues (Nat.lt_of_succ_lt_succ hn)]

theorem length_le_flatMap (entries : List (List UInt8 × List UInt8)) :
    entries.length ≤ (entries.flatMap fieldBytes).length := by
  induction entries with
  | nil => exact le_rfl
  | cons entry entries ih =>
    have hpos : 0 < (fieldBytes entry).length := by
      rw [fieldBytes, List.length_append, List.length_cons]
      omega
    rw [List.flatMap_cons, List.length_append, List.length_cons]
    omega

/-- **What is written is read as that one request**, and whatever follows it is left. -/
theorem readRequest_bytes {r : Request} (h : r.Clean) (rest : List UInt8) :
    readRequest (r.bytes ++ rest) = some (r, rest) := by
  have hversion : 10 ∉ version := by decide
  have hfirst : 10 ∉ r.method ++ 32 :: (r.target ++ 32 :: version) := by
    simp [h.method.2, h.target.2, hversion]
  have hbytes : r.bytes ++ rest =
      (r.method ++ 32 :: (r.target ++ 32 :: version)) ++ 13 :: 10 ::
        (r.fields.flatMap fieldBytes ++ 13 :: 10 :: (r.body ++ rest)) := by
    simp [Request.bytes]
  have hline : requestLine (r.method ++ 32 :: (r.target ++ 32 :: version)) =
      some (r.method, r.target) := by
    rw [requestLine, cut_append h.method.1]
    simp only [Option.bind_eq_bind, Option.bind_some, cut_append h.target.1, if_true]
  have hfuel : r.fields.length <
      (r.fields.flatMap fieldBytes ++ 13 :: 10 :: (r.body ++ rest)).length := by
    have hle := length_le_flatMap r.fields
    rw [List.length_append, List.length_cons]
    omega
  rw [hbytes, readRequest, line_append hfirst]
  simp only [Option.bind_eq_bind, Option.bind_some, hline,
    fields_flatMap h.names h.values hfuel, h.body]
  rw [if_pos (by simp), List.take_left, List.drop_left]

/-! ### Replies -/

/-- What can be the name of a field. -/
def IsName (name : List Char) : Prop :=
  name ≠ [] ∧ ∀ c ∈ name, 32 < c.toNat ∧ c.toNat < 127 ∧ c ≠ ':'

instance (name : List Char) : Decidable (IsName name) :=
  decidable_of_iff
    (name ≠ [] ∧ (name.all fun c => 32 < c.toNat ∧ c.toNat < 127 ∧ c ≠ ':') = true)
    (and_congr_right fun _ => by simp only [List.all_eq_true, decide_eq_true_eq])

/-- A reply of a server: its fields tell the length of the body once, and nothing in them
ends a line before its end. -/
structure Reply where
  status : UInt16
  reason : List Char
  /-- The fields before the length. -/
  before : List (List Char × List Char)
  /-- The name of the length's field, in letters of whatever size. -/
  lengthName : List Char
  /-- The fields after the length. -/
  after : List (List Char × List Char)
  body : List Char
  reason_line : '\n' ∉ reason
  lengthName_eq : lengthName.map Char.toLower = "content-length".toList
  lengthName_name : IsName lengthName
  names : ∀ entry ∈ before ++ after, IsName entry.1 ∧
    entry.1.map Char.toLower ≠ "content-length".toList
  values : ∀ entry ∈ before ++ after, '\n' ∉ entry.2

namespace Reply

/-- A line of the reply. -/
def fieldLine (entry : List Char × List Char) : List Char :=
  entry.1 ++ ": ".toList ++ entry.2 ++ "\r\n".toList

variable (self : Reply)

/-- The first line. -/
def statusLine : List Char :=
  "HTTP/1.1 ".toList ++ Nat.toDigits 10 self.status.toNat ++ ' ' :: self.reason ++ "\r\n".toList

/-- The field that tells the length of the body, in bytes. -/
def lengthEntry : List Char × List Char :=
  (self.lengthName, Nat.toDigits 10 (Utf8.encode self.body).length)

/-- The fields, the one of the length among them. -/
def entries : List (List Char × List Char) := self.before ++ self.lengthEntry :: self.after

/-- The bytes of the reply. -/
def bytes : List UInt8 :=
  Utf8.encode (self.statusLine ++ self.entries.flatMap fieldLine ++ "\r\n".toList ++ self.body)

end Reply

end Http

end SoloMiner
