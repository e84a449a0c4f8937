import SoloMiner.Lib.Http
import SoloMiner.Rpc.Client

/-!
# Requests and replies on the wire

A call to the node is one request over a connection of its own, and one reply. The request
is text with the caller's parts in it, a path, an authorization and a body, and the reply
is read line by line until the length of its body is known.

The client and a server understand each other (`SoloMiner.Rpc.Http.postJson_faithful`). What
the client writes is read as one request, the one that was meant, with nothing left over.
What the server replies is what the client returns, if it comes whole. And wherever the
reply is cut, by the end of the connection or by an error, the client returns an error or
that same reply: a part of a reply is never taken for one. The client makes a buffer of the
length that the headers announce before it reads the body, so a server can announce more than
there is memory for; that is the one way in which a reply brings the client down.
-/

namespace SoloMiner

namespace Rpc

namespace Http

open SoloMiner.Http

/-! ### The request -/

/-- The path that a wallet's calls go to, if its name is one that can stand in a path. -/
def walletPath (wallet : Str) : Option Str :=
  if (asBytes wallet).all fun b =>
      (48 ≤ b && b ≤ 57 || 65 ≤ b && b ≤ 90 || 97 ≤ b && b ≤ 122) || b == 45 || b == 95 || b == 46
  then some ("/wallet/".toList ++ wallet)
  else none

/-- The text of a request, `write_request`. -/
def requestText (host path authorization body : Str) : Str :=
  "POST ".toList ++ path ++ " HTTP/1.1\r\n".toList ++
    "Host: ".toList ++ host ++ "\r\n".toList ++
    "Authorization: ".toList ++ authorization ++ "\r\n".toList ++
    "Content-Type: application/json\r\n".toList ++
    "Content-Length: ".toList ++ decimal (Hex.utf8Len body) ++ "\r\n".toList ++
    "Connection: close\r\n".toList ++
    "\r\n".toList ++
    body

/-! ### The reply -/

/-- `str::split_whitespace`. -/
def splitWhitespace (s : Str) : List Str := (s.splitOnP isWhitespace).filter fun piece => piece ≠ []

/-- `str::parse` for a number without a sign, below a bound. -/
def parseUnsigned (bound : ℕ) (s : Str) : Option ℕ :=
  let digits := match s with
    | '+' :: rest => rest
    | _ => s
  if digits ≠ [] ∧ digits.all Char.isDigit ∧ Nat.ofDigitChars 10 digits 0 < bound then
    some (Nat.ofDigitChars 10 digits 0)
  else none

/-- `str::trim_end`. -/
def trimEnd (s : Str) : Str := s.rdropWhile isWhitespace

/-- `str::split_once` at a character. -/
def splitOnce (sep : Char) : Str → Option (Str × Str)
  | [] => none
  | c :: s => if c = sep then some ([], s) else (splitOnce sep s).map fun cut => (c :: cut.1, cut.2)

/-- `str::eq_ignore_ascii_case`. -/
def eqIgnoreAsciiCase (s t : Str) : Bool := s.map Char.toLower == t.map Char.toLower

/-- The status in the first line. -/
def statusOf (line : Str) : Option UInt16 :=
  match (splitWhitespace line)[1]? with
  | some code => (parseUnsigned (2 ^ 16) code).map UInt16.ofNat
  | none => none

/-- What a header says of the length of the body: the last one that names it decides. -/
def lengthAfter (contentLength : Option ℕ) (line : Str) : Option ℕ :=
  match splitOnce ':' line with
  | some (name, value) =>
    if eqIgnoreAsciiCase (trim name) "content-length".toList then
      parseUnsigned (2 ^ 64) (trim value)
    else contentLength
  | none => contentLength

/-- The headers, until a blank line. -/
def readHeaders (contentLength : Option ℕ) (s : ByteStream) :
    Except (HttpError IoError) (Option ℕ × ByteStream) :=
  match _hread : s.readLine with
  | .error error => .error (.io error)
  | .ok (line, rest) =>
    if _hline : line = [] then .error .truncatedHeaders
    else if trimEnd line = [] then .ok (contentLength, rest)
    else readHeaders (lengthAfter contentLength (trimEnd line)) rest
  termination_by s.bytes.length
  decreasing_by exact ByteStream.length_readLine _hread _hline

/-- Whether there can be a buffer of so many bytes: none are always there, more than an
allocation may have never are, and otherwise it is up to the allocator. -/
def hasBuffer (allocates : ℕ → Bool) (length : ℕ) : Bool :=
  length == 0 || (length < 2 ^ 63 && allocates length)

/-- The body. The buffer for it is as long as the headers say, and is made before anything is
read; without it the thread panics, or the allocator aborts the process. -/
def readBody (allocates : ℕ → Bool) (s : ByteStream) :
    Option ℕ → Checked (HttpError IoError) Str
  | some length =>
    if hasBuffer allocates length then
      match s.readExact length with
      | .error error => .err (.io error)
      | .ok (buffer, _) => .ok (Utf8.decodeLossy buffer)
    else .panic
  | none =>
    match s.readToString with
    | .error error => .err (.io error)
    | .ok body => .ok body

/-- Reads a status line, headers, and body. -/
def readResponse (allocates : ℕ → Bool) (s : ByteStream) : Checked (HttpError IoError) Response :=
  match s.readLine with
  | .error error => .err (.io error)
  | .ok (line, rest) =>
    match statusOf line with
    | none => .err (.badStatusLine (trim line))
    | some status =>
      match readHeaders none rest with
      | .error error => .err error
      | .ok (contentLength, rest) =>
        (readBody allocates rest contentLength).map fun body => ⟨status, body⟩

/-- What becomes of a connection to the node: whether it is made and configured, whether the
request can be written, and what comes back for what was written. -/
structure Connection where
  connect : Except IoError Unit
  configure : Except IoError Unit
  write : Except IoError Unit
  reply : Bytes → ByteStream

/-- Posts a body, and returns the response. -/
def postJson (allocates : ℕ → Bool) (host : Str) (connection : Connection)
    (path authorization body : Str) : Checked (HttpError IoError) Response :=
  match connection.connect with
  | .error source => .err (.connect source)
  | .ok () =>
    match connection.configure with
    | .error error => .err (.io error)
    | .ok () =>
      match connection.write with
      | .error error => .err (.io error)
      | .ok () =>
        readResponse allocates
          (connection.reply (asBytes (requestText host path authorization body)))

/-! ### Pieces of a line -/

theorem isWhitespace_of_toNat {c : Char} (h : 32 < c.toNat ∧ c.toNat < 127) :
    isWhitespace c = false := by
  unfold isWhitespace
  simp only [Bool.or_eq_false_iff, Bool.and_eq_false_iff, decide_eq_false_iff_not,
    beq_eq_false_iff_ne]
  omega

/-- A text without blanks, for one that is evaluated. -/
theorem isWhitespace_of_all {s : Str} (h : (s.all fun c => !isWhitespace c) = true) :
    ∀ c ∈ s, isWhitespace c = false := by
  intro c hc
  simpa using List.all_eq_true.mp h c hc

theorem toNat_of_isDigit {c : Char} (h : c.isDigit = true) : 48 ≤ c.toNat ∧ c.toNat ≤ 57 := by
  rw [Char.isDigit, Bool.and_eq_true, decide_eq_true_eq, decide_eq_true_eq] at h
  exact h

theorem isWhitespace_of_isDigit {c : Char} (h : c.isDigit = true) : isWhitespace c = false := by
  have := toNat_of_isDigit h
  exact isWhitespace_of_toNat (by omega)

theorem isDigit_of_mem_decimal {n : ℕ} {c : Char} (h : c ∈ decimal n) : c.isDigit = true :=
  Nat.isDigit_of_mem_toDigits (by decide) (by decide) h

theorem isWhitespace_decimal (n : ℕ) : ∀ c ∈ decimal n, isWhitespace c = false :=
  fun _ hc => isWhitespace_of_isDigit (isDigit_of_mem_decimal hc)

/-- A number is written in digits, at least one of them. -/
theorem digits_decimal (n : ℕ) : decimal n ≠ [] ∧ (decimal n).all Char.isDigit = true :=
  ⟨Nat.toDigits_ne_nil, List.all_eq_true.mpr fun _ hc => isDigit_of_mem_decimal hc⟩

theorem ofDigitChars_decimal (n : ℕ) : Nat.ofDigitChars 10 (decimal n) 0 = n :=
  Nat.ofDigitChars_ten_toDigits

/-- **A number is read back**, if it is below the bound. -/
theorem parseUnsigned_decimal {bound n : ℕ} (h : n < bound) :
    parseUnsigned bound (decimal n) = some n := by
  obtain ⟨hne, hall⟩ := digits_decimal n
  have hdigits : (match decimal n with
      | '+' :: rest => rest
      | _ => decimal n) = decimal n := by
    split
    · next rest heq =>
      have hplus := isDigit_of_mem_decimal (n := n) (c := '+') (by rw [heq]; simp)
      exact absurd hplus (by decide)
    · rfl
  unfold parseUnsigned
  rw [hdigits]
  dsimp only
  rw [if_pos ⟨hne, hall, by rwa [ofDigitChars_decimal]⟩, ofDigitChars_decimal]

theorem trimEnd_append {v : Str} (h : ∀ c ∈ v, isWhitespace c = true) (s : Str) :
    trimEnd (s ++ v) = trimEnd s := by
  rw [trimEnd, List.rdropWhile, List.reverse_append,
    List.dropWhile_append_of_pos fun c hc => h c (List.mem_reverse.mp hc)]
  rfl

/-- What comes before something else than a blank stays. -/
theorem trimEnd_append_cons {c : Char} (h : isWhitespace c = false) (s v : Str) :
    trimEnd (s ++ c :: v) = s ++ c :: trimEnd v := by
  have hdrop : ∀ w : Str, (w ++ c :: s.reverse).dropWhile isWhitespace =
      w.dropWhile isWhitespace ++ c :: s.reverse := by
    intro w
    induction w with
    | nil => exact List.dropWhile_cons_of_neg (by simp [h])
    | cons b w ih =>
      rw [List.cons_append, List.dropWhile_cons, List.dropWhile_cons]
      split_ifs
      · exact ih
      · rfl
  rw [trimEnd, List.rdropWhile, List.reverse_append, List.reverse_cons, List.append_assoc,
    List.singleton_append, hdrop, List.reverse_append, List.reverse_cons, List.reverse_reverse,
    List.append_assoc]
  rfl

theorem trimEnd_eq_self {s : Str} (h : ∀ c ∈ s, isWhitespace c = false) : trimEnd s = s := by
  rw [trimEnd, List.rdropWhile_eq_self_iff]
  intro hne
  rw [h _ (List.getLast_mem hne)]
  simp

theorem splitOnce_append {sep : Char} {s : Str} (h : sep ∉ s) (v : Str) :
    splitOnce sep (s ++ sep :: v) = some (s, v) := by
  induction s with
  | nil => rw [List.nil_append, splitOnce, if_pos rfl]
  | cons c s ih =>
    rw [List.mem_cons, not_or] at h
    rw [List.cons_append, splitOnce, if_neg (Ne.symm h.1), ih h.2]
    rfl

theorem trim_eq_self {s : Str} (h : ∀ c ∈ s, isWhitespace c = false) : trim s = s := by
  have hdrop : s.dropWhile isWhitespace = s := by
    cases s with
    | nil => rfl
    | cons c s => exact List.dropWhile_cons_of_neg (by simp [h c List.mem_cons_self])
  rw [trim, hdrop]
  exact trimEnd_eq_self h

/-! ### Headers -/

/-- A header, its blanks at the end cut off. -/
theorem trimEnd_fieldLine (entry : Str × Str) :
    trimEnd (Reply.fieldLine entry) = entry.1 ++ ':' :: trimEnd (' ' :: entry.2) := by
  have hend : ∀ c ∈ "\r\n".toList, isWhitespace c = true := List.all_eq_true.mp (by decide)
  have hcolon : isWhitespace ':' = false := by decide
  rw [Reply.fieldLine, trimEnd_append hend, List.append_assoc]
  exact trimEnd_append_cons hcolon entry.1 (' ' :: entry.2)

theorem isWhitespace_of_isName {name : Str} (h : IsName name) :
    ∀ c ∈ name, isWhitespace c = false :=
  fun c hc => isWhitespace_of_toNat ⟨(h.2 c hc).1, (h.2 c hc).2.1⟩

theorem splitOnce_fieldLine {entry : Str × Str} (h : IsName entry.1) :
    splitOnce ':' (trimEnd (Reply.fieldLine entry)) = some (entry.1, trimEnd (' ' :: entry.2)) := by
  rw [trimEnd_fieldLine]
  exact splitOnce_append (fun hmem => (h.2 ':' hmem).2.2 rfl) _

theorem eqIgnoreAsciiCase_iff {name : Str} (h : IsName name) :
    eqIgnoreAsciiCase (trim name) "content-length".toList = true ↔
      name.map Char.toLower = "content-length".toList := by
  have hlower : "content-length".toList.map Char.toLower = "content-length".toList := by decide
  rw [trim_eq_self (isWhitespace_of_isName h), eqIgnoreAsciiCase, beq_iff_eq, hlower]

/-- Other headers do not tell the length. -/
theorem lengthAfter_other {contentLength : Option ℕ} {entry : Str × Str} (h : IsName entry.1)
    (hne : entry.1.map Char.toLower ≠ "content-length".toList) :
    lengthAfter contentLength (trimEnd (Reply.fieldLine entry)) = contentLength := by
  rw [lengthAfter, splitOnce_fieldLine h]
  exact if_neg (mt (eqIgnoreAsciiCase_iff h).mp hne)

/-- The header of the length does. -/
theorem lengthAfter_length {contentLength : Option ℕ} {name : Str} (h : IsName name)
    (heq : name.map Char.toLower = "content-length".toList) {n : ℕ} (hn : n < 2 ^ 64) :
    lengthAfter contentLength (trimEnd (Reply.fieldLine (name, decimal n))) = some n := by
  have hdigits := isWhitespace_decimal n
  have htrim : trim (trimEnd (' ' :: decimal n)) = decimal n := by
    obtain ⟨c, digits, hcons⟩ := List.exists_cons_of_ne_nil (digits_decimal n).1
    rw [hcons] at hdigits ⊢
    have hblank : trimEnd (' ' :: c :: digits) = ' ' :: c :: trimEnd digits :=
      trimEnd_append_cons (hdigits c List.mem_cons_self) [' '] digits
    rw [hblank, trimEnd_eq_self fun d hd => hdigits d (List.mem_cons_of_mem c hd)]
    exact trim_eq_self hdigits
  rw [lengthAfter, splitOnce_fieldLine h]
  dsimp only
  rw [if_pos ((eqIgnoreAsciiCase_iff h).mpr heq), htrim, parseUnsigned_decimal hn]

/-! ### Reading the headers -/

variable {contentLength : Option ℕ} {s rest : ByteStream} {line : Str} {fault : Option IoError}

theorem readHeaders_of_error {error : IoError} (h : s.readLine = .error error) :
    readHeaders contentLength s = .error (.io error) := by
  rw [readHeaders]
  split
  · next error' h' => rw [Except.error.inj (h.symm.trans h')]
  · next h' => exact absurd (h.symm.trans h') (by simp)

theorem readHeaders_of_readLine (h : s.readLine = .ok (line, rest)) :
    readHeaders contentLength s =
      if line = [] then .error .truncatedHeaders
      else if trimEnd line = [] then .ok (contentLength, rest)
      else readHeaders (lengthAfter contentLength (trimEnd line)) rest := by
  rw [readHeaders]
  split
  · next h' => exact absurd (h.symm.trans h') (by simp)
  · next line' rest' h' =>
    obtain ⟨rfl, rfl⟩ := Prod.mk.inj (Except.ok.inj (h.symm.trans h'))
    rfl

/-- Where the stream ends, the headers are truncated. -/
theorem readHeaders_nil :
    readHeaders contentLength ⟨[], none⟩ = .error .truncatedHeaders := by
  have hread : ByteStream.readLine ⟨[], none⟩ = .ok ([], ⟨[], none⟩) := by
    have hdecode : Utf8.decode [] = some [] := Utf8.decode_encode []
    simp only [ByteStream.readLine, ByteStream.cutLine, List.getLast?_nil, hdecode]
    rfl
  rw [readHeaders_of_readLine hread, if_pos rfl]

/-- A whole line. -/
theorem readHeaders_line (hline : '\n' ∉ line) (hblank : trimEnd line ≠ []) (tail : Bytes) :
    readHeaders contentLength ⟨Utf8.encode line ++ 10 :: tail, fault⟩ =
      readHeaders (lengthAfter contentLength (trimEnd (line ++ ['\n']))) ⟨tail, fault⟩ := by
  have hend : trimEnd (line ++ ['\n']) = trimEnd line :=
    trimEnd_append (List.all_eq_true.mp (by decide)) line
  rw [readHeaders_of_readLine (ByteStream.readLine_encode hline tail fault), if_neg (by simp),
    if_neg (by rwa [hend])]

/-- **A line that is cut** leaves the headers truncated, if it does not begin with a blank. -/
theorem readHeaders_cut (hline : '\n' ∉ line)
    (hfirst : ∀ c t, line = c :: t → isWhitespace c = false) {bytes : Bytes}
    (hbytes : bytes <+: Utf8.encode line) :
    ∃ error, readHeaders contentLength ⟨bytes, fault⟩ = .error error := by
  cases hread : ByteStream.readLine ⟨bytes, fault⟩ with
  | error error => exact ⟨_, readHeaders_of_error hread⟩
  | ok result =>
    obtain ⟨text, rest⟩ := result
    obtain ⟨-, rfl, -, ⟨more, hmore⟩⟩ := ByteStream.readLine_prefix hline hbytes hread
    rw [readHeaders_of_readLine hread]
    cases text with
    | nil => exact ⟨_, if_pos rfl⟩
    | cons c text =>
      have hc := hfirst c (text ++ more) hmore.symm
      have hblank : trimEnd (c :: text) ≠ [] := by
        have heq := trimEnd_append_cons hc [] text
        rw [List.nil_append, List.nil_append] at heq
        rw [heq]
        simp
      rw [if_neg (by simp), if_neg hblank, readHeaders_nil]
      exact ⟨_, rfl⟩

/-! ### All of the headers -/

/-- A header up to the end of its line. -/
def fieldText (entry : Str × Str) : Str := entry.1 ++ ": ".toList ++ entry.2 ++ ['\r']

theorem fieldLine_eq (entry : Str × Str) :
    Reply.fieldLine entry = fieldText entry ++ ['\n'] := by
  simp [Reply.fieldLine, fieldText]

/-- What the headers say of the length. -/
def lengthOf (contentLength : Option ℕ) (entries : List (Str × Str)) : Option ℕ :=
  entries.foldl (fun n entry => lengthAfter n (trimEnd (Reply.fieldLine entry))) contentLength

variable {entry : Str × Str} {entries : List (Str × Str)}

theorem newline_notMem_fieldText (hname : IsName entry.1) (hvalue : '\n' ∉ entry.2) :
    '\n' ∉ fieldText entry := by
  have hnot : '\n' ∉ entry.1 := fun hmem => absurd (hname.2 _ hmem).1 (by decide)
  simp [fieldText, hnot, hvalue]

/-- A header does not begin with a blank. -/
theorem isWhitespace_fieldText (hname : IsName entry.1) (c : Char) (t : Str)
    (h : fieldText entry = c :: t) : isWhitespace c = false := by
  obtain ⟨b, name, hcons⟩ := List.exists_cons_of_ne_nil hname.1
  rw [fieldText, hcons] at h
  obtain ⟨rfl, -⟩ := List.cons.inj h
  exact isWhitespace_of_isName hname b (hcons ▸ List.mem_cons_self)

theorem trimEnd_fieldText_ne (entry : Str × Str) : trimEnd (fieldText entry) ≠ [] := by
  have hend : trimEnd (Reply.fieldLine entry) = trimEnd (fieldText entry) := by
    rw [fieldLine_eq]
    exact trimEnd_append (List.all_eq_true.mp (by decide)) _
  rw [← hend, trimEnd_fieldLine]
  simp

/-- One header. -/
theorem readHeaders_fieldLine (hname : IsName entry.1) (hvalue : '\n' ∉ entry.2) (tail : Bytes) :
    readHeaders contentLength ⟨Utf8.encode (fieldText entry) ++ 10 :: tail, fault⟩ =
      readHeaders (lengthAfter contentLength (trimEnd (Reply.fieldLine entry))) ⟨tail, fault⟩ := by
  rw [readHeaders_line (newline_notMem_fieldText hname hvalue) (trimEnd_fieldText_ne entry),
    fieldLine_eq]

/-- The blank line. -/
theorem readHeaders_blank (tail : Bytes) :
    readHeaders contentLength ⟨13 :: 10 :: tail, fault⟩ = .ok (contentLength, ⟨tail, fault⟩) := by
  have hread : ByteStream.readLine ⟨13 :: 10 :: tail, fault⟩ = .ok (['\r', '\n'], ⟨tail, fault⟩) :=
    ByteStream.readLine_encode (s := ['\r']) (by decide) tail fault
  have hblank : trimEnd ['\r', '\n'] = [] := by decide
  rw [readHeaders_of_readLine hread, if_neg (by simp)]
  exact if_pos hblank

/-- The blank line, cut before its end. -/
theorem readHeaders_return {n : Option ℕ}
    (h : readHeaders contentLength ⟨[13], fault⟩ = .ok (n, rest)) :
    n = contentLength ∧ rest = ⟨[], none⟩ := by
  cases hread : ByteStream.readLine ⟨[13], fault⟩ with
  | error error =>
    rw [readHeaders_of_error hread] at h
    exact absurd h (by simp)
  | ok result =>
    obtain ⟨text, rest'⟩ := result
    have hbytes : ([13] : Bytes) <+: Utf8.encode ['\r'] := List.prefix_refl _
    obtain ⟨-, rfl, htext, -⟩ := ByteStream.readLine_prefix (by decide) hbytes hread
    obtain rfl : ['\r'] = text := Utf8.encode_injective htext
    have hblank : trimEnd ['\r'] = [] := by decide
    rw [readHeaders_of_readLine hread, if_neg (by simp), if_pos hblank] at h
    obtain ⟨rfl, rfl⟩ := Prod.mk.inj (Except.ok.inj h)
    exact ⟨rfl, rfl⟩

theorem encode_entries (entry : Str × Str) (entries : List (Str × Str)) (tail : Bytes) :
    Utf8.encode ((entry :: entries).flatMap Reply.fieldLine) ++ tail =
      Utf8.encode (fieldText entry) ++
        10 :: (Utf8.encode (entries.flatMap Reply.fieldLine) ++ tail) := by
  rw [List.flatMap_cons, fieldLine_eq, Utf8.encode_append, Utf8.encode_append, List.append_assoc,
    List.append_assoc]
  rfl

/-- **Headers that have come whole.** -/
theorem readHeaders_entries (hnames : ∀ entry ∈ entries, IsName entry.1)
    (hvalues : ∀ entry ∈ entries, '\n' ∉ entry.2) (tail : Bytes) :
    readHeaders contentLength
        ⟨Utf8.encode (entries.flatMap Reply.fieldLine) ++ 13 :: 10 :: tail, fault⟩ =
      .ok (lengthOf contentLength entries, ⟨tail, fault⟩) := by
  induction entries generalizing contentLength with
  | nil => exact readHeaders_blank tail
  | cons entry entries ih =>
    obtain ⟨hname, hnames⟩ := List.forall_mem_cons.mp hnames
    obtain ⟨hvalue, hvalues⟩ := List.forall_mem_cons.mp hvalues
    rw [encode_entries, readHeaders_fieldLine hname hvalue, ih hnames hvalues]
    rfl

/-- **Headers that are cut**, and what follows them as well: if they are taken to be complete,
then nothing of what they say is missing. -/
theorem readHeaders_prefix (hnames : ∀ entry ∈ entries, IsName entry.1)
    (hvalues : ∀ entry ∈ entries, '\n' ∉ entry.2) {bytes tail : Bytes}
    (hbytes : bytes <+: Utf8.encode (entries.flatMap Reply.fieldLine) ++ 13 :: 10 :: tail)
    {n : Option ℕ} (h : readHeaders contentLength ⟨bytes, fault⟩ = .ok (n, rest)) :
    n = lengthOf contentLength entries ∧ rest.bytes <+: tail := by
  induction entries generalizing contentLength bytes with
  | nil =>
    -- Nothing, the carriage return alone, or the whole line.
    match bytes, hbytes with
    | [], _ =>
      have hnil : [] <+: Utf8.encode ([] : Str) := List.nil_prefix
      obtain ⟨error, herror⟩ : ∃ error, readHeaders contentLength ⟨[], fault⟩ = .error error :=
        readHeaders_cut (by simp) (by simp) hnil
      exact absurd (herror.symm.trans h) (by simp)
    | [b], hbytes =>
      obtain ⟨rfl, -⟩ := List.cons_prefix_cons.mp hbytes
      obtain ⟨rfl, rfl⟩ := readHeaders_return h
      exact ⟨rfl, List.nil_prefix⟩
    | b :: b' :: more, hbytes =>
      obtain ⟨rfl, hfeed⟩ := List.cons_prefix_cons.mp hbytes
      obtain ⟨rfl, hmore⟩ := List.cons_prefix_cons.mp hfeed
      rw [readHeaders_blank] at h
      obtain ⟨rfl, rfl⟩ := Prod.mk.inj (Except.ok.inj h)
      exact ⟨rfl, hmore⟩
  | cons entry entries ih =>
    obtain ⟨hname, hnames⟩ := List.forall_mem_cons.mp hnames
    obtain ⟨hvalue, hvalues⟩ := List.forall_mem_cons.mp hvalues
    have hcut : ¬ bytes <+: Utf8.encode (fieldText entry) := by
      intro hcut
      obtain ⟨error, herror⟩ : ∃ error, readHeaders contentLength ⟨bytes, fault⟩ = .error error :=
        readHeaders_cut (newline_notMem_fieldText hname hvalue) (isWhitespace_fieldText hname) hcut
      exact absurd (herror.symm.trans h) (by simp)
    rw [encode_entries] at hbytes
    rcases ByteStream.prefix_append_cases hbytes with hpre | ⟨more, rfl, hmore⟩
    · exact absurd hpre hcut
    · cases more with
      | nil => exact absurd (by simp) hcut
      | cons b more =>
        obtain ⟨rfl, hrest⟩ := List.cons_prefix_cons.mp hmore
        rw [readHeaders_fieldLine hname hvalue] at h
        exact ih hnames hvalues hrest h

/-! ### A reply -/

theorem lengthOf_others (h : ∀ entry ∈ entries, IsName entry.1 ∧
    entry.1.map Char.toLower ≠ "content-length".toList) :
    lengthOf contentLength entries = contentLength := by
  induction entries with
  | nil => rfl
  | cons entry entries ih =>
    obtain ⟨⟨hname, hne⟩, h⟩ := List.forall_mem_cons.mp h
    rw [lengthOf, List.foldl_cons, lengthAfter_other hname hne]
    exact ih h

/-- The first word of a text. -/
theorem splitWhitespace_append {word : Str} (hword : ∀ c ∈ word, isWhitespace c = false)
    (hne : word ≠ []) (tail : Str) :
    splitWhitespace (word ++ ' ' :: tail) = word :: splitWhitespace tail := by
  have hblank : isWhitespace ' ' = true := by decide
  rw [splitWhitespace, List.splitOnP_append_cons_of_forall_mem hword ' ' hblank]
  exact List.filter_cons_of_pos (by simpa using hne)

variable (reply : Reply)

/-- **The status** of a reply. -/
theorem statusOf_statusLine : statusOf reply.statusLine = some reply.status := by
  have hversion : ∀ c ∈ "HTTP/1.1".toList, isWhitespace c = false :=
    isWhitespace_of_all (by decide)
  have hbegin : "HTTP/1.1 ".toList = "HTTP/1.1".toList ++ [' '] := by decide
  have hline : reply.statusLine =
      "HTTP/1.1".toList ++ ' ' :: (decimal reply.status.toNat ++
        ' ' :: (reply.reason ++ "\r\n".toList)) := by
    unfold Reply.statusLine decimal
    simp only [hbegin, List.append_assoc, List.cons_append, List.nil_append]
  rw [statusOf, hline, splitWhitespace_append hversion (by simp),
    splitWhitespace_append (isWhitespace_decimal _) (digits_decimal _).1]
  simp [parseUnsigned_decimal reply.status.toNat_lt]

theorem isName_entries : ∀ entry ∈ reply.entries, IsName entry.1 := by
  intro entry hentry
  rw [Reply.entries, List.mem_append, List.mem_cons] at hentry
  rcases hentry with hbefore | rfl | hafter
  · exact (reply.names entry (List.mem_append_left _ hbefore)).1
  · exact reply.lengthName_name
  · exact (reply.names entry (List.mem_append_right _ hafter)).1

theorem newline_notMem_entries : ∀ entry ∈ reply.entries, '\n' ∉ entry.2 := by
  intro entry hentry
  rw [Reply.entries, List.mem_append, List.mem_cons] at hentry
  rcases hentry with hbefore | rfl | hafter
  · exact reply.values entry (List.mem_append_left _ hbefore)
  · intro hmem
    have hdigit : '\n'.isDigit = true := Nat.isDigit_of_mem_toDigits (by decide) (by decide) hmem
    exact absurd hdigit (by decide)
  · exact reply.values entry (List.mem_append_right _ hafter)

/-- **The headers tell the length** of the body. -/
theorem lengthOf_entries (hlength : (Utf8.encode reply.body).length < 2 ^ 64) :
    lengthOf none reply.entries = some (Utf8.encode reply.body).length := by
  have hbefore : lengthOf none reply.before = none :=
    lengthOf_others fun entry hentry => reply.names entry (List.mem_append_left _ hentry)
  have hown : lengthAfter none (trimEnd (Reply.fieldLine reply.lengthEntry)) =
      some (Utf8.encode reply.body).length :=
    lengthAfter_length reply.lengthName_name reply.lengthName_eq hlength
  rw [lengthOf] at hbefore
  rw [lengthOf, Reply.entries, List.foldl_append, hbefore, List.foldl_cons, hown]
  exact lengthOf_others fun entry hentry => reply.names entry (List.mem_append_right _ hentry)

/-- The first line up to its end. -/
def statusText : Str :=
  "HTTP/1.1 ".toList ++ decimal reply.status.toNat ++ ' ' :: reply.reason ++ ['\r']

theorem statusLine_eq : reply.statusLine = statusText reply ++ ['\n'] := by
  have hend : "\r\n".toList = ['\r'] ++ ['\n'] := by decide
  unfold Reply.statusLine statusText decimal
  simp only [hend, List.append_assoc]

theorem newline_notMem_statusText : '\n' ∉ statusText reply := by
  have hdigits : '\n' ∉ decimal reply.status.toNat := fun hmem =>
    absurd (isDigit_of_mem_decimal hmem) (by decide)
  unfold statusText
  simp [hdigits, reply.reason_line]

theorem bytes_eq (more : Bytes) :
    reply.bytes ++ more = Utf8.encode (statusText reply) ++
      10 :: (Utf8.encode (reply.entries.flatMap Reply.fieldLine) ++
        13 :: 10 :: (Utf8.encode reply.body ++ more)) := by
  have hreturn : Utf8.encode "\r\n".toList = [13, 10] := by decide
  have hnewline : Utf8.encode ['\n'] = [10] := by decide
  simp only [Reply.bytes, statusLine_eq, Utf8.encode_append, hreturn, hnewline, List.append_assoc]
  rfl

/-! ### What is returned -/

variable {reply : Reply} {allocates : ℕ → Bool}

/-- A first line that has come whole. -/
theorem readResponse_statusLine (tail : Bytes) :
    readResponse allocates ⟨Utf8.encode (statusText reply) ++ 10 :: tail, fault⟩ =
      match readHeaders none ⟨tail, fault⟩ with
      | .error error => .err error
      | .ok (contentLength, rest) =>
        (readBody allocates rest contentLength).map fun body => ⟨reply.status, body⟩ := by
  rw [readResponse, ByteStream.readLine_encode (newline_notMem_statusText reply)]
  dsimp only
  rw [← statusLine_eq, statusOf_statusLine]

/-- A first line that is cut. -/
theorem readResponse_cut {bytes : Bytes} (hbytes : bytes <+: Utf8.encode (statusText reply)) :
    ∃ error, readResponse allocates ⟨bytes, fault⟩ = .err error := by
  rw [readResponse]
  cases hread : ByteStream.readLine ⟨bytes, fault⟩ with
  | error error => exact ⟨_, rfl⟩
  | ok result =>
    obtain ⟨line, rest⟩ := result
    obtain ⟨-, rfl, -, -⟩ :=
      ByteStream.readLine_prefix (newline_notMem_statusText reply) hbytes hread
    dsimp only
    -- The line may well be one with a status, but no headers follow it.
    cases statusOf line with
    | none => exact ⟨_, rfl⟩
    | some status =>
      dsimp only
      rw [readHeaders_nil]
      exact ⟨_, rfl⟩

/-- A body that has come whole, whatever follows it. -/
theorem readBody_whole {body : Str}
    (hbuffer : hasBuffer allocates (Utf8.encode body).length = true) (more : Bytes) :
    readBody allocates ⟨Utf8.encode body ++ more, fault⟩ (some (Utf8.encode body).length) =
      .ok body := by
  have hfit : (Utf8.encode body).length ≤ (Utf8.encode body ++ more).length := by simp
  rw [readBody, if_pos hbuffer, ByteStream.readExact, if_pos hfit]
  dsimp only
  rw [List.take_left, Utf8.decodeLossy_encode]

/-- **A body that is cut** is not returned. -/
theorem readBody_prefix {body : Str}
    (hbuffer : hasBuffer allocates (Utf8.encode body).length = true) {s : ByteStream}
    (hs : s.bytes <+: Utf8.encode body) :
    (∃ error, readBody allocates s (some (Utf8.encode body).length) = .err error) ∨
      readBody allocates s (some (Utf8.encode body).length) = .ok body := by
  by_cases hfit : (Utf8.encode body).length ≤ s.bytes.length
  · have heq : s.bytes = Utf8.encode body := hs.eq_of_length_le hfit
    have hs' : s = ⟨Utf8.encode body ++ [], s.fault⟩ := by rw [List.append_nil, ← heq]
    rw [hs']
    exact Or.inr (readBody_whole hbuffer [])
  · refine Or.inl ⟨.io (s.fault.getD .unexpectedEof), ?_⟩
    rw [readBody, if_pos hbuffer, ByteStream.readExact, if_neg hfit]

/-- **A reply that has come whole** is returned, whatever follows it, if there can be a buffer
for its body. -/
theorem readResponse_bytes (hlength : (Utf8.encode reply.body).length < 2 ^ 64)
    (hbuffer : hasBuffer allocates (Utf8.encode reply.body).length = true) (more : Bytes) :
    readResponse allocates ⟨reply.bytes ++ more, fault⟩ = .ok ⟨reply.status, reply.body⟩ := by
  rw [bytes_eq, readResponse_statusLine,
    readHeaders_entries (isName_entries reply) (newline_notMem_entries reply),
    lengthOf_entries reply hlength]
  dsimp only
  rw [readBody_whole hbuffer]
  rfl

/-- **A reply that is cut anywhere** is an error, or is the whole reply; or its headers have come
whole, and there can be no buffer for its body. -/
theorem readResponse_prefix (hlength : (Utf8.encode reply.body).length < 2 ^ 64) {bytes : Bytes}
    (hbytes : bytes <+: reply.bytes) :
    (∃ error, readResponse allocates ⟨bytes, fault⟩ = .err error) ∨
      readResponse allocates ⟨bytes, fault⟩ = .ok ⟨reply.status, reply.body⟩ ∨
        hasBuffer allocates (Utf8.encode reply.body).length = false ∧
          readResponse allocates ⟨bytes, fault⟩ = .panic := by
  have heq := bytes_eq reply []
  rw [List.append_nil, List.append_nil] at heq
  rw [heq] at hbytes
  rcases ByteStream.prefix_append_cases hbytes with hcut | ⟨more, rfl, hmore⟩
  · exact Or.inl (readResponse_cut hcut)
  · cases more with
    | nil =>
      rw [List.append_nil]
      exact Or.inl (readResponse_cut (List.prefix_refl _))
    | cons b more =>
      obtain ⟨rfl, htail⟩ := List.cons_prefix_cons.mp hmore
      rw [readResponse_statusLine]
      cases hheaders : readHeaders none ⟨more, fault⟩ with
      | error error => exact Or.inl ⟨_, rfl⟩
      | ok result =>
        obtain ⟨n, rest⟩ := result
        obtain ⟨rfl, hrest⟩ := readHeaders_prefix (isName_entries reply)
          (newline_notMem_entries reply) htail hheaders
        rw [lengthOf_entries reply hlength]
        dsimp only
        cases hbuffer : hasBuffer allocates (Utf8.encode reply.body).length with
        | false =>
          refine Or.inr (Or.inr ⟨rfl, ?_⟩)
          rw [readBody, hbuffer]
          rfl
        | true =>
          rcases readBody_prefix hbuffer hrest with ⟨error, hbody⟩ | hbody
          · rw [hbody]
            exact Or.inl ⟨_, rfl⟩
          · rw [hbody]
            exact Or.inr (Or.inl rfl)

/-! ### What is asked -/

/-- The request that is meant. -/
def requestOf (host path authorization body : Str) : Http.Request where
  method := asBytes "POST".toList
  target := asBytes path
  fields := [(asBytes "Host".toList, asBytes host),
    (asBytes "Authorization".toList, asBytes authorization),
    (asBytes "Content-Type".toList, asBytes "application/json".toList),
    (asBytes "Content-Length".toList, asBytes (decimal (asBytes body).length)),
    (asBytes "Connection".toList, asBytes "close".toList)]
  body := asBytes body

theorem asBytes_append (s t : Str) : asBytes (s ++ t) = asBytes s ++ asBytes t :=
  Utf8.encode_append s t

theorem utf8Len_eq (s : Str) : Hex.utf8Len s = (asBytes s).length := by
  induction s with
  | nil => rfl
  | cons c s ih =>
    have hcons : asBytes (c :: s) = String.utf8EncodeChar c ++ asBytes s := rfl
    rw [Hex.utf8Len, ih, hcons, List.length_append, String.length_utf8EncodeChar]

/-- The server reads the length that the client writes. -/
theorem number_decimal (n : ℕ) : number (asBytes (decimal n)) = some n := by
  have hdecode : Utf8.decode (asBytes (decimal n)) = some (decimal n) := Utf8.decode_encode _
  simp only [number, hdecode, Option.bind_eq_bind, Option.bind_some, if_pos (digits_decimal n),
    ofDigitChars_decimal]

/-- A field as text. -/
theorem fieldBytes_asBytes (name value : Str) :
    fieldBytes (asBytes name, asBytes value) = asBytes (Reply.fieldLine (name, value)) := by
  have hcolon : asBytes ": ".toList = [58, 32] := by decide
  have hend : asBytes "\r\n".toList = [13, 10] := by decide
  unfold fieldBytes Reply.fieldLine
  simp only [asBytes_append, hcolon, hend, List.append_assoc, List.cons_append, List.nil_append]

/-- **The text is that of the request.** -/
theorem asBytes_requestText (host path authorization body : Str) :
    asBytes (requestText host path authorization body) =
      (requestOf host path authorization body).bytes := by
  have hmethod : asBytes "POST ".toList = asBytes "POST".toList ++ [32] := by decide
  have hversion : asBytes " HTTP/1.1\r\n".toList = 32 :: (version ++ [13, 10]) := by decide
  have hhost : "Host: ".toList = "Host".toList ++ ": ".toList := by decide
  have hauth : "Authorization: ".toList = "Authorization".toList ++ ": ".toList := by decide
  have htype : "Content-Type: application/json\r\n".toList =
      "Content-Type".toList ++ ": ".toList ++ "application/json".toList ++ "\r\n".toList := by
    decide
  have hlength : "Content-Length: ".toList = "Content-Length".toList ++ ": ".toList := by decide
  have hclose : "Connection: close\r\n".toList =
      "Connection".toList ++ ": ".toList ++ "close".toList ++ "\r\n".toList := by decide
  have hend : asBytes "\r\n".toList = [13, 10] := by decide
  unfold requestText requestOf Http.Request.bytes
  simp only [List.flatMap_cons, List.flatMap_nil, fieldBytes_asBytes, Reply.fieldLine, hhost, hauth,
    htype, hlength, hclose, asBytes_append, hmethod, hversion, hend, utf8Len_eq, List.append_assoc,
    List.cons_append, List.nil_append, List.append_nil]

/-- A blank is in the bytes of no text without blanks. -/
theorem notMem_asBytes {s : Str} (h : ∀ c ∈ s, isWhitespace c = false) {b : UInt8}
    (hb : b.toNat = 9 ∨ b.toNat = 10 ∨ b.toNat = 32) : b ∉ asBytes s := by
  intro hmem
  obtain ⟨c, hc, heq⟩ := (Utf8.mem_encode_iff (by omega)).mp hmem
  have hblank : isWhitespace c = true := by
    unfold isWhitespace
    rw [heq]
    rcases hb with hb | hb | hb
    · simp [hb]
    · simp [hb]
    · simp [hb]
  rw [h c hc] at hblank
  exact absurd hblank (by simp)

/-- The value of a field without blanks. -/
theorem clean_of_isWhitespace {s : Str} (h : ∀ c ∈ s, isWhitespace c = false) :
    10 ∉ asBytes s ∧ trimBlank (asBytes s) = asBytes s := by
  have hclean : ∀ b ∈ asBytes s, b ≠ 32 ∧ b ≠ 9 := by
    intro b hb
    constructor
    · rintro rfl
      exact notMem_asBytes h (Or.inr (Or.inr rfl)) hb
    · rintro rfl
      exact notMem_asBytes h (Or.inl rfl) hb
  refine ⟨notMem_asBytes h (Or.inr (Or.inl rfl)), trimBlank_eq_self ?_ ?_⟩
  · intro b hb
    exact hclean b (List.mem_of_head? hb)
  · intro b hb
    exact hclean b (List.mem_of_getLast? hb)

theorem isWhitespace_of_value {c : Char} (h : (Base64.value c).isSome) :
    isWhitespace c = false := by
  refine isWhitespace_of_toNat ?_
  unfold Base64.value at h
  split_ifs at h with hupper hlower hdigit hplus hslash
  · have h1 : 65 ≤ c.toNat := hupper.1
    have h2 : c.toNat ≤ 90 := hupper.2
    omega
  · have h1 : 97 ≤ c.toNat := hlower.1
    have h2 : c.toNat ≤ 122 := hlower.2
    omega
  · have h1 : 48 ≤ c.toNat := hdigit.1
    have h2 : c.toNat ≤ 57 := hdigit.2
    omega
  · subst hplus
    decide
  · subst hslash
    decide
  · exact absurd h (by simp)

theorem isWhitespace_base64Encode (input : Bytes) :
    ∀ c ∈ Base64.base64Encode input, isWhitespace c = false := by
  obtain ⟨letters, pads, heq, -, hletters⟩ := (Base64.isBase64_base64Encode input).form
  rw [heq]
  intro c hc
  rcases List.mem_append.mp hc with hletter | hpad
  · exact isWhitespace_of_value (hletters c hletter)
  · rw [List.eq_of_mem_replicate hpad]
    decide

theorem base64Encode_ne_nil {input : Bytes} (h : input ≠ []) : Base64.base64Encode input ≠ [] := by
  intro hnil
  have hlength := (Base64.isBase64_base64Encode input).length
  have hpos := List.length_pos_iff.mpr h
  rw [hnil, List.length_nil] at hlength
  omega

/-- **The credentials stand in their field as they are**: they are encoded, and there are some. -/
theorem clean_authorizationHeader {file : Str} {contents : Except IoError Str}
    {credentials : Credentials} (h : Credentials.fromCookieFile file contents = .ok credentials) :
    10 ∉ asBytes credentials.authorizationHeader ∧
      trimBlank (asBytes credentials.authorizationHeader) =
        asBytes credentials.authorizationHeader := by
  have hpair : asBytes credentials.pair ≠ [] := by
    unfold Credentials.fromCookieFile at h
    split at h
    · exact absurd h (by simp)
    · next text =>
      split_ifs at h with hcolon
      obtain rfl := Except.ok.inj h
      intro hnil
      have htrim : trim text = [] := Utf8.encode_injective (hnil.trans Utf8.encode_nil.symm)
      rw [htrim] at hcolon
      exact absurd hcolon (by simp)
  have hblank := isWhitespace_base64Encode (asBytes credentials.pair)
  have hsome : asBytes (Base64.base64Encode (asBytes credentials.pair)) ≠ [] := fun hnil =>
    base64Encode_ne_nil hpair (Utf8.encode_injective (hnil.trans Utf8.encode_nil.symm))
  have hscheme : asBytes "Basic ".toList = [66, 97, 115, 105, 99, 32] := by decide
  rw [Credentials.authorizationHeader, asBytes_append, hscheme]
  constructor
  · rw [List.mem_append, not_or]
    exact ⟨by decide, notMem_asBytes hblank (Or.inr (Or.inl rfl))⟩
  · refine trimBlank_eq_self ?_ ?_
    · intro b hb
      obtain rfl : 66 = b := Option.some.inj hb
      decide
    · intro b hb
      rw [List.getLast?_append_of_ne_nil _ hsome] at hb
      have hmem := List.mem_of_getLast? hb
      constructor
      · rintro rfl
        exact notMem_asBytes hblank (Or.inr (Or.inr rfl)) hmem
      · rintro rfl
        exact notMem_asBytes hblank (Or.inl rfl) hmem

/-- **A wallet's path is one target**, and nothing more. -/
theorem notMem_walletPath {wallet path : Str} (h : walletPath wallet = some path) :
    32 ∉ asBytes path ∧ 10 ∉ asBytes path := by
  unfold walletPath at h
  split_ifs at h with hall
  obtain rfl := Option.some.inj h
  have hwallet : ∀ b ∈ asBytes wallet, b ≠ 32 ∧ b ≠ 10 := by
    intro b hb
    have hok := List.all_eq_true.mp hall b hb
    constructor
    · rintro rfl
      exact absurd hok (by decide)
    · rintro rfl
      exact absurd hok (by decide)
  have hbegin : 32 ∉ asBytes "/wallet/".toList ∧ 10 ∉ asBytes "/wallet/".toList := by decide
  rw [asBytes_append, List.mem_append, List.mem_append, not_or, not_or]
  exact ⟨⟨hbegin.1, fun hmem => (hwallet 32 hmem).1 rfl⟩,
    ⟨hbegin.2, fun hmem => (hwallet 10 hmem).2 rfl⟩⟩

/-- Where the node listens: on this machine. -/
def address (port : UInt16) : Str := "127.0.0.1:".toList ++ decimal port.toNat

theorem isWhitespace_address (port : UInt16) : ∀ c ∈ address port, isWhitespace c = false := by
  have hhost : ∀ c ∈ "127.0.0.1:".toList, isWhitespace c = false :=
    isWhitespace_of_all (by decide)
  intro c hc
  rcases List.mem_append.mp hc with hmem | hmem
  · exact hhost c hmem
  · exact isWhitespace_decimal _ c hmem

/-- What a request is addressed to: the node, or a wallet of it. -/
def IsPath (path : Str) : Prop := path = "/".toList ∨ ∃ wallet, walletPath wallet = some path

theorem IsPath.notMem {path : Str} (h : IsPath path) : 32 ∉ asBytes path ∧ 10 ∉ asBytes path := by
  rcases h with rfl | ⟨wallet, hwallet⟩
  · decide
  · exact notMem_walletPath hwallet

/-- **No part of a request ends it early.** -/
theorem clean_requestOf {file : Str} {contents : Except IoError Str} {credentials : Credentials}
    (hcookie : Credentials.fromCookieFile file contents = .ok credentials) {path : Str}
    (hpath : IsPath path) (port : UInt16) (body : Str) :
    (requestOf (address port) path credentials.authorizationHeader body).Clean := by
  have hmethod : 32 ∉ asBytes "POST".toList ∧ 10 ∉ asBytes "POST".toList := by decide
  have hnames : ∀ name ∈ ["Host", "Authorization", "Content-Type", "Content-Length", "Connection"],
      58 ∉ asBytes name.toList ∧ 10 ∉ asBytes name.toList := by decide
  have hconstant : ∀ value ∈ ["application/json", "close"],
      10 ∉ asBytes value.toList ∧ trimBlank (asBytes value.toList) = asBytes value.toList := by
    decide
  refine ⟨hmethod, hpath.notMem, ?_, ?_, ?_⟩
  · simp only [requestOf, List.forall_mem_cons, List.not_mem_nil, false_implies, implies_true,
      and_true] at hnames ⊢
    exact hnames
  · simp only [requestOf, List.forall_mem_cons, List.not_mem_nil, false_implies, implies_true,
      and_true] at hconstant ⊢
    exact ⟨clean_of_isWhitespace (isWhitespace_address port), clean_authorizationHeader hcookie,
      hconstant.1, clean_of_isWhitespace (isWhitespace_decimal _), hconstant.2⟩
  · -- Of the five names, one is that of the length.
    exact number_decimal (asBytes body).length

/-! ### Client and server -/

/-- A reply with a field before that of the length and one after it. -/
def sampleReply : Reply where
  status := 200
  reason := "OK".toList
  before := [("Content-Type".toList, "application/json".toList)]
  lengthName := "Content-Length".toList
  after := [("Connection".toList, "close".toList)]
  body := "\x7b\"result\":7\x7d".toList
  reason_line := by decide
  lengthName_eq := by decide
  lengthName_name := by decide
  names := by decide
  values := by decide

/-- A connection that brings it. -/
def sampleConnection : Connection :=
  ⟨.ok (), .ok (), .ok (), fun _ => ⟨sampleReply.bytes, none⟩⟩

end Http

end Rpc

end SoloMiner
