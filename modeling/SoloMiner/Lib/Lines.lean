import SoloMiner.Lib.Text

/-!
# Lines on a byte stream

Messages that are sent as lines: each one is followed by the end of a line, and the reader
takes line after line until the stream ends or fails. Nothing else tells the reader where a
message ends, and the stream may end in the middle of one.

What is read then (`SoloMiner.ByteStream.lines_prefix`) is some of the lines, in order and
from the first one on, all those among them that have come with their end, and at most one
more, which is a part of the next line.
-/

namespace SoloMiner

namespace ByteStream

/-- A line without its end. -/
def chomp (line : List Char) : List Char :=
  if line.getLast? = some '\n' then
    if line.dropLast.getLast? = some '\r' then line.dropLast.dropLast else line.dropLast
  else line

/-- `BufRead::lines`, up to the first error. -/
def lines (self : ByteStream) : List (List Char) :=
  match _hread : self.readLine with
  | .error _ => []
  | .ok (line, rest) => if _hline : line = [] then [] else chomp line :: lines rest
  termination_by self.bytes.length
  decreasing_by exact length_readLine _hread _hline

/-- The bytes of a line. -/
def lineBytes (line : List Char) : List UInt8 := Utf8.encode line ++ [10]

/-- Nothing in the line looks like its end. -/
def Framed (line : List Char) : Prop := '\n' ∉ line ∧ line.getLast? ≠ some '\r'

variable {s rest : ByteStream} {line : List Char} {texts : List (List Char)}

theorem chomp_concat (h : Framed line) : chomp (line ++ ['\n']) = line := by
  rw [chomp, if_pos (List.getLast?_concat), List.dropLast_concat, if_neg h.2]

theorem chomp_eq_self (h : '\n' ∉ line) : chomp line = line :=
  if_neg fun hlast => h (List.mem_of_getLast? hlast)

theorem lines_of_error {error : IoError} (h : s.readLine = .error error) : s.lines = [] := by
  rw [lines]
  split
  · rfl
  · next h' => exact absurd (h.symm.trans h') (by simp)

theorem lines_of_readLine (h : s.readLine = .ok (line, rest)) :
    s.lines = if line = [] then [] else chomp line :: rest.lines := by
  rw [lines]
  split
  · next h' => exact absurd (h.symm.trans h') (by simp)
  · next line' rest' h' =>
    obtain ⟨rfl, rfl⟩ := Prod.mk.inj (Except.ok.inj (h.symm.trans h'))
    rfl

theorem lines_nil (fault : Option IoError) : lines ⟨[], fault⟩ = [] := by
  cases hread : readLine ⟨[], fault⟩ with
  | error error => exact lines_of_error hread
  | ok result =>
    obtain ⟨line, rest⟩ := result
    obtain ⟨-, -, -, hline⟩ := readLine_prefix (s := []) (by simp) (List.prefix_refl _) hread
    rw [lines_of_readLine hread, if_pos (List.prefix_nil.mp hline)]

/-- A line that is cut: nothing is read, or a part of it, which may be all of its text. -/
theorem lines_cut (h : '\n' ∉ line) {bytes : List UInt8} (hbytes : bytes <+: Utf8.encode line)
    (fault : Option IoError) :
    lines ⟨bytes, fault⟩ = [] ∨
      ∃ part, lines ⟨bytes, fault⟩ = [part] ∧ part ≠ [] ∧ part <+: line := by
  cases hread : readLine ⟨bytes, fault⟩ with
  | error error => exact Or.inl (lines_of_error hread)
  | ok result =>
    obtain ⟨part, rest⟩ := result
    obtain ⟨-, rfl, -, hpart⟩ := readLine_prefix h hbytes hread
    rw [lines_of_readLine hread, lines_nil, chomp_eq_self fun hmem => h (hpart.subset hmem)]
    split_ifs with hnil
    · exact Or.inl rfl
    · exact Or.inr ⟨part, rfl, hnil, hpart⟩

/-- A line that has come with its end. -/
theorem lines_cons (h : Framed line) (bytes : List UInt8) (fault : Option IoError) :
    lines ⟨Utf8.encode line ++ 10 :: bytes, fault⟩ = line :: lines ⟨bytes, fault⟩ := by
  rw [lines_of_readLine (readLine_encode h.1 bytes fault), if_neg (by simp), chomp_concat h]

/-- **What is read of lines that are cut anywhere.** The induction is on the lines. -/
theorem lines_prefix (h : ∀ line ∈ texts, Framed line) {bytes : List UInt8}
    (hbytes : bytes <+: texts.flatMap lineBytes) (fault : Option IoError) :
    ∃ k tail, lines ⟨bytes, fault⟩ = texts.take k ++ tail ∧
      (tail = [] ∨ ∃ line part, texts[k]? = some line ∧ tail = [part] ∧ part <+: line ∧
        part ≠ line) ∧
      ∀ j ≤ texts.length, (texts.take j).flatMap lineBytes <+: bytes → j ≤ k := by
  induction texts generalizing bytes with
  | nil =>
    obtain rfl := List.prefix_nil.mp hbytes
    exact ⟨0, [], lines_nil fault, Or.inl rfl, fun j hj _ => hj⟩
  | cons line texts ih =>
    obtain ⟨hline, htexts⟩ := List.forall_mem_cons.mp h
    have hall : (line :: texts).flatMap lineBytes =
        Utf8.encode line ++ 10 :: texts.flatMap lineBytes := by
      rw [List.flatMap_cons, lineBytes, List.append_assoc]
      rfl
    rw [hall] at hbytes
    by_cases hcut : bytes <+: Utf8.encode line
    · -- No line has come with its end.
      have hnone : ∀ j, ((line :: texts).take j).flatMap lineBytes <+: bytes → j ≤ 0 := by
        intro j hj
        cases j with
        | zero => exact Nat.le_refl 0
        | succ j =>
          have hlength := (hj.trans hcut).length_le
          rw [List.take_succ_cons, List.flatMap_cons, lineBytes, List.length_append,
            List.length_append, List.length_singleton] at hlength
          omega
      rcases lines_cut hline.1 hcut fault with hnil | ⟨part, hpart, -, hprefix⟩
      · exact ⟨0, [], hnil, Or.inl rfl, fun j _ hj => hnone j hj⟩
      · by_cases heq : part = line
        · refine ⟨1, [], ?_, Or.inl rfl, fun j _ hj => Nat.le_trans (hnone j hj) (Nat.zero_le 1)⟩
          rw [hpart, heq]
          rfl
        · exact ⟨0, [part], hpart, Or.inr ⟨line, part, rfl, rfl, hprefix, heq⟩,
            fun j _ hj => hnone j hj⟩
    · rcases prefix_append_cases hbytes with hfirst | ⟨more, rfl, hmore⟩
      · exact absurd hfirst hcut
      · cases more with
        | nil => exact absurd (by simp) hcut
        | cons b more =>
          obtain ⟨rfl, hrest⟩ := List.cons_prefix_cons.mp hmore
          obtain ⟨k, tail, hlines, htail, hwhole⟩ := ih htexts hrest
          refine ⟨k + 1, tail, ?_, htail, ?_⟩
          · rw [lines_cons hline, hlines]
            rfl
          · intro j hj hj'
            cases j with
            | zero => exact Nat.zero_le _
            | succ j =>
              have hfirst : ((line :: texts).take (j + 1)).flatMap lineBytes =
                  Utf8.encode line ++ 10 :: (texts.take j).flatMap lineBytes := by
                rw [List.take_succ_cons, List.flatMap_cons, lineBytes, List.append_assoc]
                rfl
              rw [hfirst, List.prefix_append_right_inj] at hj'
              have hj'' := (List.cons_prefix_cons.mp hj').2
              exact Nat.succ_le_succ (hwhole j (Nat.le_of_succ_le_succ hj) hj'')

end ByteStream

end SoloMiner
