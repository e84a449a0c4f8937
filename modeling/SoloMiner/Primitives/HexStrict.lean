import SoloMiner.Primitives.Hash

/-!
# Which strings are hex

A string is hex when it is made of pairs of hex digits, and then it has one value. The
decoder is meant to take those strings and no others, and to say where the first pair
stands that is none (`SoloMiner.Hex.DecodesHex`). It does so except on two kinds of
strings, which start with pairs of digits and then go wrong
(`SoloMiner.Hex.Misread`): the next two bytes end inside a character, where slicing
panics; or they are a plus sign and a digit, which the number parser reads. On every
other string the decoder is right (`SoloMiner.Hex.decodesHex_iff`).

A hash is printed as 64 hex digits, reversed, and printing can be undone. The parser has
a loop of its own with the same slices and the same number parser, so it goes wrong on
the strings of 64 bytes that do (`SoloMiner.Sha256dHash.parsesHash_iff`).
-/

namespace SoloMiner

namespace Hex

/-! ### Pairs of digits -/

/-- Two hex digits. -/
def HexPair (p : Char × Char) : Prop := IsHexDigit p.1 ∧ IsHexDigit p.2

instance (p : Char × Char) : Decidable (HexPair p) := inferInstanceAs (Decidable (_ ∧ _))

/-- The string starts with two hex digits. -/
def StartsHex : Str → Prop
  | c :: d :: _ => HexPair (c, d)
  | _ => False

/-- The value of a hex digit. -/
def digitValue (c : Char) : ℕ := (toDigit c).getD 0

/-- The byte that a pair of digits stands for. -/
def pairValue (p : Char × Char) : UInt8 := UInt8.ofNat (digitValue p.1 * 16 + digitValue p.2)

/-- The string in lower case. -/
def lower (s : Str) : Str := s.map Char.toLower

theorem HexPair.readable {p : Char × Char} (h : HexPair p) : ReadablePair p :=
  ⟨Or.inl h.1, h.2⟩

theorem IsHexDigit.toDigit_eq {c : Char} (h : IsHexDigit c) : toDigit c = some (digitValue c) := by
  obtain ⟨d, -, hd⟩ := isHexDigit_iff.mp h
  rw [digitValue, hd, Option.getD_some]

theorem digitValue_lt {c : Char} (h : IsHexDigit c) : digitValue c < 16 := toDigit_lt h.toDigit_eq

/-- **A digit is printed in lower case.** -/
theorem digitChar_digitValue {c : Char} (h : IsHexDigit c) :
    digitChar (digitValue c) = c.toLower := by
  have hall : ∀ n : Fin 128, IsHexDigit (Char.ofNat n) →
      digitChar (digitValue (Char.ofNat n)) = (Char.ofNat n).toLower := by decide
  have hlt : c.toNat < 128 := by
    have hsize := h.utf8Size
    rw [Char.utf8Size_eq_one_iff] at hsize
    exact Nat.lt_succ_of_le (UInt32.le_iff_toNat_le.mp hsize)
  have hc : Char.ofNat c.toNat = c := Char.ofNat_toNat c
  have hn := hall ⟨c.toNat, hlt⟩
  simp only [hc] at hn
  exact hn h

/-- The number parser reads a pair of digits as their value. -/
theorem fromStrRadix16_hexPair {c d : Char} (h : HexPair (c, d)) :
    fromStrRadix16 8 [c, d] = some (digitValue c * 16 + digitValue d) := by
  have hc : digitValue c < 16 := digitValue_lt h.1
  have hd : digitValue d < 16 := digitValue_lt h.2
  have hplus : c ≠ '+' := fun heq => not_isHexDigit_plus (heq ▸ h.1)
  rw [fromStrRadix16_of_ne hplus]
  simp [pushDigit, h.1.toDigit_eq, h.2.toDigit_eq, show digitValue c < 256 by omega,
    show digitValue c * 16 + digitValue d < 256 by omega]

/-- A pair of digits is printed in lower case. -/
theorem fixedHex_pairValue {p : Char × Char} (h : HexPair p) :
    fixedHex 2 (pairValue p).toNat = [p.1.toLower, p.2.toLower] := by
  have hc := digitValue_lt h.1
  have hd := digitValue_lt h.2
  have hval : (pairValue p).toNat = digitValue p.1 * 16 + digitValue p.2 :=
    UInt8.toNat_ofNat_of_lt' (show _ < 256 by omega)
  have hhigh : (digitValue p.1 * 16 + digitValue p.2) / 16 % 16 = digitValue p.1 := by omega
  have hlow : (digitValue p.1 * 16 + digitValue p.2) % 16 = digitValue p.2 := by omega
  rw [hval, fixedHex_two, hhigh, hlow, digitChar_digitValue h.1, digitChar_digitValue h.2]

/-- **Pairs of digits are printed in lower case.** -/
theorem encode_pairValue {ps : List (Char × Char)} (h : ∀ p ∈ ps, HexPair p) :
    encode (ps.map pairValue) = lower (pairChars ps) := by
  induction ps with
  | nil => rfl
  | cons p ps ih =>
    rw [List.map_cons, encode_cons, fixedHex_pairValue (h p List.mem_cons_self),
      ih fun q hq => h q (List.mem_cons_of_mem p hq)]
    rfl

/-! ### The pairs of digits in front -/

/-- A string that starts with pairs of digits does so in one way, up to where they end. -/
theorem hexPairs_unique {ps qs : List (Char × Char)} {t u : Str} (hps : ∀ p ∈ ps, HexPair p)
    (hqs : ∀ q ∈ qs, HexPair q) (ht : ¬ StartsHex t) (hu : ¬ StartsHex u)
    (h : pairChars ps ++ t = pairChars qs ++ u) : ps = qs ∧ t = u := by
  induction ps generalizing qs with
  | nil =>
    cases qs with
    | nil => exact ⟨rfl, h⟩
    | cons q qs =>
      rw [show t = q.1 :: q.2 :: (pairChars qs ++ u) from h] at ht
      exact absurd (hqs q List.mem_cons_self) ht
  | cons p ps ih =>
    cases qs with
    | nil =>
      rw [show u = p.1 :: p.2 :: (pairChars ps ++ t) from h.symm] at hu
      exact absurd (hps p List.mem_cons_self) hu
    | cons q qs =>
      obtain ⟨h1, h2, hrest⟩ : p.1 = q.1 ∧ p.2 = q.2 ∧ pairChars ps ++ t = pairChars qs ++ u := by
        simpa [pairChars] using h
      obtain ⟨rfl, rfl⟩ := ih (fun r hr => hps r (List.mem_cons_of_mem p hr))
        (fun r hr => hqs r (List.mem_cons_of_mem q hr)) hrest
      exact ⟨by rw [Prod.ext h1 h2], rfl⟩

/-- Every string starts with some pairs of digits, and then no longer. -/
theorem exists_hexPairs (s : Str) :
    ∃ ps t, s = pairChars ps ++ t ∧ (∀ p ∈ ps, HexPair p) ∧ ¬ StartsHex t := by
  induction hn : s.length using Nat.strongRecOn generalizing s with
  | ind n ih =>
    by_cases hstart : StartsHex s
    · cases s with
      | nil => exact absurd hstart id
      | cons c s =>
        cases s with
        | nil => exact absurd hstart id
        | cons d s =>
          have hlt : s.length < n := by
            rw [← hn, List.length_cons, List.length_cons]
            omega
          obtain ⟨ps, t, rfl, hps, ht⟩ := ih s.length hlt s rfl
          exact ⟨(c, d) :: ps, t, rfl, List.forall_mem_cons.mpr ⟨hstart, hps⟩, ht⟩
    · exact ⟨[], s, rfl, by simp, hstart⟩

theorem utf8Len_hexPairs {ps : List (Char × Char)} (h : ∀ p ∈ ps, HexPair p) :
    utf8Len (pairChars ps) = 2 * ps.length :=
  utf8Len_pairChars fun p hp => (h p hp).readable

/-- **The loop reads the pairs of digits in front**, and goes on behind them. -/
theorem decodeRest_hexPairs {ps : List (Char × Char)} (h : ∀ p ∈ ps, HexPair p) (offset k : ℕ)
    (t : Str) : decodeRest offset (ps.length + k) (pairChars ps ++ t) =
      (decodeRest (offset + 2 * ps.length) k t).map (ps.map pairValue ++ ·) := by
  induction ps generalizing offset with
  | nil =>
    simp only [List.length_nil, Nat.zero_add, Nat.mul_zero, Nat.add_zero, List.map_nil,
      List.nil_append]
    cases hrest : decodeRest offset k t <;> simp [hrest, pairChars, Except.map]
  | cons p ps ih =>
    have hp : HexPair (p.1, p.2) := h p List.mem_cons_self
    have hsplit : splitAtByte (pairChars (p :: ps) ++ t) 2 = some ([p.1, p.2], pairChars ps ++ t) :=
      splitAtByte_two hp.1.utf8Size hp.2.utf8Size _
    rw [List.length_cons, Nat.add_right_comm, decodeRest, hsplit]
    simp only [fromStrRadix16_hexPair hp, Option.map_some, Checked.okOr_some, Checked.ok_bind]
    rw [ih (fun q hq => h q (List.mem_cons_of_mem p hq)),
      show offset + 2 + 2 * ps.length = offset + 2 * (ps.length + 1) by omega]
    cases decodeRest (offset + 2 * (ps.length + 1)) k t <;> rfl

/-- An error of the loop stands no earlier than the loop does. -/
theorem le_of_decodeRest_notHex {offset k i : ℕ} {t found : Str}
    (h : decodeRest offset k t = .err (.notHex i found)) : offset ≤ i := by
  induction k generalizing offset t with
  | zero => exact absurd h (by simp [decodeRest, Checked.err])
  | succ k ih =>
    rw [decodeRest] at h
    cases hsplit : splitAtByte t 2 with
    | none =>
      rw [hsplit] at h
      exact absurd h (by simp [Checked.err, Checked.panic])
    | some halves =>
      obtain ⟨pair, t'⟩ := halves
      rw [hsplit] at h
      rcases Checked.bind_eq_err.mp h with hread | ⟨byte, -, hrest⟩
      · obtain ⟨-, herr⟩ := Checked.okOr_eq_err.mp hread
        exact (HexError.notHex.inj herr).1.le
      · rcases Checked.bind_eq_err.mp hrest with hrest | ⟨bytes, -, hpure⟩
        · exact le_trans (Nat.le_add_right offset 2) (ih hrest)
        · exact absurd hpure (by simp [Checked.err, pure, Except.pure])

/-- The end of the pairs in front is a character boundary. -/
theorem splitAtByte_hexPairs {ps : List (Char × Char)} (h : ∀ p ∈ ps, HexPair p) (t : Str) :
    splitAtByte (pairChars ps ++ t) (2 * ps.length) = some (pairChars ps, t) := by
  induction ps with
  | nil => exact splitAtByte_zero t
  | cons p ps ih =>
    have hp := h p List.mem_cons_self
    have hsplit : splitAtByte (pairChars (p :: ps) ++ t) 2 = some ([p.1, p.2], pairChars ps ++ t) :=
      splitAtByte_two hp.1.utf8Size hp.2.utf8Size _
    rw [List.length_cons, show 2 * (ps.length + 1) = 2 + 2 * ps.length by omega,
      splitAtByte_add _ hsplit, ih fun q hq => h q (List.mem_cons_of_mem p hq)]
    rfl

/-- **The decoder on a string of an even number of bytes**: the pairs of digits in front,
then the rest. -/
theorem decode_hexPairs {ps : List (Char × Char)} (h : ∀ p ∈ ps, HexPair p) {t : Str}
    (heven : utf8Len (pairChars ps ++ t) % 2 = 0) :
    decode (pairChars ps ++ t) =
      (decodeRest (2 * ps.length) (utf8Len t / 2) t).map (ps.map pairValue ++ ·) := by
  rw [decode_eq_decodeRest heven, utf8Len_append, utf8Len_hexPairs h,
    show (2 * ps.length + utf8Len t) / 2 = ps.length + utf8Len t / 2 by omega,
    decodeRest_hexPairs h, Nat.zero_add]

/-- Behind all pairs of digits, a string of an even number of bytes is all digits
precisely when it ends there. -/
theorem forall_isHexDigit_iff {ps : List (Char × Char)} (h : ∀ p ∈ ps, HexPair p) {t : Str}
    (ht : ¬ StartsHex t) (heven : utf8Len (pairChars ps ++ t) % 2 = 0) :
    (∀ c ∈ pairChars ps ++ t, IsHexDigit c) ↔ t = [] := by
  constructor
  · intro hall
    have hdigits : ∀ c ∈ t, IsHexDigit c := fun c hc => hall c (List.mem_append_right _ hc)
    cases t with
    | nil => rfl
    | cons c t =>
      have hc := hdigits c List.mem_cons_self
      cases t with
      | nil =>
        rw [utf8Len_append, utf8Len_hexPairs h, utf8Len, utf8Len, hc.utf8Size] at heven
        omega
      | cons d t =>
        exact absurd ⟨hc, hdigits d (List.mem_cons_of_mem c List.mem_cons_self)⟩ ht
  · rintro rfl c hc
    rw [List.append_nil] at hc
    obtain ⟨p, hp, hmem⟩ := List.mem_flatMap.mp hc
    rcases List.mem_cons.mp hmem with rfl | hmem
    · exact (h p hp).1
    · obtain rfl := List.mem_singleton.mp hmem
      exact (h p hp).2

/-! ### What the decoder promises, and where it does not keep it -/

/-- What the decoder promises of a string. -/
structure DecodesHex (s : Str) : Prop where
  /-- It returns. -/
  noPanic : decode s ≠ .panic
  /-- It accepts an even number of hex digits, and nothing else. -/
  accepts : (∃ bytes, decode s = .ok bytes) ↔ utf8Len s % 2 = 0 ∧ ∀ c ∈ s, IsHexDigit c
  /-- The bytes are the values of the pairs, and are printed as the string in lower
  case. -/
  value : ∀ bytes, decode s = .ok bytes →
    (∃ ps, s = pairChars ps ∧ bytes = ps.map pairValue) ∧ encode bytes = lower s
  /-- An odd number of bytes is an error of its own. -/
  oddLength : utf8Len s % 2 ≠ 0 → decode s = .err (.oddLength (utf8Len s))
  /-- Otherwise the error is about the first pair that is none. -/
  notHex : utf8Len s % 2 = 0 → (¬ ∀ c ∈ s, IsHexDigit c) → ∃ ps t found,
    s = pairChars ps ++ t ∧ (∀ p ∈ ps, HexPair p) ∧ ¬ StartsHex t ∧
      sliceBytes s (2 * ps.length) (2 * ps.length + 2) = some found ∧
      decode s = .err (.notHex (2 * ps.length) found)

/-- The string starts with a plus sign and a digit. -/
def StartsSigned : Str → Prop
  | c :: d :: _ => c = '+' ∧ IsHexDigit d
  | _ => False

/-- **The strings the decoder goes wrong on**: an even number of bytes and, behind some
pairs of digits, two bytes that end inside a character or are a plus sign and a digit. -/
def Misread (s : Str) : Prop :=
  utf8Len s % 2 = 0 ∧ ∃ ps t, s = pairChars ps ++ t ∧ (∀ p ∈ ps, HexPair p) ∧
    (SplitsHere t ∨ StartsSigned t)

theorem not_startsHex_of_splitsHere {t : Str} (h : SplitsHere t) : ¬ StartsHex t := by
  intro hstart
  cases t with
  | nil => exact h
  | cons c t =>
    cases t with
    | nil => exact hstart
    | cons d t => exact not_splitsHere_pair hstart.1.utf8Size hstart.2.utf8Size h

theorem not_startsHex_of_startsSigned {t : Str} (h : StartsSigned t) : ¬ StartsHex t := by
  intro hstart
  cases t with
  | nil => exact h
  | cons c t =>
    cases t with
    | nil => exact hstart
    | cons d t => exact not_isHexDigit_plus (h.1 ▸ hstart.1)

/-- Where the pairs of digits end tells whether the string is misread. -/
theorem misread_iff {ps : List (Char × Char)} (h : ∀ p ∈ ps, HexPair p) {t : Str}
    (ht : ¬ StartsHex t) (heven : utf8Len (pairChars ps ++ t) % 2 = 0) :
    Misread (pairChars ps ++ t) ↔ SplitsHere t ∨ StartsSigned t := by
  constructor
  · rintro ⟨-, qs, u, heq, hqs, hbad⟩
    have hu : ¬ StartsHex u :=
      hbad.elim not_startsHex_of_splitsHere not_startsHex_of_startsSigned
    obtain ⟨-, rfl⟩ := hexPairs_unique h hqs ht hu heq
    exact hbad
  · exact fun hbad => ⟨heven, ps, t, rfl, h, hbad⟩

/-- A string of digits is decoded as promised. -/
theorem decodesHex_pairChars {ps : List (Char × Char)} (h : ∀ p ∈ ps, HexPair p) :
    DecodesHex (pairChars ps) := by
  have heven : utf8Len (pairChars ps) % 2 = 0 := by
    rw [utf8Len_hexPairs h]
    omega
  have hok : decode (pairChars ps) = .ok (ps.map pairValue) := by
    have hdecode := decode_hexPairs (t := []) h (by rwa [List.append_nil])
    rw [List.append_nil] at hdecode
    rw [hdecode]
    simp [utf8Len, decodeRest, Except.map]
  have hdigits : ∀ c ∈ pairChars ps, IsHexDigit c := by
    have hiff := forall_isHexDigit_iff (t := []) h id (by rwa [List.append_nil])
    rw [List.append_nil] at hiff
    exact hiff.mpr rfl
  refine ⟨by simp [hok], iff_of_true ⟨_, hok⟩ ⟨heven, hdigits⟩, fun bytes hbytes => ?_,
    fun hodd => absurd heven hodd, fun _ hnot => absurd hdigits hnot⟩
  obtain rfl := Except.ok.inj (hok.symm.trans hbytes)
  exact ⟨⟨ps, rfl, rfl⟩, encode_pairValue h⟩

/-- A string with an odd number of bytes is refused as promised. -/
theorem decodesHex_of_odd {s : Str} (h : utf8Len s % 2 ≠ 0) : DecodesHex s := by
  have herr : decode s = .err (.oddLength (utf8Len s)) := if_pos h
  exact ⟨by simp [herr], iff_of_false (by simp [herr, Checked.err]) fun hall => h hall.1,
    fun bytes hbytes => absurd hbytes (by simp [herr, Checked.err]), fun _ => herr,
    fun heven => absurd heven h⟩

/-- A string that is refused at the end of its pairs of digits is refused as promised. -/
theorem decodesHex_of_notHex {ps : List (Char × Char)} (h : ∀ p ∈ ps, HexPair p) {t t' found : Str}
    (ht : ¬ StartsHex t) (hne : t ≠ []) (heven : utf8Len (pairChars ps ++ t) % 2 = 0)
    (hsplit : splitAtByte t 2 = some (found, t'))
    (herr : decode (pairChars ps ++ t) = .err (.notHex (2 * ps.length) found)) :
    DecodesHex (pairChars ps ++ t) := by
  have hnot : ¬ ∀ c ∈ pairChars ps ++ t, IsHexDigit c :=
    (forall_isHexDigit_iff h ht heven).not.mpr hne
  have hslice : sliceBytes (pairChars ps ++ t) (2 * ps.length) (2 * ps.length + 2) =
      some found := by
    rw [sliceBytes_of_split 2 (splitAtByte_hexPairs h t), hsplit]
    rfl
  exact ⟨by simp [herr], iff_of_false (by simp [herr, Checked.err]) fun hall => hnot hall.2,
    fun bytes hbytes => absurd hbytes (by simp [herr, Checked.err]),
    fun hodd => absurd heven hodd, fun _ _ => ⟨ps, t, found, rfl, h, ht, hslice, herr⟩⟩

/-- A plus sign and a digit are read, so the decoder does not stop at them. -/
theorem not_decodesHex_of_startsSigned {ps : List (Char × Char)} (h : ∀ p ∈ ps, HexPair p) {t : Str}
    (ht : StartsSigned t) (heven : utf8Len (pairChars ps ++ t) % 2 = 0) :
    ¬ DecodesHex (pairChars ps ++ t) := by
  have hstart := not_startsHex_of_startsSigned ht
  cases t with
  | nil => exact absurd ht id
  | cons c t =>
    cases t with
    | nil => exact absurd ht id
    | cons d t =>
      obtain ⟨rfl, hd⟩ : c = '+' ∧ IsHexDigit d := ht
      intro hdec
      have hnot : ¬ ∀ c ∈ pairChars ps ++ '+' :: d :: t, IsHexDigit c :=
        (forall_isHexDigit_iff h hstart heven).not.mpr (List.cons_ne_nil _ _)
      obtain ⟨qs, u, found, heq, hqs, hu, -, herr⟩ := hdec.notHex heven hnot
      obtain ⟨rfl, -⟩ := hexPairs_unique h hqs hstart hu heq
      have hplus : ('+').utf8Size = 1 := by decide
      have hlen : utf8Len ('+' :: d :: t) / 2 = utf8Len t / 2 + 1 := by
        rw [utf8Len, utf8Len, hplus, hd.utf8Size]
        omega
      rw [decode_hexPairs h heven, hlen] at herr
      rcases decodeRest_pair (2 * ps.length) (utf8Len t / 2)
        (splitAtByte_two hplus hd.utf8Size t) with ⟨-, byte, hread⟩ | ⟨hbad, -⟩
      · rw [hread] at herr
        have hle := le_of_decodeRest_notHex (Checked.map_eq_err.mp (Checked.map_eq_err.mp herr))
        omega
      · exact hbad ⟨Or.inr rfl, hd⟩

/-- Where the pairs of digits end and the string goes on, there are two bytes more. -/
theorem two_le_utf8Len_rest {ps : List (Char × Char)} (h : ∀ p ∈ ps, HexPair p) {t : Str}
    (hne : t ≠ []) (heven : utf8Len (pairChars ps ++ t) % 2 = 0) : 2 ≤ utf8Len t := by
  obtain ⟨c, t', rfl⟩ := List.exists_cons_of_ne_nil hne
  have hpos := c.utf8Size_pos
  rw [utf8Len_append, utf8Len_hexPairs h, utf8Len] at heven
  rw [utf8Len]
  omega

/-- What the decoder does at the end of the pairs of digits, if the string goes on. -/
theorem decode_rest {ps : List (Char × Char)} (h : ∀ p ∈ ps, HexPair p) {t : Str} (hne : t ≠ [])
    (heven : utf8Len (pairChars ps ++ t) % 2 = 0) :
    decode (pairChars ps ++ t) =
      (decodeRest (2 * ps.length) (utf8Len t / 2 - 1 + 1) t).map (ps.map pairValue ++ ·) := by
  have htwo := two_le_utf8Len_rest h hne heven
  rw [decode_hexPairs h heven, Nat.sub_add_cancel (by omega)]

/-- The decoder panics where the next two bytes end inside a character. -/
theorem not_decodesHex_of_splitsHere {ps : List (Char × Char)} (h : ∀ p ∈ ps, HexPair p) {t : Str}
    (hne : t ≠ []) (heven : utf8Len (pairChars ps ++ t) % 2 = 0)
    (hsplit : splitAtByte t 2 = none) : ¬ DecodesHex (pairChars ps ++ t) := by
  refine fun hdec => hdec.noPanic ?_
  rw [decode_rest h hne heven, decodeRest, hsplit]
  rfl

/-- Behind the pairs of digits, two characters of a byte each are read as they should be
unless they are a plus sign and a digit. -/
theorem decodesHex_iff_pair {ps : List (Char × Char)} (h : ∀ p ∈ ps, HexPair p) {c d : Char}
    {t : Str} (hc : c.utf8Size = 1) (hd : d.utf8Size = 1) (ht : ¬ StartsHex (c :: d :: t))
    (heven : utf8Len (pairChars ps ++ c :: d :: t) % 2 = 0) :
    DecodesHex (pairChars ps ++ c :: d :: t) ↔ ¬ (SplitsHere (c :: d :: t) ∨
      StartsSigned (c :: d :: t)) := by
  have hsplit := splitAtByte_two hc hd t
  have hdecode := decode_rest h (List.cons_ne_nil c (d :: t)) heven
  rcases decodeRest_pair (2 * ps.length) (utf8Len (c :: d :: t) / 2 - 1) hsplit with
    ⟨hread, -⟩ | ⟨hread, herr⟩
  · -- The pair is read and is not one of digits, so its first character is a sign.
    have hsigned : StartsSigned (c :: d :: t) :=
      ⟨hread.1.resolve_left fun hdigit => ht ⟨hdigit, hread.2⟩, hread.2⟩
    exact iff_of_false (not_decodesHex_of_startsSigned h hsigned heven)
      (not_not.mpr (Or.inr hsigned))
  · rw [herr] at hdecode
    refine iff_of_true
      (decodesHex_of_notHex h ht (List.cons_ne_nil _ _) heven hsplit hdecode) ?_
    rintro (hhere | hsigned)
    · exact not_splitsHere_pair hc hd hhere
    · exact hread ⟨Or.inr hsigned.1, hsigned.2⟩

/-- Behind the pairs of digits, a character of two bytes is refused as promised. -/
theorem decodesHex_of_twoBytes {ps : List (Char × Char)} (h : ∀ p ∈ ps, HexPair p) {c : Char}
    {t : Str} (hc : c.utf8Size = 2) (ht : ¬ StartsHex (c :: t))
    (hsplit : splitAtByte (c :: t) 2 = some ([c], t))
    (heven : utf8Len (pairChars ps ++ c :: t) % 2 = 0) : DecodesHex (pairChars ps ++ c :: t) := by
  have hdecode := decode_rest h (List.cons_ne_nil c t) heven
  rw [decodeRest_single _ _ hc hsplit] at hdecode
  exact decodesHex_of_notHex h ht (List.cons_ne_nil _ _) heven hsplit hdecode

/-- A character of two bytes neither ends too late nor is a sign. -/
theorem not_misread_twoBytes {c : Char} {t : Str} (hc : c.utf8Size = 2) :
    ¬ (SplitsHere (c :: t) ∨ StartsSigned (c :: t)) := by
  cases t with
  | nil =>
    rintro (hhere | hsigned)
    · simp only [SplitsHere] at hhere
      omega
    · exact hsigned
  | cons d t =>
    rintro (hhere | hsigned)
    · rcases hhere with hhere | hhere <;> omega
    · rw [hsigned.1] at hc
      exact absurd hc (by decide)

/-- **The decoder keeps its promise on every string but those it misreads**, and undoes
encoding. -/
theorem decodesHex_iff (s : Str) :
    (DecodesHex s ↔ ¬ Misread s) ∧ ∀ bytes : Bytes, decode (encode bytes) = .ok bytes := by
  refine ⟨?_, decode_encode⟩
  by_cases heven : utf8Len s % 2 = 0
  · obtain ⟨ps, t, rfl, hps, ht⟩ := exists_hexPairs s
    rw [misread_iff hps ht heven]
    by_cases hnil : t = []
    · subst hnil
      rw [List.append_nil]
      exact iff_of_true (decodesHex_pairChars hps) fun hbad => hbad.elim id id
    · rcases splitAtByte_two_cases (two_le_utf8Len_rest hps hnil heven) with
        ⟨hhere, hsplit⟩ | ⟨c, d, t', rfl, hc, hd, -⟩ | ⟨c, t', rfl, hc, hsplit⟩
      · exact iff_of_false (not_decodesHex_of_splitsHere hps hnil heven hsplit)
          (not_not.mpr (Or.inl hhere))
      · exact decodesHex_iff_pair hps hc hd ht heven
      · exact iff_of_true (decodesHex_of_twoBytes hps hc ht hsplit heven)
          (not_misread_twoBytes hc)
  · exact iff_of_true (decodesHex_of_odd heven) fun hbad => heven hbad.1

/-- Two strings that the decoder goes wrong on: it panics on the one and accepts the
other. -/
theorem not_decodesHex :
    ¬ DecodesHex ['a', 'é', 'b'] ∧ ¬ DecodesHex ['+', '1'] := by
  refine ⟨fun h => h.noPanic (by decide), fun h => ?_⟩
  obtain ⟨-, hdigits⟩ := h.accepts.mp ⟨[0x01], by decide⟩
  exact not_isHexDigit_plus (hdigits '+' List.mem_cons_self)

end Hex

namespace Sha256dHash

open Hex

/-! ### Printing and parsing a hash -/

theorem display_eq (self : Sha256dHash) : self.display = encode self.bytes.toList.reverse := rfl

theorem parsePair_eq (s : Str) (i : ℕ) :
    parsePair s i = Checked.mapErr (fun _ => .notHex) (decodePair s i) := by
  rw [parsePair, decodePair]
  cases sliceBytes s i (i + 2) with
  | none => rfl
  | some pair =>
    simp only
    cases (fromStrRadix16 8 pair).map UInt8.ofNat <;> rfl

/-- The parser's loop is the decoder's, with errors of its own. -/
theorem parseBytes_eq (s : Str) (n i : ℕ) :
    (parseBytes s n i).map List.Vector.toList =
      Checked.mapErr (fun _ => .notHex) ((List.range' (i * 2) n 2).mapM (decodePair s)) := by
  induction n generalizing i with
  | zero => rfl
  | succ n ih =>
    have hnext := ih (i + 1)
    rw [show (i + 1) * 2 = i * 2 + 2 by omega] at hnext
    rw [List.range'_succ, List.mapM_cons, parseBytes, parsePair_eq]
    cases hpair : decodePair s (i * 2) with
    | error e => cases e <;> rfl
    | ok byte =>
      rw [Checked.mapErr_ok, Checked.ok_bind, Checked.ok_bind]
      calc ((parseBytes s n (i + 1)).bind fun bytes => .ok (List.Vector.cons byte bytes)).map
            List.Vector.toList
          = ((parseBytes s n (i + 1)).map List.Vector.toList).map (byte :: ·) := by
            cases parseBytes s n (i + 1) with
            | error e => rfl
            | ok bytes => exact congrArg Except.ok (List.Vector.toList_cons byte bytes)
        _ = (Checked.mapErr (fun _ => .notHex)
              ((List.range' (i * 2 + 2) n 2).mapM (decodePair s))).map (byte :: ·) := by
            rw [hnext]
        _ = _ := by
            rcases (List.range' (i * 2 + 2) n 2).mapM (decodePair s) with (e | _) | bytes <;> rfl

/-- **The parser on 64 bytes** is the decoder, its bytes reversed. -/
theorem fromStr_eq {s : Str} (h : utf8Len s = 64) :
    (fromStr s).map (fun hash => hash.bytes.toList.reverse) =
      Checked.mapErr (fun _ => .notHex) (decode s) := by
  have hloop := parseBytes_eq s 32 0
  rw [fromStr, if_neg (not_not.mpr h), decode, if_neg (by omega), h]
  rw [show (64 : ℕ) / 2 = 32 from rfl, ← Nat.zero_mul 2, ← hloop]
  cases parseBytes s 32 0 with
  | error e => rfl
  | ok bytes => exact congrArg Except.ok (List.reverse_reverse bytes.toList)

theorem fromStr_eq_ok_iff {s : Str} {hash : Sha256dHash} :
    fromStr s = .ok hash ↔ utf8Len s = 64 ∧ decode s = .ok hash.bytes.toList.reverse := by
  by_cases hlen : utf8Len s = 64
  · have heq := fromStr_eq hlen
    rw [and_iff_right hlen]
    constructor
    · intro hok
      rw [hok] at heq
      exact Checked.mapErr_eq_ok.mp heq.symm
    · intro hok
      rw [hok, Checked.mapErr_ok] at heq
      obtain ⟨hash', hparse, hbytes⟩ := Checked.map_eq_ok.mp heq
      have hsame : hash'.bytes = hash.bytes := arr_ext (List.reverse_injective hbytes)
      exact hparse.trans (congrArg (fun bytes => Except.ok (Sha256dHash.mk bytes)) hsame)
  · rw [fromStr, if_pos hlen]
    exact iff_of_false (by simp [Checked.err]) fun h => hlen h.1

theorem fromStr_eq_panic_iff {s : Str} :
    fromStr s = .panic ↔ utf8Len s = 64 ∧ SplitsChar s := by
  by_cases hlen : utf8Len s = 64
  · have heq := fromStr_eq hlen
    rw [and_iff_right hlen, ← decode_eq_panic_iff, ← Checked.map_eq_panic, heq,
      Checked.mapErr_eq_panic]
  · rw [fromStr, if_pos hlen]
    exact iff_of_false (by simp) fun h => hlen h.1

/-- What the parser promises of a string. -/
structure ParsesHash (s : Str) : Prop where
  /-- It returns. -/
  noPanic : fromStr s ≠ .panic
  /-- It accepts 64 hex digits, and nothing else. -/
  accepts : (∃ hash, fromStr s = .ok hash) ↔ s.length = 64 ∧ ∀ c ∈ s, IsHexDigit c
  /-- The hash is printed as the string in lower case. -/
  value : ∀ hash, fromStr s = .ok hash → hash.display = lower s

/-- **The strings the parser goes wrong on**: 64 bytes that, behind some pairs the number
parser reads, end inside a character; or that are all such pairs, one with a plus sign. -/
def MisreadHash (s : Str) : Prop :=
  utf8Len s = 64 ∧
    (SplitsChar s ∨ ∃ ps, s = pairChars ps ∧ (∀ p ∈ ps, ReadablePair p) ∧ '+' ∈ s)

theorem utf8Len_of_isHexDigit {s : Str} (h : ∀ c ∈ s, IsHexDigit c) : utf8Len s = s.length := by
  induction s with
  | nil => rfl
  | cons c s ih =>
    rw [utf8Len, (h c List.mem_cons_self).utf8Size,
      ih fun d hd => h d (List.mem_cons_of_mem c hd), List.length_cons, Nat.add_comm]

/-- The pairs of a string of 64 digits. -/
theorem exists_pairs_of_isHexDigit {s : Str} (hlen : s.length = 64)
    (h : ∀ c ∈ s, IsHexDigit c) : ∃ ps, s = pairChars ps ∧ ∀ p ∈ ps, HexPair p := by
  obtain ⟨ps, t, rfl, hps, ht⟩ := exists_hexPairs s
  have heven : utf8Len (pairChars ps ++ t) % 2 = 0 := by rw [utf8Len_of_isHexDigit h, hlen]
  obtain rfl := (forall_isHexDigit_iff hps ht heven).mp h
  exact ⟨ps, List.append_nil _, hps⟩

/-- What is accepted is pairs that the number parser reads. -/
theorem pairs_of_fromStr {s : Str} {hash : Sha256dHash} (h : fromStr s = .ok hash) :
    utf8Len s = 64 ∧ ∃ ps, s = pairChars ps ∧ ∀ p ∈ ps, ReadablePair p := by
  obtain ⟨hlen, hok⟩ := fromStr_eq_ok_iff.mp h
  obtain ⟨ps, rfl, hps, -⟩ := (decode_isOk_iff s _).mp ⟨_, hok, rfl⟩
  exact ⟨hlen, ps, rfl, hps⟩

/-- Pairs that the number parser reads are accepted, if there are 32. -/
theorem fromStr_isOk {ps : List (Char × Char)} (hps : ∀ p ∈ ps, ReadablePair p)
    (hlen : utf8Len (pairChars ps) = 64) : ∃ hash, fromStr (pairChars ps) = .ok hash := by
  obtain ⟨bytes, hok, hbytes⟩ := (decode_isOk_iff _ ps.length).mpr ⟨ps, rfl, hps, rfl⟩
  rw [utf8Len_pairChars hps] at hlen
  have hrev : bytes.reverse.length = 32 := by
    rw [List.length_reverse]
    omega
  refine ⟨⟨toArr bytes.reverse hrev⟩, fromStr_eq_ok_iff.mpr ⟨?_, ?_⟩⟩
  · rw [utf8Len_pairChars hps, hlen]
  · rw [toList_toArr, List.reverse_reverse, hok]

/-- What is accepted, and not misread, is 64 digits, and is printed as it was. -/
theorem digits_of_fromStr {s : Str} {hash : Sha256dHash} (hgood : ¬ MisreadHash s)
    (h : fromStr s = .ok hash) :
    s.length = 64 ∧ (∀ c ∈ s, IsHexDigit c) ∧ hash.display = lower s := by
  obtain ⟨hlen, ps, rfl, hps⟩ := pairs_of_fromStr h
  have hplus : '+' ∉ pairChars ps := fun hmem => hgood ⟨hlen, Or.inr ⟨ps, rfl, hps, hmem⟩⟩
  have hdigits := isHexDigit_of_pairChars hps hplus
  have hlength : (pairChars ps).length = 64 := (utf8Len_of_isHexDigit hdigits).symm.trans hlen
  obtain ⟨qs, hqs, hall⟩ := exists_pairs_of_isHexDigit hlength hdigits
  have hok := (fromStr_eq_ok_iff.mp h).2
  rw [hqs] at hok ⊢
  rw [hqs] at hlength hdigits
  refine ⟨hlength, hdigits, ?_⟩
  rw [display_eq]
  exact ((decodesHex_pairChars hall).value _ hok).2

/-- A string that is not misread is parsed as promised. -/
theorem parsesHash_of_not_misread {s : Str} (hgood : ¬ MisreadHash s) : ParsesHash s where
  noPanic hpanic := by
    obtain ⟨hlen, hsplit⟩ := fromStr_eq_panic_iff.mp hpanic
    exact hgood ⟨hlen, Or.inl hsplit⟩
  accepts := by
    constructor
    · rintro ⟨hash, hok⟩
      obtain ⟨hlen, hdigits, -⟩ := digits_of_fromStr hgood hok
      exact ⟨hlen, hdigits⟩
    · rintro ⟨hlen, hdigits⟩
      obtain ⟨ps, rfl, hps⟩ := exists_pairs_of_isHexDigit hlen hdigits
      exact fromStr_isOk (fun p hp => (hps p hp).readable)
        ((utf8Len_of_isHexDigit hdigits).trans hlen)
  value hash hok := (digits_of_fromStr hgood hok).2.2

/-- A string that is misread is not parsed as promised: the parser panics on it, or accepts
a plus sign. -/
theorem not_parsesHash_of_misread {s : Str} (hbad : MisreadHash s) : ¬ ParsesHash s := by
  intro hparse
  obtain ⟨hlen, hsplit | ⟨ps, rfl, hps, hplus⟩⟩ := hbad
  · exact hparse.noPanic (fromStr_eq_panic_iff.mpr ⟨hlen, hsplit⟩)
  · obtain ⟨-, hdigits⟩ := hparse.accepts.mp (fromStr_isOk hps hlen)
    exact not_isHexDigit_plus (hdigits '+' hplus)

/-- **The parser keeps its promise on every string but those it misreads**, and undoes
printing. -/
theorem parsesHash_iff (s : Str) :
    (ParsesHash s ↔ ¬ MisreadHash s) ∧
      ∀ hash : Sha256dHash, fromStr hash.display = .ok hash := by
  refine ⟨⟨fun hparse hbad => ?_, parsesHash_of_not_misread⟩, fun hash => ?_⟩
  · exact not_parsesHash_of_misread hbad hparse
  · refine fromStr_eq_ok_iff.mpr ⟨?_, decode_encode _⟩
    rw [display_eq, utf8Len_encode, List.length_reverse, length_bytes]

/-- Two strings of 64 bytes that the parser goes wrong on: it panics on the one and
accepts the other. -/
theorem not_parsesHash :
    ¬ ParsesHash ('a' :: 'é' :: List.replicate 61 'a') ∧
      ¬ ParsesHash (pairChars (List.replicate 32 ('+', '1'))) := by
  constructor
  · intro h
    refine h.noPanic (fromStr_eq_panic_iff.mpr ⟨by decide, by decide, [], _, rfl, by simp, ?_⟩)
    exact Or.inr ⟨by decide, by decide⟩
  · intro h
    have hread : ∀ p ∈ List.replicate 32 ('+', '1'), ReadablePair p := fun p hp => by
      rw [List.eq_of_mem_replicate hp]
      decide
    obtain ⟨-, hdigits⟩ := h.accepts.mp (fromStr_isOk hread (by decide))
    exact not_isHexDigit_plus (hdigits '+' (by decide))

end Sha256dHash

end SoloMiner
