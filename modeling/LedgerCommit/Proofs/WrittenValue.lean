import LedgerCommit.Toml.Value
import Mathlib.Data.List.Basic

/-!
# Values are read as they were written

Plain text is written without escapes, between the quotes that it does not
contain, and a number in decimal digits. At the end of a line each of them is
read back, and as nothing else: no front of a number reads as a moment or as a
float.
-/

namespace LedgerCommit.Toml

/-- The text is read as the item at the end of a line. -/
structure IsValue (text : List Char) (item : Item) : Prop where
  skipBlanks_eq : ∀ rest, skipBlanks (text ++ rest) = text ++ rest
  read_eq : ∀ depth rest, readValue depth (text ++ '\n' :: rest) = some (item, '\n' :: rest)

/-- Characters that a test tells apart. -/
theorem ne_of_test {p : Char → Bool} {c d : Char} (hc : p c = true) (hd : p d = false) : c ≠ d := by
  rintro rfl
  rw [hc] at hd
  cases hd

/-- Texts that a test of their first characters tells apart. -/
theorem cons_ne_of_test {p : Char → Bool} {c d : Char} {s t : List Char} (hc : p c = true)
    (hd : p d = false) : c :: s ≠ d :: t :=
  fun h => ne_of_test hc hd (List.cons.inj h).1

/-- A value that begins neither with a bracket nor with a letter of a truth value
is text or a number. -/
theorem readValue_of_notMem {c : Char} (h : c ∉ ['[', '{', 't', 'f']) (depth : Nat)
    (s : List Char) :
    readValue depth (c :: s)
      = (((readString (c :: s)).map fun (text, rest) => (Item.string (String.ofList text), rest))
          <|> readNumeric (c :: s)) := by
  rw [readValue.eq_def]
  split <;> simp_all

/-! ## Text -/

/-- Whether a character is neither a control character, tabs included, nor a
single quote. -/
def isPlain (c : Char) : Bool := !isControl c && c ≠ '\t' && c ≠ '\''

section Text

variable {cs rest : List Char}

theorem isPlain_iff {c : Char} :
    isPlain c = true ↔ isControl c = false ∧ c ≠ '\t' ∧ c ≠ '\'' := by
  simp [isPlain, and_assoc]

theorem escape_of_isPlain {c : Char} (h : isPlain c = true) (hquote : c ≠ '"')
    (hslash : c ≠ '\\') : escape c = [c] := by
  obtain ⟨hcontrol, htab, -⟩ := isPlain_iff.mp h
  have hletter : escapeLetter? c = none := by
    have hne : ∀ d, isControl d = true → c ≠ d := fun d hd => (ne_of_test hd hcontrol).symm
    simp only [escapeLetter?, hne '\x08' rfl, htab, hne '\n' rfl, hne '\x0c' rfl, hne '\x0d' rfl,
      hquote, hslash, or_self, if_false]
  simp [escape, hletter, hcontrol]

/-- Plain text is written as it is: between single quotes if there is something
to escape, and between double quotes if there is not. -/
theorem quote_of_isPlain (h : ∀ c ∈ cs, isPlain c = true) :
    quote cs = '\'' :: cs ++ ['\''] ∧ cs ≠ []
      ∨ quote cs = '"' :: cs ++ ['"'] ∧ ∀ c ∈ cs, c ≠ '"' ∧ c ≠ '\\' := by
  by_cases hescape : ∃ c ∈ cs, c = '"' ∨ c = '\\'
  · have hliteral : prefersLiteral cs = true := by
      simp only [prefersLiteral, Bool.and_eq_true, Bool.not_eq_true', List.any_eq_true,
        List.any_eq_false, Bool.or_eq_true, decide_eq_true_eq]
      refine ⟨hescape, fun c hc => ?_⟩
      simp [isPlain_iff.mp (h c hc)]
    refine .inl ⟨by rw [quote, if_pos hliteral], ?_⟩
    rintro rfl
    obtain ⟨c, hc, -⟩ := hescape
    cases hc
  · have hplain : ∀ c ∈ cs, c ≠ '"' ∧ c ≠ '\\' := fun c hc =>
      ⟨fun he => hescape ⟨c, hc, .inl he⟩, fun he => hescape ⟨c, hc, .inr he⟩⟩
    have hliteral : prefersLiteral cs = false := by
      simp only [prefersLiteral, Bool.and_eq_false_iff, List.any_eq_false]
      refine .inl fun c hc => ?_
      simp [hplain c hc]
    have hescaped : cs.flatMap escape = cs := by
      have hmap : cs.map escape = cs.map fun c => [c] := List.map_congr_left fun c hc =>
        escape_of_isPlain (h c hc) (hplain c hc).1 (hplain c hc).2
      rw [List.flatMap_def, hmap, ← List.flatMap_def]
      exact List.flatMap_singleton' cs
    exact .inr ⟨by simp [quote, hliteral, hescaped], hplain⟩

theorem readLiteral_append (h : ∀ c ∈ cs, isPlain c = true) :
    readLiteral (cs ++ '\'' :: rest) = some (cs, rest) := by
  induction cs with
  | nil => rfl
  | cons c cs ih =>
      rw [List.forall_mem_cons, isPlain_iff] at h
      simp [readLiteral, h.1, ih h.2, prepend]

theorem readEscaped_append (h : ∀ c ∈ cs, isPlain c = true)
    (hescape : ∀ c ∈ cs, c ≠ '"' ∧ c ≠ '\\') :
    readEscaped (cs ++ '"' :: rest) = some (cs, rest) := by
  induction cs with
  | nil => simp [readEscaped]
  | cons c cs ih =>
      rw [List.forall_mem_cons] at h hescape
      rw [isPlain_iff] at h
      simp [readEscaped, hescape.1, h.1, ih h.2 hescape.2, prepend]

/-- Plain text is read back. Its quotes are not taken for the first of three. -/
theorem readString_quote (h : ∀ c ∈ cs, isPlain c = true) :
    readString (quote cs ++ '\n' :: rest) = some (cs, '\n' :: rest) := by
  rcases quote_of_isPlain h with ⟨hquote, hne⟩ | ⟨hquote, hescape⟩
  · have hread : readLiteral (cs ++ '\'' :: '\n' :: rest) = some (cs, '\n' :: rest) :=
      readLiteral_append h
    rw [hquote, List.cons_append, List.cons_append, List.append_assoc, List.singleton_append]
    obtain ⟨c, cs, rfl⟩ := List.exists_cons_of_ne_nil hne
    have hc := (isPlain_iff.mp (h c List.mem_cons_self)).2.2
    simp only [List.cons_append] at hread ⊢
    simp [readString, readQuoted, hread, hc]
  · have hread : readEscaped (cs ++ '"' :: '\n' :: rest) = some (cs, '\n' :: rest) :=
      readEscaped_append h hescape
    rw [hquote, List.cons_append, List.cons_append, List.append_assoc, List.singleton_append]
    cases cs with
    | nil => simpa [readString, readQuoted] using hread
    | cons c cs =>
        have hc := (hescape c List.mem_cons_self).1
        simp only [List.cons_append] at hread ⊢
        simp [readString, readQuoted, hread, hc]

theorem isValue_quote (h : ∀ c ∈ cs, isPlain c = true) :
    IsValue (quote cs) (.string (String.ofList cs)) := by
  have hfirst : ∃ c s, quote cs = c :: s ∧ isBlank c = false ∧ c ∉ ['[', '{', 't', 'f'] := by
    rcases quote_of_isPlain h with ⟨hquote, -⟩ | ⟨hquote, -⟩
    · exact ⟨'\'', _, hquote, rfl, by decide⟩
    · exact ⟨'"', _, hquote, rfl, by decide⟩
  obtain ⟨c, s, hs, hblank, hc⟩ := hfirst
  constructor
  · intro rest
    simp [hs, skipBlanks, hblank]
  · intro depth rest
    have hread : readString (quote cs ++ '\n' :: rest) = some (cs, '\n' :: rest) :=
      readString_quote h
    rw [hs, List.cons_append] at hread ⊢
    rw [readValue_of_notMem hc, hread]
    rfl

end Text

/-! ## Digits -/

variable {c : Char} {cs rest : List Char}

def decimalValue (c : Char) : Nat := c.toNat - '0'.toNat

theorem digitValue?_of_isDigit (h : isDigit c = true) :
    digitValue? 10 c = some (decimalValue c) := by
  have hrange : 48 ≤ c.toNat ∧ c.toNat ≤ 57 := by
    simpa [isDigit, Char.le_def, UInt32.le_iff_toNat_le] using h
  simp only [digitValue?, h, if_true, Option.filter_some]
  rw [if_pos (by simp; omega)]
  rfl

/-- Letters are digits of larger bases only. -/
theorem digitValue?_of_not_isDigit (h : isDigit c = false) : digitValue? 10 c = none := by
  simp only [digitValue?, h, Bool.false_eq_true, if_false, Char.le_def, UInt32.le_iff_toNat_le]
  split
  next hlow =>
    have hlarge : 10 ≤ c.toNat - 87 := by
      have : 97 ≤ c.toNat := hlow.1
      omega
    simp [hlarge]
  next =>
    split
    next hup =>
      have hlarge : 10 ≤ c.toNat - 55 := by
        have : 65 ≤ c.toNat := hup.1
        omega
      simp [hlarge]
    next => rfl

theorem isDigit_of_mapM {vs : List Nat} (h : cs.mapM (digitValue? 10) = some vs) :
    ∀ d ∈ cs, isDigit d = true := by
  induction cs generalizing vs with
  | nil => simp
  | cons c cs ih =>
      rw [List.mapM_cons] at h
      cases hc : isDigit c with
      | false =>
          rw [digitValue?_of_not_isDigit hc] at h
          cases h
      | true =>
          obtain ⟨v, -, hrest⟩ := Option.bind_eq_some_iff.mp h
          obtain ⟨vs, hvs, -⟩ := Option.bind_eq_some_iff.mp hrest
          exact List.forall_mem_cons.mpr ⟨hc, ih hvs⟩

theorem moreDigits_append (h : ∀ d ∈ cs, isDigit d = true) :
    moreDigits 10 (cs ++ '\n' :: rest) = (cs.map decimalValue, '\n' :: rest) := by
  induction cs with
  | nil => rfl
  | cons d cs ih =>
      rw [List.forall_mem_cons] at h
      have hd : d ≠ '_' := ne_of_test h.1 rfl
      simp [moreDigits, digitValue?_of_isDigit h.1, ih h.2, hd]

theorem readSign_of_isDigit (h : isDigit c = true) : readSign (c :: cs) = (false, c :: cs) := by
  unfold readSign
  split
  next hsign => exact absurd hsign (cons_ne_of_test h rfl)
  next hsign => exact absurd hsign (cons_ne_of_test h rfl)
  next => rfl

/-! ## Numbers -/

/-- Decimal digits, the first one no needless zero. -/
structure IsNumeral (c : Char) (cs : List Char) : Prop where
  isDigit : ∀ d ∈ c :: cs, isDigit d = true
  eq_nil_of_zero : c = '0' → cs = []

theorem isDigit_of_mem_toDigits {n : Nat} (h : c ∈ Nat.toDigits 10 n) : isDigit c = true := by
  have hdigit := Nat.isDigit_of_mem_toDigits (by decide) (by decide) h
  simpa [isDigit, Char.isDigit, Char.le_def] using hdigit

/-- The first digit of a positive number is no zero, by induction on its digits. -/
theorem exists_head_toDigits {n : Nat} (hn : 0 < n) :
    ∃ c cs, Nat.toDigits 10 n = c :: cs ∧ c ≠ '0' := by
  induction n using Nat.base_induction 10 (by decide) with
  | single k hk =>
      have hzero : ∀ k, k < 10 → 0 < k → k.digitChar ≠ '0' := by decide
      exact ⟨k.digitChar, [], Nat.toDigits_of_lt_base hk, hzero k hk hn⟩
  | digit m k hk hm ih =>
      obtain ⟨c, cs, hdigits, hc⟩ := ih hm
      refine ⟨c, cs ++ [k.digitChar], ?_, hc⟩
      rw [← Nat.toDigits_append_toDigits (by decide) hm hk, Nat.toDigits_of_lt_base hk, hdigits]
      rfl

/-- A number is written as a numeral. -/
theorem exists_numeral (n : Nat) : ∃ c cs, Nat.toDigits 10 n = c :: cs ∧ IsNumeral c cs := by
  rcases Nat.eq_zero_or_pos n with rfl | hn
  · exact ⟨'0', [], rfl, by simp [isDigit], fun _ => rfl⟩
  · obtain ⟨c, cs, hdigits, hc⟩ := exists_head_toDigits hn
    refine ⟨c, cs, hdigits, fun d hd => ?_, fun h => absurd h hc⟩
    rw [← hdigits] at hd
    exact isDigit_of_mem_toDigits hd

namespace IsNumeral

variable (h : IsNumeral c cs)
include h

theorem head : Toml.isDigit c = true := h.isDigit c List.mem_cons_self

theorem tail : ∀ d ∈ cs, Toml.isDigit d = true :=
  fun d hd => h.isDigit d (List.mem_cons_of_mem _ hd)

theorem readWhole_eq : readWhole (c :: (cs ++ '\n' :: rest))
    = some ((c :: cs).map decimalValue, '\n' :: rest) := by
  by_cases hc : c = '0'
  · obtain rfl := h.eq_nil_of_zero hc
    subst hc
    rfl
  · simp [readWhole, hc, readDigits, digitValue?_of_isDigit h.head, moreDigits_append h.tail]

/-- The first character that is no digit is the end of the line. -/
theorem eq_newline {d : Char} {front back : List Char}
    (hshape : c :: (cs ++ '\n' :: rest) = front ++ d :: back)
    (hfront : ∀ e ∈ front, Toml.isDigit e = true) (hd : Toml.isDigit d = false) : d = '\n' := by
  have hleft : (c :: cs ++ '\n' :: rest).dropWhile Toml.isDigit = '\n' :: rest := by
    rw [List.dropWhile_append_of_pos h.isDigit]
    rfl
  have hright : (front ++ d :: back).dropWhile Toml.isDigit = d :: back := by
    rw [List.dropWhile_append_of_pos hfront, List.dropWhile_cons_of_neg (by simp [hd])]
  rw [← hshape] at hright
  exact (List.cons.inj (hright.symm.trans hleft)).1

theorem second_ne {d : Char} {s : List Char} (hd : Toml.isDigit d = false) (hne : d ≠ '\n') :
    cs ++ '\n' :: rest ≠ d :: s := by
  intro heq
  have hshape : c :: (cs ++ '\n' :: rest) = [c] ++ d :: s := congrArg (c :: ·) heq
  exact hne (h.eq_newline hshape (by simpa using h.head) hd)

/-- A part of a moment ends with a point or a hyphen, and a numeral with its line. -/
theorem fixedNumber?_eq_none {d : Char} {front back : List Char}
    (hshape : c :: (cs ++ '\n' :: rest) = front ++ d :: back) (hd : Toml.isDigit d = false)
    (hne : d ≠ '\n') : fixedNumber? front = none := by
  cases hvs : front.mapM (digitValue? 10) with
  | none => rw [fixedNumber?, hvs]; rfl
  | some vs => exact absurd (h.eq_newline hshape (isDigit_of_mapM hvs) hd) hne

theorem afterMoment?_eq_none : afterMoment? (c :: (cs ++ '\n' :: rest)) = none := by
  have hdate : afterDate? (c :: (cs ++ '\n' :: rest)) = none := by
    unfold afterDate?
    split
    next y1 y2 y3 y4 m1 m2 d1 d2 back heq =>
      have hyear : fixedNumber? [y1, y2, y3, y4] = none :=
        h.fixedNumber?_eq_none heq rfl (by decide)
      rw [hyear]
      rfl
    next => rfl
  have hminute : afterHourMinute? (c :: (cs ++ '\n' :: rest)) = none := by
    unfold afterHourMinute?
    split
    next h1 h2 m1 m2 back heq =>
      have hhour : fixedNumber? [h1, h2] = none := h.fixedNumber?_eq_none heq rfl (by decide)
      rw [hhour]
      rfl
    next => rfl
  rw [afterMoment?, hdate, afterTime?, hminute]
  rfl

theorem afterFloat?_eq_none : afterFloat? (c :: (cs ++ '\n' :: rest)) = none := by
  have hfinite : afterFiniteFloat? (c :: (cs ++ '\n' :: rest)) = none := by
    simp [afterFiniteFloat?, readSign_of_isDigit h.head, h.readWhole_eq, readFraction,
      readExponent]
  have hspecial : afterSpecialFloat? (c :: (cs ++ '\n' :: rest)) = none := by
    rw [afterSpecialFloat?, readSign_of_isDigit h.head]
    split
    next heq => exact absurd heq (cons_ne_of_test h.head rfl)
    next heq => exact absurd heq (cons_ne_of_test h.head rfl)
    next => rfl
  rw [afterFloat?, hfinite, hspecial]
  rfl

theorem readAnyInteger_eq : readAnyInteger (c :: (cs ++ '\n' :: rest))
    = some ((Nat.ofDigitChars 10 (c :: cs) 0 : Int), '\n' :: rest) := by
  have hvalue : ofDigits 10 ((c :: cs).map decimalValue) = Nat.ofDigitChars 10 (c :: cs) 0 := by
    rw [ofDigits, List.foldl_map]
    rfl
  unfold readAnyInteger
  split
  next heq => exact absurd (List.cons.inj heq).2 (h.second_ne rfl (by decide))
  next heq => exact absurd (List.cons.inj heq).2 (h.second_ne rfl (by decide))
  next heq => exact absurd (List.cons.inj heq).2 (h.second_ne rfl (by decide))
  next =>
    simp only [readSign_of_isDigit h.head, h.readWhole_eq, Option.map_some, hvalue]
    rfl

theorem readString_eq_none : readString (c :: (cs ++ '\n' :: rest)) = none := by
  have hdouble := ne_of_test (d := '"') h.head rfl
  have hsingle := ne_of_test (d := '\'') h.head rfl
  simp [readString, readQuoted, hdouble, hsingle]

end IsNumeral

theorem isValue_toDigits {n : Nat} (hfits : fitsSigned n = true) :
    IsValue (Nat.toDigits 10 n) (.integer n) := by
  obtain ⟨c, cs, hdigits, h⟩ := exists_numeral n
  have hvalue : Nat.ofDigitChars 10 (c :: cs) 0 = n := by
    rw [← hdigits]
    exact Nat.ofDigitChars_ten_toDigits
  have hne : ∀ d, isDigit d = false → c ≠ d := fun d hd => ne_of_test h.head hd
  rw [hdigits]
  constructor
  · intro rest
    simp [skipBlanks, isBlank, hne ' ' rfl, hne '\t' rfl]
  · intro depth rest
    have hc : c ∉ ['[', '{', 't', 'f'] := by
      simp [hne '[' rfl, hne '{' rfl, hne 't' rfl, hne 'f' rfl]
    have hinteger : readInteger (c :: (cs ++ '\n' :: rest)) = some ((n : Int), '\n' :: rest) := by
      rw [readInteger, h.readAnyInteger_eq, hvalue, Option.filter_some, if_pos hfits]
    rw [List.cons_append, readValue_of_notMem hc, h.readString_eq_none, readNumeric,
      h.afterMoment?_eq_none, h.afterFloat?_eq_none, hinteger]
    rfl

end LedgerCommit.Toml
