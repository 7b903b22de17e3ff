import LedgerCommit.Hash
import LedgerCommit.Key
import Mathlib.Algebra.Ring.Nat
import Mathlib.Tactic.IntervalCases

/-!
# Hexadecimal text is read exactly

The forms of a value of `n` bytes are the texts of `2 * n` hexadecimal digits
in either case; of these the one in lower case is printed. Reading accepts the
forms and nothing else, gives back what was printed, and reports the first of
three faults of every other text. Texts are read as bytes: a character that is
not ASCII stands for several bytes, and none of them is a digit.
-/

namespace LedgerCommit.Hex

/-! ## The grammar -/

/-- A hexadecimal digit, in either case. -/
def IsDigit (c : Char) : Prop :=
  ('0' ≤ c ∧ c ≤ '9') ∨ ('a' ≤ c ∧ c ≤ 'f') ∨ ('A' ≤ c ∧ c ≤ 'F')

/-- The byte is the code of a digit. -/
def IsDigitByte (b : UInt8) : Prop := IsDigit (Char.ofNat b.toNat)

/-- What is wrong first with the bytes of a text that is no form of `n` bytes. -/
inductive FirstFault (n : Nat) (bytes : List UInt8) : ParseError → Prop where
  | oddLength : bytes.length % 2 = 1 → FirstFault n bytes (.malformed .oddLength)
  /-- All bytes before this one are digits. -/
  | badDigit {before after : List UInt8} {b : UInt8} : bytes.length % 2 = 0 →
      bytes = before ++ b :: after → (∀ d ∈ before, IsDigitByte d) → ¬ IsDigitByte b →
      FirstFault n bytes (.malformed (.badDigit b before.length))
  | wrongLength : bytes.length % 2 = 0 → (∀ d ∈ bytes, IsDigitByte d) → bytes.length ≠ 2 * n →
      FirstFault n bytes (.wrongLength n (bytes.length / 2))

/-- Values of `n` bytes are printed and read in hexadecimal form. -/
structure ReadsExactly {α : Type} (n : Nat) (print : α → String)
    (read : String → Except ParseError α) : Prop where
  accepts_iff : ∀ s, (∃ x, read s = .ok x) ↔ s.length = 2 * n ∧ ∀ c ∈ s.toList, IsDigit c
  print_of_read : ∀ s x, read s = .ok x → print x = s.map Char.toLower
  read_print : ∀ x, read (print x) = .ok x
  refuses_iff : ∀ s e, read s = .error e ↔ FirstFault n s.toUTF8.toList e

/-! ## Digits -/

theorem isDigit_iff {c : Char} : IsDigit c ↔
    (48 ≤ c.toNat ∧ c.toNat ≤ 57) ∨ (97 ≤ c.toNat ∧ c.toNat ≤ 102)
      ∨ (65 ≤ c.toNat ∧ c.toNat ≤ 70) := by
  simp only [IsDigit, Char.le_def, UInt32.le_iff_toNat_le]
  rfl

theorem isDigitByte_iff {b : UInt8} : IsDigitByte b ↔
    (48 ≤ b.toNat ∧ b.toNat ≤ 57) ∨ (97 ≤ b.toNat ∧ b.toNat ≤ 102)
      ∨ (65 ≤ b.toNat ∧ b.toNat ≤ 70) := by
  have hb : b.toNat < 256 := b.toNat_lt
  have hvalid : b.toNat.isValidChar := .inl (by omega)
  have hcode : (Char.ofNat b.toNat).toNat = b.toNat := by
    rw [Char.ofNat, dif_pos hvalid]
    rfl
  rw [IsDigitByte, isDigit_iff, hcode]

theorem digitValue?_eq_none_iff {b : UInt8} : digitValue? b = none ↔ ¬ IsDigitByte b := by
  rw [isDigitByte_iff, digitValue?]
  grind

/-- A value is printed as its digit in lower case. -/
theorem digit_of_digitValue? {b : UInt8} {v : Nat} (h : digitValue? b = some v) :
    v < 16 ∧ digit v = (Char.ofNat b.toNat).toLower := by
  have hdigit : IsDigitByte b := by
    by_contra hb
    rw [digitValue?_eq_none_iff.mpr hb] at h
    cases h
  rw [isDigitByte_iff] at hdigit
  rw [digitValue?] at h
  generalize b.toNat = n at *
  -- one digit after the other
  rcases hdigit with ⟨hlow, hhigh⟩ | ⟨hlow, hhigh⟩ | ⟨hlow, hhigh⟩ <;>
    interval_cases n <;> cases h <;> decide

theorem exists_digitValue? {b : UInt8} (h : IsDigitByte b) : ∃ v, digitValue? b = some v :=
  Option.ne_none_iff_exists'.mp (mt digitValue?_eq_none_iff.mp (not_not_intro h))

theorem isDigit_digit {v : Nat} (h : v < 16) : IsDigit (digit v) := by
  rw [isDigit_iff]
  interval_cases v <;> decide

theorem digitValue?_digit {v : Nat} (h : v < 16) :
    digitValue? (UInt8.ofNat (digit v).toNat) = some v := by
  interval_cases v <;> rfl

/-! ## The bytes of a text -/

theorem byteArray_toList (bs : ByteArray) : bs.toList = bs.data.toList := by
  have key : ∀ rest i seen, bs.data.toList.drop i = rest →
      ByteArray.toList.loop bs i seen = seen.reverse ++ rest := by
    intro rest
    induction rest with
    | nil =>
        intro i seen hrest
        have hsize : bs.size ≤ i := List.drop_eq_nil_iff.mp hrest
        rw [ByteArray.toList.loop, if_neg (by omega), List.append_nil]
    | cons b rest ih =>
        intro i seen hrest
        have hi : bs.data.toList[i]? = some b := by
          rw [← List.head?_drop, hrest, List.head?_cons]
        have hlt : i < bs.size := (List.getElem?_eq_some_iff.mp hi).1
        have hget : bs.get! i = b := by
          show bs.data[i]! = b
          rw [getElem!_def, ← Array.getElem?_toList, hi]
        have hdrop : bs.data.toList.drop (i + 1) = rest := by
          rw [← List.drop_drop, hrest, List.drop_one, List.tail_cons]
        rw [ByteArray.toList.loop, if_pos hlt, ih _ _ hdrop, hget, List.reverse_cons,
          List.append_assoc]
        rfl
  exact key _ 0 [] rfl

/-- A text as bytes is its characters as bytes. -/
theorem toList_toUTF8 (s : String) : s.toUTF8.toList = s.toList.flatMap String.utf8EncodeChar := by
  rw [byteArray_toList, String.toUTF8, ← String.utf8Encode_toList, List.utf8Encode,
    List.data_toByteArray]

theorem utf8EncodeChar_of_isDigit {c : Char} (h : IsDigit c) :
    String.utf8EncodeChar c = [UInt8.ofNat c.toNat] := by
  rw [isDigit_iff] at h
  have hascii : c.val.toNat ≤ 127 := by
    show c.toNat ≤ 127
    omega
  rw [String.utf8EncodeChar, if_pos hascii]
  rfl

/-- A character is a digit if its bytes are. -/
theorem isDigit_iff_bytes {c : Char} :
    IsDigit c ↔ ∀ b ∈ String.utf8EncodeChar c, IsDigitByte b := by
  constructor
  · intro h b hb
    rw [utf8EncodeChar_of_isDigit h, List.mem_singleton] at hb
    have hcode := isDigit_iff.mp h
    rw [hb, isDigitByte_iff, UInt8.toNat_ofNat_of_lt' (by show c.toNat < 256; omega)]
    exact hcode
  · intro h
    have hfirst : ∀ k, k < 64 → ¬ IsDigitByte (UInt8.ofNat (k + 192)) := by
      intro k hk
      rw [isDigitByte_iff, UInt8.toNat_ofNat_of_lt' (by show k + 192 < 256; omega)]
      omega
    rw [String.utf8EncodeChar] at h
    split at h
    next hascii =>
      have hcode := isDigitByte_iff.mp (h _ (List.mem_singleton_self _))
      rw [UInt8.toNat_ofNat_of_lt' (by show c.val.toNat < 256; omega)] at hcode
      exact isDigit_iff.mpr hcode
    next =>
      -- a character of several bytes begins with one that is no digit
      split at h
      next => exact absurd (h _ List.mem_cons_self) (hfirst _ (by omega))
      next =>
        split at h
        next => exact absurd (h _ List.mem_cons_self) (hfirst (_ + 32) (by omega))
        next => exact absurd (h _ List.mem_cons_self) (hfirst (_ + 48) (by omega))

/-- A text is made of digits if its bytes are. -/
theorem isDigit_text_iff {s : String} :
    (∀ b ∈ s.toUTF8.toList, IsDigitByte b) ↔ ∀ c ∈ s.toList, IsDigit c := by
  rw [toList_toUTF8]
  simp only [isDigit_iff_bytes, List.mem_flatMap]
  grind

/-- A digit is the character of its byte. -/
theorem ofNat_byte_of_isDigit {c : Char} (h : IsDigit c) :
    Char.ofNat (UInt8.ofNat c.toNat).toNat = c := by
  rw [isDigit_iff] at h
  rw [UInt8.toNat_ofNat_of_lt' (by show c.toNat < 256; omega), Char.ofNat_toNat]

theorem flatMap_utf8EncodeChar {cs : List Char} (h : ∀ c ∈ cs, IsDigit c) :
    cs.flatMap String.utf8EncodeChar = cs.map fun c => UInt8.ofNat c.toNat := by
  induction cs with
  | nil => rfl
  | cons c cs ih =>
      rw [List.forall_mem_cons] at h
      rw [List.flatMap_cons, utf8EncodeChar_of_isDigit h.1, ih h.2]
      rfl

/-- The bytes as characters, in lower case. -/
def lowered (bytes : List UInt8) : List Char :=
  bytes.map fun b => (Char.ofNat b.toNat).toLower

theorem lowered_toUTF8 {s : String} (h : ∀ c ∈ s.toList, IsDigit c) :
    s.toUTF8.toList.length = s.length
      ∧ lowered s.toUTF8.toList = s.toList.map Char.toLower := by
  rw [toList_toUTF8, flatMap_utf8EncodeChar h, lowered, List.map_map]
  refine ⟨by rw [List.length_map, String.length_toList], ?_⟩
  refine List.map_congr_left fun c hc => ?_
  rw [Function.comp_apply, ofNat_byte_of_isDigit (h c hc)]

/-! ## Reading pairs of digits -/

theorem digits_ofNat {h l : Nat} (hh : h < 16) (hl : l < 16) :
    digits (UInt8.ofNat (16 * h + l)) = [digit h, digit l] := by
  have hbyte : (UInt8.ofNat (16 * h + l)).toNat = 16 * h + l :=
    UInt8.toNat_ofNat_of_lt' (by show 16 * h + l < 256; omega)
  have hhigh : (16 * h + l) / 16 = h := by omega
  have hlow : (16 * h + l) % 16 = l := by omega
  rw [digits, hbyte, hhigh, hlow]

/-- Digits in pairs are read, and printed again in lower case. -/
theorem decodePairs_of_digits (pos : Nat) {bytes : List UInt8} (heven : bytes.length % 2 = 0)
    (hdigits : ∀ b ∈ bytes, IsDigitByte b) : ∃ out, decodePairs pos bytes = .ok out
      ∧ 2 * out.length = bytes.length ∧ out.flatMap digits = lowered bytes := by
  fun_induction decodePairs pos bytes with
  | case1 pos hi lo rest hhi =>
      exact absurd (hdigits hi (by simp)) (digitValue?_eq_none_iff.mp hhi)
  | case2 pos hi lo rest h hlo hhi =>
      exact absurd (hdigits lo (by simp)) (digitValue?_eq_none_iff.mp hlo)
  | case3 pos hi lo rest h l hlo hhi ih =>
      simp only [List.length_cons] at heven
      obtain ⟨out, hout, hlength, hprinted⟩ := ih (by omega) fun b hb =>
        hdigits b (List.mem_cons_of_mem _ (List.mem_cons_of_mem _ hb))
      obtain ⟨hh, hhigh⟩ := digit_of_digitValue? hhi
      obtain ⟨hl, hlow⟩ := digit_of_digitValue? hlo
      refine ⟨UInt8.ofNat (16 * h + l) :: out, by rw [hout]; rfl, ?_, ?_⟩
      · simp only [List.length_cons]
        omega
      · rw [List.flatMap_cons, digits_ofNat hh hl, hprinted, hhigh, hlow]
        rfl
  | case4 bytes pos hshort =>
      match bytes with
      | [] => exact ⟨[], rfl, rfl, rfl⟩
      | [b] => cases heven
      | hi :: lo :: rest => exact absurd rfl (hshort hi lo rest)

/-- The first byte that is no digit is reported, whether it stands first or
second in its pair. -/
theorem decodePairs_of_badDigit {b : UInt8} {after : List UInt8} (hb : ¬ IsDigitByte b) :
    ∀ (pos : Nat) (before : List UInt8), (before ++ b :: after).length % 2 = 0 →
      (∀ d ∈ before, IsDigitByte d) →
      decodePairs pos (before ++ b :: after) = .error (.badDigit b (pos + before.length))
  | pos, [], heven, _ => by
      match after with
      | [] => cases heven
      | lo :: rest => simp [decodePairs, digitValue?_eq_none_iff.mpr hb]
  | pos, [d], _, hbefore => by
      obtain ⟨h, hd⟩ := exists_digitValue? (hbefore d (by simp))
      simp [decodePairs, hd, digitValue?_eq_none_iff.mpr hb]
  | pos, d :: d' :: before, heven, hbefore => by
      obtain ⟨h, hd⟩ := exists_digitValue? (hbefore d (by simp))
      obtain ⟨l, hd'⟩ := exists_digitValue? (hbefore d' (by simp))
      have hrest : (before ++ b :: after).length % 2 = 0 := by
        simp only [List.cons_append, List.length_cons] at heven
        omega
      have ih := decodePairs_of_badDigit hb (pos + 2) before hrest fun e he =>
        hbefore e (by simp [he])
      simp only [List.cons_append, decodePairs, hd, hd', ih, Except.map, List.length_cons]
      congr 2
      omega

/-- What is printed is read back. -/
theorem decodePairs_digits (pos : Nat) (bs : List UInt8) :
    decodePairs pos ((bs.flatMap digits).map fun c => UInt8.ofNat c.toNat) = .ok bs := by
  induction bs generalizing pos with
  | nil => rfl
  | cons b bs ih =>
      have hb : b.toNat < 256 := b.toNat_lt
      have hhigh : b.toNat / 16 < 16 := by omega
      have hlow : b.toNat % 16 < 16 := by omega
      have hbyte : 16 * (b.toNat / 16) + b.toNat % 16 = b.toNat := by omega
      simp only [List.flatMap_cons, digits, List.cons_append, List.nil_append, List.map_cons,
        decodePairs, digitValue?_digit hhigh, digitValue?_digit hlow, ih, Except.map, hbyte,
        UInt8.ofNat_toNat]

/-! ## Reading a text -/

variable {n : Nat} {s : String}

/-- A text of digits in the right number is read. -/
theorem parse_of_form (hlength : s.length = 2 * n) (hdigits : ∀ c ∈ s.toList, IsDigit c) :
    ∃ b, parse n s = .ok b ∧ encode b.toList = s.map Char.toLower := by
  obtain ⟨hbytes, hlowered⟩ := lowered_toUTF8 hdigits
  have heven : s.toUTF8.toList.length % 2 = 0 := by omega
  obtain ⟨out, hout, hcount, hprinted⟩ :=
    decodePairs_of_digits 0 heven (isDigit_text_iff.mpr hdigits)
  have hn : out.length = n := by omega
  have hdecode : decode s = .ok out := by
    rw [decode, if_neg (by omega), hout]
  refine ⟨⟨out.toArray, by simpa using hn⟩, ?_, ?_⟩
  · simp only [parse, hdecode, Bytes.ofList?, dif_pos hn]
  · rw [encode, String.map_eq_internal, ← hlowered, ← hprinted]
    rfl

/-- The first fault of a text is the one that is reported. -/
theorem parse_of_fault {e : ParseError} (h : FirstFault n s.toUTF8.toList e) :
    parse n s = .error e := by
  cases h with
  | oddLength hodd =>
      have hdecode : decode s = .error .oddLength := if_pos hodd
      rw [parse, hdecode]
  | @badDigit before after b heven hbytes hbefore hb =>
      have hdecode : decode s = .error (.badDigit b before.length) := by
        rw [hbytes] at heven
        rw [decode, hbytes, if_neg (by omega), decodePairs_of_badDigit hb 0 before heven hbefore,
          Nat.zero_add]
      rw [parse, hdecode]
  | wrongLength heven hdigits hne =>
      obtain ⟨out, hout, hcount, -⟩ := decodePairs_of_digits 0 heven hdigits
      have hdecode : decode s = .ok out := by
        rw [decode, if_neg (by omega), hout]
      have hn : out.length ≠ n := by omega
      have hhalf : s.toUTF8.toList.length / 2 = out.length := by omega
      simp only [parse, hdecode, Bytes.ofList?, dif_neg hn, hhalf]

/-- Of a character that is not ASCII the first byte is reported. -/
example : parse 32 "1é" = .error (.malformed .oddLength)
    ∧ parse 32 "12é" = .error (.malformed (.badDigit 0xc3 2)) := by
  constructor <;> cbv

theorem digits_or_bad (bytes : List UInt8) : (∀ b ∈ bytes, IsDigitByte b)
    ∨ ∃ before b after, bytes = before ++ b :: after ∧ (∀ d ∈ before, IsDigitByte d)
      ∧ ¬ IsDigitByte b := by
  induction bytes with
  | nil => exact .inl (by simp)
  | cons b bytes ih =>
      by_cases hb : IsDigitByte b
      · rcases ih with hall | ⟨before, d, after, rfl, hbefore, hd⟩
        · exact .inl (List.forall_mem_cons.mpr ⟨hb, hall⟩)
        · exact .inr ⟨b :: before, d, after, rfl, List.forall_mem_cons.mpr ⟨hb, hbefore⟩, hd⟩
      · exact .inr ⟨[], b, bytes, rfl, by simp, hb⟩

/-- Every text is a form or has a first fault. -/
theorem form_or_fault (n : Nat) (s : String) :
    (s.length = 2 * n ∧ ∀ c ∈ s.toList, IsDigit c) ∨ ∃ e, FirstFault n s.toUTF8.toList e := by
  by_cases hodd : s.toUTF8.toList.length % 2 = 1
  · exact .inr ⟨_, .oddLength hodd⟩
  have heven : s.toUTF8.toList.length % 2 = 0 := by omega
  rcases digits_or_bad s.toUTF8.toList with hdigits | ⟨before, b, after, hbytes, hbefore, hb⟩
  · by_cases hlength : s.toUTF8.toList.length = 2 * n
    · have hchars := isDigit_text_iff.mp hdigits
      exact .inl ⟨(lowered_toUTF8 hchars).1.symm.trans hlength, hchars⟩
    · exact .inr ⟨_, .wrongLength heven hdigits hlength⟩
  · exact .inr ⟨_, .badDigit heven hbytes hbefore hb⟩

theorem length_flatMap_digits (bs : List UInt8) : (bs.flatMap digits).length = 2 * bs.length := by
  induction bs with
  | nil => rfl
  | cons b bs ih =>
      rw [List.flatMap_cons, List.length_append, ih, List.length_cons]
      show 2 + 2 * bs.length = 2 * (bs.length + 1)
      omega

/-- Every value is read from what is printed for it. -/
theorem parse_encode (b : Bytes n) : parse n (encode b.toList) = .ok b := by
  have hdigits : ∀ c ∈ b.toList.flatMap digits, IsDigit c := by
    simp only [List.mem_flatMap, digits, List.mem_cons, List.not_mem_nil, or_false]
    rintro c ⟨d, -, rfl | rfl⟩
    · exact isDigit_digit (by have := d.toNat_lt; omega)
    · exact isDigit_digit (by omega)
  have hbytes : (encode b.toList).toUTF8.toList
      = (b.toList.flatMap digits).map fun c => UInt8.ofNat c.toNat := by
    rw [toList_toUTF8, encode, String.toList_ofList, flatMap_utf8EncodeChar hdigits]
  have hlength : (encode b.toList).toUTF8.toList.length = 2 * b.toList.length := by
    rw [hbytes, List.length_map, length_flatMap_digits]
  have hdecode : decode (encode b.toList) = .ok b.toList := by
    rw [decode, if_neg (by omega), hbytes, decodePairs_digits]
  simp only [parse, hdecode, Bytes.ofList?_toList]

/-- A type that only wraps the bytes is read exactly. -/
theorem readsExactly_map {α : Type} (wrap : Bytes n → α) (bytes : α → Bytes n)
    (hwrap : ∀ x, wrap (bytes x) = x) (hbytes : ∀ b, bytes (wrap b) = b) :
    ReadsExactly n (fun x => encode (bytes x).toList) (fun s => (parse n s).map wrap) where
  accepts_iff s := by
    constructor
    · rintro ⟨x, hx⟩
      refine (form_or_fault n s).resolve_right ?_
      rintro ⟨e, he⟩
      rw [parse_of_fault he] at hx
      cases hx
    · rintro ⟨hlength, hdigits⟩
      obtain ⟨b, hb, -⟩ := parse_of_form hlength hdigits
      exact ⟨wrap b, by rw [hb]; rfl⟩
  print_of_read s x hx := by
    rcases form_or_fault n s with ⟨hlength, hdigits⟩ | ⟨e, he⟩
    · obtain ⟨b, hb, hprinted⟩ := parse_of_form hlength hdigits
      rw [hb] at hx
      cases hx
      rw [hbytes, hprinted]
    · rw [parse_of_fault he] at hx
      cases hx
  read_print x := by
    rw [parse_encode]
    exact congrArg Except.ok (hwrap x)
  refuses_iff s e := by
    constructor
    · intro h
      rcases form_or_fault n s with ⟨hlength, hdigits⟩ | ⟨e', he'⟩
      · obtain ⟨b, hb, -⟩ := parse_of_form hlength hdigits
        rw [hb] at h
        cases h
      · rw [parse_of_fault he'] at h
        cases h
        exact he'
    · intro he
      rw [parse_of_fault he]
      rfl

/-- **Hashes, keys and signatures are read exactly from their hexadecimal
form.** A hash and a public key are read from the texts of 64 characters and a
signature from the texts of 128, all of them hexadecimal digits in either case,
and from no others. What was read is printed as the text in lower case, and
what is printed is read back. Every other text is refused for its first fault:
an odd number of bytes, else the first byte that is no digit, with its
position, else the wrong number of bytes written. -/
theorem texts_are_read_exactly :
    ReadsExactly 32 Hash.toHex Hash.ofHex
      ∧ ReadsExactly 32 PublicKey.toHex PublicKey.ofHex
      ∧ ReadsExactly 64 Signature.toHex Signature.ofHex :=
  ⟨readsExactly_map Hash.mk Hash.bytes (fun _ => rfl) fun _ => rfl,
    readsExactly_map PublicKey.mk PublicKey.bytes (fun _ => rfl) fun _ => rfl,
    readsExactly_map Signature.mk Signature.bytes (fun _ => rfl) fun _ => rfl⟩

end LedgerCommit.Hex
