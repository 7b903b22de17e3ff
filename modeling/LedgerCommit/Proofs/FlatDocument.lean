import LedgerCommit.Proofs.WrittenValue
import LedgerCommit.Toml.Document
import Mathlib.Data.List.Nodup
import Mathlib.Data.List.TakeDrop

/-!
# Flat documents are read as they were written

A flat document has settings, one on each line, and then one table with a
header of its own that holds more of them. If no key stands twice in a table,
the document is read back with its entries in the order of writing.
-/

namespace LedgerCommit.Toml

section Lines

variable {key text rest : List Char} {item : Item} {statement : Statement}

/-! ## Keys -/

/-- Whether a key can be written without quotes. -/
def isBare (key : List Char) : Bool := !key.isEmpty && key.all isBareKey

theorem isBareKey_of_isBare (h : isBare key = true) : ∀ c ∈ key, isBareKey c = true := by
  rw [isBare, Bool.and_eq_true, List.all_eq_true] at h
  exact h.2

theorem exists_cons_of_isBare (h : isBare key = true) :
    ∃ c cs, key = c :: cs ∧ isBareKey c = true ∧ isBlank c = false := by
  cases key with
  | nil => cases h
  | cons c cs =>
      have hc := isBareKey_of_isBare h c List.mem_cons_self
      have hblank : isBlank c = false := by
        simp [isBlank, ne_of_test (d := ' ') hc rfl, ne_of_test (d := '\t') hc rfl]
      exact ⟨c, cs, rfl, hc, hblank⟩

theorem readKey_of_isBare {c : Char} (h : isBare key = true) (hc : isBareKey c = false) :
    readKey (key ++ c :: rest) = some (String.ofList key, c :: rest) := by
  have hspan : (key ++ c :: rest).span isBareKey = (key, c :: rest) := by
    rw [List.span_eq_takeWhile_dropWhile, List.takeWhile_append_of_pos (isBareKey_of_isBare h),
      List.dropWhile_append_of_pos (isBareKey_of_isBare h)]
    simp [hc]
  obtain ⟨k, ks, rfl, hk, -⟩ := exists_cons_of_isBare h
  unfold readKey
  split
  next hquote => exact absurd hquote (cons_ne_of_test hk rfl)
  next hquote => exact absurd hquote (cons_ne_of_test hk rfl)
  next => rw [hspan]

/-- A bare key is a path of its own unless a point follows it. -/
theorem readPath_of_isBare {c d : Char} {next : List Char} (h : isBare key = true)
    (hc : isBareKey c = false) (hnext : skipBlanks (c :: rest) = d :: next) (hd : d ≠ '.') :
    readPath (key ++ c :: rest) = some (([], String.ofList key), d :: next) := by
  have hskip : skipBlanks (key ++ c :: rest) = key ++ c :: rest := by
    obtain ⟨k, ks, rfl, -, hblank⟩ := exists_cons_of_isBare h
    simp [skipBlanks, hblank]
  have hkeys : ∀ n, readKeys (n + 1) (key ++ c :: rest)
      = some ([String.ofList key], d :: next) := by
    intro n
    rw [readKeys, hskip, readKey_of_isBare h hc]
    simp only [hnext]
    split
    next hpoint => exact absurd (List.cons.inj hpoint).1 hd
    next => rfl
  rw [readPath, show nestingLimit - 1 = nestingLimit - 2 + 1 from rfl, hkeys]
  rfl

/-! ## Layout -/

theorem length_skipLayout_le (s : List Char) : (skipLayout s).length ≤ s.length := by
  fun_induction skipLayout s with
  | case1 => exact Nat.le_refl _
  | case2 rest ih => grind
  | case3 rest ih => grind
  | case4 rest ih =>
      have hcomment := (rest.dropWhile_suffix fun c => !isControl c).length_le
      grind
  | case5 c rest hblank ih => grind
  | case6 => exact Nat.le_refl _

theorem skipLayout_newline : skipLayout ('\n' :: rest) = skipLayout rest := by
  rw [skipLayout]

theorem skipLayout_of_notMem {c : Char} (h : c ∉ ['\n', '\x0d', '#']) (hblank : isBlank c = false) :
    skipLayout (c :: rest) = c :: rest := by
  rw [skipLayout.eq_def]
  split <;> simp_all

theorem skipLayout_of_isBare (h : isBare key = true) : skipLayout (key ++ rest) = key ++ rest := by
  obtain ⟨c, cs, rfl, hc, hblank⟩ := exists_cons_of_isBare h
  refine skipLayout_of_notMem ?_ hblank
  simp [ne_of_test (d := '\n') hc rfl, ne_of_test (d := '\x0d') hc rfl,
    ne_of_test (d := '#') hc rfl]

/-! ## Lines -/

/-- The text is one line, perhaps with layout before it, and the statement is
read from it. -/
def IsLine (text : List Char) (statement : Statement) : Prop :=
  ∀ rest, ∃ c s, skipLayout (text ++ rest) = c :: s ∧ (skipLayout rest).length ≤ s.length
    ∧ readLine (c :: s) = some (statement, skipLayout rest)

/-- The line of a key and a value, with an equals sign between them. -/
def pairLine (key text : List Char) : List Char := key ++ ' ' :: '=' :: ' ' :: (text ++ ['\n'])

def headerLine (key : List Char) : List Char := '[' :: (key ++ [']', '\n'])

/-- A statement that begins with a bare key is a pair. -/
theorem readStatement_of_isBare {p : Pair} {s : List Char} (h : isBare key = true)
    (hpair : readPair (readValue (nestingLimit - 1)) (key ++ rest) = some (p, s)) :
    readStatement (key ++ rest) = some (.pair p, s) := by
  obtain ⟨k, ks, rfl, hk, -⟩ := exists_cons_of_isBare h
  unfold readStatement
  split
  next hbracket => exact absurd hbracket (cons_ne_of_test hk rfl)
  next =>
    rw [hpair]
    rfl

/-- A header that begins with a bare key is that of a table. -/
theorem readHeader_of_isBare (h : isBare key = true) :
    readHeader (key ++ ']' :: '\n' :: rest)
      = some (.header [] (String.ofList key), '\n' :: rest) := by
  have hpath : readPath (key ++ ']' :: '\n' :: rest)
      = some (([], String.ofList key), ']' :: '\n' :: rest) :=
    readPath_of_isBare h rfl rfl (by decide)
  obtain ⟨k, ks, rfl, hk, -⟩ := exists_cons_of_isBare h
  unfold readHeader
  split
  next hbracket => exact absurd hbracket (cons_ne_of_test hk rfl)
  next =>
    rw [hpath]
    rfl

theorem isLine_pairLine (hkey : isBare key = true) (hvalue : IsValue text item) :
    IsLine (pairLine key text) (.pair ⟨[], String.ofList key, item⟩) := by
  intro rest
  have hshape : pairLine key text ++ rest
      = key ++ ' ' :: '=' :: ' ' :: (text ++ '\n' :: rest) := by
    simp [pairLine]
  have hpath : readPath (key ++ ' ' :: '=' :: ' ' :: (text ++ '\n' :: rest))
      = some (([], String.ofList key), '=' :: ' ' :: (text ++ '\n' :: rest)) :=
    readPath_of_isBare hkey rfl rfl (by decide)
  have hskip : skipBlanks (' ' :: (text ++ '\n' :: rest)) = text ++ '\n' :: rest :=
    hvalue.skipBlanks_eq _
  have hpair : readPair (readValue (nestingLimit - 1))
      (key ++ ' ' :: '=' :: ' ' :: (text ++ '\n' :: rest))
      = some (⟨[], String.ofList key, item⟩, '\n' :: rest) := by
    simp [readPair, hpath, hskip, hvalue.read_eq]
  have hline : readLine (key ++ ' ' :: '=' :: ' ' :: (text ++ '\n' :: rest))
      = some (.pair ⟨[], String.ofList key, item⟩, skipLayout rest) := by
    rw [readLine, readStatement_of_isBare hkey hpair]
    rfl
  have hrest := length_skipLayout_le rest
  rw [hshape, skipLayout_of_isBare hkey]
  obtain ⟨k, ks, rfl, -⟩ := exists_cons_of_isBare hkey
  rw [List.cons_append] at hline ⊢
  refine ⟨k, _, rfl, ?_, hline⟩
  simp only [List.length_append, List.length_cons]
  omega

theorem isLine_headerLine (hkey : isBare key = true) :
    IsLine (headerLine key) (.header [] (String.ofList key)) := by
  intro rest
  have hshape : headerLine key ++ rest = '[' :: (key ++ ']' :: '\n' :: rest) := by
    simp [headerLine]
  have hrest := length_skipLayout_le rest
  rw [hshape, skipLayout_of_notMem (by decide) rfl]
  refine ⟨'[', _, rfl, ?_, ?_⟩
  · simp only [List.length_append, List.length_cons]
    omega
  · rw [readLine, readStatement, readHeader_of_isBare hkey]
    rfl

theorem IsLine.after_newline (h : IsLine text statement) : IsLine ('\n' :: text) statement := by
  intro rest
  rw [List.cons_append, skipLayout_newline]
  exact h rest

/-- Lines are read one after the other; each reading leaves less text. -/
theorem pieces_of_lines {lines : List (List Char × Statement)} (h : ∀ l ∈ lines, IsLine l.1 l.2)
    (bound : List Char) (hbound : (skipLayout (lines.flatMap Prod.fst)).length ≤ bound.length) :
    pieces readLine bound (skipLayout (lines.flatMap Prod.fst)) = some (lines.map Prod.snd) := by
  induction lines generalizing bound with
  | nil =>
      rw [List.flatMap_nil, skipLayout]
      cases bound <;> rfl
  | cons line lines ih =>
      rw [List.forall_mem_cons] at h
      obtain ⟨c, s, hskip, hlength, hread⟩ := h.1 (lines.flatMap Prod.fst)
      rw [List.flatMap_cons, hskip] at hbound ⊢
      cases bound with
      | nil => exact absurd hbound (by simp)
      | cons b bound =>
          simp only [List.length_cons] at hbound
          have hrest := ih h.2 bound (by omega)
          simp only [pieces, hread, hrest]
          rfl

end Lines

/-! ## Entries -/

namespace Entries

variable {es : Entries} {key : String} {item : Item}

theorem at?_of_notMem (h : key ∉ es.map Prod.fst) : es.at? key = none := by
  unfold at?
  rw [List.lookup_eq_none_iff]
  intro e he
  rw [bne_iff_ne]
  rintro rfl
  exact h (List.mem_map_of_mem he)

theorem insertNew?_of_notMem (h : key ∉ es.map Prod.fst) :
    es.insertNew? key item = some (es ++ [(key, item)]) := by
  simp [insertNew?, at?_of_notMem h]

theorem at?_concat (h : key ∉ es.map Prod.fst) :
    Entries.at? (es ++ [(key, item)]) key = some item := by
  have hes : es.lookup key = none := at?_of_notMem h
  simp [at?, List.lookup_append, hes]

theorem replace_concat (new : Item) (h : key ∉ es.map Prod.fst) :
    Entries.replace (es ++ [(key, item)]) key new = es ++ [(key, new)] := by
  have hes : (es.map fun e => if e.1 = key then (key, new) else e) = es.map id := by
    refine List.map_congr_left fun e he => if_neg ?_
    rintro rfl
    exact h (List.mem_map_of_mem he)
  rw [List.map_id] at hes
  unfold replace
  rw [List.map_append, hes]
  simp

end Entries

/-! ## Documents -/

/-- A setting as it is written. -/
structure Setting where
  key : String
  text : List Char
  item : Item
  isBare : isBare key.toList = true
  isValue : IsValue text item

namespace Setting

/-- A setting that is plain text. -/
def ofText (key : String) (hkey : Toml.isBare key.toList = true) (s : String)
    (hs : ∀ c ∈ s.toList, isPlain c = true) : Setting where
  key := key
  text := quote s.toList
  item := .string s
  isBare := hkey
  isValue := by
    have hvalue := isValue_quote hs
    rw [String.ofList_toList] at hvalue
    exact hvalue

/-- A setting that is a number. -/
def ofNumber (key : String) (hkey : Toml.isBare key.toList = true) (n : Nat)
    (hn : fitsSigned n = true) : Setting where
  key := key
  text := Nat.toDigits 10 n
  item := .integer n
  isBare := hkey
  isValue := isValue_toDigits hn

def entry (s : Setting) : String × Item := (s.key, s.item)

def statement (s : Setting) : Statement := .pair ⟨[], s.key, s.item⟩

/-- The line of the setting, and the statement that it makes. -/
def line (s : Setting) : List Char × Statement := (pairLine s.key.toList s.text, s.statement)

theorem isLine (s : Setting) : IsLine s.line.1 s.line.2 := by
  have hline := isLine_pairLine s.isBare s.isValue
  rw [String.ofList_toList] at hline
  exact hline

end Setting

variable {settings inner : List Setting} {es : Entries} {name : String}

theorem add?_setting (s : Setting) (h : s.key ∉ es.map Prod.fst) :
    Draft.add? ⟨es, []⟩ s.statement = some ⟨es ++ [s.entry], []⟩ := by
  simp [Draft.add?, Setting.statement, Setting.entry, Entries.alterAt, Entries.insertAt?,
    Entries.insertNew?_of_notMem h]

theorem add?_header (header : List String) (h : name ∉ es.map Prod.fst) :
    Draft.add? ⟨es, header⟩ (.header [] name)
      = some ⟨es ++ [(name, .table .defined [])], [name]⟩ := by
  simp [Draft.add?, Entries.addTable?, Entries.alterAt, Entries.at?_of_notMem h]

/-- A setting after a header is added to the table of the header. -/
theorem add?_setting_of_header {sub : Entries} (s : Setting) (hname : name ∉ es.map Prod.fst)
    (h : s.key ∉ sub.map Prod.fst) :
    Draft.add? ⟨es ++ [(name, .table .defined sub)], [name]⟩ s.statement
      = some ⟨es ++ [(name, .table .defined (sub ++ [s.entry]))], [name]⟩ := by
  simp [Draft.add?, Setting.statement, Setting.entry, Entries.alterAt, Entries.insertAt?,
    Entries.lets, Entries.at?_concat hname, Entries.insertNew?_of_notMem h,
    Entries.replace_concat _ hname]

/-- Settings are added in order to a table that takes each new one at its end. -/
theorem foldlM_statements (draft : Entries → Draft) (es : Entries) (settings : List Setting)
    (hadd : ∀ es (s : Setting), s.key ∉ es.map Prod.fst →
      (draft es).add? s.statement = some (draft (es ++ [s.entry])))
    (h : ((es ++ settings.map Setting.entry).map Prod.fst).Nodup) :
    (settings.map Setting.statement).foldlM Draft.add? (draft es)
      = some (draft (es ++ settings.map Setting.entry)) := by
  induction settings generalizing es with
  | nil => simp
  | cons s settings ih =>
      have hnew : s.key ∉ es.map Prod.fst := by
        intro hmem
        rw [List.map_append, List.nodup_append] at h
        exact h.2.2 _ hmem _ (by simp [Setting.entry]) rfl
      have hsplit : es ++ (s :: settings).map Setting.entry
          = es ++ [s.entry] ++ settings.map Setting.entry := by
        simp
      rw [hsplit] at h ⊢
      rw [List.map_cons, List.foldlM_cons, hadd es s hnew, ← ih _ h]
      rfl

/-- The lines of a flat document, each with its statement. An empty line stands
before the header. -/
def flatLines (settings : List Setting) (name : String) (inner : List Setting) :
    List (List Char × Statement) :=
  settings.map Setting.line
    ++ ('\n' :: headerLine name.toList, .header [] name) :: inner.map Setting.line

def flatText (settings : List Setting) (name : String) (inner : List Setting) : List Char :=
  (flatLines settings name inner).flatMap Prod.fst

def flatEntries (settings : List Setting) (name : String) (inner : List Setting) : Entries :=
  settings.map Setting.entry ++ [(name, .table .defined (inner.map Setting.entry))]

theorem isLine_of_mem_flatLines (hname : isBare name.toList = true) :
    ∀ l ∈ flatLines settings name inner, IsLine l.1 l.2 := by
  have hheader := (isLine_headerLine hname).after_newline
  rw [String.ofList_toList] at hheader
  simp only [flatLines, List.mem_append, List.mem_cons, List.mem_map]
  rintro l (⟨s, -, rfl⟩ | rfl | ⟨s, -, rfl⟩)
  · exact s.isLine
  · exact hheader
  · exact s.isLine

/-- A flat document does not begin with the mark of the byte order. -/
theorem skipMark_flatText :
    skipMark (flatText settings name inner) = flatText settings name inner := by
  have hmark : ∀ c s, c ≠ '\ufeff' → skipMark (c :: s) = c :: s := by
    intro c s hc
    unfold skipMark
    split
    next heq => exact absurd (List.cons.inj heq).1 hc
    next => rfl
  cases settings with
  | nil => exact hmark _ _ (by decide)
  | cons s settings =>
      obtain ⟨c, cs, hkey, hc, -⟩ := exists_cons_of_isBare s.isBare
      have hshape : ∃ rest, flatText (s :: settings) name inner = c :: rest := by
        simp [flatText, flatLines, Setting.line, pairLine, hkey]
      obtain ⟨rest, hrest⟩ := hshape
      rw [hrest, hmark c rest (ne_of_test hc rfl)]

theorem map_fst_entry (l : List Setting) :
    (l.map Setting.entry).map Prod.fst = l.map Setting.key := by
  rw [List.map_map]
  rfl

theorem foldlM_flatLines (hkeys : (settings.map Setting.key ++ [name]).Nodup)
    (hinner : (inner.map Setting.key).Nodup) :
    ((flatLines settings name inner).map Prod.snd).foldlM Draft.add? ⟨[], []⟩
      = some ⟨flatEntries settings name inner, [name]⟩ := by
  rw [List.nodup_append] at hkeys
  have hnew : name ∉ (settings.map Setting.entry).map Prod.fst := by
    rw [map_fst_entry]
    exact fun hmem => hkeys.2.2 _ hmem _ (List.mem_singleton_self _) rfl
  have hsettings := foldlM_statements (fun es => ⟨es, []⟩) [] settings
    (fun _ s h => add?_setting s h) (by rw [List.nil_append, map_fst_entry]; exact hkeys.1)
  have htable := foldlM_statements
    (fun sub => ⟨settings.map Setting.entry ++ [(name, .table .defined sub)], [name]⟩) [] inner
    (fun _ s h => add?_setting_of_header s hnew h)
    (by rw [List.nil_append, map_fst_entry]; exact hinner)
  have hstatements : (flatLines settings name inner).map Prod.snd
      = settings.map Setting.statement ++ .header [] name :: inner.map Setting.statement := by
    rw [flatLines, List.map_append, List.map_cons, List.map_map, List.map_map]
    rfl
  rw [List.nil_append] at hsettings htable
  rw [hstatements, List.foldlM_append, hsettings]
  show (Draft.add? ⟨settings.map Setting.entry, []⟩ (.header [] name)).bind _ = _
  rw [add?_header [] hnew]
  exact htable

/-- **Flat documents are read back**: the entries are those written, in order,
with the table of the header as the last one. -/
theorem document?_of_flatText {s : String} (hs : s.toList = flatText settings name inner)
    (hname : isBare name.toList = true) (hkeys : (settings.map Setting.key ++ [name]).Nodup)
    (hinner : (inner.map Setting.key).Nodup) :
    document? s = some (flatEntries settings name inner) := by
  have hstatements : statements? s = some ((flatLines settings name inner).map Prod.snd) := by
    rw [statements?, hs, skipMark_flatText]
    exact pieces_of_lines (isLine_of_mem_flatLines hname) _ (Nat.le_refl _)
  rw [document?, hstatements]
  show (((flatLines settings name inner).map Prod.snd).foldlM Draft.add? ⟨[], []⟩).bind _ = _
  rw [foldlM_flatLines hkeys hinner]
  rfl

end LedgerCommit.Toml
