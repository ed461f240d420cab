/-
# The tokens of JSON text

A text in the JSON data format is cut into tokens, one character after the other: brackets, commas
and colons, and the values that have no items.  Blanks between tokens do not count.  Nothing here
looks at how values are written by this library, so it can be asked what its strings and numbers
are read as.

* `Json.lex` : the tokens of a text;
* `Json.lexes_quote` : a string in quotes is one token;
* `Json.lex_between_word` : a word in front of a delimiter is one token;
* `Json.word?_of_integer?`, `Json.integer?_toString` : the word that is written for an integer.
-/
import MipsListing.Json
import MipsListing.Proofs.Numeral

namespace MipsListing.Json

/-! ## Tokens -/

/-- A token of JSON text. -/
inductive Token where
  | openArray
  | closeArray
  | openObject
  | closeObject
  | comma
  | colon
  | scalar (value : Json)

/-- The tokens that a character is by itself: none for a blank.  Any other character is part of a
string or a word. -/
def delimiter? (c : Char) : Option (List Token) :=
  if c = ' ' ∨ c = '\n' ∨ c = '\r' ∨ c = '\t' then some []
  else if c = '[' then some [.openArray]
  else if c = ']' then some [.closeArray]
  else if c = '\x7b' then some [.openObject]
  else if c = '\x7d' then some [.closeObject]
  else if c = ',' then some [.comma]
  else if c = ':' then some [.colon]
  else none

/-! ### Numbers and other words -/

/-- The natural number of which a text is the shortest decimal numeral. -/
def natural? (text : List Char) : Option ℕ :=
  let value := Nat.ofDigitChars 10 text 0
  if Nat.toDigits 10 value = text then some value else none

/-- The integer that a text stands for; there is no negative zero among them. -/
def integer? : List Char → Option ℤ
  | '-' :: digits => (natural? digits).bind fun value => if value = 0 then none else some (-value)
  | digits => (natural? digits).map Int.ofNat

/-- Digits, at least one. -/
def isDigits (text : List Char) : Bool := text ≠ [] && text.all Char.isDigit

/-- An exponent, which may be missing. -/
def isExponent : List Char → Bool
  | [] => true
  | c :: '+' :: digits | c :: '-' :: digits | c :: digits =>
    (c = 'e' || c = 'E') && isDigits digits

/-- A fraction and an exponent, each of which may be missing. -/
def isFraction : List Char → Bool
  | '.' :: text =>
    isDigits (text.takeWhile Char.isDigit) && isExponent (text.dropWhile Char.isDigit)
  | text => isExponent text

/-- A number. -/
def isNumber : List Char → Bool
  | '-' :: text | text => (natural? (text.takeWhile Char.isDigit)).isSome &&
      isFraction (text.dropWhile Char.isDigit)

/-- The value that a word stands for.  A number that is no integer keeps its text. -/
def word? (text : List Char) : Option Json :=
  if text = "null".toList then some .null
  else if text = "true".toList then some (.bool true)
  else if text = "false".toList then some (.bool false)
  else match integer? text with
    | some value => some (.integer value)
    | none => if isNumber text then some (.fraction (String.ofList text)) else none

/-! ### Strings -/

/-- The character for which one behind a backslash stands. -/
def escaped? (c : Char) : Option Char :=
  if c = '\x22' ∨ c = '\\' ∨ c = '/' then some c
  else if c = 'b' then some '\x08'
  else if c = 'f' then some '\x0c'
  else if c = 'n' then some '\n'
  else if c = 'r' then some '\r'
  else if c = 't' then some '\t'
  else none

/-- The character with the code that four hexadecimal digits give.  Half of a surrogate pair is no
character. -/
def coded? (digits : List Char) : Option Char :=
  (Radix.hexadecimal.read? digits).bind fun code =>
    if code.isValidChar then some (Char.ofNat code) else none

/-! ### One character after the other -/

/-- Where in a text the next character stands, with what has been read of a token. -/
inductive Mode where
  /-- Between two tokens. -/
  | between
  /-- In a string. -/
  | string (read : List Char)
  /-- Behind a backslash in a string. -/
  | escape (read : List Char)
  /-- In the code of a character in a string. -/
  | code (read digits : List Char)
  /-- In a word. -/
  | word (read : List Char)

/-- Reads one character: the tokens that it ends or is, and where the next one stands. -/
def Mode.step : Mode → Char → Option (List Token × Mode)
  | between, c =>
    match delimiter? c with
    | some tokens => some (tokens, between)
    | none => some ([], if c = '\x22' then string [] else word [c])
  | string read, c =>
    if c = '\x22' then some ([.scalar (.string (String.ofList read))], between)
    else if c = '\\' then some ([], escape read)
    else if c < ' ' then none
    else some ([], string (read ++ [c]))
  | escape read, c =>
    if c = 'u' then some ([], code read [])
    else (escaped? c).map fun other => ([], string (read ++ [other]))
  | code read digits, c =>
    if digits.length < 3 then some ([], code read (digits ++ [c]))
    else (coded? (digits ++ [c])).map fun other => ([], string (read ++ [other]))
  | word read, c =>
    match delimiter? c with
    | some tokens => (word? read).map fun value => (.scalar value :: tokens, between)
    | none => some ([], word (read ++ [c]))

/-- The tokens that the end of the text ends. -/
def Mode.finish : Mode → Option (List Token)
  | between => some []
  | word read => (word? read).map fun value => [.scalar value]
  | _ => none

/-- The tokens of a text. -/
def lex : Mode → List Char → Option (List Token)
  | mode, [] => mode.finish
  | mode, c :: text => (mode.step c).bind fun (tokens, next) => (lex next text).map (tokens ++ ·)

/-! ## The tokens of a text -/

/-- A character that reads on without ending a token. -/
theorem lex_cons_of_silent (mode next : Mode) (c : Char) (text : List Char)
    (h : mode.step c = some ([], next)) : lex mode (c :: text) = lex next text := by
  simp [lex, h]

/-- A text is cut into these tokens, whatever stands behind it. -/
def Lexes (text : List Char) (tokens : List Token) : Prop :=
  ∀ rest, lex .between (text ++ rest) = (lex .between rest).map (tokens ++ ·)

/-- Texts behind each other. -/
theorem Lexes.append {a b : List Char} {as bs : List Token} (ha : Lexes a as) (hb : Lexes b bs) :
    Lexes (a ++ b) (as ++ bs) := by
  intro rest
  rw [List.append_assoc, ha, hb, Option.map_map]
  congr 1
  funext tokens
  exact (List.append_assoc as bs tokens).symm

/-- A delimiter is the tokens for which it stands. -/
theorem lexes_delimiter {c : Char} {tokens : List Token} (h : delimiter? c = some tokens) :
    Lexes [c] tokens := by
  intro rest
  have hstep : Mode.between.step c = some (tokens, .between) := by simp only [Mode.step, h]
  rw [List.singleton_append, lex, hstep, Option.bind_some]

/-- Blanks are no tokens. -/
theorem lexes_blanks {text : List Char} (h : ∀ c ∈ text, delimiter? c = some []) :
    Lexes text [] := by
  induction text with
  | nil =>
    intro rest
    simp
  | cons c text ih =>
    exact (lexes_delimiter (h c List.mem_cons_self)).append
      (ih fun other hother => h other (List.mem_cons_of_mem c hother))

/-! ### Strings -/

/-- A character behind a backslash. -/
theorem lex_escape {c other : Char} (h : escaped? c = some other) (read rest : List Char) :
    lex (.string read) ('\\' :: c :: rest) = lex (.string (read ++ [other])) rest := by
  have hu : c ≠ 'u' := by
    rintro rfl
    have hnone : escaped? 'u' = none := by decide
    simp [hnone] at h
  rw [lex_cons_of_silent _ (.escape read) _ _ (by simp [Mode.step]),
    lex_cons_of_silent _ (.string (read ++ [other])) _ _ (by simp [Mode.step, hu, h])]

/-- A character written by its code. -/
theorem lex_code {digits : List Char} {c : Char} (hlength : digits.length = 4)
    (h : coded? digits = some c) (read rest : List Char) :
    lex (.string read) ('\\' :: 'u' :: (digits ++ rest)) = lex (.string (read ++ [c])) rest := by
  match digits, hlength with
  | [p, q, r, s], _ =>
    calc lex (.string read) ('\\' :: 'u' :: p :: q :: r :: s :: rest)
        = lex (.escape read) ('u' :: p :: q :: r :: s :: rest) :=
          lex_cons_of_silent _ _ _ _ (by simp [Mode.step])
      _ = lex (.code read []) (p :: q :: r :: s :: rest) :=
          lex_cons_of_silent _ _ _ _ (by simp [Mode.step])
      _ = lex (.code read [p]) (q :: r :: s :: rest) := lex_cons_of_silent _ _ _ _ rfl
      _ = lex (.code read [p, q]) (r :: s :: rest) := lex_cons_of_silent _ _ _ _ rfl
      _ = lex (.code read [p, q, r]) (s :: rest) := lex_cons_of_silent _ _ _ _ rfl
      _ = lex (.string (read ++ [c])) rest :=
          lex_cons_of_silent _ _ _ _ (by simp [Mode.step, h])

/-- The codes of the control characters. -/
theorem coded?_of_lt (code : ℕ) (h : code < 32) :
    ((Nat.toDigits 16 code).leftpad 4 '0').length = 4 ∧
      coded? ((Nat.toDigits 16 code).leftpad 4 '0') = some (Char.ofNat code) := by
  revert code
  decide

/-- A character of a string is read from the text that escapes it. -/
theorem lex_escapeChar (c : Char) (read rest : List Char) :
    lex (.string read) (escapeChar c ++ rest) = lex (.string (read ++ [c])) rest := by
  unfold escapeChar
  split_ifs with hquote hbackslash hb hf hn hr ht hcontrol
  · rw [hquote]
    exact lex_escape (by decide) read rest
  · rw [hbackslash]
    exact lex_escape (by decide) read rest
  · rw [hb]
    exact lex_escape (by decide) read rest
  · rw [hf]
    exact lex_escape (by decide) read rest
  · rw [hn]
    exact lex_escape (by decide) read rest
  · rw [hr]
    exact lex_escape (by decide) read rest
  · rw [ht]
    exact lex_escape (by decide) read rest
  · obtain ⟨hlength, hcoded⟩ := coded?_of_lt c.toNat hcontrol
    rw [Char.ofNat_toNat] at hcoded
    exact lex_code hlength hcoded read rest
  · exact lex_cons_of_silent _ _ _ _ (by simp [Mode.step, hquote, hbackslash, hcontrol])

/-- The characters of a string up to the closing quote. -/
theorem lex_string (text read rest : List Char) :
    lex (.string read) (text.flatMap escapeChar ++ '\x22' :: rest) =
      (lex .between rest).map (.scalar (.string (String.ofList (read ++ text))) :: ·) := by
  induction text generalizing read with
  | nil => simp [lex, Mode.step]
  | cons c text ih =>
    rw [List.flatMap_cons, List.append_assoc, lex_escapeChar, ih, List.append_assoc,
      List.singleton_append]

/-- **A string in quotes** is one token. -/
theorem lexes_quote (text : String) : Lexes (quote text).toList [.scalar (.string text)] := by
  intro rest
  have hopen : Mode.between.step '\x22' = some ([], .string []) := rfl
  rw [quote, String.toList_ofList, List.append_assoc, List.append_assoc, List.singleton_append,
    List.singleton_append, lex_cons_of_silent _ _ _ _ hopen, lex_string, List.nil_append,
    String.ofList_toList]
  rfl

/-! ### Words -/

/-- The characters of words. -/
def isWordChar (c : Char) : Bool := c.isAlphanum || ['-', '+', '.'].contains c

/-- A character of a word is no delimiter and no quote. -/
theorem delimiter?_of_isWordChar {c : Char} (h : isWordChar c) :
    delimiter? c = none ∧ c ≠ '\x22' := by
  have hne : ∀ other, isWordChar other = false → c ≠ other := by
    rintro other hother rfl
    simp [hother] at h
  simp [delimiter?, hne ' ' (by decide), hne '\n' (by decide), hne '\r' (by decide),
    hne '\t' (by decide), hne '[' (by decide), hne ']' (by decide), hne '\x7b' (by decide),
    hne '\x7d' (by decide), hne ',' (by decide), hne ':' (by decide), hne '\x22' (by decide)]

/-- A digit is a character of words. -/
theorem isWordChar_of_isDigit {c : Char} (h : c.isDigit) : isWordChar c := by
  simp [isWordChar, Char.isAlphanum, h]

/-- A text that starts with a delimiter, if it does not end at once. -/
def Delimited (text : List Char) : Prop := ∀ c ∈ text.head?, (delimiter? c).isSome

/-- The characters of a word. -/
theorem lex_word (text read rest : List Char) (h : ∀ c ∈ text, isWordChar c) :
    lex (.word read) (text ++ rest) = lex (.word (read ++ text)) rest := by
  induction text generalizing read with
  | nil => simp
  | cons c text ih =>
    have hnone := (delimiter?_of_isWordChar (h c List.mem_cons_self)).1
    have hstep : (Mode.word read).step c = some ([], .word (read ++ [c])) := by
      simp [Mode.step, hnone]
    rw [List.cons_append, lex_cons_of_silent _ _ _ _ hstep,
      ih _ fun other hother => h other (List.mem_cons_of_mem c hother), List.append_assoc,
      List.singleton_append]

/-- **A word** in front of a delimiter is one token. -/
theorem lex_between_word {text : List Char} {value : Json} (hchars : ∀ c ∈ text, isWordChar c)
    (hword : word? text = some value) {rest : List Char} (hrest : Delimited rest) :
    lex .between (text ++ rest) = (lex .between rest).map (.scalar value :: ·) := by
  cases text with
  | nil =>
    have hnone : word? [] = none := rfl
    simp [hnone] at hword
  | cons c text =>
    obtain ⟨hnone, hquote⟩ := delimiter?_of_isWordChar (hchars c List.mem_cons_self)
    have hopen : Mode.between.step c = some ([], .word [c]) := by
      simp [Mode.step, hnone, hquote]
    rw [List.cons_append, lex_cons_of_silent _ _ _ _ hopen,
      lex_word text [c] rest fun other hother => hchars other (List.mem_cons_of_mem c hother),
      List.singleton_append]
    cases rest with
    | nil => simp [lex, Mode.finish, hword]
    | cons d rest =>
      obtain ⟨tokens, htokens⟩ := Option.isSome_iff_exists.mp (hrest d rfl)
      have hstep : (Mode.word (c :: text)).step d = some (.scalar value :: tokens, .between) := by
        simp [Mode.step, htokens, hword]
      have hbetween := lexes_delimiter htokens rest
      rw [List.singleton_append] at hbetween
      rw [lex, hstep, Option.bind_some, hbetween, Option.map_map]
      rfl

/-! ### Numbers -/

/-- The shortest numeral of a natural number is read as that number. -/
theorem natural?_toDigits (value : ℕ) : natural? (Nat.toDigits 10 value) = some value := by
  simp [natural?, Nat.ofDigitChars_toDigits]

/-- The text of an integer is read as that integer. -/
theorem integer?_toString (value : ℤ) : integer? (toString value).toList = some value := by
  cases value with
  | ofNat n =>
    have htext : (toString (Int.ofNat n)).toList = Nat.toDigits 10 n := Nat.toList_repr
    rw [htext]
    unfold integer?
    split
    case h_1 digits hdigits =>
      have hminus := Nat.isDigit_of_mem_toDigits (c := '-') (b := 10) (n := n) (by decide)
        (by decide) (by simp [hdigits])
      exact absurd hminus (by decide)
    case h_2 =>
      rw [natural?_toDigits]
      rfl
  | negSucc n =>
    have htext : (toString (Int.negSucc n)).toList = '-' :: Nat.toDigits 10 (n + 1) := by
      show ("-" ++ (n + 1).repr).toList = _
      rw [String.toList_append, Nat.toList_repr]
      rfl
    rw [htext, integer?, natural?_toDigits]
    rfl

/-- The characters of the text of an integer. -/
theorem isWordChar_of_mem_toString (value : ℤ) :
    ∀ c ∈ (toString value).toList, isWordChar c := by
  intro c hc
  rcases eq_minus_or_isDigit_of_mem_toString value c hc with rfl | hdigit
  · decide
  · exact isWordChar_of_isDigit hdigit

/-- A word that is an integer. -/
theorem word?_of_integer? {text : List Char} {value : ℤ} (h : integer? text = some value) :
    word? text = some (.integer value) := by
  have hne : ∀ name : List Char, integer? name = none → text ≠ name := by
    rintro name hname rfl
    simp [hname] at h
  rw [word?, if_neg (hne _ rfl), if_neg (hne _ rfl), if_neg (hne _ rfl), h]

/-- A word that is a number but no integer. -/
theorem word?_of_isNumber {text : List Char} (hnumber : isNumber text)
    (hfraction : integer? text = none) :
    word? text = some (.fraction (String.ofList text)) := by
  have hne : ∀ name : List Char, isNumber name = false → text ≠ name := by
    rintro name hname rfl
    simp [hname] at hnumber
  rw [word?, if_neg (hne _ rfl), if_neg (hne _ rfl), if_neg (hne _ rfl), hfraction]
  simp [hnumber]

/-- The characters of a text from its digits on. -/
theorem isWordChar_of_dropWhile {text : List Char}
    (h : ∀ c ∈ text.dropWhile Char.isDigit, isWordChar c) : ∀ c ∈ text, isWordChar c := by
  intro c hc
  rw [← List.takeWhile_append_dropWhile (p := Char.isDigit) (l := text), List.mem_append] at hc
  rcases hc with hc | hc
  · exact isWordChar_of_isDigit (List.mem_takeWhile_imp hc)
  · exact h c hc

/-- The characters of an exponent. -/
theorem isWordChar_of_isExponent {text : List Char} (h : isExponent text) :
    ∀ c ∈ text, isWordChar c := by
  have hmark : ∀ c digits, ((c = 'e' || c = 'E') && isDigits digits) = true →
      isWordChar c ∧ ∀ d ∈ digits, isWordChar d := by
    intro c digits hboth
    simp only [isDigits, Bool.and_eq_true, Bool.or_eq_true, decide_eq_true_eq,
      List.all_eq_true] at hboth
    obtain ⟨hc, -, hdigits⟩ := hboth
    refine ⟨?_, fun d hd => isWordChar_of_isDigit (hdigits d hd)⟩
    rcases hc with rfl | rfl
    · decide
    · decide
  unfold isExponent at h
  split at h
  case h_1 => simp
  all_goals
    obtain ⟨hc, hdigits⟩ := hmark _ _ h
    simp only [List.forall_mem_cons]
  case h_2 => exact ⟨hc, by decide, hdigits⟩
  case h_3 => exact ⟨hc, by decide, hdigits⟩
  case h_4 => exact ⟨hc, hdigits⟩

/-- The characters of a fraction. -/
theorem isWordChar_of_isFraction {text : List Char} (h : isFraction text) :
    ∀ c ∈ text, isWordChar c := by
  unfold isFraction at h
  split at h
  · rw [Bool.and_eq_true] at h
    rw [List.forall_mem_cons]
    exact ⟨by decide, isWordChar_of_dropWhile (isWordChar_of_isExponent h.2)⟩
  · exact isWordChar_of_isExponent h

/-- The characters of a number. -/
theorem isWordChar_of_isNumber {text : List Char} (h : isNumber text) :
    ∀ c ∈ text, isWordChar c := by
  unfold isNumber at h
  split at h
  all_goals rw [Bool.and_eq_true] at h
  · rw [List.forall_mem_cons]
    exact ⟨by decide, isWordChar_of_dropWhile (isWordChar_of_isFraction h.2)⟩
  · exact isWordChar_of_dropWhile (isWordChar_of_isFraction h.2)

end MipsListing.Json
