/-
# Reading JSON text

The text of a JSON value says which value it is: a reader of JSON gives the value back.  The reader
puts the tokens of a text together, with the arrays and objects that are still open on a stack.
What is read of a block depends on the texts of its items only, whatever stands behind it, so that
texts are read back by induction on the value.

* `Json.assemble`, `Json.read?` : values from tokens, and from a text;
* `Json.spells_block_array`, `Json.spells_block_object` : the items of a block are read one by one;
* `Json.read?_pretty` : a value is read back from its text.
-/
import MipsListing.Proofs.JsonTokens

namespace MipsListing.Json

/-! ## Values -/

/-- An array or an object that is still open, with what has been read of it. -/
inductive Frame where
  | array (items : List Json)
  /-- The value of the key at the end is still to come. -/
  | object (entries : List (String × Json)) (key : String)

/-- Puts tokens together.  Either a value is due, or one has just been read. -/
def assemble : List Token → Option Json → List Frame → Option Json
  | .scalar value :: rest, none, frames => assemble rest (some value) frames
  | .openArray :: rest, none, frames => assemble rest none (.array [] :: frames)
  | .closeArray :: rest, none, .array [] :: frames => assemble rest (some (.array [])) frames
  | .openObject :: .closeObject :: rest, none, frames =>
    assemble rest (some (.object [])) frames
  | .openObject :: .scalar (.string key) :: .colon :: rest, none, frames =>
    assemble rest none (.object [] key :: frames)
  | .comma :: rest, some value, .array items :: frames =>
    assemble rest none (.array (items ++ [value]) :: frames)
  | .closeArray :: rest, some value, .array items :: frames =>
    assemble rest (some (.array (items ++ [value]))) frames
  | .comma :: .scalar (.string next) :: .colon :: rest, some value, .object entries key :: frames =>
    assemble rest none (.object (entries ++ [(key, value)]) next :: frames)
  | .closeObject :: rest, some value, .object entries key :: frames =>
    assemble rest (some (.object (entries ++ [(key, value)]))) frames
  | [], some value, [] => some value
  | _, _, _ => none

/-- Reads on in a text, between two tokens. -/
def readOn (value : Option Json) (frames : List Frame) (text : List Char) : Option Json :=
  (lex .between text).bind fun tokens => assemble tokens value frames

/-- The value that a JSON text stands for. -/
def read? (text : String) : Option Json := readOn none [] text.toList

/-! ## The value of a text -/

/-- A text that is read as a value wherever a value is due. -/
def Spells (text : List Char) (json : Json) : Prop :=
  ∀ frames rest, Delimited rest →
    readOn none frames (text ++ rest) = readOn (some json) frames rest

/-- Reading on over a text whose tokens are known. -/
theorem readOn_append {text : List Char} {tokens : List Token} (h : Lexes text tokens)
    (value : Option Json) (frames : List Frame) (rest : List Char) :
    readOn value frames (text ++ rest) =
      (lex .between rest).bind fun more => assemble (tokens ++ more) value frames := by
  rw [readOn, h rest, Option.bind_map]
  rfl

/-- A string in quotes spells the string. -/
theorem spells_quote (text : String) : Spells (quote text).toList (.string text) := by
  intro frames rest _
  rw [readOn_append (lexes_quote text)]
  rfl

/-- A word spells its value. -/
theorem spells_word {text : List Char} {value : Json} (hchars : ∀ c ∈ text, isWordChar c)
    (hword : word? text = some value) : Spells text value := by
  intro frames rest hrest
  rw [readOn, lex_between_word hchars hword hrest, Option.bind_map]
  rfl

/-! ### Blocks -/

/-- The line feed and the blanks in front of an item. -/
def gap (depth : ℕ) : List Char := '\n' :: (margin depth).toList

/-- A gap is blank. -/
theorem lexes_gap (depth : ℕ) : Lexes (gap depth) [] := by
  apply lexes_blanks
  intro c hc
  rw [gap, margin, String.toList_ofList, List.mem_cons, List.mem_replicate] at hc
  rcases hc with rfl | ⟨-, rfl⟩
  · rfl
  · rfl

/-- A gap starts with a delimiter. -/
theorem delimited_gap (depth : ℕ) (rest : List Char) : Delimited (gap depth ++ rest) := by
  intro c hc
  obtain rfl : '\n' = c := Option.some.inj hc
  rfl

/-- A delimiter in front of a gap. -/
theorem lexes_cons_gap {c : Char} {tokens : List Token} (h : delimiter? c = some tokens)
    (depth : ℕ) : Lexes (c :: gap depth) tokens := by
  have happend := (lexes_delimiter h).append (lexes_gap depth)
  rwa [List.append_nil] at happend

/-- The items of a block behind the first, each behind a comma. -/
def otherItems (depth : ℕ) (texts : List String) : List Char :=
  texts.flatMap fun text => ',' :: gap depth ++ text.toList

/-- The text of a block without items. -/
theorem toList_block_nil (opening closing : String) (depth : ℕ) :
    (block opening closing depth []).toList = opening.toList ++ closing.toList := by
  rw [block, if_pos rfl, String.toList_append]

/-- The text of a block with items. -/
theorem toList_block_cons (opening closing : String) (depth : ℕ) (first : String)
    (others : List String) :
    (block opening closing depth (first :: others)).toList =
      opening.toList ++ gap (depth + 1) ++ first.toList ++ otherItems (depth + 1) others
        ++ gap depth ++ closing.toList := by
  have hjoin : ∀ first, (",\n".intercalate ((first :: others).map (margin (depth + 1) ++ ·))).toList
      = (margin (depth + 1)).toList ++ first.toList ++ otherItems (depth + 1) others := by
    induction others with
    | nil => simp [otherItems]
    | cons second others ih =>
      intro first
      rw [List.map_cons, List.map_cons, String.intercalate_cons_cons, ← List.map_cons (f := _),
        String.toList_append, ih]
      simp [otherItems, gap]
  rw [block, if_neg (List.cons_ne_nil _ _)]
  simp only [String.toList_append, hjoin, gap]
  simp

/-- Items are followed by a delimiter. -/
theorem delimited_otherItems (depth : ℕ) (texts : List String) {rest : List Char}
    (h : Delimited rest) : Delimited (otherItems depth texts ++ rest) := by
  cases texts with
  | nil => exact h
  | cons text texts =>
    intro c hc
    obtain rfl : ',' = c := Option.some.inj hc
    rfl

section Members

variable {β : Type} {spells : String → β → Prop} (after : List β → β → List Char → Option Json)

/-- The items of a block behind the first are read one by one.  Here `after done last` reads on
behind the item `last` of a block, with the items `done` in front of it. -/
theorem after_otherItems (whole : List β → Option Json) {depth : ℕ} {ends : List Char}
    (hnext : ∀ done last text item rest, spells text item → Delimited rest →
      after done last (',' :: gap depth ++ text.toList ++ rest) = after (done ++ [last]) item rest)
    (hends : Delimited ends) (hclose : ∀ done last, after done last ends = whole (done ++ [last]))
    {texts : List String} {items : List β} (h : List.Forall₂ spells texts items) :
    ∀ done last,
      after done last (otherItems depth texts ++ ends) = whole (done ++ last :: items) := by
  induction h with
  | nil => exact hclose
  | @cons text item texts items hitem _ ih =>
    intro done last
    rw [otherItems, List.flatMap_cons, List.append_assoc, ← otherItems,
      hnext done last text item _ hitem (delimited_otherItems depth texts hends), ih,
      List.append_assoc, List.singleton_append]

/-- A block with items is read from its opening to its closing bracket. -/
theorem readOn_block (whole : List β → Json) {opening closing : String} {depth : ℕ}
    {frames : List Frame}
    (hfirst : ∀ text item rest, spells text item → Delimited rest →
      readOn none frames (opening.toList ++ gap (depth + 1) ++ text.toList ++ rest)
        = after [] item rest)
    (hnext : ∀ done last text item rest, spells text item → Delimited rest →
      after done last (',' :: gap (depth + 1) ++ text.toList ++ rest)
        = after (done ++ [last]) item rest)
    (hclose : ∀ done last rest, after done last (gap depth ++ closing.toList ++ rest)
      = readOn (some (whole (done ++ [last]))) frames rest)
    {first : String} {texts : List String} {item : β} {items : List β} (hitem : spells first item)
    (h : List.Forall₂ spells texts items) (rest : List Char) :
    readOn none frames ((block opening closing depth (first :: texts)).toList ++ rest)
      = readOn (some (whole (item :: items))) frames rest := by
  have hends : Delimited (gap depth ++ closing.toList ++ rest) := by
    rw [List.append_assoc]
    exact delimited_gap depth _
  calc readOn none frames ((block opening closing depth (first :: texts)).toList ++ rest)
      = readOn none frames (opening.toList ++ gap (depth + 1) ++ first.toList ++
          (otherItems (depth + 1) texts ++ (gap depth ++ closing.toList ++ rest))) := by
        simp only [toList_block_cons, List.append_assoc]
    _ = after [] item (otherItems (depth + 1) texts ++ (gap depth ++ closing.toList ++ rest)) :=
        hfirst first item _ hitem (delimited_otherItems _ texts hends)
    _ = readOn (some (whole (item :: items))) frames rest :=
        after_otherItems after (fun done => readOn (some (whole done)) frames rest) hnext hends
          (fun done last => hclose done last rest) h [] item

end Members

/-- Two brackets with nothing between them. -/
theorem lexes_pair {c d : Char} {cs ds : List Token} (hc : delimiter? c = some cs)
    (hd : delimiter? d = some ds) : Lexes [c, d] (cs ++ ds) :=
  (lexes_delimiter hc).append (lexes_delimiter hd)

/-- A closing bracket behind a gap. -/
theorem lexes_gap_append {c : Char} {tokens : List Token} (h : delimiter? c = some tokens)
    (depth : ℕ) : Lexes (gap depth ++ [c]) tokens :=
  (lexes_gap depth).append (lexes_delimiter h)

/-- **A block of items** spells the array of what they spell. -/
theorem spells_block_array (depth : ℕ) {texts : List String} {items : List Json}
    (h : List.Forall₂ (fun text item => Spells text.toList item) texts items) :
    Spells (block "[" "]" depth texts).toList (.array items) := by
  intro frames rest _
  cases h with
  | nil =>
    rw [toList_block_nil]
    exact readOn_append (lexes_pair (c := '[') (d := ']') rfl rfl) none frames rest
  | cons hitem hitems =>
    refine readOn_block (fun done last => readOn (some last) (.array done :: frames)) .array
      ?_ ?_ ?_ hitem hitems rest
    · intro text item rest hitem hrest
      rw [List.append_assoc]
      exact (readOn_append (lexes_cons_gap (c := '[') rfl _) none frames _).trans
        (hitem (.array [] :: frames) rest hrest)
    · intro done last text item rest hitem hrest
      rw [List.append_assoc]
      exact (readOn_append (lexes_cons_gap (c := ',') rfl _) _ _ _).trans
        (hitem (.array (done ++ [last]) :: frames) rest hrest)
    · intro done last rest
      exact readOn_append (lexes_gap_append (c := ']') rfl _) _ _ _

/-- The text of an entry of an object. -/
def SpellsEntry (text : String) (entry : String × Json) : Prop :=
  ∃ value : String, text = quote entry.1 ++ ": " ++ value ∧ Spells value.toList entry.2

/-- Reading on over a delimiter, a gap and a key. -/
theorem readOn_key {c : Char} {tokens : List Token} (h : delimiter? c = some tokens) (depth : ℕ)
    (key value : String) (last : Option Json) (frames : List Frame) (rest : List Char) :
    readOn last frames (c :: gap depth ++ (quote key ++ ": " ++ value).toList ++ rest) =
      (lex .between (value.toList ++ rest)).bind fun more =>
        assemble (tokens ++ .scalar (.string key) :: .colon :: more) last frames := by
  have hkey := ((lexes_cons_gap h depth).append (lexes_quote key)).append
    (lexes_pair (c := ':') (d := ' ') rfl rfl)
  simpa using readOn_append hkey last frames (value.toList ++ rest)

/-- **A block of entries** spells the object of what they spell. -/
theorem spells_block_object (depth : ℕ) {texts : List String} {entries : List (String × Json)}
    (h : List.Forall₂ SpellsEntry texts entries) :
    Spells (block "\x7b" "\x7d" depth texts).toList (.object entries) := by
  intro frames rest _
  cases h with
  | nil =>
    rw [toList_block_nil]
    exact readOn_append (lexes_pair (c := '\x7b') (d := '\x7d') rfl rfl) none frames rest
  | cons hentry hentries =>
    refine readOn_block (fun done last => readOn (some last.2) (.object done last.1 :: frames))
      .object ?_ ?_ ?_ hentry hentries rest
    · rintro _ ⟨key, json⟩ rest ⟨value, rfl, hvalue⟩ hrest
      exact (readOn_key (c := '\x7b') rfl _ key value none frames rest).trans
        (hvalue (.object [] key :: frames) rest hrest)
    · rintro done ⟨key, last⟩ _ ⟨next, json⟩ rest ⟨value, rfl, hvalue⟩ hrest
      exact (readOn_key (c := ',') rfl _ next value _ _ rest).trans
        (hvalue (.object (done ++ [(key, last)]) next :: frames) rest hrest)
    · intro done last rest
      exact readOn_append (lexes_gap_append (c := '\x7d') rfl _) _ _ _

/-! ## Whole values -/

/-- The texts of items one by one. -/
theorem prettyItems_eq_map (depth : ℕ) (items : List Json) :
    prettyItems depth items = items.map (prettyAt depth) := by
  induction items with
  | nil => rfl
  | cons item items ih => rw [prettyItems, ih, List.map_cons]

/-- The texts of entries one by one. -/
theorem prettyEntries_eq_map (depth : ℕ) (entries : List (String × Json)) :
    prettyEntries depth entries =
      entries.map fun entry => quote entry.1 ++ ": " ++ prettyAt depth entry.2 := by
  induction entries with
  | nil => rfl
  | cons entry entries ih => rw [prettyEntries, ih, List.map_cons]

/-- The values whose fractions are numbers, and no integers. -/
inductive WellFormed : Json → Prop where
  | null : WellFormed null
  | bool (value : Bool) : WellFormed (bool value)
  | integer (value : ℤ) : WellFormed (integer value)
  | fraction (text : String) (hnumber : isNumber text.toList)
    (hfraction : integer? text.toList = none) : WellFormed (fraction text)
  | string (value : String) : WellFormed (string value)
  | array (items : List Json) (h : ∀ item ∈ items, WellFormed item) : WellFormed (array items)
  | object (entries : List (String × Json)) (h : ∀ entry ∈ entries, WellFormed entry.2) :
    WellFormed (object entries)

/-- The text of a value at a depth spells the value. -/
theorem WellFormed.spells_prettyAt {json : Json} (h : json.WellFormed) (depth : ℕ) :
    Spells (prettyAt depth json).toList json := by
  induction h generalizing depth with
  | null =>
    rw [prettyAt]
    exact spells_word (by simp [isWordChar]) rfl
  | bool value =>
    cases value with
    | true =>
      rw [prettyAt]
      exact spells_word (by simp [isWordChar]) rfl
    | false =>
      rw [prettyAt]
      exact spells_word (by simp [isWordChar]) rfl
  | integer value =>
    exact spells_word (isWordChar_of_mem_toString value)
      (word?_of_integer? (integer?_toString value))
  | fraction text hnumber hfraction =>
    have hword := word?_of_isNumber hnumber hfraction
    rw [String.ofList_toList] at hword
    exact spells_word (isWordChar_of_isNumber hnumber) hword
  | string value => exact spells_quote value
  | array items _ ih =>
    rw [prettyAt, prettyItems_eq_map]
    apply spells_block_array
    rw [List.forall₂_map_left_iff, List.forall₂_same]
    exact fun item hitem => ih item hitem _
  | object entries _ ih =>
    rw [prettyAt, prettyEntries_eq_map]
    apply spells_block_object
    rw [List.forall₂_map_left_iff, List.forall₂_same]
    exact fun entry hentry => ⟨_, rfl, ih entry hentry _⟩

/-- **A value is read back from its text.** -/
theorem read?_pretty {json : Json} (h : json.WellFormed) : read? json.pretty = some json := by
  have hread := h.spells_prettyAt 0 [] [] (by simp [Delimited])
  rw [List.append_nil] at hread
  exact hread

/-- A text with an escape, nothing in brackets, and a number that is no integer. -/
example : (read? "\x7b\"a\\u0041\": [ ], \"b\":[-1,\t2.50e-3, -0]\x7d").map pretty =
    some "\x7b\n  \"aA\": [],\n  \"b\": [\n    -1,\n    2.50e-3,\n    -0\n  ]\n\x7d" := by
  decide +kernel

end MipsListing.Json
