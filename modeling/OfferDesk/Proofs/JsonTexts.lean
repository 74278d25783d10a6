-- JSON text reads back as the value that was written. The values are those whose numbers are whole
-- and fit a word of 64 bits, whose objects name each field once, and that are no deeper than the
-- reader goes. The length of the text is always enough fuel.
import OfferDesk.Json.Printer
import OfferDesk.Json.Reader
import OfferDesk.Proofs.DecimalText

namespace OfferDesk

namespace Json

/-- A value at most so deep, with no numbers but whole ones that fit a word of 64 bits, and with each
field of an object once. -/
inductive Readable : Nat → Json → Prop where
  | null {depth : Nat} : Readable depth .null
  | bool {depth : Nat} (b : Bool) : Readable depth (.bool b)
  | whole {depth : Nat} {n : Int} (low : -(2 ^ 63) ≤ n) (high : n < 2 ^ 64) :
      Readable depth (.number (.whole n))
  | string {depth : Nat} (s : String) : Readable depth (.string s)
  | array {depth : Nat} {items : List Json} (each : ∀ j ∈ items, Readable depth j) :
      Readable (depth + 1) (.array items)
  | object {depth : Nat} {fields : List (String × Json)} (names : (fields.map (·.1)).Nodup)
      (each : ∀ f ∈ fields, Readable depth f.2) : Readable (depth + 1) (.object fields)

/-- The characters of a value on one line. -/
def chars (j : Json) : List Char := j.text.toList

/-- What a value is followed by: nothing, or a character that separates or closes. -/
inductive Ends : List Char → Prop where
  | text : Ends []
  | comma (rest : List Char) : Ends (',' :: rest)
  | bracket (rest : List Char) : Ends (']' :: rest)
  | brace (rest : List Char) : Ends ('\x7d' :: rest)

namespace Reader

open Text Printer

variable {cs rest : List Char} {fuel n : Nat} {j : Json}

/-! ## Strings -/

theorem hexDigit?_digitChar {d : Nat} (h : d < 16) : hexDigit? (Nat.digitChar d) = some d := by
  revert d
  decide

/-- A control character is read from its escape. -/
theorem escape?_control {c : Char} (h : c.toNat < 0x20) (rest : List Char) :
    escape? ('u' :: '0' :: '0' :: Nat.digitChar (c.toNat / 16) :: Nat.digitChar (c.toNat % 16) ::
      rest) = some (c, rest) := by
  have hhigh := hexDigit?_digitChar (show c.toNat / 16 < 16 by omega)
  have hlow := hexDigit?_digitChar (show c.toNat % 16 < 16 by omega)
  have hzero : hexDigit? '0' = some 0 := rfl
  have hunit : unit? ('0' :: '0' :: Nat.digitChar (c.toNat / 16) ::
      Nat.digitChar (c.toNat % 16) :: rest) = some (c.toNat, rest) := by
    simp only [unit?, hzero, hhigh, hlow, Option.bind_eq_bind, Option.bind_some, Option.some.injEq,
      Prod.mk.injEq, and_true]
    omega
  simp only [escape?, hunit, Option.bind_eq_bind, Option.bind_some]
  rw [if_neg (by omega), if_neg (by omega), Char.ofNat_toNat]

/-- The text of a character inside a string is read as that character. -/
theorem stringBody?_charText (taken : List Char) (fuel : Nat) (c : Char) (rest : List Char) :
    stringBody? taken (fuel + 1) (charText c ++ rest) = stringBody? (c :: taken) fuel rest := by
  unfold charText
  -- the seven characters with an escape of one letter
  iterate 7
    split
    · subst c
      rfl
  split
  · rename_i hcontrol
    have hescape := escape?_control hcontrol rest
    simp only [List.cons_append, List.nil_append, stringBody?, hescape, Option.bind_eq_bind,
      Option.bind_some]
    rfl
  · rename_i hquote hslash _ _ _ _ _ hplain
    rw [List.singleton_append, stringBody?, if_neg hquote, if_neg hslash, if_neg hplain]

theorem stringBody?_body (taken cs : List Char) (h : cs.length < fuel) :
    stringBody? taken fuel (cs.flatMap charText ++ '"' :: rest) =
      some (String.ofList (taken.reverse ++ cs), rest) := by
  induction cs generalizing taken fuel with
  | nil =>
    obtain ⟨fuel, rfl⟩ := Nat.exists_eq_succ_of_ne_zero (Nat.ne_zero_of_lt h)
    rw [List.append_nil]
    rfl
  | cons c cs ih =>
    obtain ⟨fuel, rfl⟩ := Nat.exists_eq_succ_of_ne_zero (Nat.ne_zero_of_lt h)
    rw [List.flatMap_cons, List.append_assoc, stringBody?_charText,
      ih (c :: taken) (Nat.lt_of_succ_lt_succ h), List.reverse_cons, List.append_assoc,
      List.singleton_append]

theorem length_le_length_body (cs : List Char) : cs.length ≤ (cs.flatMap charText).length := by
  induction cs with
  | nil => exact Nat.le_refl _
  | cons c cs ih =>
    have hone : 1 ≤ (charText c).length := by
      unfold charText
      repeat' split
      all_goals exact Nat.le_add_left 1 _
    rw [List.flatMap_cons, List.length_append, List.length_cons]
    omega

/-- What stands behind the first quote of a string. -/
def stringRest (s : String) : List Char := s.toList.flatMap charText ++ ['"']

theorem toList_stringText (s : String) : (stringText s).toList = '"' :: stringRest s :=
  String.toList_ofList

/-- A string is read with the fuel that the reader gives it. -/
theorem stringBody?_stringRest (s : String) (rest : List Char) :
    stringBody? [] ((stringRest s ++ rest).length + 1) (stringRest s ++ rest) = some (s, rest) := by
  have hfuel : s.toList.length < (stringRest s ++ rest).length + 1 := by
    have hbody := length_le_length_body s.toList
    rw [stringRest, List.length_append, List.length_append]
    omega
  rw [stringRest, List.append_assoc, List.singleton_append] at *
  rw [stringBody?_body [] _ hfuel, List.reverse_nil, List.nil_append, String.ofList_toList]

/-! ## Numbers -/

/-- Digits are taken up to what follows the number, while the number fits. -/
theorem wholeDigits_of_digitsFrom? {value : Nat} (h : digitsFrom? value cs = some n)
    (hfits : n < UInt64.size) (hends : Ends rest) : wholeDigits value (cs ++ rest) = (n, rest) := by
  induction cs generalizing value with
  | nil =>
    cases h
    cases hends <;> rfl
  | cons c cs ih =>
    obtain ⟨d, hd, hrest⟩ := Option.bind_eq_some_iff.mp h
    have hle := le_of_digitsFrom? hrest
    simp only [List.cons_append, wholeDigits, hd]
    rw [if_pos (by omega)]
    exact ih hrest

/-- Zero alone starts with the digit zero. -/
theorem exists_cons_toDigits (n : Nat) : ∃ c cs, Nat.toDigits 10 n = c :: cs ∧
    c ∈ Nat.toDigits 10 n ∧ (c = '0' → n = 0) := by
  induction n using Nat.strongRecOn with
  | ind n ih =>
    by_cases hn : n < 10
    · have hdigit : ∀ d < 10, Nat.digitChar d = '0' → d = 0 := by decide
      rw [Nat.toDigits_of_lt_base hn]
      exact ⟨Nat.digitChar n, [], rfl, List.mem_cons_self, hdigit n hn⟩
    · obtain ⟨c, cs, hfirst, _, hzero⟩ := ih (n / 10) (by omega)
      rw [Nat.toDigits_of_base_le (by decide) (by omega), hfirst]
      refine ⟨c, cs ++ [Nat.digitChar (n % 10)], rfl, List.mem_cons_self, fun hc => ?_⟩
      have := hzero hc
      omega

theorem takeWhile_isDigit_of_ends (hends : Ends rest) : rest.takeWhile isDigit = [] := by
  cases hends <;> rfl

theorem dropWhile_isDigit_of_ends (hends : Ends rest) : rest.dropWhile isDigit = rest := by
  cases hends <;> rfl

theorem number?_toDigits (h : n < UInt64.size) (hends : Ends rest) :
    number? (Nat.toDigits 10 n ++ rest) = some (.whole n, rest) := by
  obtain ⟨c, cs, hdigits, hc, hzero⟩ := exists_cons_toDigits n
  by_cases hn : n = 0
  · subst n
    cases hends <;> rfl
  · have hminus : c ≠ '-' := toDigits_ne hc rfl
    -- no zero stands in front, so the whole run of digits is taken
    have hfirst : c ≠ '0' := fun heq => hn (hzero heq)
    have hdigit : isDigit c = true := isDigit_of_mem_toDigits hc
    have hwhole := wholeDigits_of_digitsFrom? (digitsFrom?_toDigits n) h hends
    rw [hdigits, List.cons_append] at hwhole ⊢
    simp only [number?, List.cons.injEq, hminus, hdigit, hwhole, false_and, imp_self, implies_true,
      reduceIte, Option.bind_eq_bind, Option.bind_some, takeWhile_isDigit_of_ends hends,
      dropWhile_isDigit_of_ends hends]
    cases hends <;> rfl

theorem number?_minus (hn : n ≠ 0) (h : n ≤ 2 ^ 63) (hends : Ends rest) :
    number? ('-' :: Nat.toDigits 10 n ++ rest) = some (.whole (-(n : Int)), rest) := by
  obtain ⟨c, cs, hdigits, hc, hzero⟩ := exists_cons_toDigits n
  have hfirst : c ≠ '0' := fun heq => hn (hzero heq)
  have hdigit : isDigit c = true := isDigit_of_mem_toDigits hc
  have hsize : n < UInt64.size := lt_of_le_of_lt h (by decide)
  have hwhole := wholeDigits_of_digitsFrom? (digitsFrom?_toDigits n) hsize hends
  rw [hdigits, List.cons_append] at hwhole
  rw [List.cons_append, hdigits, List.cons_append]
  have hfits : ¬ (n = 0 ∨ pow2 63 < n) := not_or.mpr ⟨hn, Nat.not_lt_of_le h⟩
  simp only [number?, hdigit, hwhole, reduceIte, Option.bind_eq_bind, Option.bind_some,
    takeWhile_isDigit_of_ends hends, dropWhile_isDigit_of_ends hends, if_neg hfits]
  cases hends <;> rfl

/-- The text of a whole number: its digits, behind a minus sign where it is below zero. -/
theorem chars_whole (k : Int) : chars (.number (.whole k)) =
    if 0 ≤ k then Nat.toDigits 10 k.natAbs else '-' :: Nat.toDigits 10 k.natAbs := by
  have htext : chars (.number (.whole k)) = k.repr.toList := rfl
  cases k with
  | ofNat m =>
    rw [htext]
    exact String.toList_ofList.trans (if_pos (Int.natCast_nonneg m)).symm
  | negSucc m =>
    rw [htext, if_neg (Int.negSucc_not_nonneg m).mp, Int.repr, String.toList_append]
    exact congrArg (['-'] ++ ·) String.toList_ofList

/-- A whole number starts with a digit or a minus sign. -/
theorem exists_cons_whole (k : Int) : ∃ c cs, chars (.number (.whole k)) = c :: cs ∧
    (c = '-' ∨ c.isDigit = true) := by
  rw [chars_whole]
  split
  · obtain ⟨c, cs, hdigits, hc, _⟩ := exists_cons_toDigits k.natAbs
    exact ⟨c, cs, hdigits, Or.inr (Nat.isDigit_of_mem_toDigits (by decide) (by decide) hc)⟩
  · exact ⟨'-', _, rfl, Or.inl rfl⟩

/-- No other character is one that a number starts with. -/
theorem ne_of_starts_number {c x : Char} (h : c = '-' ∨ c.isDigit = true)
    (hx : x ≠ '-' ∧ x.isDigit = false) : c ≠ x := by
  rintro rfl
  rcases h with h | h
  · exact hx.1 h
  · rw [hx.2] at h
    cases h

theorem not_isSpace_of_starts_number {c : Char} (h : c = '-' ∨ c.isDigit = true) :
    isSpace c = false := by
  have hne (x : Char) : x ≠ '-' ∧ x.isDigit = false → c ≠ x := ne_of_starts_number h
  simp only [isSpace, Bool.or_eq_false_iff, beq_eq_false_iff_ne]
  exact ⟨⟨⟨hne ' ' (by decide), hne '\n' (by decide)⟩, hne '\t' (by decide)⟩,
    hne '\r' (by decide)⟩

theorem number?_chars {k : Int} (low : -(2 ^ 63) ≤ k) (high : k < 2 ^ 64) (hends : Ends rest) :
    number? (chars (.number (.whole k)) ++ rest) = some (.whole k, rest) := by
  have hsize : UInt64.size = 2 ^ 64 := rfl
  rw [chars_whole]
  split
  · rw [number?_toDigits (by omega) hends, Int.natAbs_of_nonneg (by omega)]
  · rw [number?_minus (by omega) (by omega) hends, Int.ofNat_natAbs_of_nonpos (by omega), neg_neg]

/-! ## Values -/

/-- Parts with commas between them, up to the character that closes them. -/
def closed (close : Char) : List (List Char) → List Char
  | [] => [close]
  | [part] => part ++ [close]
  | part :: next :: parts => part ++ ',' :: closed close (next :: parts)

/-- The characters of a field. -/
def fieldChars (f : String × Json) : List Char := '"' :: (stringRest f.1 ++ ':' :: chars f.2)

theorem closed_intercalate (close : Char) (parts : List String) :
    (String.intercalate "," parts).toList ++ [close] = closed close (parts.map String.toList) := by
  induction parts with
  | nil => rfl
  | cons part parts ih =>
    cases parts with
    | nil => rw [String.intercalate_singleton]; rfl
    | cons next parts =>
      rw [String.intercalate_cons_cons, String.toList_append, String.toList_append,
        List.append_assoc, List.append_assoc, ih]
      rfl

theorem exists_cons_closed (close c : Char) (cs : List Char) (parts : List (List Char)) :
    ∃ tail, closed close ((c :: cs) :: parts) = c :: tail := by
  cases parts <;> exact ⟨_, rfl⟩

theorem map_compactItems (items : List Json) :
    (compactItems items).map String.toList = items.map chars := by
  induction items with
  | nil => rfl
  | cons j js ih => rw [compactItems, List.map_cons, ih]; rfl

theorem map_compactFields (fields : List (String × Json)) :
    (compactFields fields).map String.toList = fields.map fieldChars := by
  induction fields with
  | nil => rfl
  | cons f fs ih =>
    have htext : (stringText f.1 ++ ":" ++ compact f.2).toList = fieldChars f := by
      rw [String.toList_append, String.toList_append, toList_stringText, List.append_assoc]
      rfl
    rw [compactFields, List.map_cons, htext, ih]
    rfl

theorem chars_array (items : List Json) :
    chars (.array items) = '[' :: closed ']' (items.map chars) := by
  show (bracketed (compactItems items)).toList = _
  rw [← map_compactItems, ← closed_intercalate, bracketed, String.toList_append,
    String.toList_append]
  rfl

theorem chars_object (fields : List (String × Json)) :
    chars (.object fields) = '\x7b' :: closed '\x7d' (fields.map fieldChars) := by
  show (braced (compactFields fields)).toList = _
  rw [← map_compactFields, ← closed_intercalate, braced, String.toList_append,
    String.toList_append]
  rfl

/-- The reader takes the text of a value for this value, whatever follows it, with fuel for each of
its characters. -/
def ReadsBack (depth : Nat) (j : Json) : Prop :=
  ∀ fuel rest, (chars j).length ≤ fuel → Ends rest →
    value? (depth + 1) fuel (chars j ++ rest) = some (j, rest)

/-- A value starts with a character that is no space and closes no array. -/
theorem exists_cons_chars {depth : Nat} (h : Readable depth j) :
    ∃ c cs, chars j = c :: cs ∧ isSpace c = false ∧ c ≠ ']' := by
  cases h with
  | null => exact ⟨'n', _, rfl, rfl, by decide⟩
  | bool b =>
    cases b with
    | false => exact ⟨'f', _, rfl, rfl, by decide⟩
    | true => exact ⟨'t', _, rfl, rfl, by decide⟩
  | whole low high =>
    rename_i k
    obtain ⟨c, cs, hchars, hstart⟩ := exists_cons_whole k
    exact ⟨c, cs, hchars, not_isSpace_of_starts_number hstart,
      ne_of_starts_number hstart (by decide)⟩
  | string s => exact ⟨'"', _, toList_stringText s, rfl, by decide⟩
  | array each => exact ⟨'[', _, chars_array _, rfl, by decide⟩
  | object _ each => exact ⟨'\x7b', _, chars_object _, rfl, by decide⟩

theorem skipSpace_cons (c : Char) (h : isSpace c = false) (cs : List Char) :
    skipSpace (c :: cs) = c :: cs :=
  List.dropWhile_cons_of_neg (by simp [h])

theorem exists_fuel {c : Char} (h : (c :: cs).length ≤ fuel) :
    ∃ f, fuel = f + 1 ∧ cs.length ≤ f := by
  obtain ⟨f, rfl⟩ := Nat.exists_eq_succ_of_ne_zero (Nat.ne_zero_of_lt (Nat.lt_of_succ_le h))
  exact ⟨f, rfl, Nat.le_of_succ_le_succ h⟩

theorem readsBack_null (depth : Nat) : ReadsBack depth .null := by
  intro fuel rest hfuel _
  obtain ⟨f, rfl, _⟩ := exists_fuel hfuel
  rfl

theorem readsBack_bool (depth : Nat) (b : Bool) : ReadsBack depth (.bool b) := by
  intro fuel rest hfuel _
  cases b with
  | false =>
    obtain ⟨f, rfl, _⟩ := exists_fuel hfuel
    rfl
  | true =>
    obtain ⟨f, rfl, _⟩ := exists_fuel hfuel
    rfl

theorem readsBack_string (depth : Nat) (s : String) : ReadsBack depth (.string s) := by
  intro fuel rest hfuel _
  have hchars : chars (.string s) = '"' :: stringRest s := toList_stringText s
  rw [hchars] at hfuel ⊢
  obtain ⟨f, rfl, _⟩ := exists_fuel hfuel
  rw [List.cons_append]
  simp only [value?, skipSpace_cons '"' rfl, stringBody?_stringRest, Option.bind_eq_bind,
    Option.bind_some]

theorem readsBack_whole (depth : Nat) {k : Int} (low : -(2 ^ 63) ≤ k) (high : k < 2 ^ 64) :
    ReadsBack depth (.number (.whole k)) := by
  intro fuel rest hfuel hends
  have hread := number?_chars low high hends
  obtain ⟨c, cs, hchars, hstart⟩ := exists_cons_whole k
  rw [hchars] at hfuel hread ⊢
  obtain ⟨f, rfl, _⟩ := exists_fuel hfuel
  -- the first character is none that the other values start with
  have hne (x : Char) : x ≠ '-' ∧ x.isDigit = false → c ≠ x := ne_of_starts_number hstart
  have hnull := hne 'n' (by decide)
  have htrue := hne 't' (by decide)
  have hfalse := hne 'f' (by decide)
  have hquote := hne '"' (by decide)
  have hbracket := hne '[' (by decide)
  have hbrace := hne '\x7b' (by decide)
  have hskip := skipSpace_cons c (not_isSpace_of_starts_number hstart) (cs ++ rest)
  rw [List.cons_append] at hread ⊢
  simp only [value?, hskip, hread, List.cons.injEq, hnull, htrue, hfalse, hquote, hbracket, hbrace,
    false_and, imp_self, implies_true, Option.bind_eq_bind, Option.bind_some]

/-- A reader of parts that takes the last one with what closes them, and any other with the comma
behind it, takes them all. -/
theorem read_closed {α : Type} {part : α → List Char} {close : Char} {Reads : α → Prop}
    {read : Nat → List Char → Option (List α × List Char)}
    (last : ∀ a f rest, Reads a → (part a).length ≤ f →
      read (f + 1) (part a ++ close :: rest) = some ([a], rest))
    (more : ∀ a as f text rest, Reads a → (part a).length ≤ f → read f text = some (as, rest) →
      read (f + 1) (part a ++ ',' :: text) = some (a :: as, rest))
    {as : List α} (hne : as ≠ []) (each : ∀ a ∈ as, Reads a)
    (hfuel : (closed close (as.map part)).length ≤ fuel) (rest : List Char) :
    read fuel (closed close (as.map part) ++ rest) = some (as, rest) := by
  induction as generalizing fuel with
  | nil => cases hne rfl
  | cons a as ih =>
    have ha := each a List.mem_cons_self
    cases as with
    | nil =>
      simp only [List.map_cons, List.map_nil, closed, List.length_append, List.length_cons,
        List.append_assoc, List.singleton_append] at hfuel ⊢
      obtain ⟨f, rfl⟩ := Nat.exists_eq_add_of_le' (show 1 ≤ fuel by omega)
      exact last a f rest ha (by omega)
    | cons b bs =>
      have hrest := fun c hc => each c (List.mem_cons_of_mem a hc)
      simp only [List.map_cons, closed, List.length_append, List.length_cons, List.append_assoc,
        List.cons_append] at hfuel ih ⊢
      obtain ⟨f, rfl⟩ := Nat.exists_eq_add_of_le' (show 1 ≤ fuel by omega)
      exact more a _ f _ rest ha (by omega) (ih (List.cons_ne_nil b bs) hrest (by omega))

section

variable {depth f : Nat} {field : String × Json} {text : List Char} {items : List Json}
  {fields : List (String × Json)}

theorem items?_last (hvalue : ReadsBack depth j) (hfuel : (chars j).length ≤ f) :
    items? (depth + 1) (f + 1) (chars j ++ ']' :: rest) = some ([j], rest) := by
  have hread := hvalue f (']' :: rest) hfuel (.bracket rest)
  simp only [items?, hread, skipSpace_cons ']' rfl, Option.bind_eq_bind, Option.bind_some]

theorem items?_more (hvalue : ReadsBack depth j) (hfuel : (chars j).length ≤ f)
    (hitems : items? (depth + 1) f text = some (items, rest)) :
    items? (depth + 1) (f + 1) (chars j ++ ',' :: text) = some (j :: items, rest) := by
  have hread := hvalue f (',' :: text) hfuel (.comma text)
  simp only [items?, hread, skipSpace_cons ',' rfl, hitems, Option.bind_eq_bind, Option.bind_some]

theorem readsBack_array (hitems : ∀ j ∈ items, Readable depth j)
    (each : ∀ j ∈ items, ReadsBack depth j) : ReadsBack (depth + 1) (.array items) := by
  intro fuel rest hfuel _
  rw [chars_array] at hfuel ⊢
  obtain ⟨f, rfl, hrest⟩ := exists_fuel hfuel
  cases items with
  | nil => rfl
  | cons j js =>
    have hread : items? (depth + 1) f _ = _ := read_closed (fun _ _ _ => items?_last)
      (fun _ _ _ _ _ => items?_more) (List.cons_ne_nil j js) each hrest rest
    obtain ⟨c, cs, hchars, hspace, hclose⟩ := exists_cons_chars (hitems j List.mem_cons_self)
    obtain ⟨tail, hstart⟩ := exists_cons_closed ']' c cs (js.map chars)
    have hdeep : ¬ depth + 1 + 1 ≤ 1 := by omega
    rw [List.map_cons, hchars, hstart, List.cons_append] at hread
    rw [List.map_cons, hchars, hstart, List.cons_append, List.cons_append]
    -- the first item starts with no closing bracket
    simp only [value?, skipSpace_cons '[' rfl, skipSpace_cons c hspace, if_neg hdeep,
      Nat.add_sub_cancel, hclose, hread, List.cons.injEq, false_and, imp_self, implies_true,
      Option.bind_eq_bind, Option.bind_some]

/-- A field is a name and a value with a colon between them. -/
theorem fieldChars_append (field : String × Json) (rest : List Char) : fieldChars field ++ rest =
    '"' :: (stringRest field.1 ++ ':' :: (chars field.2 ++ rest)) := by
  rw [fieldChars, List.cons_append, List.append_assoc, List.cons_append]

theorem length_value_le (field : String × Json) :
    (chars field.2).length ≤ (fieldChars field).length := by
  simp only [fieldChars, List.length_cons, List.length_append]
  omega

theorem fields?_last (hvalue : ReadsBack depth field.2) (hfuel : (fieldChars field).length ≤ f) :
    fields? (depth + 1) (f + 1) (fieldChars field ++ '\x7d' :: rest) = some ([field], rest) := by
  have hname := stringBody?_stringRest field.1 (':' :: (chars field.2 ++ '\x7d' :: rest))
  have hread := hvalue f ('\x7d' :: rest) ((length_value_le field).trans hfuel) (.brace rest)
  rw [fieldChars_append]
  simp only [fields?, skipSpace_cons '"' rfl, hname, skipSpace_cons ':' rfl, hread,
    skipSpace_cons '\x7d' rfl, Option.bind_eq_bind, Option.bind_some]

theorem fields?_more (hvalue : ReadsBack depth field.2) (hfuel : (fieldChars field).length ≤ f)
    (hfields : fields? (depth + 1) f text = some (fields, rest)) :
    fields? (depth + 1) (f + 1) (fieldChars field ++ ',' :: text) =
      some (field :: fields, rest) := by
  have hname := stringBody?_stringRest field.1 (':' :: (chars field.2 ++ ',' :: text))
  have hread := hvalue f (',' :: text) ((length_value_le field).trans hfuel) (.comma text)
  rw [fieldChars_append]
  simp only [fields?, skipSpace_cons '"' rfl, hname, skipSpace_cons ':' rfl, hread,
    skipSpace_cons ',' rfl, hfields, Option.bind_eq_bind, Option.bind_some]

theorem readsBack_object (each : ∀ f ∈ fields, ReadsBack depth f.2) :
    ReadsBack (depth + 1) (.object fields) := by
  intro fuel rest hfuel _
  rw [chars_object] at hfuel ⊢
  obtain ⟨f, rfl, hrest⟩ := exists_fuel hfuel
  cases fields with
  | nil => rfl
  | cons field fields =>
    have hread : fields? (depth + 1) f _ = _ := read_closed (fun _ _ _ => fields?_last)
      (fun _ _ _ _ _ => fields?_more) (List.cons_ne_nil field fields) each hrest rest
    obtain ⟨tail, hstart⟩ := exists_cons_closed '\x7d' '"'
      (stringRest field.1 ++ ':' :: chars field.2) (fields.map fieldChars)
    have hdeep : ¬ depth + 1 + 1 ≤ 1 := by omega
    rw [List.map_cons, fieldChars, hstart, List.cons_append] at hread
    rw [List.map_cons, fieldChars, hstart, List.cons_append, List.cons_append]
    -- the quote of the first name is no closing brace
    have hquote : '"' ≠ '\x7d' := by decide
    simp only [value?, skipSpace_cons '\x7b' rfl, skipSpace_cons '"' rfl, if_neg hdeep,
      Nat.add_sub_cancel, hquote, hread, List.cons.injEq, false_and, imp_self, implies_true,
      Option.bind_eq_bind, Option.bind_some]

end

/-- Every value is read back from its text. -/
theorem readsBack {depth : Nat} (h : Readable depth j) : ReadsBack depth j := by
  induction h with
  | null => exact readsBack_null _
  | bool b => exact readsBack_bool _ b
  | whole low high => exact readsBack_whole _ low high
  | string s => exact readsBack_string _ s
  | array each ih => exact readsBack_array each ih
  | object _ _ ih => exact readsBack_object ih

end Reader

/-! ## Whole texts -/

variable {j : Json} {depth : Nat}

/-- A field under a new name is put at the end. -/
theorem putField_of_new {done : List (String × Json)} {name : String}
    (h : name ∉ done.map (·.1)) (value : Json) :
    putField done name value = done ++ [(name, value)] := by
  refine if_neg fun hany => h ?_
  obtain ⟨f, hf, hname⟩ := List.any_eq_true.mp hany
  exact List.mem_map.mpr ⟨f, hf, eq_of_beq hname⟩

theorem mergedFields_of_nodup {done rest : List (String × Json)}
    (names : ((done ++ rest).map (·.1)).Nodup) (each : ∀ f ∈ rest, merged f.2 = f.2) :
    mergedFields done rest = done ++ rest := by
  induction rest generalizing done with
  | nil => rw [mergedFields, List.append_nil]
  | cons f rest ih =>
    have hnew : f.1 ∉ done.map (·.1) := by
      rw [List.map_append, List.map_cons, List.nodup_append] at names
      exact fun hmem => names.2.2 _ hmem _ List.mem_cons_self rfl
    rw [List.append_cons] at names ⊢
    rw [mergedFields, each f List.mem_cons_self, putField_of_new hnew]
    exact ih names fun g hg => each g (List.mem_cons_of_mem f hg)

theorem mergedItems_of_forall {items : List Json} (each : ∀ j ∈ items, merged j = j) :
    mergedItems items = items := by
  induction items with
  | nil => rfl
  | cons j js ih =>
    rw [mergedItems, each j List.mem_cons_self, ih fun k hk => each k (List.mem_cons_of_mem j hk)]

theorem merged_of_readable (h : Readable depth j) : merged j = j := by
  induction h with
  | null => rfl
  | bool b => rfl
  | whole low high => rfl
  | string s => rfl
  | array _ ih => rw [merged, mergedItems_of_forall ih]
  | object names _ ih =>
    rename_i fields _
    have hfields : mergedFields [] fields = [] ++ fields := mergedFields_of_nodup names ih
    rw [merged, hfields, List.nil_append]

/-- The deepest value that is read. -/
def deepest : Nat := Reader.depthLimit - 1

/-- The text of a value on one line is read as the value. -/
theorem read?_text (h : Readable deepest j) : read? j.text = some j := by
  have hread := Reader.readsBack h ((chars j).length + 1) [] (Nat.le_succ _) .text
  rw [List.append_nil] at hread
  have hvalue : Reader.value? Reader.depthLimit (j.text.toList.length + 1) j.text.toList =
    some (j, []) := hread
  simp only [read?, hvalue]
  rfl

theorem parse?_text (h : Readable deepest j) : parse? j.text = some j := by
  rw [parse?, read?_text h, Option.map_some, merged_of_readable h]

end Json

end OfferDesk
