-- The issued balances of an account against its trust lines. Each object of the account comes to one
-- value under one symbol, or to nothing at all. So what is under a symbol in the end is the sum of
-- the values that came under it, in the order of the objects, whatever stands between them.
import OfferDesk.Proofs.HaltedMessages
import OfferDesk.Proofs.Reporting

namespace OfferDesk

/-! ## Values under one symbol -/

namespace Holding

variable {h h' : Holding} {value : Decimal} {values : List Decimal}

/-- A holding with values added to it one after another. -/
def addAll? (h : Holding) (values : List Decimal) : Option Holding := values.foldlM add? h

/-- Both parts of a holding are sums of their own. -/
theorem addAll?_eq_some_iff : h.addAll? values = some h' ↔
    h.total.sumFrom? values = some h'.total ∧ h.available.sumFrom? values = some h'.available := by
  induction values generalizing h with
  | nil =>
    obtain ⟨total, available⟩ := h
    obtain ⟨total', available'⟩ := h'
    simp [addAll?, Decimal.sumFrom?]
  | cons value values ih =>
    simp only [addAll?, Decimal.sumFrom?, List.foldlM_cons, Option.bind_eq_bind,
      Option.bind_eq_some_iff] at ih ⊢
    constructor
    · rintro ⟨mid, hmid, hrest⟩
      obtain ⟨htotal, havailable⟩ := add?_eq_some_iff.mp hmid
      obtain ⟨hall, hspare⟩ := ih.mp hrest
      exact ⟨⟨_, htotal, hall⟩, ⟨_, havailable, hspare⟩⟩
    · rintro ⟨⟨total, htotal, hall⟩, ⟨available, havailable, hspare⟩⟩
      exact ⟨⟨total, available⟩, add?_eq_some_iff.mpr ⟨htotal, havailable⟩, ih.mpr ⟨hall, hspare⟩⟩

theorem addAll?_nothing {sum : Decimal} (h : Decimal.zero.sumFrom? values = some sum) :
    nothing.addAll? values = some ⟨sum, sum⟩ :=
  addAll?_eq_some_iff.mpr ⟨h, h⟩

end Holding

namespace Balances

variable {b b' : Balances} {line : String × Decimal} {lines : List (String × Decimal)}
  {symbol : String}

/-- The values of the lines whose codes are shown as a symbol, in their order. -/
def valuesUnder (symbol : String) (lines : List (String × Decimal)) : List Decimal :=
  (lines.filter fun line => Currency.symbolOf line.1 = symbol).map (·.2)

theorem valuesUnder_cons (symbol : String) (line : String × Decimal)
    (lines : List (String × Decimal)) : valuesUnder symbol (line :: lines) =
      if Currency.symbolOf line.1 = symbol then line.2 :: valuesUnder symbol lines
      else valuesUnder symbol lines := by
  by_cases hs : Currency.symbolOf line.1 = symbol <;> simp [valuesUnder, hs]

/-- A line adds its value to what is under its symbol and leaves all other symbols alone. -/
theorem addAll?_of_addLine? (h : b.addLine? line = some b') (symbol : String)
    (lines : List (String × Decimal)) :
    (b.holding symbol).addAll? (valuesUnder symbol (line :: lines)) =
      (b'.holding symbol).addAll? (valuesUnder symbol lines) := by
  obtain ⟨added, hadded, rfl⟩ := addLine?_eq_some_iff.mp h
  rw [valuesUnder_cons, holding_put]
  by_cases hs : Currency.symbolOf line.1 = symbol
  · subst hs
    rw [if_pos rfl, if_pos rfl, Holding.addAll?, List.foldlM_cons, hadded]
    rfl
  · rw [if_neg hs, if_neg (Ne.symm hs)]

/-- In the end each symbol has the sum of the values that came under it. -/
theorem addAll?_of_addLines (h : lines.foldlM addLine? b = some b') (symbol : String) :
    (b.holding symbol).addAll? (valuesUnder symbol lines) = some (b'.holding symbol) := by
  induction lines generalizing b with
  | nil =>
    cases h
    rfl
  | cons line lines ih =>
    obtain ⟨mid, hmid, h⟩ := Option.bind_eq_some_iff.mp h
    rw [addAll?_of_addLine? hmid]
    exact ih h

/-- Lines can be added where the sum under every symbol is in range. -/
theorem exists_addLines (h : ∀ symbol, ∃ all,
    (b.holding symbol).addAll? (valuesUnder symbol lines) = some all) :
    ∃ b', lines.foldlM addLine? b = some b' := by
  induction lines generalizing b with
  | nil => exact ⟨b, rfl⟩
  | cons line lines ih =>
    have hfirst : ∃ mid, b.addLine? line = some mid := by
      obtain ⟨all, hall⟩ := h (Currency.symbolOf line.1)
      rw [valuesUnder_cons, if_pos rfl, Holding.addAll?, List.foldlM_cons] at hall
      obtain ⟨added, hadded, _⟩ := Option.bind_eq_some_iff.mp hall
      exact ⟨_, addLine?_eq_some_iff.mpr ⟨added, hadded, rfl⟩⟩
    obtain ⟨mid, hmid⟩ := hfirst
    obtain ⟨b', hb'⟩ := ih fun symbol => by
      rw [← addAll?_of_addLine? hmid]
      exact h symbol
    exact ⟨b', by rw [List.foldlM_cons, hmid]; exact hb'⟩

/-- A symbol has an entry if it had one before or a line came under it. -/
theorem find?_of_addLines (h : lines.foldlM addLine? b = some b') (symbol : String) :
    b'.find? symbol = none ↔ b.find? symbol = none ∧ valuesUnder symbol lines = [] := by
  induction lines generalizing b with
  | nil =>
    cases h
    simp [valuesUnder]
  | cons line lines ih =>
    obtain ⟨mid, hmid, h⟩ := Option.bind_eq_some_iff.mp h
    obtain ⟨added, _, rfl⟩ := addLine?_eq_some_iff.mp hmid
    rw [ih h, Table.find?_put, valuesUnder_cons]
    by_cases hs : Currency.symbolOf line.1 = symbol
    · simp [hs]
    · simp [hs, Ne.symm hs]

/-! ## Usable lines -/

variable {account : String} {info objects objects' object data : Json} {reserve : Reserve}
  {native : Decimal} {own : Holding}

/-- A trust line that can be used: it decodes, and its balance is issued and is a number. -/
structure Usable (object : Json) (line : ObjectFields) (balance : IssuedAmount) (stored : Decimal) :
    Prop where
  kind : (object.field? "LedgerEntryType").bind Json.string? = some EntryType.trustLine.text
  decoded : ObjectFields.ofJson? object = some line
  issued : line.balance = some (.issued balance)
  parsed : Decimal.ofIssuedText balance.value = .ok stored

/-- The balance of a line as an account sees it: as it is stored from its low side, and with the
opposite sign from the other. -/
def seenBy (account : String) (line : ObjectFields) (stored : Decimal) : Decimal :=
  if line.lowLimit.map (·.issuer) = some account then stored else stored.neg

/-- What an object holds is the balance of a usable line, as the account sees it. -/
theorem lineBalance?_eq_some_iff {held : String × Decimal} :
    lineBalance? account object = some held ↔ ∃ line balance stored,
      Usable object line balance stored ∧ held = (balance.currency, seenBy account line stored) := by
  unfold lineBalance?
  constructor
  · intro h
    obtain ⟨kind, hkind, h⟩ := Option.bind_eq_some_iff.mp h
    split at h
    · rename_i hline
      subst hline
      obtain ⟨line, hdecoded, h⟩ := Option.bind_eq_some_iff.mp h
      split at h
      · rename_i balance hissued
        obtain ⟨stored, hparsed, h⟩ := Option.bind_eq_some_iff.mp h
        cases h
        have hok : Decimal.ofIssuedText balance.value = .ok stored := by
          cases hvalue : Decimal.ofIssuedText balance.value with
          | error e =>
            rw [hvalue] at hparsed
            cases hparsed
          | ok value =>
            rw [hvalue] at hparsed
            cases hparsed
            rfl
        exact ⟨line, balance, stored, ⟨hkind, hdecoded, hissued, hok⟩, rfl⟩
      · cases h
    · cases h
  · rintro ⟨line, balance, stored, hu, rfl⟩
    simp [hu.kind, hu.decoded, hu.issued, hu.parsed, Except.toOption, seenBy]

/-- The objects of an account as they are listed. -/
def listed (objects : Json) : List Json :=
  ((objects.field? "account_objects").bind Json.array?).getD []

/-- An object that is no usable line might as well not be listed. -/
theorem linesOf_of_unusable {before after : List Json}
    (hlisted : listed objects = before ++ object :: after)
    (hlisted' : listed objects' = before ++ after)
    (hunusable : ¬ ∃ line balance stored, Usable object line balance stored) :
    linesOf account objects' = linesOf account objects := by
  have hnone : lineBalance? account object = none := by
    by_contra hsome
    obtain ⟨held, hheld⟩ := Option.ne_none_iff_exists'.mp hsome
    obtain ⟨line, balance, stored, hu, _⟩ := lineBalance?_eq_some_iff.mp hheld
    exact hunusable ⟨line, balance, stored, hu⟩
  show (listed objects').filterMap _ = (listed objects).filterMap _
  rw [hlisted, hlisted', List.filterMap_append, List.filterMap_append, List.filterMap_cons, hnone]

/-! ## Issued balances -/

/-- Balances are what the account owns itself, with the values of its lines added under each
symbol. -/
theorem derive?_eq_ok_iff (hinfo : nativeOf info = .ok (data, native))
    (hown : nativeHolding? native (ownerCountOf data) reserve = some own) :
    derive? account info objects reserve = some (.ok b) ↔
      (linesOf account objects).foldlM addLine? (Table.empty.put Currency.nativeSymbol own) =
        some b := by
  rw [derive?_of_nativeOf hinfo, hown, Option.bind_some, Option.map_eq_some_iff]
  constructor
  · rintro ⟨b', h, heq⟩
    cases heq
    exact h
  · intro h
    exact ⟨b, h, rfl⟩

/-- Balances of an account can be told as long as no sum leaves the range of decimals. Under every
issued symbol they are the sum of the values of the usable lines that are shown as it, each with the
sign that the account sees, in the order in which they are listed. A symbol of no line has no
entry, and objects that are no usable lines do not count at all. -/
theorem issued_balances_are_sums_of_lines (hinfo : nativeOf info = .ok (data, native))
    (hown : nativeHolding? native (ownerCountOf data) reserve = some own)
    (hissued : ∀ symbol, symbol ≠ Currency.nativeSymbol →
      ∃ sum, Decimal.zero.sumFrom? (valuesUnder symbol (linesOf account objects)) = some sum)
    (hnative : ∃ all,
      own.addAll? (valuesUnder Currency.nativeSymbol (linesOf account objects)) = some all) :
    ∃ b, derive? account info objects reserve = some (.ok b) ∧
      (∀ symbol, symbol ≠ Currency.nativeSymbol → ∃ sum,
        Decimal.zero.sumFrom? (valuesUnder symbol (linesOf account objects)) = some sum ∧
        b.find? symbol =
          if valuesUnder symbol (linesOf account objects) = [] then none else some ⟨sum, sum⟩) ∧
      (linesOf account objects = (listed objects).filterMap (lineBalance? account) ∧
        ∀ object held, lineBalance? account object = some held ↔ ∃ line balance stored,
          Usable object line balance stored ∧
            held = (balance.currency, seenBy account line stored)) ∧
      ∀ objects' before object after, listed objects = before ++ object :: after →
        listed objects' = before ++ after →
        (¬ ∃ line balance stored, Usable object line balance stored) →
        derive? account info objects' reserve = some (.ok b) := by
  have hsums : ∀ symbol, ∃ all, (holding (Table.empty.put Currency.nativeSymbol own) symbol).addAll?
      (valuesUnder symbol (linesOf account objects)) = some all := by
    intro symbol
    rw [holding_start]
    by_cases hs : symbol = Currency.nativeSymbol
    · rw [if_pos hs, hs]
      exact hnative
    · obtain ⟨sum, hsum⟩ := hissued symbol hs
      rw [if_neg hs]
      exact ⟨⟨sum, sum⟩, Holding.addAll?_nothing hsum⟩
  obtain ⟨b, hb⟩ := exists_addLines hsums
  refine ⟨b, (derive?_eq_ok_iff hinfo hown).mpr hb, ?_,
    ⟨rfl, fun _ _ => lineBalance?_eq_some_iff⟩, ?_⟩
  · intro symbol hs
    obtain ⟨sum, hsum⟩ := hissued symbol hs
    refine ⟨sum, hsum, ?_⟩
    have hall := addAll?_of_addLines hb symbol
    rw [holding_start, if_neg hs, Holding.addAll?_nothing hsum] at hall
    have hentry := find?_of_addLines hb symbol
    rw [Table.find?_put_of_ne _ _ hs, Table.find?_empty] at hentry
    by_cases hnone : valuesUnder symbol (linesOf account objects) = []
    · rw [if_pos hnone]
      exact hentry.mpr ⟨rfl, hnone⟩
    · rw [if_neg hnone]
      obtain ⟨entry, hfound⟩ := Option.ne_none_iff_exists'.mp fun h => hnone (hentry.mp h).2
      rw [holding, hfound] at hall
      rw [hfound, hall]
      rfl
  · intro objects' before object after hlisted hlisted' hunusable
    rw [derive?_eq_ok_iff hinfo hown, linesOf_of_unusable hlisted hlisted' hunusable]
    exact hb

/-! Two lines in one currency, each seen from another side, and an offer between them. -/

def standardInfo : Json := .object [("account_data", .object [("Balance", .string "20000000")])]

def issuedJson (code issuer value : String) : Json :=
  .object [("currency", .string code), ("issuer", .string issuer), ("value", .string value)]

def lineJson (code value low high : String) : Json :=
  .object [("LedgerEntryType", .string "RippleState"), ("Balance", issuedJson code "rOne" value),
    ("LowLimit", issuedJson code low "100"), ("HighLimit", issuedJson code high "100")]

def offerJson : Json := .object [("LedgerEntryType", .string "Offer"), ("Sequence", .ofNat 7)]

def objectsJson (objects : List Json) : Json := .object [("account_objects", .array objects)]

def twoLines : Json := objectsJson
  [lineJson "USD" "5" "rMe" "rGate", offerJson, lineJson "USD" "-2.5" "rGate" "rMe"]

theorem balance_of_two_lines : ∃ b,
    derive? "rMe" standardInfo twoLines .standard = some (.ok b) ∧
      b.find? "USD" = some ⟨⟨75, 1, by decide, by decide⟩, ⟨75, 1, by decide, by decide⟩⟩ := by
  obtain ⟨data, hinfo⟩ : ∃ data, nativeOf standardInfo = .ok (data, .ofWord 20) := ⟨_, rfl⟩
  have hown : nativeHolding? (.ofWord 20) (ownerCountOf data) .standard =
      some ⟨.ofWord 20, .ofWord 10⟩ := by
    cases hinfo
    decide +kernel
  have hlines : linesOf "rMe" twoLines =
      [("USD", .ofWord 5), ("USD", ⟨25, 1, by decide, by decide⟩)] := by decide +kernel
  have hshown : Currency.symbolOf "USD" = "USD" := by decide +kernel
  have hvalues (symbol : String) : valuesUnder symbol (linesOf "rMe" twoLines) =
      if "USD" = symbol then [.ofWord 5, ⟨25, 1, by decide, by decide⟩] else [] := by
    rw [hlines, valuesUnder_cons, valuesUnder_cons, hshown]
    split <;> rfl
  have hsum : Decimal.zero.sumFrom? [.ofWord 5, ⟨25, 1, by decide, by decide⟩] =
      some ⟨75, 1, by decide, by decide⟩ := by decide +kernel
  have hissued : ∀ symbol, symbol ≠ Currency.nativeSymbol →
      ∃ sum, Decimal.zero.sumFrom? (valuesUnder symbol (linesOf "rMe" twoLines)) = some sum := by
    intro symbol _
    rw [hvalues]
    split
    · exact ⟨_, hsum⟩
    · exact ⟨_, rfl⟩
  have hnative : ∃ all, (Holding.mk (.ofWord 20) (.ofWord 10)).addAll?
      (valuesUnder Currency.nativeSymbol (linesOf "rMe" twoLines)) = some all := by
    rw [hvalues, if_neg (by decide)]
    exact ⟨_, rfl⟩
  obtain ⟨b, hb, hentries, _⟩ := issued_balances_are_sums_of_lines hinfo hown hissued hnative
  refine ⟨b, hb, ?_⟩
  obtain ⟨sum, hfound, hentry⟩ := hentries "USD" (by decide)
  rw [hvalues, if_pos rfl] at hfound hentry
  cases hsum.symm.trans hfound
  exact hentry

end Balances

end OfferDesk
