-- The record of a transaction reads back as the transaction, whatever it leaves open, from the
-- value and from its text. Each field is looked up by its name, so their order makes no difference,
-- and one that is left out counts as open.
import Mathlib.Data.List.Nodup
import OfferDesk.Proofs.Decoding
import OfferDesk.Proofs.JsonTexts
import OfferDesk.Transaction

namespace OfferDesk

/-! ## Fields -/

namespace Json

variable {α : Type} {fields fields' : Fields} {name : String} {decode : Json → Option α}
  {encode : α → Json}

theorem word32?_ofWord32 (n : UInt32) : word32? (ofWord32 n) = some n := by
  have hnatural : natural? (ofWord32 n) = some n.toNat := rfl
  rw [word32?, hnatural, Option.filter_some, if_pos (decide_eq_true n.toNat_lt)]
  exact congrArg some UInt32.ofNat_toNat

/-- A list is read back where each of its items is. -/
theorem listOf?_map (h : ∀ a, decode (encode a) = some a) (as : List α) :
    listOf? decode (.array (as.map encode)) = some as := by
  show (as.map encode).mapM decode = some as
  induction as with
  | nil => rfl
  | cons a as ih => rw [List.map_cons, List.mapM_cons, h a, ih]; rfl

namespace Fields

/-- The fields of a name, where one may be left out. -/
theorem filter_fieldIfSome (name name' : String) (value : Option α) :
    (fieldIfSome name' encode value).filter (·.1 == name) =
      if name' = name then fieldIfSome name' encode value else [] := by
  cases value with
  | none => simp [fieldIfSome]
  | some a => by_cases h : name' = name <;> simp [fieldIfSome, h]

theorem single?_of_filter {value : Option α}
    (h : fields.filter (·.1 == name) = fieldIfSome name encode value) :
    fields.single? name = some (value.map encode) := by
  rw [single?, h]
  cases value <;> rfl

theorem required_of_filter (hread : ∀ a, decode (encode a) = some a) {a : α}
    (h : fields.filter (·.1 == name) = fieldIfSome name encode (some a)) :
    fields.required name decode = some a := by
  rw [required, single?_of_filter h]
  exact hread a

/-- An optional field is read back where it is written and where it is left out. -/
theorem optional_of_filter (hread : ∀ a, decode (encode a) = some a)
    (hnull : ∀ a, encode a ≠ .null) {value : Option α}
    (h : fields.filter (·.1 == name) = fieldIfSome name encode value) :
    fields.optional name decode = some value := by
  rw [optional, single?_of_filter h]
  cases value with
  | none => rfl
  | some a =>
    -- what is written is not null, so it is decoded
    have hwritten := hnull a
    simp only [Option.map_some, Option.bind_eq_bind, Option.bind_some]
    rw [hread a]
    rfl

theorem defaulted_of_filter (hread : ∀ a, decode (encode a) = some a) {value : Option α}
    {default : α} (h : fields.filter (·.1 == name) = fieldIfSome name encode value) :
    fields.defaulted name decode default = some (value.getD default) := by
  rw [defaulted, single?_of_filter h]
  cases value with
  | none => rfl
  | some a => exact hread a

theorem names_fieldIfSome (name : String) (value : Option α) :
    ((fieldIfSome name encode value).map (·.1)).Sublist [name] := by
  cases value with
  | none => exact List.nil_sublist _
  | some a => exact List.Sublist.refl _

theorem readable_fieldIfSome {depth : Nat} (h : ∀ a, Readable depth (encode a)) (value : Option α) :
    ∀ f ∈ fieldIfSome name encode value, Readable depth f.2 := by
  cases value with
  | none => nofun
  | some a =>
    intro f hf
    cases List.mem_singleton.mp hf
    exact h a

end Fields

theorem readable_ofWord32 {depth : Nat} (n : UInt32) : Readable depth (ofWord32 n) := by
  have hsize := n.toNat_lt
  exact .whole (by omega) (by omega)

end Json

/-! ## Amounts -/

theorem IssuedAmount.ofJson?_toJson (a : IssuedAmount) : ofJson? a.toJson = some a := by
  rfl

theorem WireAmount.ofJson?_toJson (w : WireAmount) : ofJson? w.toJson = some w := by
  cases w with
  | drops text => rfl
  | issued a => exact congrArg (Option.map issued) a.ofJson?_toJson

theorem IssuedAmount.readable_toJson {depth : Nat} (a : IssuedAmount) :
    Json.Readable (depth + 1) a.toJson := by
  refine .object (show ["currency", "issuer", "value"].Nodup by decide) ?_
  simp only [List.forall_mem_cons]
  exact ⟨.string _, .string _, .string _, nofun⟩

theorem WireAmount.readable_toJson {depth : Nat} (w : WireAmount) :
    Json.Readable (depth + 1) w.toJson := by
  cases w with
  | drops text => exact .string text
  | issued a => exact a.readable_toJson

namespace Transaction

theorem memoOf?_memoToJson (data : String) : memoOf? (memoToJson data) = some data := by
  rfl

/-- The memos of a transaction, where it has any. -/
def memos? (t : Transaction) : Option (List String) := if t.memos.isEmpty then none else some t.memos

/-- The fields of the record of a transaction. -/
def fields (t : Transaction) : Json.Fields :=
  Json.fieldIfSome "Account" .string (some t.account) ++ actionFields t.action ++
    Json.fieldIfSome "Sequence" .ofWord32 t.sequence ++ Json.fieldIfSome "Fee" .string t.fee ++
    Json.fieldIfSome "LastLedgerSequence" .ofWord32 t.lastLedger ++
    Json.fieldIfSome "Memos" (fun memos => .array (memos.map memoToJson)) t.memos?

theorem toJson_eq (t : Transaction) : t.toJson = .object t.fields := by
  unfold toJson fields memos?
  cases t.memos <;> rfl

/-- The names of the fields that say what a transaction does. -/
def actionNames : List String :=
  ["TransactionType", "TakerGets", "TakerPays", "Flags", "OfferSequence"]

theorem names_actionFields (a : Action) : ((actionFields a).map (·.1)).Sublist actionNames := by
  cases a with
  | create gets pays flags =>
    have hnames : ["TransactionType", "TakerGets", "TakerPays", "Flags"].Sublist actionNames := by
      decide
    exact hnames
  | cancel sequence =>
    have hnames : ["TransactionType", "OfferSequence"].Sublist actionNames := by decide
    exact hnames

theorem filter_actionFields {name : String} (h : name ∉ actionNames) (a : Action) :
    (actionFields a).filter (·.1 == name) = [] :=
  Json.Fields.filter_name_eq_nil fun hname => h ((names_actionFields a).subset hname)

/-- Of the fields that say what a transaction does none is left out of its record. -/
theorem single?_fields_of_mem {name : String} (h : name ∈ actionNames) (t : Transaction) :
    t.fields.single? name = (actionFields t.action).single? name := by
  have hothers : ∀ other ∈ ["Account", "Sequence", "Fee", "LastLedgerSequence", "Memos"],
      other ≠ name := by
    have hnone : ∀ other ∈ ["Account", "Sequence", "Fee", "LastLedgerSequence", "Memos"],
      other ∉ actionNames := by decide
    rintro other hother rfl
    exact hnone other hother h
  simp [Json.Fields.single?, fields, hothers, Json.Fields.filter_fieldIfSome]

theorem actionOf?_congr {fields fields' : Json.Fields}
    (h : ∀ name ∈ actionNames, fields.single? name = fields'.single? name) :
    actionOf? fields = actionOf? fields' := by
  simp only [actionNames, List.forall_mem_cons] at h
  obtain ⟨htype, hgets, hpays, hflags, hsequence, _⟩ := h
  simp only [actionOf?, Json.Fields.required_congr htype, Json.Fields.required_congr hgets,
    Json.Fields.required_congr hpays, Json.Fields.defaulted_congr hflags,
    Json.Fields.required_congr hsequence]

theorem actionOf?_actionFields (a : Action) : actionOf? (actionFields a) = some a := by
  cases a with
  | create gets pays flags =>
    have htype : (actionFields (.create gets pays flags)).required "TransactionType" createsOffer? =
      some true := rfl
    have hgets : (actionFields (.create gets pays flags)).required "TakerGets" WireAmount.ofJson? =
      some gets := gets.ofJson?_toJson
    have hpays : (actionFields (.create gets pays flags)).required "TakerPays" WireAmount.ofJson? =
      some pays := pays.ofJson?_toJson
    have hflags : (actionFields (.create gets pays flags)).defaulted "Flags" Json.word32? 0 =
      some flags := Json.word32?_ofWord32 flags
    simp only [actionOf?, htype, hgets, hpays, hflags, Option.bind_eq_bind, Option.bind_some]
    rfl
  | cancel sequence =>
    have htype : (actionFields (.cancel sequence)).required "TransactionType" createsOffer? =
      some false := rfl
    have hsequence : (actionFields (.cancel sequence)).required "OfferSequence" Json.word32? =
      some sequence := Json.word32?_ofWord32 sequence
    simp only [actionOf?, htype, hsequence, Option.bind_eq_bind, Option.bind_some]
    rfl

/-- A field that says nothing of the action is among those beside it. -/
theorem filter_fields {name : String} (h : name ∉ actionNames) (t : Transaction) :
    t.fields.filter (·.1 == name) =
      (if "Account" = name then Json.fieldIfSome "Account" .string (some t.account) else []) ++
      (if "Sequence" = name then Json.fieldIfSome "Sequence" .ofWord32 t.sequence else []) ++
      (if "Fee" = name then Json.fieldIfSome "Fee" .string t.fee else []) ++
      (if "LastLedgerSequence" = name then
        Json.fieldIfSome "LastLedgerSequence" .ofWord32 t.lastLedger else []) ++
      (if "Memos" = name then
        Json.fieldIfSome "Memos" (fun memos => .array (memos.map memoToJson)) t.memos? else []) := by
  simp only [fields, List.filter_append, Json.Fields.filter_fieldIfSome, filter_actionFields h,
    List.append_nil]

theorem ofJson?_toJson (t : Transaction) : ofJson? t.toJson = some t := by
  have hstring (s : String) : Json.string? (.string s) = some s := rfl
  have hword := Json.word32?_ofWord32
  have haccount : t.fields.required "Account" Json.string? = some t.account :=
    Json.Fields.required_of_filter hstring ((filter_fields (by decide) t).trans (by simp))
  have haction : actionOf? t.fields = some t.action :=
    (actionOf?_congr fun name h => single?_fields_of_mem h t).trans (actionOf?_actionFields t.action)
  have hsequence : t.fields.optional "Sequence" Json.word32? = some t.sequence :=
    Json.Fields.optional_of_filter hword nofun ((filter_fields (by decide) t).trans (by simp))
  have hfee : t.fields.optional "Fee" Json.string? = some t.fee :=
    Json.Fields.optional_of_filter hstring nofun ((filter_fields (by decide) t).trans (by simp))
  have hlast : t.fields.optional "LastLedgerSequence" Json.word32? = some t.lastLedger :=
    Json.Fields.optional_of_filter hword nofun ((filter_fields (by decide) t).trans (by simp))
  have hmemos : t.fields.defaulted "Memos" (Json.listOf? memoOf?) [] = some (t.memos?.getD []) :=
    Json.Fields.defaulted_of_filter (Json.listOf?_map memoOf?_memoToJson)
      ((filter_fields (by decide) t).trans (by simp))
  have hnone : t.memos?.getD [] = t.memos := by
    rw [memos?]
    cases t.memos <;> rfl
  rw [toJson_eq]
  simp only [ofJson?, Json.objectFields?, Option.bind_eq_bind, Option.bind_some, haccount, haction,
    hsequence, hfee, hlast, hmemos, hnone]
  rfl

/-- In which order the fields of a record stand makes no difference. -/
theorem ofJson?_perm {fields fields' : Json.Fields} (h : fields.Perm fields') :
    ofJson? (.object fields) = ofJson? (.object fields') := by
  have hsingle := Json.Fields.single?_perm h
  have haction := actionOf?_congr fun name _ => hsingle name
  simp only [ofJson?, Json.objectFields?, Option.bind_eq_bind, Option.bind_some, haction,
    Json.Fields.required_congr (hsingle "Account"), Json.Fields.optional_congr (hsingle "Sequence"),
    Json.Fields.optional_congr (hsingle "Fee"),
    Json.Fields.optional_congr (hsingle "LastLedgerSequence"),
    Json.Fields.defaulted_congr (hsingle "Memos")]

/-! ## Texts -/

theorem readable_memoToJson {depth : Nat} (data : String) :
    Json.Readable (depth + 2) (memoToJson data) := by
  refine .object (List.nodup_singleton _) fun f hf => ?_
  cases List.mem_singleton.mp hf
  refine .object (List.nodup_singleton _) fun f hf => ?_
  cases List.mem_singleton.mp hf
  exact .string data

theorem readable_actionFields {depth : Nat} (a : Action) :
    ∀ f ∈ actionFields a, Json.Readable (depth + 1) f.2 := by
  cases a with
  | create gets pays flags =>
    simp only [actionFields, List.forall_mem_cons]
    exact ⟨.string _, gets.readable_toJson, pays.readable_toJson, Json.readable_ofWord32 flags,
      nofun⟩
  | cancel sequence =>
    simp only [actionFields, List.forall_mem_cons]
    exact ⟨.string _, Json.readable_ofWord32 sequence, nofun⟩

/-- The names of all fields, in the order of the record. -/
def fieldNames : List String :=
  ["Account"] ++ actionNames ++ ["Sequence"] ++ ["Fee"] ++ ["LastLedgerSequence"] ++ ["Memos"]

theorem names_fields (t : Transaction) : (t.fields.map (·.1)).Sublist fieldNames := by
  simp only [fields, List.map_append]
  exact (((((Json.Fields.names_fieldIfSome _ _).append (names_actionFields _)).append
    (Json.Fields.names_fieldIfSome _ _)).append (Json.Fields.names_fieldIfSome _ _)).append
    (Json.Fields.names_fieldIfSome _ _)).append (Json.Fields.names_fieldIfSome _ _)

theorem readable_toJson {depth : Nat} (t : Transaction) : Json.Readable (depth + 4) t.toJson := by
  rw [toJson_eq]
  refine .object ((names_fields t).nodup (by decide)) ?_
  simp only [fields, List.forall_mem_append]
  have hword (n : UInt32) : Json.Readable (depth + 3) (.ofWord32 n) := Json.readable_ofWord32 n
  have hmemos (memos : List String) : Json.Readable (depth + 3) (.array (memos.map memoToJson)) := by
    refine .array fun j hj => ?_
    obtain ⟨data, _, rfl⟩ := List.mem_map.mp hj
    exact readable_memoToJson data
  exact ⟨⟨⟨⟨⟨Json.Fields.readable_fieldIfSome .string _, readable_actionFields _⟩,
    Json.Fields.readable_fieldIfSome hword _⟩, Json.Fields.readable_fieldIfSome .string _⟩,
    Json.Fields.readable_fieldIfSome hword _⟩, Json.Fields.readable_fieldIfSome hmemos _⟩

/-- Every transaction is read back from its record: from the value, with its fields in any order, and
from the text of the value, whether its fields are taken as they stand or each once. -/
theorem records_read_back (t : Transaction) : ofJson? t.toJson = some t ∧
    (∀ written fields, t.toJson = .object written → fields.Perm written →
      ofJson? (.object fields) = some t) ∧
    (Json.read? t.toJson.text).bind ofJson? = some t ∧
    (Json.parse? t.toJson.text).bind ofJson? = some t := by
  have hdeepest : Json.deepest = 123 + 4 := rfl
  have hreadable : Json.Readable Json.deepest t.toJson := by
    rw [hdeepest]
    exact readable_toJson t
  have hread := ofJson?_toJson t
  refine ⟨hread, ?_, ?_, ?_⟩
  · intro written fields hwritten hperm
    rw [ofJson?_perm hperm, ← hwritten]
    exact hread
  · rw [Json.read?_text hreadable]
    exact hread
  · rw [Json.parse?_text hreadable]
    exact hread

/-! A record that is written from the back is one of the same transaction. -/

def cancelOfSeven : Transaction := ⟨"rMe", .cancel 7, none, some "12", none, []⟩

def fieldsFromTheBack : Json.Fields :=
  [("Fee", .string "12"), ("OfferSequence", .ofWord32 7), ("TransactionType", .string "OfferCancel"),
    ("Account", .string "rMe")]

theorem record_from_the_back : ofJson? (.object fieldsFromTheBack) = some cancelOfSeven := by
  obtain ⟨_, hanyOrder, _⟩ := records_read_back cancelOfSeven
  exact hanyOrder fieldsFromTheBack.reverse fieldsFromTheBack rfl (List.reverse_perm _).symm

end Transaction

end OfferDesk
