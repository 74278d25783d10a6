-- One transaction, two messages. A stream gives a transaction as a field of an event, with the
-- ledger's verdict in the fields around it; a lookup puts the verdict among the fields of the
-- transaction. Whichever message comes first, the same outcome is read from it.
import OfferDesk.Outcome
import Mathlib.Data.List.Perm.Basic

namespace OfferDesk

/-! ## Fields of a record -/

namespace Json.Fields

variable {fields fields' : Fields} {name : String}

/-- In which order fields were written makes no difference. -/
theorem single?_perm (h : fields.Perm fields') (name : String) :
    fields.single? name = fields'.single? name := by
  have hp := h.filter (·.1 == name)
  rcases hl : fields.filter (·.1 == name) with _ | ⟨f, _ | ⟨g, rest⟩⟩
  · simp only [single?, hl, (hl ▸ hp).symm.eq_nil]
  · simp only [single?, hl, (hl ▸ hp).symm.eq_singleton]
  · rcases hl' : fields'.filter (·.1 == name) with _ | ⟨f', _ | ⟨g', rest'⟩⟩
    · exact absurd (hl' ▸ hl ▸ hp).eq_nil (List.cons_ne_nil _ _)
    · exact absurd (hl' ▸ hl ▸ hp).eq_singleton (by simp)
    · simp only [single?, hl, hl']

theorem filter_name_eq_nil (h : name ∉ fields.map Prod.fst) :
    fields.filter (·.1 == name) = [] := by
  refine List.filter_eq_nil_iff.mpr fun f hf hname => h ?_
  rw [← beq_iff_eq.mp hname]
  exact List.mem_map_of_mem hf

theorem single?_append_left (h : name ∉ fields'.map Prod.fst) :
    (fields ++ fields').single? name = fields.single? name := by
  simp only [single?, List.filter_append, filter_name_eq_nil h, List.append_nil]

theorem single?_append_right (h : name ∉ fields.map Prod.fst) :
    (fields ++ fields').single? name = fields'.single? name := by
  simp only [single?, List.filter_append, filter_name_eq_nil h, List.nil_append]

variable {α : Type} {decode : Json → Option α}

/-! A reader of a field looks at the fields of that name only. -/

theorem required_congr (h : fields.single? name = fields'.single? name) :
    fields.required name decode = fields'.required name decode := by
  simp only [required, h]

theorem optional_congr (h : fields.single? name = fields'.single? name) :
    fields.optional name decode = fields'.optional name decode := by
  simp only [optional, h]

theorem defaulted_congr {default : α} (h : fields.single? name = fields'.single? name) :
    fields.defaulted name decode default = fields'.defaulted name decode default := by
  simp only [defaulted, h]

/-- Of an object it makes no difference whether it has to be there or may be absent. -/
theorem optional_of_object {object : Fields} (h : fields.single? name = some (some (.object object))) :
    fields.optional name decode = (fields.required name decode).map some := by
  simp only [optional, required, h, Option.bind_eq_bind, Option.bind_some]
  cases decode (.object object) <;> rfl

end Json.Fields

/-- The fields of a transaction are read from the fields of their names only. -/
theorem TransactionFields.ofFields?_congr {fields fields' : Json.Fields}
    (h : ∀ name ∈ names, fields.single? name = fields'.single? name) :
    ofFields? fields = ofFields? fields' := by
  simp only [names, List.forall_mem_cons, List.not_mem_nil, false_imp_iff, implies_true,
    and_true] at h
  obtain ⟨account, kind, sequence, lastLedger, fee, flags, gets, pays, offerSequence⟩ := h
  simp only [ofFields?, Json.Fields.required_congr account, Json.Fields.required_congr kind,
    Json.Fields.defaulted_congr sequence, Json.Fields.optional_congr lastLedger,
    Json.Fields.optional_congr fee, Json.Fields.defaulted_congr flags,
    Json.Fields.optional_congr gets, Json.Fields.optional_congr pays,
    Json.Fields.optional_congr offerSequence]

/-! ## The two messages -/

namespace Outcome

/-- The names of the fields with the ledger's verdict. -/
def verdictNames : List String := ["meta", "hash", "ledger_index", "date", "validated"]

/-- The ledger's verdict on a validated transaction. -/
def verdict (metadata : Json.Fields) (hash ledgerIndex date : Json) : Json.Fields :=
  [("meta", .object metadata), ("hash", hash), ("ledger_index", ledgerIndex), ("date", date),
    ("validated", .bool true)]

section

variable {transaction metadata event result : Json.Fields} {hash ledgerIndex date : Json}

theorem single?_verdict_event (hash ledgerIndex date : Json)
    (hevent : event.Perm
      (("transaction", .object transaction) :: verdict metadata hash ledgerIndex date))
    (name : String) (hname : name ∈ verdictNames) :
    event.single? name = (verdict metadata hash ledgerIndex date).single? name := by
  rw [Json.Fields.single?_perm hevent, ← List.singleton_append,
    Json.Fields.single?_append_right]
  intro h
  obtain rfl : name = "transaction" := List.mem_singleton.mp h
  exact absurd hname (by decide)

/-- Where a transaction has no field of a verdict's name, these fields of a lookup are the
verdict. -/
theorem single?_verdict_result (hforeign : ∀ name ∈ verdictNames, name ∉ transaction.map Prod.fst)
    (hresult : result.Perm (transaction ++ verdict metadata hash ledgerIndex date))
    (name : String) (hname : name ∈ verdictNames) :
    result.single? name = (verdict metadata hash ledgerIndex date).single? name := by
  rw [Json.Fields.single?_perm hresult, Json.Fields.single?_append_right (hforeign name hname)]

theorem single?_transaction_event
    (hevent : event.Perm
      (("transaction", .object transaction) :: verdict metadata hash ledgerIndex date)) :
    event.single? "transaction" = some (some (.object transaction)) := by
  rw [Json.Fields.single?_perm hevent]
  rfl

/-- No field of a transaction has the name of a field of a verdict. -/
theorem ofFields?_result
    (hresult : result.Perm (transaction ++ verdict metadata hash ledgerIndex date)) :
    TransactionFields.ofFields? result = TransactionFields.ofFields? transaction := by
  refine TransactionFields.ofFields?_congr fun name hname => ?_
  have hother : name ∉ verdictNames := by
    revert name
    decide
  rw [Json.Fields.single?_perm hresult, Json.Fields.single?_append_left hother]

theorem ofStream?_eq_ofLookup?
    (hforeign : ∀ name ∈ verdictNames, name ∉ transaction.map Prod.fst)
    (hevent : event.Perm
      (("transaction", .object transaction) :: verdict metadata hash ledgerIndex date))
    (hresult : result.Perm (transaction ++ verdict metadata hash ledgerIndex date)) :
    ofStream? (.object event) = ofLookup? (.object result) := by
  have hsame : ∀ name ∈ verdictNames, event.single? name = result.single? name :=
    fun name hname => (single?_verdict_event _ _ _ hevent name hname).trans
      (single?_verdict_result hforeign hresult name hname).symm
  have hmeta : result.optional "meta" metaOf? = (event.required "meta" metaOf?).map some := by
    rw [Json.Fields.required_congr (hsame "meta" (by decide))]
    exact Json.Fields.optional_of_object
      (single?_verdict_result hforeign hresult "meta" (by decide))
  have hfields : event.required "transaction" TransactionFields.ofJson?
      = TransactionFields.ofFields? result := by
    rw [ofFields?_result hresult]
    simp only [Json.Fields.required, single?_transaction_event hevent]
    rfl
  have hvalidated (default : Bool) : event.defaulted "validated" Json.bool? default = some true := by
    simp only [Json.Fields.defaulted, single?_verdict_event _ _ _ hevent "validated" (by decide)]
    rfl
  simp only [ofStream?, ofLookup?, Json.fieldsOf?, Json.objectFields?, Option.bind_eq_bind,
    Option.bind_some, hfields, hmeta, Option.bind_map, Function.comp_def, Option.getD_some,
    Json.Fields.required_congr (hsame "hash" (by decide)),
    Json.Fields.optional_congr (hsame "ledger_index" (by decide)),
    Json.Fields.optional_congr (hsame "date" (by decide)), hvalidated,
    ← Json.Fields.defaulted_congr (hsame "validated" (by decide))]

/-- A validated transaction is the same outcome in a stream and in a lookup, or is not understood
in either. The fields of both messages may be in any order. -/
theorem ofStream_agrees_ofLookup
    (hforeign : ∀ name ∈ verdictNames, name ∉ transaction.map Prod.fst)
    (hevent : event.Perm
      (("transaction", .object transaction) :: verdict metadata hash ledgerIndex date))
    (hresult : result.Perm (transaction ++ verdict metadata hash ledgerIndex date)) :
    (∃ o, ofStream (.object event) = .ok o ∧ ofLookup (.object result) = .ok o) ∨
    (ofStream (.object event) = .error (.unexpected .transactionEvent) ∧
      ofLookup (.object result) = .error (.unexpected .lookupResult)) := by
  have heq := ofStream?_eq_ofLookup? hforeign hevent hresult
  unfold ofStream ofLookup
  rw [← heq]
  cases ofStream? (.object event) with
  | some o => exact Or.inl ⟨o, rfl, rfl⟩
  | none => exact Or.inr ⟨rfl, rfl⟩

end

/-! A cancellation, with the verdict that follows it in one message and comes first in the
other. -/

def cancelFields : Json.Fields :=
  [("Account", .string "rMe"), ("TransactionType", .string "OfferCancel"), ("Flags", .ofNat 0),
    ("OfferSequence", .ofNat 7), ("Memos", .array [])]

def cancelMeta : Json.Fields :=
  [("TransactionResult", .string "tesSUCCESS"), ("AffectedNodes", .array [.object
    [("DeletedNode", .object [("LedgerEntryType", .string "Offer"),
      ("FinalFields", .object [("Account", .string "rMe"), ("Sequence", .ofNat 7)])])]])]

def cancelVerdict : Json.Fields := verdict cancelMeta (.string "C0FFEE") (.ofNat 90) .null

theorem cancel_agrees :
    (∀ name ∈ verdictNames, name ∉ cancelFields.map Prod.fst) ∧
    ∃ o, ofStream (.object (("transaction", .object cancelFields) :: cancelVerdict)) = .ok o ∧
      ofLookup (.object (cancelVerdict ++ cancelFields)) = .ok o := by
  have hforeign : ∀ name ∈ verdictNames, name ∉ cancelFields.map Prod.fst := by decide
  refine ⟨hforeign, ?_⟩
  obtain h | h := ofStream_agrees_ofLookup hforeign (List.Perm.refl _) List.perm_append_comm
  · exact h
  · exact absurd h.1 (by decide)

end Outcome

end OfferDesk
