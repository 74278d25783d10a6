-- A sequence leads to one live order. Nothing is assigned a sequence that another live order
-- carries, and nothing that has ended comes back, so no two live orders ever carry the same one.
-- The sequence stands in the text of the exchange id, and reads back from it.
import OfferDesk.Proofs.ExchangeIds
import OfferDesk.Proofs.Replacing
import OfferDesk.Proofs.Replay

namespace OfferDesk

namespace OrderRegister

variable {r r' : OrderRegister} {a o : Order} {clientId : String} {sequence : UInt32}
  {id : ExchangeId}

/-! ## Assigning an exchange id -/

/-- An exchange id is assigned just where no other live order carries its sequence. -/
theorem assign_eq_ok_iff : r.assign clientId id = .ok r' ↔
    (∀ a ∈ r.carrying id.sequence, a.clientId = clientId) ∧
      ∃ o, r.find? clientId = some o ∧ r' = r.track { o with exchangeId := some id.text } := by
  unfold assign
  cases howner : (r.carrying id.sequence).find? (·.clientId ≠ clientId) with
  | some owner =>
    have hne : owner.clientId ≠ clientId := by simpa using List.find?_some howner
    simp only [reduceCtorEq, false_iff]
    intro h
    exact hne (h.1 owner (List.mem_of_find?_eq_some howner))
  | none =>
    have hown : ∀ a ∈ r.carrying id.sequence, a.clientId = clientId := by
      simpa using List.find?_eq_none.mp howner
    cases hf : r.find? clientId with
    | none => simp
    | some o =>
      constructor
      · intro h
        cases h
        exact ⟨hown, o, rfl, rfl⟩
      · rintro ⟨_, _, ho, rfl⟩
        cases ho
        rfl

/-- An assignment gives the order under a client id the exchange id, and leaves all others as they
are. -/
theorem sets_assign (h : r.assign clientId id = .ok r') : ∃ o, r.find? clientId = some o ∧
    Sets clientId (some { o with exchangeId := some id.text }) r r' := by
  obtain ⟨_, o, ho, rfl⟩ := assign_eq_ok_iff.mp h
  obtain rfl := clientId_of_find? ho
  exact ⟨o, ho, r.sets_track _⟩

/-- An assignment is refused where another live order carries the sequence, and that order is
named. -/
theorem assign_of_owner (ha : a ∈ r.carrying id.sequence) (hne : a.clientId ≠ clientId) :
    ∃ owner ∈ r.carrying id.sequence, owner.clientId ≠ clientId ∧
      r.assign clientId id = .error (.duplicateSequence clientId id.sequence owner.clientId) := by
  unfold assign
  cases howner : (r.carrying id.sequence).find? (·.clientId ≠ clientId) with
  | some owner =>
    exact ⟨owner, List.mem_of_find?_eq_some howner, by simpa using List.find?_some howner, rfl⟩
  | none =>
    have hown := List.find?_eq_none.mp howner a ha
    exact absurd hne (by simpa using hown)

/-- After an assignment a sequence is carried by the order that got it, or by one that carried it
before. -/
theorem mem_carrying_assign (h : r.assign clientId id = .ok r') (ha : a ∈ r'.carrying sequence) :
    a.clientId = clientId ∧ sequence = id.sequence ∨
      a.clientId ≠ clientId ∧ a ∈ r.carrying sequence := by
  obtain ⟨o, ho, hsets⟩ := sets_assign h
  obtain ⟨hf, hl, hs⟩ := mem_carrying.mp ha
  rw [hsets] at hf
  split at hf
  · rename_i hc
    cases hf
    refine Or.inl ⟨hc, ?_⟩
    rw [Order.sequence?_of_exchangeId rfl] at hs
    exact (Option.some.inj hs).symm
  · rename_i hc
    exact Or.inr ⟨hc, mem_carrying.mpr ⟨hf, hl, hs⟩⟩

theorem oneLivePerSequence_assign (hr : r.OneLivePerSequence)
    (h : r.assign clientId id = .ok r') : r'.OneLivePerSequence := by
  have hfree := (assign_eq_ok_iff.mp h).1
  intro sequence a ha b hb
  rcases mem_carrying_assign h ha with ⟨hca, hsa⟩ | ⟨hca, ha'⟩
  · rcases mem_carrying_assign h hb with ⟨hcb, _⟩ | ⟨hcb, hb'⟩
    · have hfa := (mem_carrying.mp ha).1
      rw [hca, ← hcb, (mem_carrying.mp hb).1] at hfa
      exact (Option.some.inj hfa).symm
    · subst hsa
      exact absurd (hfree b hb') hcb
  · rcases mem_carrying_assign h hb with ⟨hcb, hsb⟩ | ⟨_, hb'⟩
    · subst hsb
      exact absurd (hfree a ha') hca
    · exact hr sequence a ha' b hb'

/-! ## Registers whose sequences can be trusted -/

/-- What holds of a register whose exchange ids were all assigned by it: no two live orders carry
the same sequence, and the exchange id of a live order is the text of one. -/
structure Numbered (r : OrderRegister) : Prop where
  one : r.OneLivePerSequence
  written : ∀ clientId o text, r.find? clientId = some o → o.isLive = true →
    o.exchangeId = some text → ∃ id : ExchangeId, text = id.text

theorem numbered_empty : empty.Numbered where
  one _ _ ha := nomatch (mem_carrying.mp ha).1
  written _ _ _ h := nomatch h

theorem Descends.numbered (h : r.Descends r') (hr : r.Numbered) : r'.Numbered where
  one := h.oneLivePerSequence hr.one
  written clientId o' text hf hl ht := by
    obtain ⟨o, ho, ha⟩ := h clientId o' hf hl (by rw [ht]; rfl)
    exact hr.written clientId o text ho (ha.live_of_live hl) (ha.exchangeId_eq ▸ ht)

theorem numbered_assign (hr : r.Numbered) (h : r.assign clientId id = .ok r') : r'.Numbered where
  one := oneLivePerSequence_assign hr.one h
  written x a text hf hl ht := by
    obtain ⟨o, _, hsets⟩ := sets_assign h
    rw [hsets] at hf
    split at hf
    · cases hf
      exact ⟨id, (Option.some.inj ht).symm⟩
    · exact hr.written x a text hf hl ht

/-- A live order with an exchange id is the one that its sequence leads to. -/
theorem Numbered.resolve? (hr : r.Numbered) (hf : r.find? clientId = some o)
    (hl : o.isLive = true) (hid : o.exchangeId.isSome = true) :
    ∃ n, o.sequence? = some n ∧ r.resolve? n = some o := by
  obtain ⟨text, ht⟩ := Option.isSome_iff_exists.mp hid
  obtain ⟨id, rfl⟩ := hr.written clientId o text hf hl ht
  have hs := Order.sequence?_of_exchangeId ht
  refine ⟨id.sequence, hs, (resolve?_eq_some_iff hr.one).mpr (mem_carrying.mpr ⟨?_, hl, hs⟩)⟩
  rw [clientId_of_find? hf]
  exact hf

end OrderRegister

/-! ## Runs -/

/-- What is done to a register: a step that assigns no exchange id, under the trader of the moment,
or the assignment of one. -/
inductive RegisterCall where
  | step (ctx : Trader) (s : RegisterStep)
  | assign (clientId : String) (id : ExchangeId)

namespace RegisterCall

/-- The one order that a call is about. A transaction may be about any. -/
def clientId? : RegisterCall → Option String
  | step _ (.takeIn _) => none
  | step _ (.move clientId _) => some clientId
  | step _ (.track o _) => some o.clientId
  | step _ (.untrack clientId) => some clientId
  | assign clientId _ => some clientId

/-- The register after a call. One that refuses an assignment stays as it is, and there is none
where a transaction gives none. -/
def next? (r : OrderRegister) : RegisterCall → Option OrderRegister
  | step ctx s => s.next? ctx r
  | assign clientId id =>
    match r.assign clientId id with
    | .ok r => some r
    | .error _ => some r

/-- The register after one call after another. -/
def run? (r : OrderRegister) (calls : List RegisterCall) : Option OrderRegister :=
  calls.foldlM next? r

variable {r r' : OrderRegister}

theorem numbered_next? {call : RegisterCall} (hr : r.Numbered) (h : next? r call = some r') :
    r'.Numbered := by
  cases call with
  | step ctx s => exact (RegisterStep.descends_next? h).numbered hr
  | assign clientId id =>
    unfold next? at h
    dsimp only at h
    split at h
    · rename_i r₁ ha
      cases h
      exact OrderRegister.numbered_assign hr ha
    · cases h
      exact hr

theorem numbered_run? {calls : List RegisterCall} (hr : r.Numbered)
    (h : run? r calls = some r') : r'.Numbered := by
  induction calls generalizing r with
  | nil =>
    cases h
    exact hr
  | cons call calls ih =>
    rw [run?, List.foldlM_cons, Option.bind_eq_bind, Option.bind_eq_some_iff] at h
    obtain ⟨r₁, hcall, hrest⟩ := h
    exact ih (numbered_next? hr hcall) hrest

/-- However a register was filled, a sequence is carried by one live order at most. It leads to
that order, and to none where no live order carries it. -/
theorem a_sequence_leads_to_its_order {calls : List RegisterCall}
    (h : run? OrderRegister.empty calls = some r) :
    (∀ n x y a b, r.find? x = some a → r.find? y = some b → a.isLive = true → b.isLive = true →
      a.sequence? = some n → b.sequence? = some n → x = y) ∧
    (∀ clientId o, r.find? clientId = some o → o.isLive = true → o.exchangeId.isSome = true →
      ∃ n, o.sequence? = some n ∧ r.resolve? n = some o) ∧
    (∀ n, (∀ clientId o, r.find? clientId = some o → o.isLive = true → o.sequence? ≠ some n) →
      r.resolve? n = none) := by
  have hr := numbered_run? OrderRegister.numbered_empty h
  refine ⟨fun n x y a b hx hy hla hlb hsa hsb => ?_, fun clientId o hf hl hid => ?_,
    fun n hfree => ?_⟩
  · have hxid := OrderRegister.clientId_of_find? hx
    have hyid := OrderRegister.clientId_of_find? hy
    have ha := OrderRegister.mem_carrying.mpr ⟨hxid.symm ▸ hx, hla, hsa⟩
    have hb := OrderRegister.mem_carrying.mpr ⟨hyid.symm ▸ hy, hlb, hsb⟩
    rw [← hxid, ← hyid, hr.one n a ha b hb]
  · exact hr.resolve? hf hl hid
  · cases hs : r.resolve? n with
    | none => rfl
    | some o =>
      obtain ⟨hf, hl, hseq⟩ := OrderRegister.mem_carrying.mp
        (OrderRegister.mem_carrying_of_resolve? hs)
      exact absurd hseq (hfree o.clientId o hf hl)

/-! An order is assigned a sequence and filled in part. Another one is refused the same sequence
while the first is live. -/

def firstOrder : Order := .start "a" "SOLO-XRP" .sell .limit (.ofWord 100) none .moment

def secondOrder : Order := .start "b" "SOLO-XRP" .buy .limit (.ofWord 5) none .moment

def contendingCalls : List RegisterCall :=
  [.step RegisterStep.soloTrader (.track firstOrder rfl), .assign "a" ⟨7, 20⟩,
    .step RegisterStep.soloTrader (.track secondOrder rfl), .assign "b" ⟨7, 21⟩,
    .step RegisterStep.soloTrader (.takeIn RegisterStep.partialFill)]

theorem sequence_of_contending_orders : ∃ r o, run? .empty contendingCalls = some r ∧
    r.find? "a" = some o ∧ o.state = .partiallyFilled ∧ r.resolve? 7 = some o := by
  obtain ⟨r, h⟩ := Option.isSome_iff_exists.mp
    (show (run? .empty contendingCalls).isSome = true by decide +kernel)
  have hkept : ((run? .empty contendingCalls).bind (·.find? "a")).map
      (fun o => (o.state, o.exchangeId.isSome, o.sequence?)) =
        some (.partiallyFilled, true, some 7) := by decide +kernel
  rw [h, Option.bind_some] at hkept
  obtain ⟨o, hf, hfields⟩ := Option.map_eq_some_iff.mp hkept
  simp only [Prod.mk.injEq] at hfields
  obtain ⟨hstate, hid, hseq⟩ := hfields
  have hlive : o.isLive = true := by rw [Order.isLive, hstate]; rfl
  obtain ⟨n, hn, hresolved⟩ := (a_sequence_leads_to_its_order h).2.1 "a" o hf hlive hid
  rw [hseq] at hn
  cases hn
  exact ⟨r, o, h, hf, hstate, hresolved⟩

end RegisterCall

end OfferDesk
