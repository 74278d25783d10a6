-- The terms that a desk publishes, while refreshes, balance updates and messages of the account are
-- under way in any number. Terms are the results of the calls that succeeded, put in place one
-- after another, and each result was read by one call from one reading of the ledger.
import OfferDesk.Proofs.Publications

namespace OfferDesk

/-! ## Runs -/

namespace BusyDesk

variable {α : Type} {d : Desk} {g g' g₁ : BusyDesk} {event : BusyEvent} {events : List BusyEvent}
  {log : List (Nat × LedgerCall)} {n : Nat}

/-- The call that an event answers, with the number of the task that made it. -/
def call? (g : BusyDesk) : BusyEvent → Option (Nat × LedgerCall)
  | .reply n r =>
    match g.tasks.find? n with
    | some (.ask _ request _) => some (n, request, r)
    | _ => none
  | _ => none

/-- What an event has published. -/
def published? (d : Desk) (g : BusyDesk) : BusyEvent → Option Publication
  | .reply n r => (g.waiting? n).bind (·.publishes? d g.state r)
  | _ => none

/-- What the events of a run come to, one after another. -/
def along (d : Desk) (f : BusyDesk → BusyEvent → Option α) : BusyDesk → List BusyEvent → List α
  | _, [] => []
  | g, event :: events => (f g event).toList ++ ((step? d g event).map (along d f · events)).getD []

theorem along_cons {f : BusyDesk → BusyEvent → Option α} (h : step? d g event = some g₁) :
    along d f g (event :: events) = (f g event).toList ++ along d f g₁ events := by
  rw [along, h]
  rfl

/-- The answered calls of a run. -/
def calls (d : Desk) (g : BusyDesk) (events : List BusyEvent) : List (Nat × LedgerCall) :=
  along d call? g events

/-- What is published in a run. -/
def published (d : Desk) (g : BusyDesk) (events : List BusyEvent) : List Publication :=
  along d (published? d) g events

/-- The calls that were made under a number. -/
def callsOf (n : Nat) (log : List (Nat × LedgerCall)) : List LedgerCall :=
  (log.filter (·.1 = n)).map Prod.snd

theorem callsOf_append (n : Nat) (log more : List (Nat × LedgerCall)) :
    callsOf n (log ++ more) = callsOf n log ++ callsOf n more := by
  rw [callsOf, List.filter_append, List.map_append]
  rfl

/-- An event changes the terms by what it publishes, and by nothing else. -/
theorem terms_step (h : step? d g event = some g') :
    g'.state.terms = (g.published? d event).toList.foldl .publish g.state.terms := by
  cases event with
  | start n job =>
    simp only [step?] at h
    split at h
    · cases h
      exact job.terms_start d g.state
    · cases h
  | reply n r =>
    simp only [step?] at h
    simp only [published?]
    cases hw : g.waiting? n with
    | some w =>
      rw [hw] at h
      cases h
      exact w.terms_resume d g.state r
    | none =>
      rw [hw] at h
      cases h
      rfl
  | drop n =>
    simp only [step?] at h
    split at h
    · rename_i w _
      cases h
      exact w.keeps_drop (DeskState.workInvariant_terms _) rfl
    · cases h
      rfl
  | bookMessage message =>
    obtain ⟨s, hs, rfl⟩ := Option.map_eq_some_iff.mp h
    exact (DeskState.workInvariant_terms _).bookEvent rfl hs
  | move clientId state =>
    cases h
    exact g.state.terms_move clientId state
  | takeIn ctx o =>
    obtain ⟨taken, _, rfl⟩ := Option.map_eq_some_iff.mp h
    rfl
  | assign clientId id =>
    simp only [step?] at h
    split at h <;> cases h <;> rfl
  | clock now =>
    cases h
    rfl
  | track o =>
    cases h
    rfl
  | untrack clientId =>
    cases h
    rfl

/-- Every task that waits goes by the calls that were made under its number. -/
def Follows (d : Desk) (log : List (Nat × LedgerCall)) (g : BusyDesk) : Prop :=
  ∀ n p, g.tasks.find? n = some p → p.Waits (Task.Follows d (callsOf n log))

theorem callsOf_this (log : List (Nat × LedgerCall)) (n : Nat) (call : LedgerCall) :
    callsOf n (log ++ [(n, call)]) = callsOf n log ++ [call] := by
  simp [callsOf]

theorem callsOf_other (log : List (Nat × LedgerCall)) {m n : Nat} (call : LedgerCall) (h : n ≠ m) :
    callsOf m (log ++ [(n, call)]) = callsOf m log := by
  simp [callsOf, h]

/-- A task that waits and gets a reply: it goes by the calls with the new one, and so does what it
publishes. The others are not touched. -/
theorem follows_reply {pause : Nat} {request : Request} {w : Task} (h : Follows d log g)
    (hw : g.tasks.find? n = some (.ask pause request w)) (r : Reply) :
    Follows d (log ++ [(n, request, r)]) (g.turn n (w.resume d g.state r)) ∧
    ∀ p, w.publishes? d g.state r = some p →
      p.Complete d (callsOf n (log ++ [(n, request, r)])) := by
  obtain ⟨hwaits, hcomplete⟩ := Task.follows_resume (s := g.state) (h n _ hw) r
  rw [← callsOf_this] at hwaits hcomplete
  refine ⟨fun m p hp => ?_, hcomplete⟩
  simp only [turn, Table.find?_put] at hp
  split at hp
  · rename_i hm
    cases hp
    rw [hm]
    exact hwaits
  · rename_i hm
    rw [callsOf_other log _ (Ne.symm hm)]
    exact h m p hp

theorem follows_aside (h : Follows d log g) (htasks : g'.tasks = g.tasks) :
    Follows d (log ++ []) g' := by
  unfold Follows
  rw [List.append_nil, htasks]
  exact h

/-- What an event leaves waiting goes by the calls so far, and what it publishes was read by the
calls of one task. -/
theorem follows_step (h : Follows d log g) (hstep : step? d g event = some g') :
    Follows d (log ++ (g.call? event).toList) g' ∧
    ∀ p, g.published? d event = some p →
      ∃ n, p.Complete d (callsOf n (log ++ (g.call? event).toList)) := by
  cases event with
  | start n job =>
    rw [show (g.call? (.start n job)).toList = [] from rfl, List.append_nil]
    refine ⟨fun m p hp => ?_, fun _ hp => by cases hp⟩
    simp only [step?] at hstep
    split at hstep
    · cases hstep
      simp only [turn, Table.find?_put] at hp
      split at hp
      · cases hp
        exact job.follows_start d g.state _
      · exact h m p hp
    · cases hstep
  | reply n r =>
    simp only [step?, waiting?] at hstep
    simp only [call?, published?, waiting?]
    rcases hp : g.tasks.find? n with _ | ⟨pause, request, w⟩ | result | _
    · rw [hp] at hstep
      cases hstep
      exact ⟨follows_aside h rfl, fun _ hp => by cases hp⟩
    · rw [hp] at hstep
      cases hstep
      obtain ⟨hfollows, hcomplete⟩ := follows_reply h hp r
      exact ⟨hfollows, fun p hp => ⟨n, hcomplete p hp⟩⟩
    · rw [hp] at hstep
      cases hstep
      exact ⟨follows_aside h rfl, fun _ hp => by cases hp⟩
    · rw [hp] at hstep
      cases hstep
      exact ⟨follows_aside h rfl, fun _ hp => by cases hp⟩
  | drop n =>
    rw [show (g.call? (.drop n)).toList = [] from rfl, List.append_nil]
    refine ⟨fun m p hp => ?_, fun _ hp => by cases hp⟩
    simp only [step?] at hstep
    split at hstep
    · cases hstep
      simp only [Table.find?_erase] at hp
      split at hp
      · cases hp
      · exact h m p hp
    · cases hstep
      exact h m p hp
  | bookMessage message =>
    obtain ⟨s, _, rfl⟩ := Option.map_eq_some_iff.mp hstep
    exact ⟨follows_aside h rfl, fun _ hp => by cases hp⟩
  | takeIn ctx o =>
    obtain ⟨taken, _, rfl⟩ := Option.map_eq_some_iff.mp hstep
    exact ⟨follows_aside h rfl, fun _ hp => by cases hp⟩
  | assign clientId id =>
    simp only [step?] at hstep
    split at hstep <;> cases hstep <;> exact ⟨follows_aside h rfl, fun _ hp => by cases hp⟩
  | clock now =>
    cases hstep
    exact ⟨follows_aside h rfl, fun _ hp => by cases hp⟩
  | move clientId state =>
    cases hstep
    exact ⟨follows_aside h rfl, fun _ hp => by cases hp⟩
  | track o =>
    cases hstep
    exact ⟨follows_aside h rfl, fun _ hp => by cases hp⟩
  | untrack clientId =>
    cases hstep
    exact ⟨follows_aside h rfl, fun _ hp => by cases hp⟩

/-- What a run publishes is put in place as it is published. -/
theorem terms_run (hrun : run? d g events = some g') :
    g'.state.terms = (published d g events).foldl .publish g.state.terms := by
  induction events generalizing g with
  | nil =>
    cases hrun
    rfl
  | cons event events ih =>
    rw [run?_cons] at hrun
    obtain ⟨g₁, hstep, hrest⟩ := Option.bind_eq_some_iff.mp hrun
    rw [ih hrest, terms_step hstep, ← List.foldl_append, published, published, along_cons hstep]

/-- All that a run publishes was read in full, each by the calls of one task. -/
theorem complete_run (h : Follows d log g) (hrun : run? d g events = some g') :
    ∀ p ∈ published d g events, ∃ n, p.Complete d (callsOf n (log ++ calls d g events)) := by
  induction events generalizing g log with
  | nil => exact fun p hp => absurd hp List.not_mem_nil
  | cons event events ih =>
    rw [run?_cons] at hrun
    obtain ⟨g₁, hstep, hrest⟩ := Option.bind_eq_some_iff.mp hrun
    obtain ⟨hfollows, hcomplete⟩ := follows_step h hstep
    intro p hp
    rw [calls, along_cons hstep, ← List.append_assoc]
    rw [published, along_cons hstep] at hp
    rcases List.mem_append.mp hp with hp | hp
    · obtain ⟨n, hn⟩ := hcomplete p (Option.mem_toList.mp hp)
      exact ⟨n, by rw [callsOf_append]; exact hn.later⟩
    · exact ih hfollows hrest p hp

end BusyDesk

/-! ## Terms as a whole -/

namespace Table

variable {κ α β γ : Type} [DecidableEq κ]

theorem keys_putEntries_congr {es : List (κ × α)} {es' : List (κ × β)}
    (h : es.map Prod.fst = es'.map Prod.fst) (k : κ) (a : α) (b : β) :
    (putEntries k a es).map Prod.fst = (putEntries k b es').map Prod.fst := by
  induction es generalizing es' with
  | nil =>
    obtain rfl : es' = [] := List.map_eq_nil_iff.mp h.symm
    rfl
  | cons e es ih =>
    obtain ⟨e', rest, rfl, he, hrest⟩ := List.map_eq_cons_iff.mp h.symm
    unfold putEntries
    rw [he]
    split
    · simp [hrest]
    · simp [he, ih hrest.symm]

/-- Tables of the same things under the same keys have these keys in the same order. -/
theorem keys_ofList_map (key : γ → κ) (f : γ → α) (f' : γ → β) (xs : List γ) :
    (ofList (xs.map fun x => (key x, f x))).keys =
      (ofList (xs.map fun x => (key x, f' x))).keys := by
  have hfold : ∀ (t : Table κ α) (t' : Table κ β), t.keys = t'.keys →
      ((xs.map fun x => (key x, f x)).foldl (fun t e => t.put e.1 e.2) t).keys =
        ((xs.map fun x => (key x, f' x)).foldl (fun t e => t.put e.1 e.2) t').keys := by
    induction xs with
    | nil => exact fun _ _ h => h
    | cons x xs ih => exact fun t t' h => ih _ _ (keys_putEntries_congr h (key x) (f x) (f' x))
  exact hfold _ _ rfl

end Table

namespace TradingTerms

open BusyDesk

variable {d : Desk} {log : List (Nat × LedgerCall)} {m : TradingTerms} {p : Publication}

/-- Terms that are not half read: both kinds of rules come from one survey of one task, and the
balances from one fetch of one task, or there are none yet. -/
structure Whole (d : Desk) (log : List (Nat × LedgerCall)) (m : TradingTerms) : Prop where
  rules : (m.tradingRules = .empty ∧ m.feeRules = .empty) ∨
    ∃ n infos, d.Surveyed (callsOf n log) infos ∧
      m.tradingRules = .ofList (infos.map fun i => (i.pair, i.tradingRule)) ∧
      m.feeRules = .ofList (infos.map fun i => (i.pair, i.feeRule))
  balances : m.balances = .empty ∨ ∃ n, d.Fetched (callsOf n log) m.balances

theorem Whole.publish (h : m.Whole d log) {n : Nat} (hp : p.Complete d (callsOf n log)) :
    (m.publish p).Whole d log := by
  cases p with
  | updated balances => exact ⟨h.rules, Or.inr ⟨n, hp⟩⟩
  | refreshed terms =>
    obtain ⟨infos, balances, rfl, hrules, hfetched⟩ := hp
    exact ⟨Or.inr ⟨n, infos, hrules, rfl, rfl⟩, Or.inr ⟨n, hfetched⟩⟩

theorem Whole.publishAll (h : m.Whole d log) {ps : List Publication}
    (hps : ∀ p ∈ ps, ∃ n, p.Complete d (callsOf n log)) :
    (ps.foldl TradingTerms.publish m).Whole d log := by
  induction ps generalizing m with
  | nil => exact h
  | cons p ps ih =>
    obtain ⟨n, hp⟩ := hps p List.mem_cons_self
    exact ih (h.publish hp) fun q hq => hps q (List.mem_cons_of_mem _ hq)

theorem whole_unread (d : Desk) (log : List (Nat × LedgerCall)) : unread.Whole d log :=
  ⟨Or.inl ⟨rfl, rfl⟩, Or.inl rfl⟩

/-- Both kinds of rules are there for the same pairs. -/
theorem Whole.keys_eq (h : m.Whole d log) : m.tradingRules.keys = m.feeRules.keys := by
  rcases h.rules with ⟨htrading, hfee⟩ | ⟨n, infos, _, htrading, hfee⟩
  · rw [htrading, hfee]
    rfl
  · rw [htrading, hfee]
    exact Table.keys_ofList_map _ _ _ infos

end TradingTerms

/-- A call for terms that waits, or is over and has failed. -/
def Task.HasNotSucceeded : Progress Task JobResult → Prop
  | .ask _ _ (.takingIn _) => False
  | .ask .. => True
  | .done (.terms (.error _)) => True
  | .done (.balances (.error _)) => True
  | _ => False

theorem Task.publishes?_eq_none {d : Desk} {s : DeskState} {t : Task} {reply : Reply}
    (h : HasNotSucceeded (t.resume d s reply).2) : t.publishes? d s reply = none := by
  cases t with
  | refreshing w =>
    simp only [resume] at h
    simp only [publishes?]
    generalize w.resume d s reply = turn at h ⊢
    obtain ⟨s₁, p⟩ := turn
    rcases p with ⟨pause, request, w⟩ | ⟨e | terms⟩ | _
    · rfl
    · rfl
    · exact False.elim h
    · rfl
  | readingBalances w =>
    simp only [resume] at h
    simp only [publishes?]
    generalize w.resume s reply = turn at h ⊢
    obtain ⟨s₁, p⟩ := turn
    rcases p with ⟨pause, request, w⟩ | ⟨e | balances⟩ | _
    · rfl
    · rfl
    · exact False.elim h
    · rfl
  | takingIn w =>
    -- such a task has no result that tells of its balances
    simp only [resume] at h
    generalize w.resume d s reply = turn at h
    obtain ⟨s₁, p⟩ := turn
    cases p <;> exact False.elim h
  | _ => rfl

namespace BusyDesk

variable {d : Desk} {g g' g'' : BusyDesk} {event : BusyEvent} {events : List BusyEvent}

theorem published?_eq_none {n : Nat} {r : Reply} {p : Progress Task JobResult}
    (h : step? d g (.reply n r) = some g') (hp : g'.tasks.find? n = some p)
    (hnot : Task.HasNotSucceeded p) : published? d g (.reply n r) = none := by
  simp only [step?] at h
  simp only [published?]
  cases hw : g.waiting? n with
  | none => rfl
  | some w =>
    rw [hw] at h
    cases h
    simp only [turn, Table.find?_put_self, Option.some.injEq] at hp
    subst hp
    exact Task.publishes?_eq_none hnot

/-- What a desk publishes is never half read. At any time both kinds of rules come from one survey,
and the balances from one fetch. They are the results of the calls that succeeded, in their order:
a call that has not succeeded has changed nothing, and balances come under the rules of the
moment. -/
theorem terms_are_published_whole (hunread : g.state.terms = .unread) (hidle : g.tasks = .empty)
    (hrun : run? d g events = some g') :
    g'.state.terms.Whole d (calls d g events) ∧
    g'.state.terms.tradingRules.keys = g'.state.terms.feeRules.keys ∧
    g'.state.terms = (published d g events).foldl .publish .unread ∧
    (∀ p ∈ published d g events, ∃ n, p.Complete d (callsOf n (calls d g events))) ∧
    ∀ event g'', step? d g' event = some g'' →
      (published? d g' event = none → g''.state.terms = g'.state.terms) ∧
      (∀ n r p, event = .reply n r → g''.tasks.find? n = some p → Task.HasNotSucceeded p →
        g''.state.terms = g'.state.terms) ∧
      ∀ balances, published? d g' event = some (.updated balances) →
        g''.state.terms.tradingRules = g'.state.terms.tradingRules ∧
        g''.state.terms.feeRules = g'.state.terms.feeRules ∧
        g''.state.terms.balances = balances := by
  have hfollows : Follows d [] g := by
    intro n p hp
    rw [hidle] at hp
    cases hp
  have hterms := terms_run hrun
  have hcomplete := complete_run hfollows hrun
  rw [hunread] at hterms
  rw [List.nil_append] at hcomplete
  have hwhole : g'.state.terms.Whole d (calls d g events) := by
    rw [hterms]
    exact (TradingTerms.whole_unread d _).publishAll hcomplete
  have hidle (event : BusyEvent) (g'' : BusyDesk) (hstep : step? d g' event = some g'')
      (hnone : published? d g' event = none) : g''.state.terms = g'.state.terms := by
    rw [terms_step hstep, hnone]
    rfl
  refine ⟨hwhole, hwhole.keys_eq, hterms, hcomplete, fun event g'' hstep => ?_⟩
  refine ⟨hidle _ _ hstep, ?_, ?_⟩
  · rintro n r p rfl hp hnot
    exact hidle _ _ hstep (published?_eq_none hstep hp hnot)
  · intro balances hupdated
    rw [terms_step hstep, hupdated]
    exact ⟨rfl, rfl, rfl⟩

/-! A refresh and a balance update overlap; the update has read the account before the refresh
publishes, and publishes after it. Another refresh fails. -/

def rulesDesk : Desk := { Cancelling.signingDesk with config := { pairs := ["SOLO-XRP"] } }

def idleDesk : BusyDesk := ⟨{}, .empty⟩

def ownAccount (drops : String) : Answer := .ofResult (.object [("account_data", .object
  [("Balance", .string drops), ("OwnerCount", .ofNat 1)])])

def noObjects : Answer := .ofResult (.object [("account_objects", .array [])])

def overlappingReads : List BusyEvent :=
  [.start 0 .refresh, .start 1 .readBalances, .reply 1 (.ok (ownAccount "50000000")),
    .reply 0 (.ok (ownAccount "1000000")), .reply 0 (.ok (ownAccount "60000000")),
    .reply 0 (.ok noObjects), .reply 1 (.ok noObjects), .start 2 .refresh,
    .reply 2 (.error "connection reset by peer"), .reply 2 (.ok (ownAccount "70000000")),
    .reply 2 (.ok (.ofError "actNotFound"))]

theorem balances_come_under_new_rules : ∃ g', run? rulesDesk idleDesk overlappingReads = some g' ∧
    g'.state.terms.Whole rulesDesk (calls rulesDesk idleDesk overlappingReads) ∧
    g'.state.terms = (published rulesDesk idleDesk overlappingReads).foldl .publish .unread ∧
    g'.state.terms.tradingRules.keys = ["SOLO-XRP"] ∧
    g'.state.terms.feeRules.keys = ["SOLO-XRP"] := by
  have hsome : ((run? rulesDesk idleDesk overlappingReads).map
      fun g => g.state.terms.tradingRules.keys) = some ["SOLO-XRP"] := by decide +kernel
  obtain ⟨g', hrun, hkeys⟩ := Option.map_eq_some_iff.mp hsome
  obtain ⟨hwhole, hsame, hterms, _⟩ := terms_are_published_whole rfl rfl hrun
  exact ⟨g', hrun, hwhole, hterms, hkeys, hsame.symm.trans hkeys⟩

end BusyDesk

end OfferDesk
