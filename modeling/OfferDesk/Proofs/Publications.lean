-- What a call for terms publishes, and what it has read by then. Rules are derived from the answers
-- of all issuers, and balances from an account and its objects; a call that waits knows how far it
-- has come, and publishes nothing before it has all of it.
import OfferDesk.Proofs.DeskInvariants
import OfferDesk.Proofs.IssuerSurveys

namespace OfferDesk

/-! ## What is published -/

/-- What a call that succeeds publishes: all terms, or balances under the rules of the moment. -/
inductive Publication where
  | refreshed (terms : TradingTerms)
  | updated (balances : Balances)

/-- The terms with a publication put in place. -/
def TradingTerms.publish (m : TradingTerms) : Publication → TradingTerms
  | .refreshed terms => terms
  | .updated balances => m.withBalances balances

/-- The result of a call that is over and has succeeded. -/
def Progress.succeeded? {σ ε α : Type} : Progress σ (Except ε α) → Option α
  | done (.ok a) => some a
  | _ => none

/-- Whatever reads no terms leaves them as they are. -/
theorem DeskState.workInvariant_terms (terms : TradingTerms) :
    WorkInvariant fun s => s.terms = terms where
  orders _ _ _ h := h
  signs _ _ h := h
  commits _ _ _ _ h := h
  patches _ _ _ h _ := h

theorem BalanceUpdate.terms_advance (s : DeskState)
    (p : Progress BalanceReading BalanceReading.Result) : (advance s p).1.terms =
      ((advance s p).2.succeeded?.map Publication.updated).toList.foldl .publish s.terms := by
  cases p with
  | ask pause request r => rfl
  | halted => rfl
  | done result => cases result <;> rfl

namespace Refreshing

theorem terms_read (infos : List RuleInfo) (s : DeskState)
    (p : Progress BalanceReading BalanceReading.Result) : (read infos s p).1.terms =
      ((read infos s p).2.succeeded?.map Publication.refreshed).toList.foldl .publish s.terms := by
  cases p with
  | ask pause request r => rfl
  | halted => rfl
  | done result => cases result <;> rfl

theorem terms_resume (d : Desk) (s : DeskState) (w : Refreshing) (reply : Reply) :
    (w.resume d s reply).1.terms = ((w.resume d s reply).2.succeeded?.map
      Publication.refreshed).toList.foldl .publish s.terms := by
  cases w with
  | reading infos r => exact terms_read infos s _
  | surveying w =>
    simp only [resume]
    cases w.resume reply with
    | ask pause request w => rfl
    | halted => rfl
    | done rules =>
      exact terms_read (Survey.sorted rules) s (BalanceReading.start d.account d.config.reserve)

/-- Before a refresh publishes it asks for balances at least. -/
theorem terms_start (d : Desk) (s : DeskState) : (start d s).1.terms = s.terms := by
  unfold start Survey.start Survey.next
  split <;> rfl

end Refreshing

theorem UserStream.terms_resume (d : Desk) (s : DeskState) (u : UserStream) (reply : Reply) :
    (u.resume d s reply).1.terms =
      ((u.update.resume s reply).2.succeeded?.map Publication.updated).toList.foldl .publish
        s.terms := by
  rw [UserStream.resume, BalanceUpdate.resume, ← BalanceUpdate.terms_advance]
  exact DeskState.WorkInvariant.andThen (P := fun s₁ => s₁.terms = _) rfl fun _ _ hs =>
    keeps_start (DeskState.workInvariant_terms _) hs u.rest

namespace Task

variable {σ α : Type}

theorem terms_lift (t : Turn σ α) (embed : σ → Task) (result : α → JobResult) :
    (lift t embed result).1.terms = t.1.terms :=
  congrArg DeskState.terms (state_lift t embed result)

/-- What a task publishes as it goes on with a reply. -/
def publishes? (d : Desk) (s : DeskState) (reply : Reply) : Task → Option Publication
  | refreshing w => (w.resume d s reply).2.succeeded?.map .refreshed
  | readingBalances w => (w.resume s reply).2.succeeded?.map .updated
  | takingIn w => (w.update.resume s reply).2.succeeded?.map .updated
  | _ => none

/-- A turn of a task changes the terms by what the task publishes, and by nothing else. -/
theorem terms_resume (d : Desk) (s : DeskState) (t : Task) (reply : Reply) :
    (t.resume d s reply).1.terms = (t.publishes? d s reply).toList.foldl .publish s.terms := by
  have hwork := DeskState.workInvariant_terms s.terms
  cases t with
  | viewing w => exact (terms_lift _ _ _).trans (BookView.keeps_resume hwork rfl w reply)
  | placing w => exact (terms_lift _ _ _).trans (Placing.keeps_resume hwork rfl w reply)
  | cancelling w => exact (terms_lift _ _ _).trans (Cancelling.keeps_resume hwork rfl w reply)
  | readingBalances w => exact (terms_lift _ _ _).trans (BalanceUpdate.terms_advance s _)
  | surveying w => exact terms_lift _ _ _
  | refreshing w => exact (terms_lift _ _ _).trans (Refreshing.terms_resume d s w reply)
  | takingIn w => exact (terms_lift _ _ _).trans (UserStream.terms_resume d s w reply)

end Task

/-- No job publishes anything as it starts. -/
theorem Job.terms_start (d : Desk) (s : DeskState) (job : Job) :
    (job.start d s).1.terms = s.terms := by
  have hwork := DeskState.workInvariant_terms s.terms
  cases job with
  | view pair =>
    simp only [start]
    split
    · exact (Task.terms_lift _ _ _).trans (BookView.keeps_start hwork rfl)
    · rfl
  | place o => exact (Task.terms_lift _ _ _).trans (Placing.keeps_start hwork rfl o)
  | cancel clientId order =>
    exact (Task.terms_lift _ _ _).trans (Cancelling.keeps_start hwork rfl clientId order)
  | readBalances => rfl
  | surveyRules => exact Task.terms_lift _ _ _
  | refresh => exact (Task.terms_lift _ _ _).trans (Refreshing.terms_start d s)
  | takeIn events => exact (Task.terms_lift _ _ _).trans (UserStream.keeps_start hwork rfl events)

/-! ## What was read -/

/-- A request with the reply to it. -/
abbrev LedgerCall := Request × Reply

namespace Desk

variable {d : Desk} {calls more : List LedgerCall} {infos : List RuleInfo} {balances : Balances}

/-- Balances that were read in one go: from an account and, in the next call, its objects. -/
def Fetched (d : Desk) (calls : List LedgerCall) (balances : Balances) : Prop :=
  ∃ info objects : Answer, info.success = true ∧ objects.success = true ∧
    Balances.derive? d.account info.result objects.result d.config.reserve = some (.ok balances) ∧
    [(.accountInfo d.account, .ok info), (.accountObjects d.account, .ok objects)] <:+: calls

/-- Rules that were derived in one go: every issuer of the markets was asked, one after another. -/
def Surveyed (d : Desk) (calls : List LedgerCall) (infos : List RuleInfo) : Prop :=
  ∃ answers : List (String × Reply),
    answers.map Prod.fst = Survey.issuersOf d.activeMarkets ∧
    infos = Survey.sorted
      ((IssuerInfos.gathered answers).rules d.config.overrides d.activeMarkets) ∧
    answers.map (fun a => (Request.accountInfo a.1, a.2)) <:+: calls

theorem Fetched.later (h : d.Fetched calls balances) : d.Fetched (calls ++ more) balances := by
  obtain ⟨info, objects, hinfo, hobjects, hderive, hin⟩ := h
  exact ⟨info, objects, hinfo, hobjects, hderive, hin.trans (List.prefix_append _ _).isInfix⟩

theorem Surveyed.later (h : d.Surveyed calls infos) : d.Surveyed (calls ++ more) infos := by
  obtain ⟨answers, hissuers, hinfos, hin⟩ := h
  exact ⟨answers, hissuers, hinfos, hin.trans (List.prefix_append _ _).isInfix⟩

end Desk

/-- What is published was read by the calls in full: the rules, if there are any, in one survey and
the balances in one fetch. -/
def Publication.Complete (d : Desk) (calls : List LedgerCall) : Publication → Prop
  | refreshed terms => ∃ infos balances, terms = .ofRules infos balances ∧
      d.Surveyed calls infos ∧ d.Fetched calls balances
  | updated balances => d.Fetched calls balances

theorem Publication.Complete.later {d : Desk} {calls more : List LedgerCall} {p : Publication}
    (h : p.Complete d calls) : p.Complete d (calls ++ more) := by
  cases p with
  | updated balances => exact Desk.Fetched.later h
  | refreshed terms =>
    obtain ⟨infos, balances, hterms, hrules, hfetched⟩ := h
    exact ⟨infos, balances, hterms, hrules.later, hfetched.later⟩

/-! ## What a call that waits has read -/

/-- Where a call waits, it does so with this request and in a state like this. -/
def Progress.Waits {σ α : Type} (P : Request → σ → Prop) : Progress σ α → Prop
  | ask _ request w => P request w
  | _ => True

theorem Progress.waits_of_forall {σ α : Type} {P : Request → σ → Prop} (h : ∀ request w, P request w)
    (p : Progress σ α) : p.Waits P := by
  cases p with
  | ask pause request w => exact h request w
  | done a => trivial
  | halted => trivial

theorem Turn.waits_andThen {σ τ α β : Type} {t : Turn σ α} {embed : σ → τ}
    {next : DeskState → α → Turn τ β} {P : Request → τ → Prop}
    (h : t.2.Waits fun request w => P request (embed w)) (hnext : ∀ s a, (next s a).2.Waits P) :
    (t.andThen embed next).2.Waits P := by
  obtain ⟨s, p⟩ := t
  cases p with
  | ask pause request w => exact h
  | done a => exact hnext s a
  | halted => trivial

/-- A reading of balances that goes by the calls so far: it waits for the account, or for the
objects of an account that the last call brought. -/
structure BalanceReading.Follows (d : Desk) (calls : List LedgerCall) (request : Request)
    (r : BalanceReading) : Prop where
  account : r.account = d.account
  reserve : r.reserve = d.config.reserve
  asks : request = r.stage.request d.account
  known : ∀ info, r.stage = .objects info → ∃ a : Answer, a.success = true ∧ a.result = info ∧
    [(.accountInfo d.account, .ok a)] <:+ calls

namespace BalanceReading

variable {d : Desk} {calls : List LedgerCall} {request : Request} {r : BalanceReading}

theorem follows_start (d : Desk) (calls : List LedgerCall) :
    (start d.account d.config.reserve).Waits (Follows d calls) :=
  ⟨rfl, rfl, rfl, fun _ h => nomatch h⟩

theorem follows_resume (h : r.Follows d calls request) (reply : Reply) :
    (r.resume reply).Waits (Follows d (calls ++ [(request, reply)])) ∧
    ∀ balances, (r.resume reply).succeeded? = some balances →
      d.Fetched (calls ++ [(request, reply)]) balances := by
  obtain ⟨account, reserve, stage⟩ := r
  obtain ⟨rfl, rfl, rfl, hknown⟩ := h
  cases reply with
  | error text => exact ⟨trivial, fun _ hb => nomatch hb⟩
  | ok a =>
    unfold resume take
    dsimp only
    split
    · exact ⟨trivial, fun _ hb => nomatch hb⟩
    · rename_i hsuccess
      replace hsuccess : a.success = true := by simpa using hsuccess
      cases stage with
      | account =>
        refine ⟨⟨rfl, rfl, rfl, fun info hinfo => ?_⟩, fun _ hb => nomatch hb⟩
        cases hinfo
        exact ⟨a, hsuccess, rfl, List.suffix_append _ _⟩
      | objects info =>
        dsimp only
        split
        · rename_i result hderive
          refine ⟨trivial, fun balances hb => ?_⟩
          cases result with
          | error e => cases hb
          | ok found =>
            cases hb
            obtain ⟨first, hfirst, rfl, before, rfl⟩ := hknown info rfl
            exact ⟨first, a, hfirst, hsuccess, hderive, before, [], by simp [Stage.request]⟩
        · exact ⟨trivial, fun _ hb => nomatch hb⟩

end BalanceReading

/-- A survey that goes by the calls so far: the last of them asked the issuers up to the one that
it waits for. -/
structure Survey.Follows (d : Desk) (calls : List LedgerCall) (request : Request) (w : Survey) :
    Prop where
  markets : w.markets = d.activeMarkets
  overrides : w.overrides = d.config.overrides
  asks : request = .accountInfo w.issuer
  known : ∃ answers : List (String × Reply),
    answers.map Prod.fst ++ w.issuer :: w.rest = issuersOf d.activeMarkets ∧
    w.known = IssuerInfos.gathered answers ∧
    answers.map (fun a => (Request.accountInfo a.1, a.2)) <:+ calls

namespace Survey

variable {d : Desk} {calls : List LedgerCall} {request : Request} {w : Survey}

theorem follows_next (answers : List (String × Reply)) (rest : List String)
    (hissuers : answers.map Prod.fst ++ rest = issuersOf d.activeMarkets)
    (hcalls : answers.map (fun a => (Request.accountInfo a.1, a.2)) <:+ calls) :
    (next d.activeMarkets d.config.overrides (IssuerInfos.gathered answers) rest).Waits
        (Follows d calls) ∧
    ∀ rules, next d.activeMarkets d.config.overrides (IssuerInfos.gathered answers) rest =
      .done rules → d.Surveyed calls (sorted rules) := by
  cases rest with
  | nil =>
    refine ⟨trivial, fun rules h => ?_⟩
    cases h
    rw [List.append_nil] at hissuers
    exact ⟨answers, hissuers, rfl, hcalls.isInfix⟩
  | cons issuer rest => exact ⟨⟨rfl, rfl, rfl, answers, hissuers, rfl, hcalls⟩, fun _ h => nomatch h⟩

theorem follows_resume (h : w.Follows d calls request) (reply : Reply) :
    (w.resume reply).Waits (Follows d (calls ++ [(request, reply)])) ∧
    ∀ rules, w.resume reply = .done rules →
      d.Surveyed (calls ++ [(request, reply)]) (sorted rules) := by
  obtain ⟨markets, overrides, issuer, rest, known⟩ := w
  obtain ⟨rfl, rfl, rfl, answers, hissuers, rfl, before, rfl⟩ := h
  unfold resume
  dsimp only
  rw [← IssuerInfos.gathered_append]
  refine follows_next _ rest ?_ ⟨before, by simp⟩
  rw [← hissuers]
  simp

end Survey

/-- A refresh that goes by the calls so far. -/
def Refreshing.Follows (d : Desk) (calls : List LedgerCall) (request : Request) :
    Refreshing → Prop
  | surveying w => w.Follows d calls request
  | reading infos r => d.Surveyed calls infos ∧ r.Follows d calls request

namespace Refreshing

variable {d : Desk} {calls : List LedgerCall} {request : Request} {s : DeskState} {w : Refreshing}

theorem follows_read {infos : List RuleInfo} {p : Progress BalanceReading BalanceReading.Result}
    (hrules : d.Surveyed calls infos) (hwaits : p.Waits (BalanceReading.Follows d calls))
    (hfetched : ∀ balances, p.succeeded? = some balances → d.Fetched calls balances) :
    (read infos s p).2.Waits (Follows d calls) ∧
    ∀ terms, (read infos s p).2.succeeded? = some terms →
      (Publication.refreshed terms).Complete d calls := by
  cases p with
  | ask pause request r => exact ⟨⟨hrules, hwaits⟩, fun _ h => nomatch h⟩
  | halted => exact ⟨trivial, fun _ h => nomatch h⟩
  | done result =>
    cases result with
    | error e => exact ⟨trivial, fun _ h => nomatch h⟩
    | ok balances =>
      refine ⟨trivial, fun terms h => ?_⟩
      cases h
      exact ⟨infos, balances, rfl, hrules, hfetched balances rfl⟩

theorem follows_survey {p : Progress Survey Survey.Result} (hwaits : p.Waits (Survey.Follows d calls))
    (hrules : ∀ rules, p = .done rules → d.Surveyed calls (Survey.sorted rules)) :
    (survey d s p).2.Waits (Follows d calls) ∧
    ∀ terms, (survey d s p).2.succeeded? = some terms →
      (Publication.refreshed terms).Complete d calls := by
  cases p with
  | ask pause request w => exact ⟨hwaits, fun _ h => nomatch h⟩
  | halted => exact ⟨trivial, fun _ h => nomatch h⟩
  | done rules =>
    exact follows_read (hrules rules rfl) (BalanceReading.follows_start d calls) fun _ h => nomatch h

theorem follows_resume (h : w.Follows d calls request) (reply : Reply) :
    (w.resume d s reply).2.Waits (Follows d (calls ++ [(request, reply)])) ∧
    ∀ terms, (w.resume d s reply).2.succeeded? = some terms →
      (Publication.refreshed terms).Complete d (calls ++ [(request, reply)]) := by
  cases w with
  | surveying w =>
    obtain ⟨hwaits, hrules⟩ := Survey.follows_resume h reply
    exact follows_survey hwaits hrules
  | reading infos r =>
    obtain ⟨hwaits, hfetched⟩ := BalanceReading.follows_resume h.2 reply
    exact follows_read h.1.later hwaits hfetched

theorem follows_start (d : Desk) (s : DeskState) (calls : List LedgerCall) :
    (start d s).2.Waits (Follows d calls) := by
  have hnone : ([] : List LedgerCall) <:+ calls := List.nil_suffix
  obtain ⟨hwaits, hrules⟩ :=
    Survey.follows_next [] (Survey.issuersOf d.activeMarkets) (List.nil_append _) hnone
  exact (follows_survey hwaits hrules).1

end Refreshing

/-- Balances that wait to be read go by the calls so far. -/
def BalanceUpdate.Follows (d : Desk) (calls : List LedgerCall) (request : Request)
    (u : BalanceUpdate) : Prop := u.reading.Follows d calls request

namespace BalanceUpdate

variable {d : Desk} {calls : List LedgerCall} {request : Request} {s : DeskState}

theorem follows_start (d : Desk) (s : DeskState) (calls : List LedgerCall) :
    (start d s).2.Waits (Follows d calls) :=
  BalanceReading.follows_start d calls

theorem follows_resume {u : BalanceUpdate} (h : u.Follows d calls request) (reply : Reply) :
    (u.resume s reply).2.Waits (Follows d (calls ++ [(request, reply)])) ∧
    ∀ balances, (u.resume s reply).2.succeeded? = some balances →
      d.Fetched (calls ++ [(request, reply)]) balances := by
  obtain ⟨hwaits, hfetched⟩ := BalanceReading.follows_resume h reply
  unfold resume
  generalize u.reading.resume reply = p at hwaits hfetched ⊢
  cases p with
  | ask pause request r => exact ⟨hwaits, fun _ h => nomatch h⟩
  | halted => exact ⟨trivial, fun _ h => nomatch h⟩
  | done result =>
    cases result with
    | error e => exact ⟨trivial, fun _ h => nomatch h⟩
    | ok balances =>
      refine ⟨trivial, fun b h => ?_⟩
      cases h
      exact hfetched balances rfl

end BalanceUpdate

namespace UserStream

variable {d : Desk} {calls : List LedgerCall} {request : Request}

/-- Whatever messages come before, what is waited for is the account. -/
theorem follows_start (d : Desk) (s : DeskState) (events : List Json) (calls : List LedgerCall) :
    (start d s events).2.Waits fun request u => u.update.Follows d calls request := by
  induction events generalizing s with
  | nil => trivial
  | cons event rest ih =>
    unfold start
    split
    · exact ih s
    · split
      · trivial
      · split
        · exact BalanceReading.follows_start d calls
        · exact ih _

theorem follows_resume {u : UserStream} {s : DeskState} (h : u.update.Follows d calls request)
    (reply : Reply) : (u.resume d s reply).2.Waits fun asked u =>
      u.update.Follows d (calls ++ [(request, reply)]) asked :=
  Turn.waits_andThen (BalanceUpdate.follows_resume h reply).1
    fun s₁ _ => follows_start d s₁ u.rest _

end UserStream

/-- A task that reads terms goes by the calls so far. -/
def Task.Follows (d : Desk) (calls : List LedgerCall) (request : Request) : Task → Prop
  | refreshing w => w.Follows d calls request
  | readingBalances w => w.Follows d calls request
  | takingIn w => w.update.Follows d calls request
  | _ => True

namespace Task

variable {σ α : Type} {d : Desk} {calls : List LedgerCall} {request : Request} {s : DeskState}

theorem waits_lift {t : Turn σ α} {embed : σ → Task} {result : α → JobResult}
    (h : t.2.Waits fun request w => Follows d calls request (embed w)) :
    (lift t embed result).2.Waits (Follows d calls) :=
  Turn.waits_andThen h fun _ _ => trivial

/-- With a reply a task goes on by the calls so far, and what it publishes was read by them. -/
theorem follows_resume {t : Task} (h : t.Follows d calls request) (reply : Reply) :
    (t.resume d s reply).2.Waits (Follows d (calls ++ [(request, reply)])) ∧
    ∀ p, t.publishes? d s reply = some p → p.Complete d (calls ++ [(request, reply)]) := by
  cases t with
  | refreshing w =>
    obtain ⟨hwaits, hcomplete⟩ := Refreshing.follows_resume (s := s) h reply
    refine ⟨waits_lift hwaits, fun p hp => ?_⟩
    obtain ⟨terms, hterms, rfl⟩ := Option.map_eq_some_iff.mp hp
    exact hcomplete terms hterms
  | readingBalances w =>
    obtain ⟨hwaits, hfetched⟩ := BalanceUpdate.follows_resume (s := s) h reply
    refine ⟨waits_lift hwaits, fun p hp => ?_⟩
    obtain ⟨balances, hbalances, rfl⟩ := Option.map_eq_some_iff.mp hp
    exact hfetched balances hbalances
  | takingIn w =>
    refine ⟨waits_lift (UserStream.follows_resume h reply), fun p hp => ?_⟩
    obtain ⟨balances, hbalances, rfl⟩ := Option.map_eq_some_iff.mp hp
    exact (BalanceUpdate.follows_resume h reply).2 balances hbalances
  | _ =>
    exact ⟨waits_lift (Progress.waits_of_forall (fun _ _ => trivial) _), fun _ hp => nomatch hp⟩

end Task

theorem Job.follows_start (d : Desk) (s : DeskState) (job : Job) (calls : List LedgerCall) :
    (job.start d s).2.Waits (Task.Follows d calls) := by
  cases job with
  | refresh => exact Task.waits_lift (Refreshing.follows_start d s calls)
  | readBalances => exact Task.waits_lift (BalanceUpdate.follows_start d s calls)
  | takeIn events => exact Task.waits_lift (UserStream.follows_start d s events calls)
  | view pair =>
    simp only [start]
    split
    · exact Task.waits_lift (Progress.waits_of_forall (fun _ _ => trivial) _)
    · trivial
  | _ => exact Task.waits_lift (Progress.waits_of_forall (fun _ _ => trivial) _)

end OfferDesk
