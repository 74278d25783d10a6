-- A survey asks about each issuer once, in the order in which the markets mention them, and a
-- market has rules just if the one reply on each of its issuers brought the data of the account.
-- The rules follow from those replies and from what is set for the pair, and from no other market.
import Mathlib.Data.List.Induction
import Mathlib.Data.List.Nodup
import OfferDesk.Proofs.Inquiries
import OfferDesk.Rule.Survey

namespace OfferDesk

/-! ## What the replies bring -/

namespace IssuerInfos

/-- A reply that brings the data of an account. -/
def Publishes (reply : Reply) (data : Json) : Prop :=
  ∃ a, reply = .ok a ∧ a.success = true ∧ a.result.field? "account_data" = some data

theorem ofReply_eq_ok_iff (issuer : String) {reply : Reply} {data : Json} :
    ofReply issuer reply = .ok data ↔ Publishes reply data := by
  cases reply with
  | error text => simp [ofReply, Publishes]
  | ok a =>
    unfold ofReply Publishes
    cases hsuccess : a.success with
    | false => simp [hsuccess]
    | true => cases hdata : a.result.field? "account_data" <;> simp [hsuccess, hdata]

/-- What is known of the issuers after their answers, one after another. -/
def gathered (answers : List (String × Reply)) : IssuerInfos :=
  answers.foldl (fun known a => known.put a.1 (ofReply a.1 a.2)) .empty

theorem gathered_append (answers : List (String × Reply)) (issuer : String)
    (reply : Reply) : gathered (answers ++ [(issuer, reply)]) =
      (gathered answers).put issuer (ofReply issuer reply) := by
  rw [gathered, List.foldl_append]
  rfl

theorem gathered_eq_ofList (answers : List (String × Reply)) :
    gathered answers = .ofList (answers.map fun a => (a.1, ofReply a.1 a.2)) := by
  rw [gathered, Table.ofList, List.foldl_map]

theorem find?_gathered {answers : List (String × Reply)} (h : (answers.map Prod.fst).Nodup)
    {issuer : String} {reply : Reply} (hmem : (issuer, reply) ∈ answers) :
    (gathered answers).find? issuer = some (ofReply issuer reply) := by
  rw [gathered_eq_ofList]
  apply Table.find?_ofList
  · rw [List.map_map]
    exact h
  · exact List.mem_map_of_mem hmem

variable {infos : IssuerInfos} {overrides : Table String RuleOverrides} {markets : List Market}

theorem pairs_sublist (rule? : Market → Option RuleInfo) (markets : List Market) :
    ((markets.filterMap fun m => (rule? m).map (m.pair, ·)).map Prod.fst).Sublist
      (markets.map (·.pair)) := by
  induction markets with
  | nil => exact .slnil
  | cons m markets ih =>
    rw [List.filterMap_cons, List.map_cons]
    cases rule? m with
    | none => exact ih.cons _
    | some info => exact ih.cons_cons _

/-- Of markets under different pairs, each has the rules that follow for itself. -/
theorem find?_rules (hpairs : (markets.map (·.pair)).Nodup) {pair : String} {info : RuleInfo} :
    (infos.rules overrides markets).find? pair = some info ↔
      ∃ m ∈ markets, m.pair = pair ∧ infos.ruleInfo? overrides m = some info := by
  have hmem : (pair, info) ∈ (markets.filterMap fun m =>
      (infos.ruleInfo? overrides m).map (m.pair, ·)) ↔
      ∃ m ∈ markets, m.pair = pair ∧ infos.ruleInfo? overrides m = some info := by
    rw [List.mem_filterMap]
    refine exists_congr fun m => and_congr_right fun _ => ?_
    rw [Option.map_eq_some_iff]
    constructor
    · rintro ⟨found, hfound, hentry⟩
      cases hentry
      exact ⟨rfl, hfound⟩
    · rintro ⟨rfl, hfound⟩
      exact ⟨info, hfound, rfl⟩
  rw [← hmem]
  exact ⟨Table.mem_of_find?_ofList, Table.find?_ofList ((pairs_sublist _ _).nodup hpairs)⟩

theorem ruleInfo?_eq_some_iff {m : Market} {info : RuleInfo} :
    infos.ruleInfo? overrides m = some info ↔ ∃ base quote, infos.of? m.base = some base ∧
      infos.of? m.quote = some quote ∧
      info = .derive m base quote ((overrides.find? m.pair).getD {}) := by
  simp only [ruleInfo?, Option.bind_eq_bind, Option.bind_eq_some_iff, Option.pure_def,
    Option.some.injEq]
  constructor
  · rintro ⟨base, hbase, quote, hquote, rfl⟩
    exact ⟨base, quote, hbase, hquote, rfl⟩
  · rintro ⟨base, quote, hbase, hquote, rfl⟩
    exact ⟨base, hbase, quote, hquote, rfl⟩

end IssuerInfos

namespace Survey

/-! ## The issuers of some markets -/

/-- Some names, each once, in the order in which they first come up in a list. -/
structure FirstMentions (mentions names : List String) : Prop where
  all : ∀ i, i ∈ names ↔ i ∈ mentions
  once : names.Nodup
  inOrder : names.Pairwise fun i j => mentions.idxOf i < mentions.idxOf j

namespace FirstMentions

variable {mentions names : List String} {i : String}

theorem idxOf_append (h : FirstMentions mentions names) (i : String) {j : String}
    (hj : j ∈ names) : (mentions ++ [i]).idxOf j = mentions.idxOf j :=
  List.idxOf_append_of_mem ((h.all j).mp hj)

theorem inOrder_append (h : FirstMentions mentions names) (i : String) :
    names.Pairwise fun j k => (mentions ++ [i]).idxOf j < (mentions ++ [i]).idxOf k := by
  refine List.Pairwise.imp_of_mem ?_ h.inOrder
  intro j k hj hk hlt
  rwa [h.idxOf_append i hj, h.idxOf_append i hk]

theorem nil : FirstMentions [] [] := ⟨fun _ => Iff.rfl, List.nodup_nil, List.Pairwise.nil⟩

/-- A name that has come up before changes nothing. -/
theorem again (h : FirstMentions mentions names) (hseen : i ∈ names) :
    FirstMentions (mentions ++ [i]) names := by
  refine ⟨fun j => ?_, h.once, h.inOrder_append i⟩
  rw [List.mem_append, List.mem_singleton, ← h.all]
  refine ⟨Or.inl, ?_⟩
  rintro (hj | rfl)
  · exact hj
  · exact hseen

/-- A new name comes after all others. -/
theorem first (h : FirstMentions mentions names) (hnew : i ∉ names) :
    FirstMentions (mentions ++ [i]) (names ++ [i]) where
  all j := by rw [List.mem_append, List.mem_append, h.all]
  once := by
    refine List.nodup_append.mpr ⟨h.once, List.nodup_singleton i, ?_⟩
    rintro j hj k hk rfl
    exact hnew (List.mem_singleton.mp hk ▸ hj)
  inOrder := by
    have hlast : (mentions ++ [i]).idxOf i = mentions.length := by
      rw [List.idxOf_append_of_notMem fun hi => hnew ((h.all i).mpr hi)]
      simp
    refine List.pairwise_append.mpr ⟨h.inOrder_append i, List.pairwise_singleton _ _, ?_⟩
    intro j hj k hk
    obtain rfl := List.mem_singleton.mp hk
    rw [hlast, h.idxOf_append k hj]
    exact List.idxOf_lt_length_of_mem ((h.all j).mp hj)

end FirstMentions

theorem firstMentions_foldl (mentions : List String) : FirstMentions mentions
    (mentions.foldl (fun seen i => if i ∈ seen then seen else seen ++ [i]) []) := by
  -- From the end, since whether a name is kept depends on the names before it.
  induction mentions using List.reverseRecOn with
  | nil => exact .nil
  | append_singleton mentions i ih =>
    rw [List.foldl_append, List.foldl_cons, List.foldl_nil]
    split
    · rename_i hseen
      exact ih.again hseen
    · rename_i hnew
      exact ih.first hnew

theorem firstMentions_issuersOf (markets : List Market) :
    FirstMentions (markets.flatMap (·.issuers)) (issuersOf markets) :=
  firstMentions_foldl _

/-! ## A survey put to a ledger -/

variable {ledger : LedgerReplies} {markets : List Market} {issuers : List String}
  {overrides : Table String RuleOverrides}

/-- The issuers that are asked about, with the replies of a ledger after so many requests. -/
def answersOf (ledger : LedgerReplies) (before : Nat) (issuers : List String) :
    List (String × Reply) :=
  issuers.mapIdx fun i issuer => (issuer, ledger (before + i) (.accountInfo issuer))

/-- The reply to the one request about an issuer. -/
def replyOn (ledger : LedgerReplies) (issuers : List String) (issuer : String) : Reply :=
  ledger (issuers.idxOf issuer) (.accountInfo issuer)

theorem names_answersOf (ledger : LedgerReplies) (before : Nat) (issuers : List String) :
    (answersOf ledger before issuers).map Prod.fst = issuers :=
  List.ext_getElem (by simp [answersOf]) (by simp [answersOf])

theorem mem_answersOf (ledger : LedgerReplies) {issuer : String} (h : issuer ∈ issuers) :
    (issuer, replyOn ledger issuers issuer) ∈ answersOf ledger 0 issuers := by
  rw [answersOf, List.mem_mapIdx]
  refine ⟨issuers.idxOf issuer, List.idxOf_lt_length_of_mem h, ?_⟩
  rw [List.getElem_idxOf, Nat.zero_add, replyOn]

/-- A survey goes on with the issuers that are left, and remembers each reply. -/
theorem conduct_next (ledger : LedgerReplies) (markets : List Market)
    (overrides : Table String RuleOverrides) (answers : List (String × Reply))
    (rest : List String) (asked : List Request) {replies : Nat} (h : rest.length ≤ replies) :
    Progress.conduct resume ledger replies asked
      (next markets overrides (IssuerInfos.gathered answers) rest) =
        (asked ++ rest.map .accountInfo,
          .done ((IssuerInfos.gathered (answers ++ answersOf ledger asked.length rest)).rules
            overrides markets)) := by
  induction rest generalizing answers asked replies with
  | nil => simp [next, answersOf]
  | cons issuer rest ih =>
    cases replies with
    | zero => exact absurd h (Nat.not_succ_le_zero _)
    | succ n =>
      rw [next, Progress.conduct_ask, resume]
      dsimp only
      rw [← IssuerInfos.gathered_append, ih _ _ (Nat.le_of_succ_le_succ h)]
      simp [answersOf, Nat.add_assoc, Nat.add_comm 1, List.mapIdx_cons]

/-- The rules that a survey comes to with the replies of a ledger. -/
def rulesOf (ledger : LedgerReplies) (overrides : Table String RuleOverrides)
    (markets : List Market) : Result :=
  (IssuerInfos.gathered (answersOf ledger 0 (issuersOf markets))).rules overrides markets

theorem conduct_start {replies : Nat} (h : (issuersOf markets).length ≤ replies) :
    Progress.conduct resume ledger replies [] (start markets overrides) =
      ((issuersOf markets).map .accountInfo, .done (rulesOf ledger overrides markets)) := by
  have hnext := conduct_next ledger markets overrides [] (issuersOf markets) [] h
  have hstart : start markets overrides =
      next markets overrides (IssuerInfos.gathered []) (issuersOf markets) := rfl
  rw [hstart, hnext]
  rfl

/-! ## Which markets have rules -/

/-- What the reply on its issuer says of a currency. Nothing is needed of the native one. -/
def Tells (ledger : LedgerReplies) (issuers : List String) (currency : Currency)
    (info : Option Json) : Prop :=
  match currency.issuer? with
  | none => info = none
  | some issuer => ∃ data, info = some data ∧
      IssuerInfos.Publishes (replyOn ledger issuers issuer) data

theorem of?_eq_some_iff {currency : Currency} {info : Option Json} (hnodup : issuers.Nodup)
    (hasked : ∀ issuer, currency.issuer? = some issuer → issuer ∈ issuers) :
    (IssuerInfos.gathered (answersOf ledger 0 issuers)).of? currency = some info ↔
      Tells ledger issuers currency info := by
  unfold IssuerInfos.of? Tells
  cases hissuer : currency.issuer? with
  | none => simp [eq_comm]
  | some issuer =>
    have hfound := IssuerInfos.find?_gathered ((names_answersOf ledger 0 issuers).symm ▸ hnodup)
      (mem_answersOf ledger (hasked issuer hissuer))
    simp only [hfound, ← IssuerInfos.ofReply_eq_ok_iff issuer]
    cases IssuerInfos.ofReply issuer (replyOn ledger issuers issuer) with
    | error e => simp
    | ok data => simp [eq_comm]

theorem mem_issuers {m : Market} {issuer : String} :
    issuer ∈ m.issuers ↔ m.base.issuer? = some issuer ∨ m.quote.issuer? = some issuer := by
  simp [Market.issuers]

theorem mem_issuersOf {m : Market} (hm : m ∈ markets) {issuer : String} (h : issuer ∈ m.issuers) :
    issuer ∈ issuersOf markets := by
  rw [(firstMentions_issuersOf markets).all, List.mem_flatMap]
  exact ⟨m, hm, h⟩

/-- The rules under a pair are those of its market, and it has some just if what is told of both
its currencies is enough for them. -/
theorem find?_rulesOf (hpairs : (markets.map (·.pair)).Nodup) {pair : String} {info : RuleInfo} :
    (rulesOf ledger overrides markets).find? pair = some info ↔
      ∃ m ∈ markets, m.pair = pair ∧ ∃ base quote,
        Tells ledger (issuersOf markets) m.base base ∧
        Tells ledger (issuersOf markets) m.quote quote ∧
        info = .derive m base quote ((overrides.find? pair).getD {}) := by
  rw [rulesOf, IssuerInfos.find?_rules hpairs]
  refine exists_congr fun m => and_congr_right fun hm => ?_
  have hnodup := (firstMentions_issuersOf markets).once
  have hbase : ∀ issuer, m.base.issuer? = some issuer → issuer ∈ issuersOf markets :=
    fun _ h => mem_issuersOf hm (mem_issuers.mpr (.inl h))
  have hquote : ∀ issuer, m.quote.issuer? = some issuer → issuer ∈ issuersOf markets :=
    fun _ h => mem_issuersOf hm (mem_issuers.mpr (.inr h))
  rw [IssuerInfos.ruleInfo?_eq_some_iff]
  simp only [of?_eq_some_iff hnodup hbase, of?_eq_some_iff hnodup hquote]
  refine and_congr_right fun hpair => ?_
  rw [hpair]

theorem find?_rulesOf_market (hpairs : (markets.map (·.pair)).Nodup) {m : Market}
    (hm : m ∈ markets) {info : RuleInfo} :
    (rulesOf ledger overrides markets).find? m.pair = some info ↔
      ∃ base quote, Tells ledger (issuersOf markets) m.base base ∧
        Tells ledger (issuersOf markets) m.quote quote ∧
        info = .derive m base quote ((overrides.find? m.pair).getD {}) := by
  rw [find?_rulesOf hpairs]
  constructor
  · rintro ⟨m', hm', hpair, h⟩
    obtain rfl := List.inj_on_of_nodup_map hpairs hm' hm hpair
    exact h
  · intro h
    exact ⟨m, hm, rfl, h⟩

theorem exists_tells_iff {currency : Currency} :
    (∃ info, Tells ledger issuers currency info) ↔ ∀ issuer, currency.issuer? = some issuer →
      ∃ data, IssuerInfos.Publishes (replyOn ledger issuers issuer) data := by
  unfold Tells
  cases currency.issuer? with
  | none => simp
  | some issuer =>
    simp only [Option.some.injEq, forall_eq']
    constructor
    · rintro ⟨_, data, _, h⟩
      exact ⟨data, h⟩
    · rintro ⟨data, h⟩
      exact ⟨some data, data, rfl, h⟩

theorem tells_congr {ledger' : LedgerReplies} {issuers' : List String} {currency : Currency}
    {info : Option Json} (h : ∀ issuer, currency.issuer? = some issuer →
      replyOn ledger' issuers' issuer = replyOn ledger issuers issuer) :
    Tells ledger' issuers' currency info ↔ Tells ledger issuers currency info := by
  unfold Tells
  cases hissuer : currency.issuer? with
  | none => rfl
  | some issuer => simp only [h issuer hissuer]

/-- A market has rules just if every reply on its issuers brought the data of the account. -/
theorem exists_rules_iff (hpairs : (markets.map (·.pair)).Nodup) {m : Market} (hm : m ∈ markets) :
    (∃ info, (rulesOf ledger overrides markets).find? m.pair = some info) ↔
      ∀ issuer ∈ m.issuers,
        ∃ data, IssuerInfos.Publishes (replyOn ledger (issuersOf markets) issuer) data := by
  have hboth : (∃ info, (rulesOf ledger overrides markets).find? m.pair = some info) ↔
      (∃ base, Tells ledger (issuersOf markets) m.base base) ∧
        ∃ quote, Tells ledger (issuersOf markets) m.quote quote := by
    simp only [find?_rulesOf_market hpairs hm]
    constructor
    · rintro ⟨_, base, quote, hbase, hquote, _⟩
      exact ⟨⟨base, hbase⟩, quote, hquote⟩
    · rintro ⟨⟨base, hbase⟩, quote, hquote⟩
      exact ⟨_, base, quote, hbase, hquote, rfl⟩
  rw [hboth, exists_tells_iff, exists_tells_iff]
  simp only [mem_issuers, or_imp, forall_and]

/-- The rules of a market are the same in two surveys whose replies on its issuers are the same and
that have the same set for its pair. -/
theorem find?_rulesOf_congr {ledger' : LedgerReplies} {markets' : List Market}
    {overrides' : Table String RuleOverrides} (hpairs : (markets.map (·.pair)).Nodup)
    (hpairs' : (markets'.map (·.pair)).Nodup) {m : Market} (hm : m ∈ markets) (hm' : m ∈ markets')
    (hreplies : ∀ issuer ∈ m.issuers,
      replyOn ledger' (issuersOf markets') issuer = replyOn ledger (issuersOf markets) issuer)
    (hoverrides : overrides'.find? m.pair = overrides.find? m.pair) :
    (rulesOf ledger' overrides' markets').find? m.pair =
      (rulesOf ledger overrides markets).find? m.pair := by
  refine Option.ext fun info => ?_
  rw [find?_rulesOf_market hpairs' hm', find?_rulesOf_market hpairs hm, hoverrides]
  refine exists_congr fun base => exists_congr fun quote => and_congr ?_ (and_congr_left' ?_)
  · exact tells_congr fun issuer h => hreplies issuer (mem_issuers.mpr (.inl h))
  · exact tells_congr fun issuer h => hreplies issuer (mem_issuers.mpr (.inr h))

/-- A survey of the markets, put to a ledger, asks about each of their issuers once and comes to
these rules. -/
def ComesTo (ledger : LedgerReplies) (overrides : Table String RuleOverrides)
    (markets : List Market) (rules : Result) : Prop :=
  ∀ replies, (issuersOf markets).length ≤ replies →
    Progress.conduct resume ledger replies [] (start markets overrides) =
      ((issuersOf markets).map .accountInfo, .done rules)

theorem ComesTo.eq {rules : Result} (h : ComesTo ledger overrides markets rules) :
    rules = rulesOf ledger overrides markets := by
  have hsame := (h _ (Nat.le_refl _)).symm.trans (conduct_start (Nat.le_refl _))
  exact Progress.done.inj (Prod.mk.inj hsame).2

/-- A survey asks about each issuer once, in the order of first mention. A market under a pair of
its own has rules just if the one reply on each of its issuers brought the data of the account; the
rules are what follows from those replies and from what is set for the pair, whatever the other
markets are. -/
theorem markets_have_rules_by_their_issuers_alone (ledger : LedgerReplies) (markets : List Market)
    (hpairs : (markets.map (·.pair)).Nodup) (overrides : Table String RuleOverrides) :
    FirstMentions (markets.flatMap (·.issuers)) (issuersOf markets) ∧
    ∃ rules, ComesTo ledger overrides markets rules ∧
      (∀ pair info, rules.find? pair = some info ↔ ∃ m ∈ markets, m.pair = pair ∧
        ∃ base quote, Tells ledger (issuersOf markets) m.base base ∧
          Tells ledger (issuersOf markets) m.quote quote ∧
          info = .derive m base quote ((overrides.find? pair).getD {})) ∧
      (∀ m ∈ markets, (∃ info, rules.find? m.pair = some info) ↔ ∀ issuer ∈ m.issuers,
        ∃ data, IssuerInfos.Publishes (replyOn ledger (issuersOf markets) issuer) data) ∧
      ∀ ledger' markets' overrides' rules', (markets'.map (·.pair)).Nodup →
        ComesTo ledger' overrides' markets' rules' → ∀ m ∈ markets, m ∈ markets' →
        (∀ issuer ∈ m.issuers, replyOn ledger' (issuersOf markets') issuer =
          replyOn ledger (issuersOf markets) issuer) →
        overrides'.find? m.pair = overrides.find? m.pair →
        rules'.find? m.pair = rules.find? m.pair := by
  refine ⟨firstMentions_issuersOf markets, rulesOf ledger overrides markets,
    fun _ hreplies => conduct_start hreplies, fun _ _ => find?_rulesOf hpairs,
    fun _ hm => exists_rules_iff hpairs hm, ?_⟩
  intro ledger' markets' overrides' rules' hpairs' hrules' m hm hm' hreplies hoverrides
  rw [hrules'.eq]
  exact find?_rulesOf_congr hpairs hpairs' hm hm' hreplies hoverrides

/-! Two markets of one issuer. The issuer of the other currency cannot be asked about when it is
its turn, so its market is left out. -/

def soloMarkets : List Market :=
  [⟨"SOLO-XRP", .issued "SOLO" "rIssuer", .native⟩,
    ⟨"SOLO-USD", .issued "SOLO" "rIssuer", .issued "USD" "rGate"⟩]

def fiveDigits : Json := .object [("TickSize", .ofNat 5)]

def busyGate : LedgerReplies
  | 1, .accountInfo "rGate" => .error "timed out"
  | _, _ => .ok (.ofResult (.object [("account_data", fiveDigits)]))

theorem a_silent_issuer_leaves_out_its_market : ∃ rules,
    ComesTo busyGate .empty soloMarkets rules ∧
    rules.find? "SOLO-XRP" = some (.derive ⟨"SOLO-XRP", .issued "SOLO" "rIssuer", .native⟩
      (some fiveDigits) none {}) ∧
    rules.find? "SOLO-USD" = none := by
  have hissuers : issuersOf soloMarkets = ["rIssuer", "rGate"] := by decide +kernel
  have hsolo : IssuerInfos.Publishes (replyOn busyGate ["rIssuer", "rGate"] "rIssuer") fiveDigits :=
    ⟨_, rfl, rfl, rfl⟩
  have hgate : replyOn busyGate ["rIssuer", "rGate"] "rGate" = .error "timed out" := rfl
  obtain ⟨_, rules, hrules, hentry, hexists, _⟩ :=
    markets_have_rules_by_their_issuers_alone busyGate soloMarkets (by decide +kernel) .empty
  rw [hissuers] at hentry hexists
  refine ⟨rules, hrules, (hentry _ _).mpr
    ⟨_, List.mem_cons_self, rfl, some fiveDigits, none, ⟨_, rfl, hsolo⟩, rfl, rfl⟩, ?_⟩
  cases hfound : rules.find? "SOLO-USD" with
  | none => rfl
  | some info =>
    obtain ⟨data, a, ha, _⟩ := (hexists _ (List.mem_cons_of_mem _ List.mem_cons_self)).mp
      ⟨info, hfound⟩ "rGate" (by decide +kernel)
    rw [hgate] at ha
    cases ha

end Survey

end OfferDesk
