-- Messages that stop the work. A message of a stream is taken in unless it closes too late or needs
-- a value that no decimal can hold: for a patch of a book, for a fill of an order, or for the
-- balances that are read after it.
import OfferDesk.Proofs.NeededValues

namespace OfferDesk

open Decimal (Fits Lack)

/-! ## What balances need -/

namespace Reserve

variable {r : Reserve} {ownerCount : UInt32}

/-- What has to stay for the objects, and the base added to it. -/
inductive Needs (r : Reserve) (ownerCount : UInt32) : Rat → Prop where
  | objects : r.Needs ownerCount (r.perObject.toRat * (Decimal.ofWord ownerCount.toUInt64).toRat)
  | all {objects : Decimal}
    (product : r.perObject.mul? (.ofWord ownerCount.toUInt64) = some objects) :
    r.Needs ownerCount (r.base.toRat + objects.toRat)

theorem required?_eq_none_iff : r.required? ownerCount = none ↔ Lack (r.Needs ownerCount) := by
  unfold required?
  constructor
  · intro h
    cases hproduct : r.perObject.mul? (.ofWord ownerCount.toUInt64) with
    | none => exact ⟨_, .objects, Decimal.mul?_eq_none_iff.mp hproduct⟩
    | some objects =>
      rw [hproduct] at h
      exact ⟨_, .all hproduct, Decimal.add?_eq_none_iff.mp h⟩
  · rintro ⟨x, hx, hlack⟩
    cases hx with
    | objects => simp [Decimal.mul?_eq_none_iff.mpr hlack]
    | all hproduct => simp [hproduct, Decimal.add?_eq_none_iff.mpr hlack]

end Reserve

theorem Holding.add?_eq_some_iff {h h' : Holding} {value : Decimal} : h.add? value = some h' ↔
    h.total.add? value = some h'.total ∧ h.available.add? value = some h'.available := by
  unfold add?
  constructor
  · intro hadd
    obtain ⟨total, htotal, hadd⟩ := Option.bind_eq_some_iff.mp hadd
    obtain ⟨available, havailable, hadd⟩ := Option.bind_eq_some_iff.mp hadd
    cases hadd
    exact ⟨htotal, havailable⟩
  · rintro ⟨htotal, havailable⟩
    simp [htotal, havailable]

namespace Balances

variable {account symbol : String} {info objects data : Json} {reserve : Reserve} {b b' : Balances}
  {line : String × Decimal} {native : Decimal} {ownerCount : UInt32}

/-- The reserve is worked out and taken off the native balance. -/
inductive NeedsToSpare (native : Decimal) (ownerCount : UInt32) (reserve : Reserve) :
    Rat → Prop where
  | reserve {x : Rat} (needs : reserve.Needs ownerCount x) :
    NeedsToSpare native ownerCount reserve x
  | spare {kept : Decimal} (required : reserve.required? ownerCount = some kept) :
    NeedsToSpare native ownerCount reserve (native.toRat - kept.toRat)

theorem nativeHolding?_eq_none_iff : nativeHolding? native ownerCount reserve = none ↔
    Lack (NeedsToSpare native ownerCount reserve) := by
  unfold nativeHolding?
  constructor
  · intro h
    cases hkept : reserve.required? ownerCount with
    | none =>
      obtain ⟨x, hx, hlack⟩ := Reserve.required?_eq_none_iff.mp hkept
      exact ⟨x, .reserve hx, hlack⟩
    | some kept =>
      refine ⟨_, .spare hkept, Decimal.sub?_eq_none_iff.mp ?_⟩
      cases hspare : native.sub? kept with
      | none => rfl
      | some spare => simp [hkept, hspare] at h
  · rintro ⟨x, hx, hlack⟩
    cases hx with
    | reserve hx => simp [Reserve.required?_eq_none_iff.mpr ⟨x, hx, hlack⟩]
    | spare hkept => simp [hkept, Decimal.sub?_eq_none_iff.mpr hlack]

/-- Adds what a trust line holds. -/
def addLine? (b : Balances) (line : String × Decimal) : Option Balances :=
  b.add? (Currency.symbolOf line.1) line.2

theorem holding_put (b : Balances) (key symbol : String) (h : Holding) :
    holding (b.put key h) symbol = if symbol = key then h else b.holding symbol := by
  rw [holding, Table.find?_put]
  split <;> rfl

/-- What there is before any line is added. -/
theorem holding_start (own : Holding) (symbol : String) :
    holding (Table.empty.put Currency.nativeSymbol own) symbol =
      if symbol = Currency.nativeSymbol then own else .nothing := by
  rw [holding_put]
  rfl

theorem addLine?_eq_some_iff : b.addLine? line = some b' ↔
    ∃ h, (b.holding (Currency.symbolOf line.1)).add? line.2 = some h ∧
      b.put (Currency.symbolOf line.1) h = b' := by
  unfold addLine? add?
  rw [Option.bind_eq_bind, Option.bind_eq_some_iff]
  simp only [Option.pure_def, Option.some.injEq]

/-- What a trust line holds is added to all that there is of its currency, and to what of it can be
spent. -/
inductive NeedsToAdd (b : Balances) (line : String × Decimal) : Rat → Prop where
  | total : b.NeedsToAdd line ((b.holding (Currency.symbolOf line.1)).total.toRat + line.2.toRat)
  | available :
    b.NeedsToAdd line ((b.holding (Currency.symbolOf line.1)).available.toRat + line.2.toRat)

theorem addLine?_eq_none_iff : b.addLine? line = none ↔ Lack (b.NeedsToAdd line) := by
  unfold addLine? add? Holding.add?
  constructor
  · intro h
    cases htotal : (b.holding (Currency.symbolOf line.1)).total.add? line.2 with
    | none => exact ⟨_, .total, Decimal.add?_eq_none_iff.mp htotal⟩
    | some total =>
      refine ⟨_, .available, Decimal.add?_eq_none_iff.mp ?_⟩
      cases havailable : (b.holding (Currency.symbolOf line.1)).available.add? line.2 with
      | none => rfl
      | some available => simp [htotal, havailable] at h
  · rintro ⟨x, hx, hlack⟩
    cases hx with
    | total => simp [Decimal.add?_eq_none_iff.mpr hlack]
    | available =>
      cases (b.holding (Currency.symbolOf line.1)).total.add? line.2 <;>
        simp [Decimal.add?_eq_none_iff.mpr hlack]

/-- Balances are read from an account and its objects: the native holding, and then the trust lines
one after another. -/
inductive Needs (account : String) (info objects : Json) (reserve : Reserve) : Rat → Prop where
  | native {data : Json} {native : Decimal} {x : Rat} (own : nativeOf info = .ok (data, native))
    (needs : NeedsToSpare native (ownerCountOf data) reserve x) :
    Needs account info objects reserve x
  | line {data : Json} {native : Decimal} {holding : Holding}
    {before after : List (String × Decimal)} {line : String × Decimal} {b : Balances} {x : Rat}
    (own : nativeOf info = .ok (data, native))
    (spare : nativeHolding? native (ownerCountOf data) reserve = some holding)
    (lines : linesOf account objects = before ++ line :: after)
    (sofar : before.foldlM addLine? (Table.empty.put Currency.nativeSymbol holding) = some b)
    (needs : b.NeedsToAdd line x) : Needs account info objects reserve x

theorem derive?_of_nativeOf (h : nativeOf info = .ok (data, native)) :
    derive? account info objects reserve =
      (nativeHolding? native (ownerCountOf data) reserve).bind fun own =>
        ((linesOf account objects).foldlM addLine?
          (Table.empty.put Currency.nativeSymbol own)).map .ok := by
  rw [derive?, h]
  cases hown : nativeHolding? native (ownerCountOf data) reserve with
  | none => simp [hown]
  | some own =>
    simp only [hown, Option.bind_eq_bind, Option.bind_some, Option.pure_def, Option.map_eq_bind]
    rfl

theorem derive?_eq_none_iff :
    derive? account info objects reserve = none ↔ Lack (Needs account info objects reserve) := by
  constructor
  · intro h
    cases hinfo : nativeOf info with
    | error e => simp [derive?, hinfo] at h
    | ok own =>
      obtain ⟨data, native⟩ := own
      rw [derive?_of_nativeOf hinfo] at h
      cases hown : nativeHolding? native (ownerCountOf data) reserve with
      | none =>
        obtain ⟨x, hx, hlack⟩ := nativeHolding?_eq_none_iff.mp hown
        exact ⟨x, .native hinfo hx, hlack⟩
      | some holding =>
        rw [hown, Option.bind_some, Option.map_eq_none_iff, foldlM_eq_none_iff] at h
        obtain ⟨before, line, after, b, hlines, hsofar, hline⟩ := h
        obtain ⟨x, hx, hlack⟩ := addLine?_eq_none_iff.mp hline
        exact ⟨x, .line hinfo hown hlines hsofar hx, hlack⟩
  · rintro ⟨x, hx, hlack⟩
    cases hx with
    | native own needs =>
      rw [derive?_of_nativeOf own, nativeHolding?_eq_none_iff.mpr ⟨x, needs, hlack⟩,
        Option.bind_none]
    | line own spare lines sofar needs =>
      rw [derive?_of_nativeOf own, spare, Option.bind_some, Option.map_eq_none_iff,
        foldlM_eq_none_iff]
      exact ⟨_, _, _, _, lines, sofar, addLine?_eq_none_iff.mpr ⟨x, needs, hlack⟩⟩

end Balances

/-! ## What a message needs at a desk -/

namespace Table

variable {κ α β : Type} {f : α → Option β}

theorem mapEntries?_eq_none_iff {es : List (κ × α)} :
    mapEntries? f es = none ↔ ∃ e ∈ es, f e.2 = none := by
  induction es with
  | nil => simp [mapEntries?]
  | cons e es ih =>
    rw [mapEntries?, List.exists_mem_cons_iff, ← ih]
    cases f e.2 with
    | none => simp
    | some b => cases mapEntries? f es <;> simp

/-- A change of all values comes to nothing just if that of one of them does. -/
theorem map?_eq_none_iff [DecidableEq κ] {t : Table κ α} :
    t.map? f = none ↔ ∃ k a, t.find? k = some a ∧ f a = none := by
  have hmap : t.map? f = none ↔ mapEntries? f t.entries = none := by
    unfold map?
    split <;> simp_all
  simp only [hmap, mapEntries?_eq_none_iff, find?_eq_some_iff, Prod.exists]

end Table

namespace DeskState

variable {s : DeskState} {d : Desk} {o : Outcome} {event : Json}

/-- All live books are sound. -/
def BooksSound (s : DeskState) : Prop := ∀ pair b, s.books.find? pair = some b → b.Sound

/-- A snapshot leaves a sound book, and so does a patch of one. -/
theorem invariant_booksSound : Invariant BooksSound where
  orders _ _ _ h := h
  signs _ _ h := h
  commits d s market snapshot h := by
    intro pair b hb
    rw [BookView.commit, Table.find?_put] at hb
    split at hb
    · cases hb
      exact LiveBook.sound_reset _ snapshot s.now
    · exact h pair b hb
  patches s o books h hbooks := by
    intro pair b' hb'
    rw [Table.find?_map? hbooks] at hb'
    obtain ⟨b, hb, hpatch⟩ := Option.bind_eq_some_iff.mp hb'
    obtain ⟨⟨_, us⟩, happly, rfl⟩ := Option.map_eq_some_iff.mp hpatch
    exact (h pair b hb).applyOutcome? happly
  reads _ _ h := h
  waits _ _ h := h

/-- A transaction is patched into each live book. -/
inductive NeedsToPatch (s : DeskState) (o : Outcome) : Rat → Prop where
  | book {pair : String} {b : LiveBook} {x : Rat} (live : s.books.find? pair = some b)
    (needs : b.Needs o x) : s.NeedsToPatch o x

theorem patchBooks?_eq_none_iff (hs : s.BooksSound) :
    s.patchBooks? o = none ↔ Lack (s.NeedsToPatch o) := by
  simp only [patchBooks?, Option.bind_eq_bind, Option.pure_def, Option.bind_eq_none_iff,
    reduceCtorEq, imp_false, ← Option.eq_none_iff_forall_ne_some, Table.map?_eq_none_iff, Option.map_eq_none_iff]
  constructor
  · rintro ⟨pair, b, hb, hpatch⟩
    obtain ⟨x, hx, hlack⟩ := (LiveBook.applyOutcome?_lacks_iff (hs pair b hb)).mp hpatch
    exact ⟨x, .book hb hx, hlack⟩
  · rintro ⟨x, ⟨hb, hx⟩, hlack⟩
    exact ⟨_, _, hb, (LiveBook.applyOutcome?_lacks_iff (hs _ _ hb)).mpr ⟨x, hx, hlack⟩⟩

/-- Who takes in transactions for the orders of the desk. -/
def trader (s : DeskState) (d : Desk) : Trader := ⟨d.account, d.markets, s.terms.feeRules⟩

/-- A patch of the books leaves the orders and the fee rules for the fills that come after it. -/
theorem userOutcome?_eq_none_iff : s.userOutcome? d o = none ↔
    s.patchBooks? o = none ∨ (s.trader d).process? o s.register = none := by
  unfold userOutcome? patchBooks? applyFills? trader
  cases s.books.map? fun b => (b.applyOutcome? o).map (·.1) with
  | none => simp
  | some books =>
    cases h : (Trader.mk d.account d.markets s.terms.feeRules).process? o s.register <;> simp [h]

end DeskState

/-! ## One message and the balances after it -/

instance {σ α : Type} (p : Progress σ α) : Decidable (p = .halted) :=
  match p with
  | .halted => .isTrue rfl
  | .ask _ _ _ => .isFalse nofun
  | .done _ => .isFalse nofun

namespace BalanceReading

variable {r : BalanceReading} {info : Json} {reply : Reply}

/-- The reply about an account is followed by a question for its objects, or by the end. -/
theorem resume_account (h : r.stage = .account) (reply : Reply) :
    (∃ a, reply = .ok a ∧ a.success = true ∧ r.resume reply =
      .ask 0 (.accountObjects r.account) { r with stage := .objects a.result }) ∨
    (∀ a, reply = .ok a → a.success = false) ∧ ∃ e, r.resume reply = .done (.error e) := by
  cases reply with
  | error text => exact Or.inr ⟨by simp, _, rfl⟩
  | ok a =>
    cases ha : a.success with
    | false => exact Or.inr ⟨by simp [ha], _, by rw [resume, take, ha]; rfl⟩
    | true => exact Or.inl ⟨a, rfl, ha, by simp [resume, take, ha, h]⟩

/-- The reply about the objects ends a reading. It is stopped just if the balances need a value that
no decimal can hold. -/
theorem resume_objects (h : r.stage = .objects info) (reply : Reply) :
    (r.resume reply = .halted ↔ ∃ a, reply = .ok a ∧ a.success = true ∧
      Lack (Balances.Needs r.account info a.result r.reserve)) ∧
    (r.resume reply = .halted ∨ ∃ result, r.resume reply = .done result) := by
  cases reply with
  | error text => exact ⟨by simp [resume], Or.inr ⟨_, rfl⟩⟩
  | ok a =>
    simp only [resume, take, h, ← Balances.derive?_eq_none_iff, Except.ok.injEq, exists_eq_left']
    cases a.success with
    | false => simp
    | true => cases Balances.derive? r.account info a.result r.reserve <;> simp

end BalanceReading

namespace UserStream

variable {d : Desk} {s s₁ s₂ : DeskState} {event : Json} {o : Outcome} {info objects : Reply}

/-- A message that waits goes on with a reply, at the desk as it is by then. -/
def replied (d : Desk) (t : Turn UserStream Unit) (s : DeskState) (reply : Reply) :
    Turn UserStream Unit :=
  match t.2 with
  | .ask _ _ u => u.resume d s reply
  | _ => t

/-- A message of the account stream with the replies to what it asks for: about the account, and
about its objects. Whatever else happens at the desk may come before each of them. -/
def handled (d : Desk) (s : DeskState) (event : Json) (s₁ : DeskState) (info : Reply)
    (s₂ : DeskState) (objects : Reply) : Turn UserStream Unit :=
  replied d (replied d (start d s [event]) s₁ info) s₂ objects

/-- The last message waits for what its reading of balances waits for, and ends with it. -/
theorem resume_last (d : Desk) (s : DeskState) (r : BalanceReading) (reply : Reply) :
    (∀ pause request r', r.resume reply = .ask pause request r' →
      resume d s ⟨⟨r⟩, []⟩ reply = (s, .ask pause request ⟨⟨r'⟩, []⟩)) ∧
    (r.resume reply = .halted → resume d s ⟨⟨r⟩, []⟩ reply = (s, .halted)) ∧
    (∀ result, r.resume reply = .done result →
      (resume d s ⟨⟨r⟩, []⟩ reply).2 = .done ()) := by
  unfold resume BalanceUpdate.resume
  refine ⟨fun pause request r' h => by rw [h]; rfl, fun h => by rw [h]; rfl, fun result h => ?_⟩
  rw [h]
  cases result <;> rfl

/-- A message that cannot be read is left out. -/
theorem handled_of_error {e : Failure} (h : Outcome.ofStream event = .error e) :
    handled d s event s₁ info s₂ objects = (s, .done ()) := by
  unfold handled
  rw [start, h]
  rfl

/-- A turn that waits for no reply stays as it is. -/
theorem replied_done {t : Turn UserStream Unit} (h : t.2 = .done ()) (reply : Reply) :
    replied d t s reply = t := by
  unfold replied
  rw [h]

/-- The reply about the objects is the last one. -/
theorem replied_objects (d : Desk) (s₁ s₂ : DeskState) (request : Request) (told : Json)
    (objects : Reply) :
    let t := replied d (s₁, .ask 0 request
      ⟨⟨⟨d.account, d.config.reserve, .objects told⟩⟩, []⟩) s₂ objects
    (t.2 = .halted ↔ ∃ b, objects = .ok b ∧ b.success = true ∧
      Lack (Balances.Needs d.account told b.result d.config.reserve)) ∧
    (t.2 = .halted ∨ t.2 = .done ()) := by
  intro t
  obtain ⟨_, hhalted, hdone⟩ :=
    resume_last d s₂ ⟨d.account, d.config.reserve, .objects told⟩ objects
  obtain ⟨hiff, hends⟩ := BalanceReading.resume_objects
    (r := ⟨d.account, d.config.reserve, .objects told⟩) rfl objects
  rw [← hiff]
  rcases hends with hends | ⟨result, hends⟩
  · have ht : t.2 = .halted := congrArg Prod.snd (hhalted hends)
    exact ⟨iff_of_true ht hends, Or.inl ht⟩
  · have ht : t.2 = .done () := hdone result hends
    exact ⟨iff_of_false (by simp [ht]) (by simp [hends]), Or.inr ht⟩

/-- The balances after a message are asked for in two steps, and stop the work only in the last
one. -/
theorem replied_account (d : Desk) (s s₁ s₂ : DeskState) (request : Request)
    (info objects : Reply) :
    let t := replied d (replied d (s, .ask 0 request
      ⟨⟨⟨d.account, d.config.reserve, .account⟩⟩, []⟩) s₁ info) s₂ objects
    (t.2 = .halted ↔ ∃ a b, info = .ok a ∧ a.success = true ∧ objects = .ok b ∧ b.success = true ∧
      Lack (Balances.Needs d.account a.result b.result d.config.reserve)) ∧
    (t.2 = .halted ∨ t.2 = .done ()) := by
  intro t
  obtain ⟨hask, _, hdone⟩ := resume_last d s₁ ⟨d.account, d.config.reserve, .account⟩ info
  rcases BalanceReading.resume_account (r := ⟨d.account, d.config.reserve, .account⟩) rfl info with
    ⟨a, rfl, ha, hasks⟩ | ⟨hrefused, e, hends⟩
  -- once the account is known, what becomes of the message is up to the second reply alone
  · have ht : t = replied d (s₁, .ask 0 (.accountObjects d.account)
        ⟨⟨⟨d.account, d.config.reserve, .objects a.result⟩⟩, []⟩) s₂ objects :=
      congrArg (replied d · s₂ objects) (hask _ _ _ hasks)
    obtain ⟨hiff, hpast⟩ :=
      replied_objects d s₁ s₂ (.accountObjects d.account) a.result objects
    rw [ht]
    exact ⟨hiff.trans (by simp [ha]), hpast⟩
  · have ht : t.2 = .done () := by
      have hpast := hdone _ hends
      exact (congrArg Prod.snd (replied_done hpast objects)).trans hpast
    refine ⟨iff_of_false (by simp [ht]) ?_, Or.inr ht⟩
    rintro ⟨a, _, ha, hsuccess, _⟩
    rw [hrefused a ha] at hsuccess
    cases hsuccess

end UserStream

/-- What a message of the account stream stops the work for: a patch of a book, a close time beyond
64 bits, a fill of an order, or the balances that are read after it. -/
inductive Outcome.Halts (o : Outcome) (d : Desk) (s : DeskState) (info objects : Reply) : Prop where
  | patch (lack : Lack (s.NeedsToPatch o)) : o.Halts d s info objects
  | late (validated : o.validated = true) (late : o.ClosesLate) : o.Halts d s info objects
  | fill {time : Stamp} (validated : o.validated = true)
    (closes : Stamp.ofClose? o.date = some time)
    (lack : Lack ((s.trader d).Needs o time s.register)) : o.Halts d s info objects
  | balances {a b : Answer} (concerns : o.concerns d.account = true) (told : info = .ok a)
    (told_success : a.success = true) (listed : objects = .ok b) (listed_success : b.success = true)
    (lack : Lack (Balances.Needs d.account a.result b.result d.config.reserve)) :
    o.Halts d s info objects


/-- A message stops the work at once, or when its balances are worked out. -/
theorem Outcome.halts_iff {o : Outcome} {d : Desk} {s : DeskState} {info objects : Reply}
    (hs : s.BooksSound) : o.Halts d s info objects ↔ s.userOutcome? d o = none ∨
      o.concerns d.account = true ∧ ∃ a b, info = .ok a ∧ a.success = true ∧ objects = .ok b ∧
        b.success = true ∧
        Lack (Balances.Needs d.account a.result b.result d.config.reserve) := by
  rw [DeskState.userOutcome?_eq_none_iff, DeskState.patchBooks?_eq_none_iff hs,
    Trader.process?_lacks_iff]
  constructor
  · intro h
    cases h with
    | patch lack => exact Or.inl (Or.inl lack)
    | late validated late => exact Or.inl (Or.inr ⟨validated, Or.inl late⟩)
    | fill validated closes lack => exact Or.inl (Or.inr ⟨validated, Or.inr ⟨_, closes, lack⟩⟩)
    | balances concerns told told_success listed listed_success lack =>
      exact Or.inr ⟨concerns, _, _, told, told_success, listed, listed_success, lack⟩
  · rintro ((lack | ⟨validated, late | ⟨time, closes, lack⟩⟩) | ⟨hconcerns, a, b, hinfo, ha,
      hobjects, hb, lack⟩)
    · exact .patch lack
    · exact .late validated late
    · exact .fill validated closes lack
    · exact .balances hconcerns hinfo ha hobjects hb lack

/-- A message that can be read stops just for what its transaction or the balances after it need.
In any other case it has been taken in to the end after two replies. -/
theorem UserStream.handled_of_ok {event : Json} {o : Outcome} {s : DeskState} (d : Desk)
    (s₁ s₂ : DeskState) (info objects : Reply) (hs : s.BooksSound)
    (h : Outcome.ofStream event = .ok o) :
    ((handled d s event s₁ info s₂ objects).2 = .halted ↔ o.Halts d s info objects) ∧
    ((handled d s event s₁ info s₂ objects).2 = .halted ∨
      (handled d s event s₁ info s₂ objects).2 = .done ()) := by
  rw [Outcome.halts_iff hs, handled, start, h]
  dsimp only
  cases s.userOutcome? d o with
  | none => exact ⟨iff_of_true rfl (Or.inl rfl), Or.inl rfl⟩
  | some s' =>
    cases o.concerns d.account with
    | true =>
      obtain ⟨hhalts, hends⟩ := replied_account d s' s₁ s₂ (.accountInfo d.account) info objects
      exact ⟨hhalts.trans (by simp), hends⟩
    | false => simp [start, replied]

end OfferDesk
