-- Tables: values under distinct keys, in the order in which the keys first came in.
namespace OfferDesk

/-- Values under keys, each key at most once. -/
structure Table (κ α : Type) where
  entries : List (κ × α)
  keys_nodup : (entries.map Prod.fst).Nodup
deriving DecidableEq

namespace Table

variable {κ α : Type}

def empty : Table κ α := ⟨[], List.nodup_nil⟩

instance : Inhabited (Table κ α) := ⟨empty⟩

def keys (t : Table κ α) : List κ := t.entries.map Prod.fst

def values (t : Table κ α) : List α := t.entries.map Prod.snd

/-- Changes every value in place. -/
def map {β : Type} (t : Table κ α) (f : α → β) : Table κ β :=
  ⟨t.entries.map fun e => (e.1, f e.2), by
    rw [List.map_map]; exact t.keys_nodup⟩

/-- The entries with every value changed; nothing where one cannot be. -/
def mapEntries? {β : Type} (f : α → Option β) : List (κ × α) → Option (List (κ × β))
  | [] => some []
  | e :: es => do
    let b ← f e.2
    let rest ← mapEntries? f es
    return (e.1, b) :: rest

theorem keys_mapEntries? {β : Type} {f : α → Option β} {es : List (κ × α)}
    {bs : List (κ × β)} (h : mapEntries? f es = some bs) :
    bs.map Prod.fst = es.map Prod.fst := by
  induction es generalizing bs with
  | nil => cases h; rfl
  | cons e es ih =>
    simp only [mapEntries?, Option.bind_eq_bind, Option.bind_eq_some_iff] at h
    obtain ⟨b, _, rest, hrest, hb⟩ := h
    cases hb
    simp [ih hrest]

/-- Changes every value in place; nothing where one cannot be changed. -/
def map? {β : Type} (t : Table κ α) (f : α → Option β) : Option (Table κ β) :=
  match h : mapEntries? f t.entries with
  | some bs => some ⟨bs, by rw [keys_mapEntries? h]; exact t.keys_nodup⟩
  | none => none

variable [DecidableEq κ]

/-- The value under a key in a list of entries. -/
def findEntries (k : κ) : List (κ × α) → Option α
  | [] => none
  | e :: es => if e.1 = k then some e.2 else findEntries k es

def find? (t : Table κ α) (k : κ) : Option α := findEntries k t.entries

/-- Puts a value under a key: in place of the old one, or at the end. -/
def putEntries (k : κ) (a : α) : List (κ × α) → List (κ × α)
  | [] => [(k, a)]
  | e :: es => if e.1 = k then (k, a) :: es else e :: putEntries k a es

theorem mem_keys_putEntries {k x : κ} {a : α} {es : List (κ × α)}
    (h : x ∈ (putEntries k a es).map Prod.fst) : x = k ∨ x ∈ es.map Prod.fst := by
  induction es with
  | nil => simp_all [putEntries]
  | cons e es ih =>
    unfold putEntries at h
    split at h
    · rename_i he; subst he; simp_all
    · rw [List.map_cons, List.mem_cons] at h
      rw [List.map_cons, List.mem_cons]
      rcases h with h | h
      · exact Or.inr (Or.inl h)
      · rcases ih h with h | h
        · exact Or.inl h
        · exact Or.inr (Or.inr h)

theorem nodup_putEntries (k : κ) (a : α) {es : List (κ × α)} (h : (es.map Prod.fst).Nodup) :
    ((putEntries k a es).map Prod.fst).Nodup := by
  induction es with
  | nil => simp [putEntries]
  | cons e es ih =>
    rw [List.map_cons, List.nodup_cons] at h
    unfold putEntries
    split
    · rename_i he; subst he; rw [List.map_cons, List.nodup_cons]; exact h
    · rename_i he
      rw [List.map_cons, List.nodup_cons]
      refine ⟨fun hm => ?_, ih h.2⟩
      rcases mem_keys_putEntries hm with hk | hk
      · exact he hk
      · exact h.1 hk

theorem mem_putEntries {k : κ} {a : α} {es : List (κ × α)} {e : κ × α}
    (h : e ∈ putEntries k a es) : e = (k, a) ∨ e ∈ es := by
  induction es with
  | nil => simpa [putEntries] using h
  | cons d es ih =>
    unfold putEntries at h
    split at h
    · rcases List.mem_cons.mp h with h | h
      · exact Or.inl h
      · exact Or.inr (List.mem_cons_of_mem _ h)
    · rcases List.mem_cons.mp h with h | h
      · exact Or.inr (h ▸ List.mem_cons_self)
      · exact (ih h).imp_right (List.mem_cons_of_mem _)

def put (t : Table κ α) (k : κ) (a : α) : Table κ α :=
  ⟨putEntries k a t.entries, nodup_putEntries k a t.keys_nodup⟩

def erase (t : Table κ α) (k : κ) : Table κ α :=
  ⟨t.entries.filter (·.1 ≠ k), (List.filter_sublist.map _).nodup t.keys_nodup⟩

/-- The table of the entries put in one after another. -/
def ofList (entries : List (κ × α)) : Table κ α :=
  entries.foldl (fun t e => t.put e.1 e.2) empty

/-! ## What is found after a change -/

@[simp] theorem find?_empty (k : κ) : (empty : Table κ α).find? k = none := rfl

theorem findEntries_putEntries (k : κ) (a : α) (es : List (κ × α)) (x : κ) :
    findEntries x (putEntries k a es) = if x = k then some a else findEntries x es := by
  induction es with
  | nil =>
    unfold putEntries findEntries findEntries
    by_cases h : k = x
    · rw [if_pos h, if_pos h.symm]
    · rw [if_neg h, if_neg (Ne.symm h)]
  | cons e es ih =>
    unfold putEntries
    by_cases he : e.1 = k
    · rw [if_pos he]
      unfold findEntries
      by_cases hx : k = x
      · rw [if_pos hx, if_pos hx.symm]
      · rw [if_neg hx, if_neg (Ne.symm hx), if_neg (by rw [he]; exact hx)]
    · rw [if_neg he]
      unfold findEntries
      by_cases hx : e.1 = x
      · rw [if_pos hx, if_pos hx, if_neg (by rw [← hx]; exact he)]
      · rw [if_neg hx, if_neg hx, ih]

theorem findEntries_filter (k : κ) (es : List (κ × α)) (x : κ) :
    findEntries x (es.filter (·.1 ≠ k)) = if x = k then none else findEntries x es := by
  induction es with
  | nil => simp [findEntries]
  | cons e es ih =>
    by_cases he : e.1 = k
    · rw [List.filter_cons_of_neg (by simpa using he), ih]
      unfold findEntries
      by_cases hx : x = k
      · rw [if_pos hx, if_pos hx]
      · rw [if_neg hx, if_neg hx, if_neg (by rw [he]; exact Ne.symm hx)]
        cases es <;> rfl
    · rw [List.filter_cons_of_pos (by simpa using he)]
      unfold findEntries
      by_cases hx : e.1 = x
      · rw [if_pos hx, if_pos hx, if_neg (by rw [← hx]; exact he)]
      · rw [if_neg hx, if_neg hx, ih]

theorem find?_put (t : Table κ α) (k x : κ) (a : α) :
    (t.put k a).find? x = if x = k then some a else t.find? x :=
  findEntries_putEntries k a t.entries x

@[simp] theorem find?_put_self (t : Table κ α) (k : κ) (a : α) :
    (t.put k a).find? k = some a := by
  rw [find?_put, if_pos rfl]

theorem find?_put_of_ne (t : Table κ α) {k x : κ} (a : α) (h : x ≠ k) :
    (t.put k a).find? x = t.find? x := by
  rw [find?_put, if_neg h]

theorem find?_erase (t : Table κ α) (k x : κ) :
    (t.erase k).find? x = if x = k then none else t.find? x :=
  findEntries_filter k t.entries x

theorem findEntries_mapEntries? {β : Type} {f : α → Option β} {es : List (κ × α)}
    {bs : List (κ × β)} (h : mapEntries? f es = some bs) (k : κ) :
    findEntries k bs = (findEntries k es).bind f := by
  induction es generalizing bs with
  | nil => cases h; rfl
  | cons e es ih =>
    simp only [mapEntries?, Option.bind_eq_bind, Option.bind_eq_some_iff] at h
    obtain ⟨b, hb, rest, hrest, h⟩ := h
    cases h
    unfold findEntries
    by_cases he : e.1 = k
    · rw [if_pos he, if_pos he, Option.bind_some, hb]
    · rw [if_neg he, if_neg he, ih hrest]

theorem find?_map? {β : Type} {t : Table κ α} {f : α → Option β} {t' : Table κ β}
    (h : t.map? f = some t') (k : κ) : t'.find? k = (t.find? k).bind f := by
  unfold map? at h
  split at h
  · rename_i bs hbs
    cases h
    exact findEntries_mapEntries? hbs k
  · cases h

theorem findEntries_eq_some_iff {es : List (κ × α)} (hes : (es.map Prod.fst).Nodup) {k : κ}
    {a : α} : findEntries k es = some a ↔ (k, a) ∈ es := by
  induction es with
  | nil => simp [findEntries]
  | cons e es ih =>
    rw [List.map_cons, List.nodup_cons] at hes
    unfold findEntries
    by_cases he : e.1 = k
    · subst he
      rw [if_pos rfl, List.mem_cons, Option.some.injEq]
      constructor
      · rintro rfl
        exact Or.inl rfl
      · rintro (h | h)
        · exact (congrArg Prod.snd h).symm
        · exact absurd (List.mem_map_of_mem h) hes.1
    · rw [if_neg he, ih hes.2, List.mem_cons]
      exact ⟨Or.inr, fun h => h.resolve_left fun h => he (congrArg Prod.fst h).symm⟩

theorem find?_eq_some_iff (t : Table κ α) {k : κ} {a : α} :
    t.find? k = some a ↔ (k, a) ∈ t.entries :=
  findEntries_eq_some_iff t.keys_nodup

/-! ## Keys in their order -/

theorem keys_putEntries {k : κ} {es : List (κ × α)} (a : α) (h : findEntries k es ≠ none) :
    (putEntries k a es).map Prod.fst = es.map Prod.fst := by
  induction es with
  | nil => exact absurd rfl h
  | cons e es ih =>
    unfold putEntries
    unfold findEntries at h
    by_cases he : e.1 = k
    · rw [if_pos he, List.map_cons, List.map_cons, he]
    · rw [if_neg he] at h
      rw [if_neg he, List.map_cons, List.map_cons, ih h]

/-- A value that takes the place of another leaves the keys in their order. -/
theorem keys_put (t : Table κ α) {k : κ} (a : α) (h : t.find? k ≠ none) :
    (t.put k a).keys = t.keys :=
  keys_putEntries a h

/-- Entries are their keys in their order, with what is found under each. -/
theorem map_findEntries {es : List (κ × α)} (hes : (es.map Prod.fst).Nodup) :
    (es.map Prod.fst).map (fun k => (k, findEntries k es)) = es.map fun e => (e.1, some e.2) := by
  rw [List.map_map]
  refine List.map_congr_left fun e he => ?_
  rw [Function.comp_apply, (findEntries_eq_some_iff hes).mpr he]

theorem ext_of_find? {t t' : Table κ α} (hkeys : t.keys = t'.keys)
    (h : ∀ k, t.find? k = t'.find? k) : t = t' := by
  have hmap : t.entries.map (fun e => (e.1, some e.2)) =
      t'.entries.map fun e => (e.1, some e.2) := by
    rw [← map_findEntries t.keys_nodup, ← map_findEntries t'.keys_nodup,
      show t.entries.map Prod.fst = t'.entries.map Prod.fst from hkeys]
    exact List.map_congr_left fun k _ => Prod.ext rfl (h k)
  have hentries : t.entries = t'.entries := by
    refine (List.map_inj_right fun e e' he => ?_).mp hmap
    obtain ⟨hkey, hvalue⟩ := Prod.mk.inj he
    exact Prod.ext hkey (Option.some.inj hvalue)
  cases t
  cases t'
  cases hentries
  rfl

/-! ## Tables of a list -/

theorem find?_foldl_put {es : List (κ × α)} {t : Table κ α} {k : κ} {a : α}
    (h : (es.foldl (fun t e => t.put e.1 e.2) t).find? k = some a) :
    (k, a) ∈ es ∨ t.find? k = some a := by
  induction es generalizing t with
  | nil => exact Or.inr h
  | cons e es ih =>
    rcases ih h with hmem | hput
    · exact Or.inl (List.mem_cons_of_mem _ hmem)
    · rw [find?_put] at hput
      split at hput
      · rename_i hk
        cases hput
        exact Or.inl (hk ▸ List.mem_cons_self)
      · exact Or.inr hput

/-- What is found in the table of a list stands in the list. -/
theorem mem_of_find?_ofList {es : List (κ × α)} {k : κ} {a : α}
    (h : (ofList es).find? k = some a) : (k, a) ∈ es := by
  rcases find?_foldl_put h with hmem | hnone
  · exact hmem
  · cases hnone

theorem find?_foldl_put_of_ne {es : List (κ × α)} {t : Table κ α} {k : κ}
    (h : k ∉ es.map Prod.fst) :
    (es.foldl (fun t e => t.put e.1 e.2) t).find? k = t.find? k := by
  induction es generalizing t with
  | nil => rfl
  | cons e es ih =>
    rw [List.map_cons, List.mem_cons, not_or] at h
    rw [List.foldl_cons, ih h.2, find?_put_of_ne t e.2 h.1]

/-- Under different keys, all that stands in a list is found in its table. -/
theorem find?_ofList {es : List (κ × α)} (hes : (es.map Prod.fst).Nodup) {k : κ} {a : α}
    (h : (k, a) ∈ es) : (ofList es).find? k = some a := by
  unfold ofList
  generalize (empty : Table κ α) = t
  induction es generalizing t with
  | nil => cases h
  | cons e es ih =>
    rw [List.map_cons, List.nodup_cons] at hes
    rw [List.foldl_cons]
    rcases List.mem_cons.mp h with rfl | hmem
    · rw [find?_foldl_put_of_ne hes.1, find?_put_self]
    · exact ih hes.2 hmem _

end Table

end OfferDesk
