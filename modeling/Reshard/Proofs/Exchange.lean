import Reshard.Exchange
import Reshard.Proofs.Json.RoundTrip

/-!
Keys, ranges, scopes, moves, plans and requests as JSON text. Values whose numbers are 64-bit words
are written as texts that are read as the same values again, and only such values are ever read, so
that whatever is read from a text may be written and read again (`exchange_roundTrips`). The key
list of a scope is a set when it is read, and the one of a request a list.
-/

namespace Reshard

/-- The value that a text is read as. -/
def decode? {α : Type} (ofJson? : Json → Option α) (s : String) : Option α :=
  (Json.ofText? s).bind ofJson?

/-- Values that fit are written as texts that are read as the same values, and so is every value
that was read from a text. -/
structure RoundTrips {α : Type} (toJson : α → Json) (ofJson? : Json → Option α)
    (Fits : α → Prop) : Prop where
  of_fits : ∀ a, Fits a → decode? ofJson? (toJson a).toText = some a
  again : ∀ s a, decode? ofJson? s = some a → decode? ofJson? (toJson a).toText = some a

/-- What is known of a form of JSON: all values have readable forms, the forms of values that fit
are read as these, and nothing else is read. -/
structure Form {α : Type} (toJson : α → Json) (ofJson? : Json → Option α)
    (Fits : α → Prop) : Prop where
  readable : ∀ a, (toJson a).Readable
  read : ∀ a, Fits a → ofJson? (toJson a) = some a
  fits : ∀ j a, ofJson? j = some a → Fits a

theorem Form.roundTrips {α : Type} {toJson : α → Json} {ofJson? : Json → Option α}
    {Fits : α → Prop} (h : Form toJson ofJson? Fits) : RoundTrips toJson ofJson? Fits := by
  have hdecode : ∀ a, Fits a → decode? ofJson? (toJson a).toText = some a := by
    intro a ha
    rw [decode?, (h.readable a).ofText?_toText, Option.bind_some, h.read a ha]
  refine ⟨hdecode, fun s a hs => hdecode a ?_⟩
  obtain ⟨j, -, hj⟩ := Option.bind_eq_some_iff.mp hs
  exact h.fits j a hj

/-! ## Which values fit -/

def Key.Fits (k : Key) : Prop := k.id < Word.limit

def IdRange.Fits (r : IdRange) : Prop := r.first < Word.limit ∧ r.last < Word.limit

def Scope.Fits : Scope → Prop
  | keys members => ∀ k ∈ members, k.Fits
  | range ids => ids.Fits

def Move.Fits (m : Move) : Prop := m.source < Word.limit ∧ m.dest < Word.limit ∧ m.scope.Fits

def Plan.Fits (p : Plan) : Prop := ∀ m ∈ p.moves, m.Fits

def Payload.Fits : Payload → Prop
  | keys list => ∀ k ∈ list, k.Fits
  | range ids => ids.Fits

def Request.Fits (r : Request) : Prop :=
  r.source < Word.limit ∧ r.dest < Word.limit ∧ r.payload.Fits

/-! ## Keys and ranges -/

theorem wordOfJson?_natural {n : Nat} (h : n < Word.limit) : wordOfJson? (.natural n) = some n := by
  simp [wordOfJson?, Json.natural?, Option.filter, h]

theorem lt_of_wordOfJson? {j : Json} {n : Nat} (h : wordOfJson? j = some n) : n < Word.limit :=
  of_decide_eq_true (Option.filter_eq_some_iff.mp h).2

theorem Key.form : Form toJson ofJson? Fits where
  readable k := by
    refine Json.readable_record (by simp) ?_
    simp [Json.readable_ofString, Json.readable_natural]
  read k hk := by
    have hfields : k.toJson.fields? ["table", "id"] = some [.ofString k.table, .natural k.id] :=
      Json.fields?_record (by simp)
    rw [ofJson?, hfields]
    simp [Json.string?_ofString, wordOfJson?_natural hk]
  fits j k h := by
    rw [ofJson?] at h
    split at h
    · obtain ⟨table, -, h⟩ := Option.bind_eq_some_iff.mp h
      obtain ⟨id, hid, h⟩ := Option.bind_eq_some_iff.mp h
      cases h
      exact lt_of_wordOfJson? hid
    · nomatch h

theorem IdRange.form : Form toJson ofJson? Fits where
  readable r := by
    refine Json.readable_record (by simp) ?_
    simp [Json.readable_natural]
  read r hr := by
    have hfields : r.toJson.fields? ["start", "end"] = some [.natural r.first, .natural r.last] :=
      Json.fields?_record (by simp)
    rw [ofJson?, hfields]
    simp [wordOfJson?_natural hr.1, wordOfJson?_natural hr.2]
  fits j r h := by
    rw [ofJson?] at h
    split at h
    · obtain ⟨first, hfirst, h⟩ := Option.bind_eq_some_iff.mp h
      obtain ⟨last, hlast, h⟩ := Option.bind_eq_some_iff.mp h
      cases h
      exact ⟨lt_of_wordOfJson? hfirst, lt_of_wordOfJson? hlast⟩
    · nomatch h

/-! ## Lists -/

section

variable {α : Type} {toJson : α → Json} {ofJson? : Json → Option α} {Fits : α → Prop}

theorem Form.readable_map (h : Form toJson ofJson? Fits) (as : List α) :
    (Json.array (as.map toJson)).Readable := by
  refine Json.readable_array fun j hj => ?_
  obtain ⟨a, -, rfl⟩ := List.mem_map.mp hj
  exact h.readable a

theorem Form.mapM_read (h : Form toJson ofJson? Fits) {as : List α} (has : ∀ a ∈ as, Fits a) :
    (as.map toJson).mapM ofJson? = some as := by
  rw [Json.mapM_eq_some_iff, List.map_map]
  exact List.map_congr_left fun a ha => h.read a (has a ha)

theorem Form.fits_mapM (h : Form toJson ofJson? Fits) {items : List Json} {as : List α}
    (has : items.mapM ofJson? = some as) : ∀ a ∈ as, Fits a := by
  intro a ha
  have hmem : some a ∈ items.map ofJson? := by
    rw [Json.mapM_eq_some_iff.mp has]
    exact List.mem_map_of_mem ha
  obtain ⟨j, -, hj⟩ := List.mem_map.mp hmem
  exact h.fits j a hj

end

theorem keysOfJson?_keysToJson {ks : List Key} (h : ∀ k ∈ ks, k.Fits) :
    keysOfJson? (keysToJson ks) = some ks := by
  rw [keysOfJson?, keysToJson]
  exact Key.form.mapM_read h

theorem keysOfJson?_eq_some {j : Json} {ks : List Key} (h : keysOfJson? j = some ks) :
    ∃ items, j = .array items ∧ items.mapM Key.ofJson? = some ks := by
  obtain ⟨items, hitems, h⟩ := Option.bind_eq_some_iff.mp h
  cases j with
  | array items' =>
    cases hitems
    exact ⟨_, rfl, h⟩
  | _ => nomatch hitems

/-! ## Scopes and payloads -/

theorem Scope.form : Form toJson ofJson? Fits where
  readable s := by
    cases s with
    | keys members =>
      refine Json.readable_record (by simp) ?_
      simpa [keysToJson] using Key.form.readable_map members.toList
    | range ids =>
      refine Json.readable_record (by simp) ?_
      simpa using IdRange.form.readable ids
  read s hs := by
    cases s with
    | keys members =>
      have hkeys : keysOfJson? (keysToJson members.toList) = some members.toList :=
        keysOfJson?_keysToJson fun k hk => hs k (Std.ExtTreeSet.mem_toList.mp hk)
      have hmembers : Std.ExtTreeSet.ofList members.toList = members :=
        Std.ExtTreeSet.ext_mem fun k => by simp
      rw [ofJson?, toJson, Json.variant?_record]
      simp [hkeys, hmembers]
    | range ids =>
      rw [ofJson?, toJson, Json.variant?_record]
      simp [IdRange.form.read ids hs]
  fits j s h := by
    rw [ofJson?] at h
    split at h
    · obtain ⟨ks, hks, rfl⟩ := Option.map_eq_some_iff.mp h
      obtain ⟨items, -, hitems⟩ := keysOfJson?_eq_some hks
      intro k hk
      exact Key.form.fits_mapM hitems k (by simpa using hk)
    · obtain ⟨ids, hids, rfl⟩ := Option.map_eq_some_iff.mp h
      exact IdRange.form.fits _ ids hids
    · nomatch h

theorem Payload.form : Form toJson ofJson? Fits where
  readable p := by
    cases p with
    | keys list =>
      refine Json.readable_record (by simp) ?_
      simpa [keysToJson] using Key.form.readable_map list
    | range ids =>
      refine Json.readable_record (by simp) ?_
      simpa using IdRange.form.readable ids
  read p hp := by
    cases p with
    | keys list =>
      rw [ofJson?, toJson, Json.variant?_record]
      simp [keysOfJson?_keysToJson hp]
    | range ids =>
      rw [ofJson?, toJson, Json.variant?_record]
      simp [IdRange.form.read ids hp]
  fits j p h := by
    rw [ofJson?] at h
    split at h
    · obtain ⟨ks, hks, rfl⟩ := Option.map_eq_some_iff.mp h
      obtain ⟨items, -, hitems⟩ := keysOfJson?_eq_some hks
      exact Key.form.fits_mapM hitems
    · obtain ⟨ids, hids, rfl⟩ := Option.map_eq_some_iff.mp h
      exact IdRange.form.fits _ ids hids
    · nomatch h

/-! ## Moves, plans and requests -/

theorem Move.form : Form toJson ofJson? Fits where
  readable m := by
    refine Json.readable_record (by simp) ?_
    simp [Json.readable_natural, Scope.form.readable]
  read m hm := by
    have hfields : m.toJson.fields? ["source", "dest", "scope"] =
        some [.natural m.source, .natural m.dest, m.scope.toJson] :=
      Json.fields?_record (by simp)
    obtain ⟨hsource, hdest, hscope⟩ := hm
    rw [ofJson?, hfields]
    simp [wordOfJson?_natural hsource, wordOfJson?_natural hdest, Scope.form.read _ hscope]
  fits j m h := by
    rw [ofJson?] at h
    split at h
    · obtain ⟨source, hsource, h⟩ := Option.bind_eq_some_iff.mp h
      obtain ⟨dest, hdest, h⟩ := Option.bind_eq_some_iff.mp h
      obtain ⟨scope, hscope, h⟩ := Option.bind_eq_some_iff.mp h
      cases h
      exact ⟨lt_of_wordOfJson? hsource, lt_of_wordOfJson? hdest, Scope.form.fits _ _ hscope⟩
    · nomatch h

theorem Plan.form : Form toJson ofJson? Fits where
  readable p := by
    refine Json.readable_record (by simp) ?_
    simpa using Move.form.readable_map p.moves
  read p hp := by
    have hfields : p.toJson.fields? ["units"] = some [.array (p.moves.map Move.toJson)] :=
      Json.fields?_record (by simp)
    rw [ofJson?, hfields]
    simp [Json.array?, Move.form.mapM_read hp]
  fits j p h := by
    rw [ofJson?] at h
    split at h
    · obtain ⟨items, -, h⟩ := Option.bind_eq_some_iff.mp h
      obtain ⟨moves, hmoves, h⟩ := Option.bind_eq_some_iff.mp h
      cases h
      exact Move.form.fits_mapM hmoves
    · nomatch h

theorem Request.form : Form toJson ofJson? Fits where
  readable r := by
    refine Json.readable_record (by simp) ?_
    simp [Json.readable_natural, Payload.form.readable]
  read r hr := by
    have hfields : r.toJson.fields? ["source", "dest", "payload"] =
        some [.natural r.source, .natural r.dest, r.payload.toJson] :=
      Json.fields?_record (by simp)
    obtain ⟨hsource, hdest, hpayload⟩ := hr
    rw [ofJson?, hfields]
    simp [wordOfJson?_natural hsource, wordOfJson?_natural hdest, Payload.form.read _ hpayload]
  fits j r h := by
    rw [ofJson?] at h
    split at h
    · obtain ⟨source, hsource, h⟩ := Option.bind_eq_some_iff.mp h
      obtain ⟨dest, hdest, h⟩ := Option.bind_eq_some_iff.mp h
      obtain ⟨payload, hpayload, h⟩ := Option.bind_eq_some_iff.mp h
      cases h
      exact ⟨lt_of_wordOfJson? hsource, lt_of_wordOfJson? hdest, Payload.form.fits _ _ hpayload⟩
    · nomatch h

/-! ## What is read -/

/-- A variant of JSON with the keys, which are read off its items one by one. -/
def ListsKeys (j : Json) (ks : List Key) : Prop :=
  ∃ items, j.variant? = some ("Keys", .array items) ∧ items.map Key.ofJson? = ks.map some

/-- A scope is read as the set of the keys that are listed. -/
theorem Scope.listsKeys {j : Json} {members : KeySet} (h : ofJson? j = some (.keys members)) :
    ∃ ks, ListsKeys j ks ∧ members = Std.ExtTreeSet.ofList ks := by
  rw [ofJson?] at h
  split at h
  · next value hvariant =>
    obtain ⟨ks, hks, heq⟩ := Option.map_eq_some_iff.mp h
    obtain ⟨items, rfl, hitems⟩ := keysOfJson?_eq_some hks
    cases heq
    exact ⟨ks, ⟨items, hvariant, Json.mapM_eq_some_iff.mp hitems⟩, rfl⟩
  · obtain ⟨ids, -, heq⟩ := Option.map_eq_some_iff.mp h
    nomatch heq
  · nomatch h

/-- A payload is read as the keys that are listed, in their order. -/
theorem Payload.listsKeys {j : Json} {ks : List Key} (h : ofJson? j = some (.keys ks)) :
    ListsKeys j ks := by
  rw [ofJson?] at h
  split at h
  · next value hvariant =>
    obtain ⟨ks', hks, heq⟩ := Option.map_eq_some_iff.mp h
    obtain ⟨items, rfl, hitems⟩ := keysOfJson?_eq_some hks
    cases heq
    exact ⟨items, hvariant, Json.mapM_eq_some_iff.mp hitems⟩
  · obtain ⟨ids, -, heq⟩ := Option.map_eq_some_iff.mp h
    nomatch heq
  · nomatch h

theorem Request.listsKeys {j : Json} {r : Request} {ks : List Key} (h : ofJson? j = some r)
    (hks : r.payload = .keys ks) :
    ∃ source dest payload, j.fields? ["source", "dest", "payload"] =
      some [source, dest, payload] ∧ ListsKeys payload ks := by
  rw [ofJson?] at h
  split at h
  · next source dest payload hfields =>
    obtain ⟨source', -, h⟩ := Option.bind_eq_some_iff.mp h
    obtain ⟨dest', -, h⟩ := Option.bind_eq_some_iff.mp h
    obtain ⟨payload', hpayload, h⟩ := Option.bind_eq_some_iff.mp h
    cases h
    subst hks
    exact ⟨source, dest, payload, hfields, Payload.listsKeys hpayload⟩
  · nomatch h

/-- All values whose numbers are 64-bit words are written and read again, and so is whatever was
read. The keys of a scope come out in order and without repeats, those of a request as they are
listed. -/
theorem exchange_roundTrips :
    RoundTrips Key.toJson Key.ofJson? Key.Fits ∧
    RoundTrips IdRange.toJson IdRange.ofJson? IdRange.Fits ∧
    RoundTrips Scope.toJson Scope.ofJson? Scope.Fits ∧
    RoundTrips Move.toJson Move.ofJson? Move.Fits ∧
    RoundTrips Plan.toJson Plan.ofJson? Plan.Fits ∧
    RoundTrips Request.toJson Request.ofJson? Request.Fits ∧
    (∀ j members, Scope.ofJson? j = some (.keys members) →
      ∃ ks, ListsKeys j ks ∧ (∀ k, k ∈ members.toList ↔ k ∈ ks) ∧
        members.toList.Pairwise (· < ·)) ∧
    ∀ j r ks, Request.ofJson? j = some r → r.payload = .keys ks →
      ∃ source dest payload, j.fields? ["source", "dest", "payload"] =
        some [source, dest, payload] ∧ ListsKeys payload ks := by
  refine ⟨Key.form.roundTrips, IdRange.form.roundTrips, Scope.form.roundTrips,
    Move.form.roundTrips, Plan.form.roundTrips, Request.form.roundTrips, ?_, ?_⟩
  · intro j members h
    obtain ⟨ks, hlists, rfl⟩ := Scope.listsKeys h
    exact ⟨ks, hlists, fun k => by simp, Std.ExtTreeSet.ordered_toList⟩
  · intro j r ks h hks
    exact Request.listsKeys h hks

/-- Names of all sorts, the largest numbers, a range of no ids and a list of no keys. -/
def oddPlan : Plan :=
  ⟨[.ofKeys 0 (Word.limit - 1) [⟨"a\"b\\c/\n\x01\x7fé表😀", Word.limit - 1⟩, ⟨"", 0⟩],
    .ofRange 3 3 ⟨9, 2⟩, .ofKeys 3 3 [], .ofRange 3 3 ⟨9, 2⟩]⟩

theorem exchange_roundTrips_oddPlan :
    oddPlan.Fits ∧ decode? Plan.ofJson? oddPlan.toJson.toText = some oddPlan := by
  have hrange : (Move.ofRange 3 3 ⟨9, 2⟩).Fits :=
    ⟨by decide, by decide, by decide, by decide⟩
  have hfits : oddPlan.Fits := by
    rw [Plan.Fits, oddPlan]
    simp only [List.forall_mem_cons]
    refine ⟨⟨by decide, by decide, fun k hk => ?_⟩, hrange,
      ⟨by decide, by decide, fun k hk => ?_⟩, hrange, List.forall_mem_nil _⟩
    · have hmem := List.contains_iff_mem.mp (Std.ExtTreeSet.mem_ofList.mp hk)
      rcases List.mem_pair.mp hmem with rfl | rfl <;> unfold Key.Fits <;> decide
    · have hmem := List.contains_iff_mem.mp (Std.ExtTreeSet.mem_ofList.mp hk)
      nomatch hmem
  obtain ⟨-, -, -, -, hplan, -⟩ := exchange_roundTrips
  exact ⟨hfits, hplan.of_fits oddPlan hfits⟩

end Reshard
