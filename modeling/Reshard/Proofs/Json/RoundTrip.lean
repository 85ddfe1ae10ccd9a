import Mathlib.Data.List.Basic
import Mathlib.Data.List.TakeDrop
import Reshard.Json.Reader

/-!
What is written as JSON text is read again. A value is readable if its text is read back whatever
stands behind it, as long as that does not go on with a number (`Json.Readable`). Naturals and
strings of characters are readable, and so are arrays and records of readable values, however they
are nested; the whole text of a readable value is read back (`Json.Readable.ofText?_toText`).
-/

namespace Reshard

namespace Json

/-- What stands behind a value in compact text: nothing, or the end or the next part of what the
value is in. -/
def Closes (rest : List Char) : Prop :=
  rest = [] ∨ ∃ c tail, rest = c :: tail ∧ (c = ',' ∨ c = ']' ∨ c = '}')

theorem closes_cons {c : Char} (tail : List Char) (h : c = ',' ∨ c = ']' ∨ c = '}') :
    Closes (c :: tail) :=
  .inr ⟨c, tail, rfl, h⟩

/-- The text of the value is read back. Each of its characters takes two nested calls at most. -/
structure Readable (j : Json) : Prop where
  starts : ∃ c tail, j.render = c :: tail ∧ isBlank c = false ∧ c ≠ ']'
  reads : ∀ (n : Nat) (rest : List Char), 2 * j.render.length ≤ n → Closes rest →
    readValue n (j.render ++ rest) = some (j, rest)

theorem skipBlanks_cons {c : Char} (h : isBlank c = false) (s : List Char) :
    skipBlanks (c :: s) = c :: s := by
  rw [skipBlanks, List.dropWhile_cons_of_neg (by simp [h])]

/-! ## Strings -/

theorem hexUnit_hexDigits {n : Nat} (h : n < 32) :
    ∃ a b c d, hexDigits n = [a, b, c, d] ∧ hexUnit a b c d = some n := by
  refine ⟨_, _, _, _, rfl, ?_⟩
  revert n
  decide

theorem pieceOfUnit_toNat {c : Char} (h : c.toNat < 32) : pieceOfUnit c.toNat = .char c := by
  have hhigh : isHighHalf c.toNat = false := by simp [isHighHalf]; omega
  have hlow : isLowHalf c.toNat = false := by simp [isLowHalf]; omega
  rw [pieceOfUnit, hhigh, hlow, Char.ofNat_toNat]
  rfl

theorem readPieces_short {e c : Char} (hunit : e ≠ 'u') (he : shortEscape e = some c)
    {s after : List Char} {pieces : List Piece} (h : readPieces s = some (pieces, after)) :
    readPieces ('\\' :: e :: s) = some (.char c :: pieces, after) := by
  simp [readPieces, hunit, he, h]

/-- An escaped character is read back. -/
theorem readPieces_escape (c : Char) {s after : List Char} {pieces : List Piece}
    (h : readPieces s = some (pieces, after)) :
    readPieces (escape c ++ s) = some (.char c :: pieces, after) := by
  unfold escape
  split
  · next hc =>
    subst hc
    exact readPieces_short (by decide) rfl h
  split
  · next hc =>
    subst hc
    exact readPieces_short (by decide) rfl h
  split
  · next hc =>
    subst hc
    exact readPieces_short (by decide) rfl h
  split
  · next hc =>
    subst hc
    exact readPieces_short (by decide) rfl h
  split
  · next hc =>
    subst hc
    exact readPieces_short (by decide) rfl h
  split
  · next hc =>
    subst hc
    exact readPieces_short (by decide) rfl h
  split
  · next hc =>
    subst hc
    exact readPieces_short (by decide) rfl h
  split
  · next hlow =>
    obtain ⟨a, b, d, e, hdigits, hunit⟩ := hexUnit_hexDigits hlow
    simp [hdigits, readPieces, hunit, h, pieceOfUnit_toNat hlow, consPiece]
  · next _ hslash _ _ _ _ _ hlow => simp [readPieces, h, hslash, hlow]

theorem readPieces_render (cs rest : List Char) :
    readPieces ((cs.map Piece.char).flatMap renderPiece ++ '"' :: rest) =
      some (cs.map Piece.char, rest) := by
  induction cs with
  | nil => rfl
  | cons c cs ih =>
    rw [List.map_cons, List.flatMap_cons, List.append_assoc]
    exact readPieces_escape c ih

theorem readable_ofString (s : String) : (ofString s).Readable where
  starts := ⟨'"', _, rfl, rfl, by decide⟩
  reads n rest hn _ := by
    obtain ⟨n, rfl⟩ : ∃ m, n = m + 1 :=
      ⟨n - 1, by simp [ofString, render, renderText] at hn; omega⟩
    have htext : (ofString s).render ++ rest =
        '"' :: ((s.toList.map Piece.char).flatMap renderPiece ++ '"' :: rest) := by
      simp [ofString, render, renderText, piecesOf]
    rw [htext, readValue, skipBlanks_cons rfl]
    simp [readPieces_render, ofString, piecesOf]

/-! ## Numbers -/

/-- No number but zero is written with a zero in front. -/
theorem eq_zero_of_head?_toDigits {n : Nat} (h : (Nat.toDigits 10 n).head? = some '0') :
    n = 0 := by
  induction n using Nat.strongRecOn with
  | ind n ih =>
    rcases Nat.lt_or_ge n 10 with hlt | hge
    · rw [Nat.toDigits_of_lt_base hlt, List.head?_cons, Option.some.injEq] at h
      have hdigit : ∀ d < 10, Nat.digitChar d = '0' → d = 0 := by decide
      exact hdigit n hlt h
    · rw [Nat.toDigits_of_base_le (by decide) hge,
        List.head?_append_of_ne_nil _ Nat.toDigits_ne_nil] at h
      have hzero := ih (n / 10) (by omega) h
      omega

theorem isDigit_toDigits {n : Nat} {c : Char} (h : c ∈ Nat.toDigits 10 n) : c.isDigit = true :=
  Nat.isDigit_of_mem_toDigits (by decide) (by decide) h

theorem natural_toDigits (n : Nat) : Digits.natural (Nat.toDigits 10 n) = n := by
  have hread : Nat.ofDigitChars 10 (Nat.toDigits 10 n) 0 = n :=
    Nat.ofDigitChars_toDigits (by decide) (by decide)
  rw [Nat.ofDigitChars_eq_foldl] at hread
  rw [Digits.natural_eq_foldl]
  refine Eq.trans ?_ hread
  congr
  funext sofar c
  exact Nat.add_comm _ _

theorem Closes.not_digit {rest : List Char} (h : Closes rest) :
    rest.takeWhile Char.isDigit = [] ∧ rest.dropWhile Char.isDigit = rest := by
  rcases h with rfl | ⟨c, tail, rfl, rfl | rfl | rfl⟩ <;> exact ⟨rfl, rfl⟩

theorem readDigits_toDigits (n : Nat) {rest : List Char} (h : Closes rest) :
    readDigits (Nat.toDigits 10 n ++ rest) = some (Nat.toDigits 10 n, rest) := by
  have hspan : (Nat.toDigits 10 n ++ rest).span Char.isDigit = (Nat.toDigits 10 n, rest) := by
    rw [List.span_eq_takeWhile_dropWhile,
      List.takeWhile_append_of_pos fun _ => isDigit_toDigits,
      List.dropWhile_append_of_pos fun _ => isDigit_toDigits, h.not_digit.1, h.not_digit.2,
      List.append_nil]
  rw [readDigits, hspan]
  simp [Nat.toDigits_ne_nil]

theorem readWhole_toDigits (n : Nat) {rest : List Char} (h : Closes rest) :
    readWhole (Nat.toDigits 10 n ++ rest) = some (Nat.toDigits 10 n, rest) := by
  have hzeros : ¬ ((Nat.toDigits 10 n).head? = some '0' ∧ (Nat.toDigits 10 n).length ≠ 1) := by
    rintro ⟨hhead, hlength⟩
    rw [eq_zero_of_head?_toDigits hhead] at hlength
    exact hlength rfl
  rw [readWhole, readDigits_toDigits n h]
  simp only [Option.bind_eq_bind, Option.bind_some, Bool.and_eq_true, decide_eq_true_eq,
    if_neg hzeros]

theorem Closes.no_fraction {rest : List Char} (h : Closes rest) :
    readFraction rest = some ([], rest) ∧ readExponent rest = some ([], rest) := by
  rcases h with rfl | ⟨c, tail, rfl, rfl | rfl | rfl⟩ <;> exact ⟨rfl, rfl⟩

/-- A number starts with a digit. -/
theorem exists_digit_toDigits (n : Nat) :
    ∃ c cs, Nat.toDigits 10 n = c :: cs ∧ c.isDigit = true := by
  obtain ⟨c, cs, hdigits⟩ := List.exists_cons_of_ne_nil (Nat.toDigits_ne_nil (n := n) (b := 10))
  exact ⟨c, cs, hdigits, isDigit_toDigits (n := n) (by rw [hdigits]; exact List.mem_cons_self)⟩

theorem readNumber_toDigits (n : Nat) {rest : List Char} (h : Closes rest) :
    readNumber (Nat.toDigits 10 n ++ rest) = some (natural n, rest) := by
  have hsign : ∀ tail, Nat.toDigits 10 n ++ rest ≠ '-' :: tail := by
    intro tail htail
    obtain ⟨c, cs, hdigits, hdigit⟩ := exists_digit_toDigits n
    rw [hdigits] at htail
    rw [(List.cons.inj htail).1] at hdigit
    nomatch hdigit
  unfold readNumber
  split
  next sign unsigned hunsigned =>
    split at hunsigned
    · next tail htail => exact absurd htail (hsign tail)
    · obtain ⟨rfl, rfl⟩ := Prod.mk.inj hunsigned
      simp [readWhole_toDigits n h, h.no_fraction.1, h.no_fraction.2, natural_toDigits]

theorem not_blank_of_digit {c : Char} (hc : c.isDigit = true) : isBlank c = false := by
  cases hblank : isBlank c with
  | false => rfl
  | true =>
    simp only [isBlank, Bool.or_eq_true, decide_eq_true_eq] at hblank
    rcases hblank with ((rfl | rfl) | rfl) | rfl <;> nomatch hc

theorem readValue_of_digit {c : Char} (hc : c.isDigit = true) (n : Nat) (s : List Char) :
    readValue (n + 1) (c :: s) = readNumber (c :: s) := by
  rw [readValue, skipBlanks_cons (not_blank_of_digit hc)]
  split <;> first | rfl | (next heq => cases heq; nomatch hc)

theorem readable_natural (n : Nat) : (natural n).Readable := by
  obtain ⟨c, cs, hdigits, hdigit⟩ := exists_digit_toDigits n
  have hrender : (natural n).render = c :: cs := by rw [render, hdigits]
  refine ⟨⟨c, cs, hrender, not_blank_of_digit hdigit, fun hc => ?_⟩,
    fun m rest hm hrest => ?_⟩
  · rw [hc] at hdigit
    nomatch hdigit
  · obtain ⟨m, rfl⟩ : ∃ k, m = k + 1 :=
      ⟨m - 1, by rw [hrender, List.length_cons] at hm; omega⟩
    rw [hrender, List.cons_append, readValue_of_digit hdigit, ← List.cons_append, ← hdigits]
    exact readNumber_toDigits n hrest

/-! ## Arrays -/

theorem renderItems_singleton (item : Json) : renderItems [item] = item.render ++ [']'] := by
  rw [renderItems]

theorem renderItems_cons (item next : Json) (rest : List Json) :
    renderItems (item :: next :: rest) = item.render ++ ',' :: renderItems (next :: rest) := by
  rw [renderItems]
  exact List.cons_ne_nil _ _

theorem readItems_render {items : List Json} (hnil : items ≠ []) (h : ∀ j ∈ items, j.Readable)
    (n : Nat) (rest : List Char) (hn : 2 * (renderItems items).length ≤ n) :
    readItems n (renderItems items ++ rest) = some (items, rest) := by
  induction items generalizing n with
  | nil => exact absurd rfl hnil
  | cons item more ih =>
    obtain ⟨hitem, hmore⟩ := List.forall_mem_cons.mp h
    cases more with
    | nil =>
      rw [renderItems_singleton, List.length_append, List.length_singleton] at hn
      obtain ⟨n, rfl⟩ : ∃ m, n = m + 1 := ⟨n - 1, by omega⟩
      have hread := hitem.reads n (']' :: rest) (by omega) (closes_cons rest (by simp))
      rw [renderItems_singleton, List.append_assoc, List.singleton_append, readItems, hread]
      simp [skipBlanks_cons (c := ']') rfl]
    | cons next more =>
      rw [renderItems_cons, List.length_append, List.length_cons] at hn
      obtain ⟨n, rfl⟩ : ∃ m, n = m + 1 := ⟨n - 1, by omega⟩
      have hread := hitem.reads n (',' :: (renderItems (next :: more) ++ rest)) (by omega)
        (closes_cons _ (by simp))
      have hrest := ih (List.cons_ne_nil _ _) hmore n (by omega)
      rw [renderItems_cons, List.append_assoc, List.cons_append, readItems, hread]
      simp [skipBlanks_cons (c := ',') rfl, hrest]

theorem readValue_array {c : Char} (hblank : isBlank c = false) (hclose : c ≠ ']') (n : Nat)
    (s : List Char) :
    readValue (n + 1) ('[' :: c :: s) =
      (readItems n (c :: s)).map fun r => (array r.1, r.2) := by
  rw [readValue, skipBlanks_cons rfl]
  simp only [skipBlanks_cons hblank]
  split
  · next heq => exact absurd (List.cons.inj heq).1 hclose
  · rw [Option.map_eq_bind]
    rfl

theorem readable_array {items : List Json} (h : ∀ j ∈ items, j.Readable) :
    (array items).Readable where
  starts := ⟨'[', renderItems items, by rw [render], rfl, by decide⟩
  reads n rest hn _ := by
    rw [render, List.length_cons] at hn
    obtain ⟨n, rfl⟩ : ∃ m, n = m + 1 := ⟨n - 1, by omega⟩
    rw [render, List.cons_append]
    cases items with
    | nil =>
      simp [renderItems, readValue, skipBlanks_cons (c := '[') rfl, skipBlanks_cons (c := ']') rfl]
    | cons item more =>
      have hread := readItems_render (List.cons_ne_nil item more) h n rest (by omega)
      obtain ⟨c, tail, hrender, hblank, hclose⟩ := (h item List.mem_cons_self).starts
      obtain ⟨tail', htail⟩ : ∃ tail', renderItems (item :: more) ++ rest = c :: tail' := by
        cases more with
        | nil => exact ⟨_, by rw [renderItems_singleton, hrender]; rfl⟩
        | cons next more => exact ⟨_, by rw [renderItems_cons, hrender]; rfl⟩
      rw [htail] at hread
      rw [htail, readValue_array hblank hclose, hread]
      rfl

/-! ## Records -/

theorem renderMembers_cons (name : List Piece) (value : Json) (next : List Piece × Json)
    (rest : List (List Piece × Json)) :
    renderMembers ((name, value) :: next :: rest) =
      renderText name ++ ':' :: value.render ++ ',' :: renderMembers (next :: rest) := by
  rw [renderMembers]
  exact List.cons_ne_nil _ _

/-- The name of a member is read, and then its value. -/
theorem readMembers_member {n : Nat} {name : String} {value : Json} {rest : List Char}
    (hvalue : readValue n (value.render ++ rest) = some (value, rest)) :
    readMembers (n + 1) (renderText (piecesOf name) ++ (':' :: value.render ++ rest)) =
      match skipBlanks rest with
      | '}' :: after => some ([(piecesOf name, value)], after)
      | ',' :: more => (readMembers n more).map fun r => ((piecesOf name, value) :: r.1, r.2)
      | _ => none := by
  have htext : renderText (piecesOf name) ++ (':' :: value.render ++ rest) =
      '"' :: ((name.toList.map Piece.char).flatMap renderPiece ++
        '"' :: ':' :: (value.render ++ rest)) := by
    simp [renderText, piecesOf]
  rw [htext, readMembers, skipBlanks_cons rfl]
  simp only [readPieces_render, Option.bind_eq_bind, Option.bind_some,
    skipBlanks_cons (c := ':') rfl, hvalue, Option.map_eq_bind]
  rfl

/-- The members of a record of these fields. -/
def membersOf (fields : List (String × Json)) : List (List Piece × Json) :=
  fields.map fun f => (piecesOf f.1, f.2)

theorem readMembers_render {fields : List (String × Json)} (hnil : fields ≠ [])
    (h : ∀ f ∈ fields, f.2.Readable) (n : Nat) (rest : List Char)
    (hn : 2 * (renderMembers (membersOf fields)).length ≤ n) :
    readMembers n (renderMembers (membersOf fields) ++ rest) = some (membersOf fields, rest) := by
  induction fields generalizing n with
  | nil => exact absurd rfl hnil
  | cons field more ih =>
    obtain ⟨hfield, hmore⟩ := List.forall_mem_cons.mp h
    cases more with
    | nil =>
      have hrender : renderMembers (membersOf [field]) ++ rest =
          renderText (piecesOf field.1) ++ (':' :: field.2.render ++ '}' :: rest) := by
        simp [membersOf, renderMembers]
      have hlength : field.2.render.length < (renderMembers (membersOf [field])).length := by
        simp [membersOf, renderMembers]
        omega
      obtain ⟨n, rfl⟩ : ∃ m, n = m + 1 := ⟨n - 1, by omega⟩
      have hread := hfield.reads n ('}' :: rest) (by omega) (closes_cons rest (by simp))
      rw [hrender, readMembers_member hread, skipBlanks_cons rfl]
      rfl
    | cons next more =>
      have hrender : renderMembers (membersOf (field :: next :: more)) ++ rest =
          renderText (piecesOf field.1) ++ (':' :: field.2.render ++
            ',' :: (renderMembers (membersOf (next :: more)) ++ rest)) := by
        simp [membersOf, renderMembers_cons]
      have hlength : field.2.render.length + (renderMembers (membersOf (next :: more))).length <
          (renderMembers (membersOf (field :: next :: more))).length := by
        simp [membersOf, renderMembers_cons]
        omega
      obtain ⟨n, rfl⟩ : ∃ m, n = m + 1 := ⟨n - 1, by omega⟩
      have hread := hfield.reads n (',' :: (renderMembers (membersOf (next :: more)) ++ rest))
        (by omega) (closes_cons _ (by simp))
      have hrest := ih (List.cons_ne_nil _ _) hmore n (by omega)
      rw [hrender, readMembers_member hread, skipBlanks_cons rfl]
      simp only [hrest]
      rfl

theorem readable_record {fields : List (String × Json)} (hnil : fields ≠ [])
    (h : ∀ f ∈ fields, f.2.Readable) : (record fields).Readable where
  starts := ⟨'{', renderMembers (membersOf fields), by rw [record, render]; rfl, rfl, by decide⟩
  reads n rest hn _ := by
    have hrender : (record fields).render = '{' :: renderMembers (membersOf fields) := by
      rw [record, render]
      rfl
    rw [hrender, List.length_cons] at hn
    obtain ⟨n, rfl⟩ : ∃ m, n = m + 1 := ⟨n - 1, by omega⟩
    have hread := readMembers_render hnil h n rest (by omega)
    obtain ⟨tail, htail⟩ : ∃ tail,
        renderMembers (membersOf fields) ++ rest = '"' :: tail := by
      obtain ⟨field, more, rfl⟩ := List.exists_cons_of_ne_nil hnil
      cases more with
      | nil => exact ⟨_, by simp [membersOf, renderMembers, renderText]; rfl⟩
      | cons next more => exact ⟨_, by simp [membersOf, renderMembers_cons, renderText]; rfl⟩
    rw [htail] at hread
    rw [hrender, List.cons_append, htail, readValue, skipBlanks_cons rfl]
    simp only [skipBlanks_cons (c := '"') rfl]
    simp [hread, record, membersOf]

/-! ## Whole texts -/

theorem Readable.read_render {j : Json} (h : j.Readable) : read j.render = some j := by
  have hread := h.reads (2 * j.render.length + 2) [] (by omega) (.inl rfl)
  rw [List.append_nil] at hread
  rw [read, hread]
  rfl

/-- What is written as text is read again. -/
theorem Readable.ofText?_toText {j : Json} (h : j.Readable) : ofText? j.toText = some j := by
  rw [ofText?, toText, String.toList_ofList]
  exact h.read_render

/-! ## Fields -/

theorem charsOf_piecesOf (s : String) : charsOf (piecesOf s) = some s.toList := by
  rw [piecesOf]
  induction s.toList with
  | nil => rfl
  | cons c cs ih => rw [List.map_cons, charsOf, ih, Option.map_some]

theorem string?_ofString (s : String) : (ofString s).string? = some s := by
  rw [ofString, string?, charsOf_piecesOf, Option.map_some, String.ofList_toList]

theorem variant?_record (name : String) (value : Json) :
    (record [(name, value)]).variant? = some (name, value) := by
  simp [record, variant?, charsOf_piecesOf]

/-- All elements are read, one by one. -/
theorem mapM_eq_some_iff {α β : Type} {f : α → Option β} {l : List α} {r : List β} :
    l.mapM f = some r ↔ l.map f = r.map some := by
  induction l generalizing r with
  | nil => cases r <;> simp
  | cons a rest ih =>
    rw [List.mapM_cons, List.map_cons]
    constructor
    · intro h
      obtain ⟨b, hb, h⟩ := Option.bind_eq_some_iff.mp h
      obtain ⟨r', hr', h⟩ := Option.bind_eq_some_iff.mp h
      cases h
      rw [hb, ih.mp hr', List.map_cons]
    · intro h
      cases r with
      | nil => nomatch h
      | cons b r =>
        obtain ⟨hb, hr⟩ := List.cons.inj h
        rw [hb, ih.mpr hr]
        rfl

theorem mapM_map {α β γ : Type} {f : β → Option γ} {write : α → β} {read : α → γ}
    {l : List α} (h : ∀ a ∈ l, f (write a) = some (read a)) :
    (l.map write).mapM f = some (l.map read) := by
  rw [mapM_eq_some_iff, List.map_map, List.map_map]
  exact List.map_congr_left h

theorem filter_name {fields : List (String × Json)} (hnodup : (fields.map Prod.fst).Nodup)
    {f : String × Json} (hf : f ∈ fields) : fields.filter (fun g => g.1 = f.1) = [f] := by
  induction fields with
  | nil => nomatch hf
  | cons g rest ih =>
    obtain ⟨hg, hrest⟩ := List.nodup_cons.mp hnodup
    rcases List.mem_cons.mp hf with rfl | hf
    · rw [List.filter_cons_of_pos (by simp), List.filter_eq_nil_iff.mpr]
      intro g' hg' heq
      exact hg (List.mem_map.mpr ⟨g', hg', of_decide_eq_true heq⟩)
    · have hne : g.1 ≠ f.1 := fun heq => hg (heq ▸ List.mem_map_of_mem hf)
      rw [List.filter_cons_of_neg (by simpa using hne), ih hrest hf]

/-- A record has the fields that it is made of. -/
theorem fields?_record {fields : List (String × Json)} (h : (fields.map Prod.fst).Nodup) :
    (record fields).fields? (fields.map Prod.fst) = some (fields.map Prod.snd) := by
  have hnames : ((membersOf fields).all fun m => (charsOf m.1).isSome) = true := by
    simp [membersOf, charsOf_piecesOf]
  have hfilter : ∀ f ∈ fields, (membersOf fields).filter
      (fun m => charsOf m.1 = some f.1.toList) = [(piecesOf f.1, f.2)] := by
    intro f hf
    have hname : ∀ g : String × Json,
        decide (charsOf (piecesOf g.1) = some f.1.toList) = decide (g.1 = f.1) := by
      simp [charsOf_piecesOf, String.toList_inj]
    rw [membersOf, List.filter_map]
    simp only [Function.comp_def, hname, filter_name h hf, List.map_singleton]
  rw [record, ← membersOf, Json.fields?, if_pos hnames]
  refine mapM_map fun f hf => ?_
  rw [hfilter f hf]

end Json

end Reshard
