import MessageLayout.Proofs.BuiltElements
import MessageLayout.Proofs.CodePlace
import MessageLayout.Proofs.CollapsedSpace
import MessageLayout.Proofs.LinkTags
import MessageLayout.Proofs.LiteralText

/-!
# Dates in a fragment

A date of plain texts is written as a `time` element whose attributes hold the instant and the text
to fall back on; the reader finds both as they were given. The guards of the styles around it change
the format and no attribute. In a format whose underscores all stand in the names of its tokens, the
guard of emphasised text replaces every underscore.

    DateFormat s → substituteUnderscores s = substitute '_' 'ˍ' s         (substituteUnderscores_eq)
    the written date is read as a time element with instant, fallback and format
                                                                           (parse_encloseAll)
-/

namespace MessageLayout

open Text (escapeEntity escapeAttr scanName?)

/-! ## Escaped formats -/

namespace Text

theorem takeWhile_escapeEntity {p : Char → Bool} (hp : ∀ c ∈ reserved, p c = false)
    (s : List Char) : (escapeEntity s).takeWhile p = s.takeWhile p := by
  induction s with
  | nil => rfl
  | cons c s ih =>
    rw [escapeEntity_cons]
    by_cases hc : c ∈ reserved
    · obtain ⟨w, hw, -⟩ := Markup.exists_entity hc
      rw [hw, List.takeWhile_cons_of_neg (by simp [hp c hc]), List.cons_append,
        List.takeWhile_cons_of_neg (by simp [hp '&' (by decide)])]
    · simp only [reserved, List.mem_cons, List.not_mem_nil, or_false, not_or] at hc
      rw [entity_of_ne hc.1 hc.2.1 hc.2.2, List.singleton_append, List.takeWhile_cons,
        List.takeWhile_cons, ih]

theorem drop_takeWhile_escapeEntity {p : Char → Bool} (hp : ∀ c ∈ reserved, p c = false)
    (s : List Char) : (escapeEntity s).dropWhile p = escapeEntity (s.dropWhile p) := by
  induction s with
  | nil => rfl
  | cons c s ih =>
    rw [escapeEntity_cons]
    by_cases hc : c ∈ reserved
    · obtain ⟨w, hw, -⟩ := Markup.exists_entity hc
      rw [List.dropWhile_cons_of_neg (by simp [hp c hc]), escapeEntity_cons, hw, List.cons_append,
        List.dropWhile_cons_of_neg (by simp [hp '&' (by decide)])]
    · have hne := hc
      simp only [reserved, List.mem_cons, List.not_mem_nil, or_false, not_or] at hne
      rw [entity_of_ne hne.1 hne.2.1 hne.2.2, List.singleton_append, List.dropWhile_cons,
        List.dropWhile_cons, ih]
      split
      · rfl
      · rw [escapeEntity_cons, entity_of_ne hne.1 hne.2.1 hne.2.2, List.singleton_append]

theorem forall_of_scanName? {p : Char → Bool} {close : Char} {s name rest : List Char}
    (h : scanName? p close s = some (name, rest)) : ∀ c ∈ name, p c = true := by
  have hname : name = s.takeWhile p := by
    simp only [scanName?] at h
    split at h
    · split at h
      · exact (congrArg Prod.fst (Option.some.inj h)).symm
      · cases h
    · cases h
  exact fun c hc => List.all_eq_true.mp List.all_takeWhile c (hname ▸ hc)

/-- Names are scanned in escaped text as in the text itself. -/
theorem scanName?_escapeEntity {p : Char → Bool} (hp : ∀ c ∈ reserved, p c = false) {close : Char}
    (hclose : close ∉ reserved) (s : List Char) :
    scanName? p close (escapeEntity s)
      = (scanName? p close s).map fun r => (r.1, escapeEntity r.2) := by
  simp only [scanName?, takeWhile_escapeEntity hp, drop_takeWhile_escapeEntity hp]
  cases s.dropWhile p with
  | nil => rfl
  | cons c rest =>
    rw [escapeEntity_cons]
    by_cases hc : c ∈ reserved
    · obtain ⟨w, hw, -⟩ := Markup.exists_entity hc
      have h₁ : '&' ≠ close := fun e => hclose (e ▸ by decide)
      have h₂ : c ≠ close := fun e => hclose (e ▸ hc)
      simp [hw, h₁, h₂]
    · simp only [reserved, List.mem_cons, List.not_mem_nil, or_false, not_or] at hc
      rw [entity_of_ne hc.1 hc.2.1 hc.2.2, List.singleton_append]
      simp only
      split <;> rfl

end Text

namespace Calendar

/-- The characters of the texts that tokens stand for: digits, and those of names and marks. -/
def isDateChar (c : Char) : Bool :=
  c.isDigit || c.isLower || "ADFJMNOPSTW ,:/+-".toList.contains c

section Expansion

variable {p : Char → Bool} (hp : ∀ c : Char, c.isDigit = true → p c = true)

include hp in
theorem all_ofNat (n : Nat) : (Text.ofNat n).all p = true :=
  List.all_eq_true.mpr fun c hc => hp c (Nat.isDigit_of_mem_toDigits (by decide) (by decide) hc)

include hp in
theorem all_padded (width n : Nat) : (Text.padded width n).all p = true := by
  simp [Text.padded, List.leftpad, all_ofNat hp, hp '0' (by decide)]

end Expansion

theorem isDateChar_of_isDigit (c : Char) (h : c.isDigit = true) : isDateChar c = true := by
  simp [isDateChar, h]

@[simp] theorem all_isDateChar_ofNat (n : Nat) : (Text.ofNat n).all isDateChar = true :=
  all_ofNat isDateChar_of_isDigit n

@[simp] theorem all_isDateChar_padded (width n : Nat) :
    (Text.padded width n).all isDateChar = true :=
  all_padded isDateChar_of_isDigit width n

@[simp] theorem all_isDateChar_ofInt (n : Int) : (Text.ofInt n).all isDateChar = true := by
  cases n with
  | ofNat n => exact all_isDateChar_ofNat n
  | negSucc n =>
    rw [Text.ofInt, List.all_cons, all_isDateChar_ofNat]
    decide

@[simp] theorem all_isDateChar_yearText (year : Int) : (yearText year).all isDateChar = true := by
  have hsign : isDateChar '-' = true ∧ isDateChar '+' = true := by decide
  simp only [yearText]
  split
  · simp [hsign]
  · split <;> simp [hsign]

theorem all_isDateChar_getD {names : List String}
    (h : (names.all fun n => n.toList.all isDateChar) = true) (i : Nat) :
    (names.getD i "").toList.all isDateChar = true := by
  rw [List.getD_eq_getElem?_getD]
  cases hi : names[i]? with
  | none => rfl
  | some n => exact List.all_eq_true.mp h n (List.mem_of_getElem? hi)

@[simp] theorem all_isDateChar_monthName (month : Nat) :
    (monthName month).all isDateChar = true :=
  all_isDateChar_getD (by decide) _

@[simp] theorem all_isDateChar_weekdayName (weekday : Nat) :
    (weekdayName weekday).all isDateChar = true :=
  all_isDateChar_getD (by decide) _

@[simp] theorem all_isDateChar_ordinal (day : Nat) : (ordinal day).all isDateChar = true := by
  have hsuffix : ∀ s ∈ ["th", "st", "nd", "rd"], s.toList.all isDateChar = true := by decide
  simp only [ordinal, List.all_append, all_isDateChar_ofNat, Bool.true_and]
  split
  · exact hsuffix _ (by simp)
  · split <;> exact hsuffix _ (by simp)

theorem all_isDateChar_clock (i : Instant) (withSeconds : Bool) :
    (clock i withSeconds).all isDateChar = true := by
  have hmarks : isDateChar ':' = true ∧ " PM".toList.all isDateChar = true
      ∧ " AM".toList.all isDateChar = true := by decide
  simp only [clock, List.all_append, List.all_cons, all_isDateChar_ofNat, all_isDateChar_padded,
    hmarks.1, Bool.and_true, Bool.true_and]
  refine (Bool.and_eq_true _ _).mpr ⟨?_, ?_⟩
  · cases withSeconds <;> simp [hmarks.1]
  · split
    · exact hmarks.2.1
    · exact hmarks.2.2

theorem all_isDateChar_longDate (d : Date) : (longDate d).all isDateChar = true := by
  have hmarks : isDateChar ' ' = true ∧ ", ".toList.all isDateChar = true := by decide
  simp only [longDate, List.all_append, List.all_cons, all_isDateChar_monthName,
    all_isDateChar_ordinal, all_isDateChar_ofInt, hmarks.1, hmarks.2, Bool.and_true]

/-- A token stands for a text of letters, digits and a few marks. -/
theorem all_isDateChar_expandToken? {i : Instant} {name : String} {s : List Char}
    (h : expandToken? i name = some s) : s.all isDateChar = true := by
  have hmarks : isDateChar ' ' = true ∧ isDateChar '-' = true ∧ isDateChar '/' = true
      ∧ ", ".toList.all isDateChar = true := by decide
  have hshort : ((monthName i.date.month).take 3).all isDateChar = true :=
    List.all_eq_true.mpr fun c hc =>
      List.all_eq_true.mp (all_isDateChar_monthName _) c (List.mem_of_mem_take hc)
  simp only [expandToken?] at h
  split at h
  case h_11 => cases h
  all_goals cases h
  case h_9 => exact all_isDateChar_clock i false
  case h_10 => exact all_isDateChar_clock i true
  all_goals simp only [List.all_append, List.all_cons, all_isDateChar_yearText,
    all_isDateChar_padded, all_isDateChar_ofNat, all_isDateChar_weekdayName,
    all_isDateChar_longDate, hshort, hmarks, Bool.and_true]

@[simp] theorem fallback_nil (i : Instant) : fallback i [] = [] := by
  rw [fallback]

theorem fallback_token (i : Instant) {s name rest : List Char}
    (h : scanName? isTokenChar '}' s = some (name, rest)) :
    fallback i ('{' :: s)
      = (expandToken? i (String.ofList name)).getD ('{' :: name ++ ['}']) ++ fallback i rest := by
  rw [fallback, if_pos rfl]
  split <;> simp_all

theorem fallback_cons (i : Instant) {c : Char} {s : List Char}
    (h : c = '{' → scanName? isTokenChar '}' s = none) :
    fallback i (c :: s) = c :: fallback i s := by
  rw [fallback]
  split
  next hc =>
    split
    · simp_all
    · rfl
  · rfl

/-- What a token or the name of none stands for needs no escape. -/
theorem escapeEntity_expansion {i : Instant} {s name rest : List Char}
    (h : scanName? isTokenChar '}' s = some (name, rest)) :
    escapeEntity ((expandToken? i (String.ofList name)).getD ('{' :: name ++ ['}']))
      = (expandToken? i (String.ofList name)).getD ('{' :: name ++ ['}']) := by
  have hreserved : ∀ c ∈ Text.reserved, isDateChar c = false ∧ isTokenChar c = false ∧
      c ≠ '{' ∧ c ≠ '}' := Text.forall_mem_of_all (by decide)
  refine Text.escapeEntity_eq_self_iff.mpr fun c hc hm => ?_
  obtain ⟨hdate, htoken, hopen, hclose⟩ := hreserved c hm
  cases hx : expandToken? i (String.ofList name) with
  | none =>
    rw [hx] at hc
    simp only [Option.getD_none, List.cons_append, List.mem_cons, List.mem_append,
      List.not_mem_nil, or_false] at hc
    rcases hc with rfl | hc | rfl
    · exact hopen rfl
    · exact absurd (Text.forall_of_scanName? h c hc) (by simp [htoken])
    · exact hclose rfl
  | some x =>
    rw [hx] at hc
    exact absurd (List.all_eq_true.mp (all_isDateChar_expandToken? hx) c hc) (by simp [hdate])

theorem fallback_append {w : List Char} (hw : '{' ∉ w) (i : Instant) (s : List Char) :
    fallback i (w ++ s) = w ++ fallback i s := by
  induction w with
  | nil => rfl
  | cons c w ih =>
    simp only [List.mem_cons, not_or] at hw
    rw [List.cons_append, fallback_cons i (fun e => absurd e.symm hw.1), ih hw.2, List.cons_append]

/-- Tokens are expanded in escaped text as in the text itself. -/
theorem fallback_escapeEntity (i : Instant) (s : List Char) :
    fallback i (escapeEntity s) = escapeEntity (fallback i s) := by
  have hbrace : Text.entity '{' = ['{'] := rfl
  have hscan : ∀ t, scanName? isTokenChar '}' (escapeEntity t) = _ :=
    Text.scanName?_escapeEntity (Text.forall_mem_of_all (by decide)) (by decide)
  fun_induction fallback i s with
  | case1 => simp
  | case2 t name rest h _ ih =>
    have h' : scanName? isTokenChar '}' (escapeEntity t) = some (name, escapeEntity rest) := by
      rw [hscan, h]
      rfl
    rw [Text.escapeEntity_cons, hbrace, List.singleton_append, fallback_token i h',
      Text.escapeEntity_append, ih, escapeEntity_expansion h]
  | case3 t h ih =>
    have h' : scanName? isTokenChar '}' (escapeEntity t) = none := by
      rw [hscan, h]
      rfl
    rw [Text.escapeEntity_cons, hbrace, List.singleton_append, fallback_cons i fun _ => h', ih,
      Text.escapeEntity_cons, hbrace, List.singleton_append]
  | case4 c t hc ih =>
    have hentity : '{' ∉ Text.entity c :=
      fun hm => hc ((Text.mem_entity (by decide)).mp hm).symm
    rw [Text.escapeEntity_cons, Text.escapeEntity_cons, fallback_append hentity, ih]

/-- Expansion brings in no character but those of dates. -/
theorem mem_of_mem_fallback {i : Instant} {s : List Char} {c : Char} (h : c ∈ fallback i s) :
    c ∈ s ∨ isDateChar c = true := by
  fun_induction fallback i s with
  | case1 => exact .inl h
  | case2 t name rest hs _ ih =>
    have ht := Text.eq_append_of_scanName? hs
    rcases List.mem_append.mp h with h | h
    · cases hx : expandToken? i (String.ofList name) with
      | none =>
        refine .inl ?_
        rw [hx] at h
        simp only [Option.getD_none, List.cons_append, List.mem_cons, List.mem_append,
          List.not_mem_nil, or_false] at h
        rw [ht]
        simp only [List.mem_cons, List.mem_append]
        tauto
      | some x =>
        rw [hx] at h
        exact .inr (List.all_eq_true.mp (all_isDateChar_expandToken? hx) c h)
    · refine (ih h).imp_left fun h => ?_
      rw [ht]
      simp [h]
  | case3 t hs ih =>
    rcases List.mem_cons.mp h with rfl | h
    · exact .inl List.mem_cons_self
    · exact (ih h).imp_left (List.mem_cons_of_mem _)
  | case4 x t hx ih =>
    rcases List.mem_cons.mp h with rfl | h
    · exact .inl List.mem_cons_self
    · exact (ih h).imp_left (List.mem_cons_of_mem _)

end Calendar

namespace Markup

/-! ## Replaced characters -/

theorem mem_of_mem_substitute {c d x : Char} {s : List Char} (h : x ∈ substitute c d s) :
    x = d ∨ x ∈ s := by
  obtain ⟨y, hy, he⟩ := List.mem_map.mp h
  split at he
  · exact .inl he.symm
  · exact .inr (he ▸ hy)

theorem exists_mem_substitute {p : Char → Prop} {c d : Char} (hd : p d) {s : List Char}
    (h : ∃ x ∈ s, p x) : ∃ x ∈ substitute c d s, p x := by
  obtain ⟨x, hx, hp⟩ := h
  refine ⟨if x = c then d else x, List.mem_map_of_mem hx, ?_⟩
  split
  · exact hd
  · exact hp

theorem not_mem_substitute {c d : Char} (hne : c ≠ d) (s : List Char) : c ∉ substitute c d s := by
  intro h
  obtain ⟨x, -, he⟩ := List.mem_map.mp h
  split at he
  next hx => exact hne he.symm
  next hx => exact hx he

theorem mem_substitute_of_ne {c d x : Char} (hc : x ≠ c) (hd : x ≠ d) {s : List Char} :
    x ∈ substitute c d s ↔ x ∈ s := by
  refine ⟨fun h => (mem_of_mem_substitute h).resolve_left hd, fun h => ?_⟩
  exact List.mem_map.mpr ⟨x, h, if_neg hc⟩

theorem substitute_escapeEntity {c d : Char} (hc : c ∉ "&ampltg;<>".toList) (hd : d ∉ Text.reserved)
    (s : List Char) : substitute c d (escapeEntity s) = escapeEntity (substitute c d s) := by
  have hentity : ∀ x, substitute c d (Text.entity x) = Text.entity (if x = c then d else x) := by
    intro x
    by_cases hx : x = c
    · have hcr : c ∉ Text.reserved := fun hm => hc (by
        simp only [Text.reserved, List.mem_cons, List.not_mem_nil, or_false] at hm
        rcases hm with rfl | rfl | rfl <;> decide)
      have hplain : ∀ y, y ∉ Text.reserved → Text.entity y = [y] := by
        intro y hy
        simp only [Text.reserved, List.mem_cons, List.not_mem_nil, or_false, not_or] at hy
        exact Text.entity_of_ne hy.1 hy.2.1 hy.2.2
      rw [hx, if_pos rfl, hplain c hcr, hplain d hd]
      simp [substitute]
    · rw [if_neg hx, substitute_of_not_mem d fun hm => hx ((Text.mem_entity hc).mp hm).symm]
  induction s with
  | nil => rfl
  | cons x s ih =>
    have happend : ∀ u v, substitute c d (u ++ v) = substitute c d u ++ substitute c d v :=
      fun u v => List.map_append
    rw [Text.escapeEntity_cons, happend, hentity, ih]
    rfl

theorem substituteBars_eq (s : List Char) : substituteBars s = substitute '|' barSubstitute s := rfl

theorem substituteBars_escapeEntity (s : List Char) :
    substituteBars (escapeEntity s) = escapeEntity (substituteBars s) :=
  substitute_escapeEntity (by decide) (by decide) s

theorem escapeQuotes_escapeEntity (s : List Char) : escapeQuotes (escapeEntity s) = escapeAttr s := by
  have hentity : ∀ c, escapeQuotes (Text.entity c)
      = if c = '"' then "&quot;".toList else Text.entity c := by
    intro c
    by_cases hc : c = '"'
    · rw [hc]
      rfl
    · have hne : ∀ x ∈ Text.entity c, (if x = '"' then "&quot;".toList else [x]) = [x] := by
        intro x hx
        refine if_neg ?_
        rintro rfl
        exact hc ((Text.mem_entity (by decide)).mp hx).symm
      rw [if_neg hc, escapeQuotes, List.flatMap_congr hne]
      simp
  induction s with
  | nil => rfl
  | cons c s ih =>
    have happend : ∀ u v, escapeQuotes (u ++ v) = escapeQuotes u ++ escapeQuotes v :=
      fun u v => List.flatMap_append
    rw [Text.escapeEntity_cons, happend, hentity, ih]
    rfl

/-- The text that a date falls back on: the given one, or else the format with its tokens
expanded. -/
def fallbackText (attrs : Attributes) (i : Calendar.Instant) (format : List Char) : List Char :=
  match attrText? attrs "fallback" with
  | some given => substituteBars given
  | none => Calendar.fallback i format

/-- The fallback of a date of plain text is written as that text. -/
theorem fallbackAttr_escapeEntity (attrs : Attributes) (i : Calendar.Instant) (format : List Char) :
    fallbackAttr attrs i (escapeEntity format) = escapeAttr (fallbackText attrs i format) := by
  unfold fallbackAttr fallbackText
  cases attrText? attrs "fallback" with
  | some given => rfl
  | none =>
    simp only
    rw [Calendar.fallback_escapeEntity, escapeQuotes_escapeEntity]

/-! ## Formats -/

/-- Text in which `*` and `~` do not stand, an underscore stands in a token only, and a blank is a
space. -/
inductive DateFormat : List Char → Prop
  | nil : DateFormat []
  | char {c : Char} {s : List Char} :
      c ∉ ['*', '~', '_'] → (Text.isBlank c = true → c = ' ') → DateFormat s → DateFormat (c :: s)
  | token {name s : List Char} :
      (∀ c ∈ name, Calendar.isTokenChar c = true) → DateFormat s →
        DateFormat ('{' :: name ++ '}' :: s)

namespace DateFormat

variable {s t : List Char}

theorem append (h : DateFormat s) (h' : DateFormat t) : DateFormat (s ++ t) := by
  induction h with
  | nil => exact h'
  | char hc hb _ ih => exact .char hc hb ih
  | @token name _ hn _ ih =>
    rw [List.append_assoc, List.cons_append]
    exact .token hn ih

theorem of_forall (h : ∀ c ∈ s, c ∉ ['*', '~', '_'] ∧ (Text.isBlank c = true → c = ' ')) :
    DateFormat s := by
  induction s with
  | nil => exact .nil
  | cons c s ih =>
    exact .char (h c List.mem_cons_self).1 (h c List.mem_cons_self).2
      (ih fun x hx => h x (List.mem_cons_of_mem _ hx))

theorem cases_of_mem (h : DateFormat s) {c : Char} (hm : c ∈ s) :
    (c ∉ ['*', '~', '_'] ∧ (Text.isBlank c = true → c = ' ')) ∨
      Calendar.isTokenChar c = true ∨ c ∈ ['{', '}'] := by
  induction h with
  | nil => exact absurd hm List.not_mem_nil
  | char hc hb _ ih =>
    rcases List.mem_cons.mp hm with rfl | hm
    · exact .inl ⟨hc, hb⟩
    · exact ih hm
  | token hn _ ih =>
    simp only [List.cons_append, List.mem_cons, List.mem_append] at hm
    rcases hm with rfl | hm | rfl | hm
    · exact .inr (.inr (by simp))
    · exact .inr (.inl (hn c hm))
    · exact .inr (.inr (by simp))
    · exact ih hm

theorem not_mem (h : DateFormat s) {c : Char} (hc : c ∈ ['*', '~']) : c ∉ s := by
  have hother : c ∈ ['*', '~', '_'] ∧ Calendar.isTokenChar c = false ∧ c ∉ ['{', '}'] :=
    Text.forall_mem_of_all (p := fun c => c ∈ ['*', '~', '_'] ∧ Calendar.isTokenChar c = false ∧
      c ∉ ['{', '}']) (by decide) c hc
  intro hm
  rcases h.cases_of_mem hm with h | h | h
  · exact h.1 hother.1
  · rw [hother.2.1] at h
    cases h
  · exact hother.2.2 h

theorem eq_space_of_isBlank (h : DateFormat s) {c : Char} (hm : c ∈ s)
    (hb : Text.isBlank c = true) : c = ' ' := by
  rcases h.cases_of_mem hm with h | h | h
  · exact h.2 hb
  · have hword : Text.isBlank c = false := by
      have hlower : 97 ≤ c.toNat ∧ c.toNat ≤ 122 ∨ c.toNat = 95 := by
        simp only [Calendar.isTokenChar, Char.isLower, Bool.or_eq_true, Bool.and_eq_true,
          decide_eq_true_eq] at h
        rcases h with h | rfl
        · exact .inl ⟨UInt32.le_iff_toNat_le.mp h.1, UInt32.le_iff_toNat_le.mp h.2⟩
        · exact .inr rfl
      rw [Bool.eq_false_iff]
      intro hblank
      simp only [Text.isBlank, Bool.or_eq_true, Bool.and_eq_true, decide_eq_true_eq, beq_iff_eq]
        at hblank
      omega
    rw [hb] at hword
    cases hword
  · have hbrace : ∀ x ∈ ['{', '}'], Text.isBlank x = false := Text.forall_mem_of_all (by rfl)
    rw [hbrace c h] at hb
    cases hb

/-- Other characters may stand in for those outside of tokens. -/
theorem substitute {c d : Char} (hc : Calendar.isTokenChar c = false ∧ c ∉ ['{', '}'])
    (hd : d ∉ ['*', '~', '_'] ∧ Text.isBlank d = false) (h : DateFormat s) :
    DateFormat (Markup.substitute c d s) := by
  induction h with
  | nil => exact .nil
  | @char x _ hx hb _ ih =>
    show DateFormat ((if x = c then d else x) :: Markup.substitute c d _)
    by_cases he : x = c
    · rw [if_pos he]
      exact .char hd.1 (fun h => absurd h (by simp [hd.2])) ih
    · rw [if_neg he]
      exact .char hx hb ih
  | @token name t hn _ ih =>
    have hname : Markup.substitute c d name = name := by
      refine substitute_of_not_mem d fun hm => ?_
      have := hn c hm
      rw [hc.1] at this
      cases this
    have hbrace : '{' ≠ c ∧ '}' ≠ c := by
      constructor <;> rintro rfl <;> exact hc.2 (by simp)
    have he : Markup.substitute c d ('{' :: name ++ '}' :: t)
        = '{' :: name ++ '}' :: Markup.substitute c d t := by
      rw [← congrArg (fun w => '{' :: w ++ '}' :: Markup.substitute c d t) hname]
      simp [Markup.substitute, hbrace]
    rw [he]
    exact .token hn ih

theorem escapeEntity (h : DateFormat s) : DateFormat (Text.escapeEntity s) := by
  induction h with
  | nil => exact .nil
  | @char c t hc hb _ ih =>
    have hshown : ∀ x ∈ "&ampltg;<>".toList, Text.isBlank x = false :=
      Text.forall_mem_of_all (by decide)
    have hother : ∀ x ∈ ['*', '~', '_'], x ∉ "&ampltg;<>".toList :=
      Text.forall_mem_of_all (by decide)
    rw [Text.escapeEntity_cons]
    refine DateFormat.append (of_forall fun x hx => ⟨fun hm => ?_, fun hblank => ?_⟩) ih
    · exact hc ((Text.mem_entity (hother x hm)).mp hx ▸ hm)
    · have hx' : x = c := (Text.mem_entity fun hm => absurd hblank (by simp [hshown x hm])).mp hx
      exact hx' ▸ hb (hx' ▸ hblank)
  | @token name t hn _ ih =>
    have hplain : Text.escapeEntity ('{' :: name ++ ['}']) = '{' :: name ++ ['}'] := by
      refine Text.escapeEntity_eq_self_iff.mpr fun x hx hm => ?_
      have hother : Calendar.isTokenChar x = false ∧ x ≠ '{' ∧ x ≠ '}' :=
        Text.forall_mem_of_all (p := fun x => Calendar.isTokenChar x = false ∧ x ≠ '{' ∧ x ≠ '}')
          (by decide) x hm
      simp only [List.cons_append, List.mem_cons, List.mem_append, List.not_mem_nil, or_false] at hx
      rcases hx with rfl | hx | rfl
      · exact hother.2.1 rfl
      · have := hn x hx
        rw [hother.1] at this
        cases this
      · exact hother.2.2 rfl
    have he : Text.escapeEntity ('{' :: name ++ '}' :: t)
        = '{' :: name ++ '}' :: Text.escapeEntity t := by
      rw [← List.singleton_append (l := t), ← List.append_assoc, Text.escapeEntity_append, hplain,
        List.append_assoc, List.singleton_append]
    rw [he]
    exact .token hn ih

/-- The text behind a run of characters that are neither braces nor underscores. -/
theorem of_append {w : List Char} (h : DateFormat (w ++ t)) (hw : ∀ c ∈ w, c ≠ '{') :
    '_' ∉ w ∧ DateFormat t := by
  induction w with
  | nil => exact ⟨List.not_mem_nil, h⟩
  | cons c w ih =>
    have hc := hw c List.mem_cons_self
    generalize he : c :: w ++ t = s at h
    cases h with
    | nil => cases he
    | char hx _ h =>
      obtain ⟨rfl, rfl⟩ := List.cons.inj he
      obtain ⟨hn, ht⟩ := ih h fun x hx => hw x (List.mem_cons_of_mem _ hx)
      refine ⟨?_, ht⟩
      rintro (_ | ⟨_, hm⟩)
      · exact hx (by simp)
      · exact hn hm
    | token _ _ => exact absurd (List.cons.inj he).1 hc

/-- A short name of an emoji holds no underscore of a date format. -/
theorem of_scanName? {name rest : List Char} (h : DateFormat s)
    (hscan : scanName? isEmojiChar ':' s = some (name, rest)) :
    '_' ∉ name ++ [':'] ∧ DateFormat rest := by
  have hname : ∀ x ∈ name ++ [':'], x ≠ '{' := by
    intro x hx
    rcases List.mem_append.mp hx with hx | hx
    · rintro rfl
      exact absurd (Text.forall_of_scanName? hscan _ hx) (by decide)
    · rw [List.mem_singleton.mp hx]
      decide
  refine DateFormat.of_append ?_ hname
  rwa [List.append_assoc, List.singleton_append, ← Text.eq_append_of_scanName? hscan]

end DateFormat

theorem substituteUnderscores_emoji {s name rest : List Char}
    (h : scanName? isEmojiChar ':' s = some (name, rest)) :
    substituteUnderscores (':' :: s) = ':' :: name ++ ':' :: substituteUnderscores rest := by
  rw [substituteUnderscores, if_pos rfl]
  split <;> simp_all

/-- No short name of an emoji holds an underscore of a date format. -/
theorem substituteUnderscores_eq {s : List Char} (h : DateFormat s) :
    substituteUnderscores s = substitute '_' '\u02cd' s := by
  have happend : ∀ u v, substitute '_' '\u02cd' (u ++ v)
      = substitute '_' '\u02cd' u ++ substitute '_' '\u02cd' v := fun u v => List.map_append
  -- an emoji is left in one piece, so the induction is on the length
  induction hn : s.length using Nat.strong_induction_on generalizing s with
  | _ n ih =>
    cases h with
    | nil => simp [substituteUnderscores, substitute]
    | @char c t hc hb ht =>
      cases hscan : scanName? isEmojiChar ':' t with
      | none =>
        rw [substituteUnderscores_cons fun _ => hscan,
          ih t.length (by rw [← hn]; exact Nat.lt_succ_self _) ht rfl]
        rfl
      | some r =>
        obtain ⟨name, rest⟩ := r
        by_cases hcolon : c = ':'
        · obtain ⟨hname, hrest⟩ := ht.of_scanName? hscan
          have hkept : '_' ∉ ':' :: (name ++ [':']) := by
            rintro (_ | ⟨_, hm⟩)
            exact hname hm
          have hwhole : c :: t = ':' :: (name ++ [':']) ++ rest := by
            rw [hcolon, Text.eq_append_of_scanName? hscan]
            simp
          have hshort : rest.length < n := by
            have hlength := Text.length_lt_of_scanName? hscan
            rw [← hn, List.length_cons]
            omega
          rw [hwhole, happend, substitute_of_not_mem _ hkept, ← ih _ hshort hrest rfl, ← hwhole,
            hcolon, substituteUnderscores_emoji hscan]
          simp
        · rw [substituteUnderscores_cons fun e => absurd e hcolon,
            ih t.length (by rw [← hn]; exact Nat.lt_succ_self _) ht rfl]
          rfl
    | @token name t hname ht =>
      have hcolon : ':' ∉ '{' :: name ++ ['}'] := by
        intro hm
        simp only [List.cons_append, List.mem_cons, List.mem_append, List.not_mem_nil,
          or_false] at hm
        rcases hm with hm | hm | hm
        · cases hm
        · exact absurd (hname _ hm) (by decide)
        · cases hm
      have hwhole : '{' :: name ++ '}' :: t = '{' :: name ++ ['}'] ++ t := by simp
      have hshort : t.length < n := by
        rw [← hn, hwhole, List.length_append]
        simp
      rw [hwhole, substituteUnderscores_append hcolon, ih _ hshort ht rfl, ← happend]

/-! ## Guards around a date -/

/-- The elements of a date and of the styles around it. -/
def dateNames : List String := ["b", "i", "s", "time"]

theorem codeDepth_of_mem_dateNames {name : String} (hn : name ∈ dateNames) (s : List Char) :
    codeDepth 0 ('<' :: (name.toList ++ s)) = 0 := by
  simp only [dateNames, List.mem_cons, List.not_mem_nil, or_false] at hn
  rcases hn with rfl | rfl | rfl | rfl <;> rfl

/-- A guard does its work within an element that is no code and leaves its attributes alone. -/
theorem guardText_enclose {f : List Char → List Char} (hf : f [] = []) {name : String}
    (hn : name ∈ dateNames) {attrs content : List Char} (ha : '>' ∉ attrs)
    (hc : Closed content) :
    guardText f (enclose name attrs content) = enclose name attrs (guardText f content) := by
  have hall : ∀ n ∈ dateNames, '>' ∉ n.toList := by decide
  have hname := hall name hn
  have hopen : '>' ∉ name.toList ++ attrs := by
    simp [hname, ha]
  have hclose : '>' ∉ '/' :: name.toList := by
    simp [hname]
  have hspans : spans (enclose name attrs content)
      = .text [] :: .tag ('<' :: (name.toList ++ attrs ++ ['>']))
        :: (spans content ++ [.tag ('<' :: ('/' :: name.toList ++ ['>'])), .text []]) := by
    have he : enclose name attrs content
        = '<' :: ((name.toList ++ attrs) ++ '>' :: (content ++ '<' :: ('/' :: name.toList ++ '>' :: []))) := by
      have hslash : "</".toList = ['<', '/'] := rfl
      simp [enclose, hslash]
    rw [he, spans, spansFrom_open (by simp), spansFrom_tag hopen,
      spansFrom_append hc (by simp) false [] (fun h => absurd h Bool.false_ne_true), spansFrom_tag hclose]
    rfl
  obtain ⟨depth, hdepth⟩ := exists_guardFrom_append f 0 (spans content)
  rw [guardText, hspans]
  have hinside : codeDepth 0 ('<' :: (name.toList ++ attrs ++ ['>'])) = 0 := by
    rw [List.append_assoc]
    exact codeDepth_of_mem_dateNames hn _
  simp only [guardFrom, hf, hinside]
  rw [hdepth]
  have hslash : "</".toList = ['<', '/'] := rfl
  simp [guardFrom, hf, enclose, guardText, hslash]

/-- Content within elements without attributes, outermost first. -/
def encloseAll (names : List String) (content : List Char) : List Char :=
  names.foldr (fun name s => enclose name [] s) content

/-- A date as it is written: with the format that is shown, and the one to expand for the
fallback. -/
def writtenDate (attrs : Attributes) (i : Calendar.Instant) (format shown : List Char) : List Char :=
  enclose "time"
    (' ' :: "datetime".toList ++ '=' :: '"' :: Text.ofInt i.seconds ++ '"' ::
      (' ' :: "data-fallback".toList ++ '=' :: '"' :: escapeAttr (fallbackText attrs i format)
        ++ ['"'])) (escapeEntity shown)

theorem closed_encloseAll (names : List String) {content : List Char} (h : Closed content) :
    Closed (encloseAll names content) := by
  induction names with
  | nil => exact h
  | cons name names ih => exact closed_enclose name [] ih

theorem closed_writtenDate (attrs : Attributes) (i : Calendar.Instant) (format shown : List Char) :
    Closed (writtenDate attrs i format shown) :=
  closed_enclose _ _ (.of_not_mem (Text.lt_not_mem_escapeEntity shown))

theorem guardText_writtenDate {f : List Char → List Char} (hf : f [] = []) (attrs : Attributes)
    (i : Calendar.Instant) (format shown : List Char) {shown' : List Char}
    (hshown : f (escapeEntity shown) = escapeEntity shown') :
    guardText f (writtenDate attrs i format shown) = writtenDate attrs i format shown' := by
  have hstamp : '>' ∉ Text.ofInt i.seconds := fun hm => (firm_of_mem_ofInt hm).2.2.2 rfl
  have hattrs : '>' ∉ ' ' :: "datetime".toList ++ '=' :: '"' :: Text.ofInt i.seconds ++ '"' ::
      (' ' :: "data-fallback".toList ++ '=' :: '"' :: escapeAttr (fallbackText attrs i format)
        ++ ['"']) := by
    simp [hstamp, gt_not_mem_escapeAttr]
  rw [writtenDate, guardText_enclose hf (by decide) hattrs
    (.of_not_mem (Text.lt_not_mem_escapeEntity shown)),
    guardText_of_not_mem f (Text.lt_not_mem_escapeEntity shown), hshown]
  rfl

/-- A guard reaches the format of a date through the styles around it. -/
theorem guardText_encloseAll {f : List Char → List Char} (hf : f [] = []) {names : List String}
    (hn : ∀ name ∈ names, name ∈ dateNames) (attrs : Attributes) (i : Calendar.Instant)
    (format : List Char) {shown shown' : List Char}
    (hshown : f (escapeEntity shown) = escapeEntity shown') :
    guardText f (encloseAll names (writtenDate attrs i format shown))
      = encloseAll names (writtenDate attrs i format shown') := by
  induction names with
  | nil => exact guardText_writtenDate hf attrs i format shown hshown
  | cons name names ih =>
    have hclosed := closed_encloseAll names (closed_writtenDate attrs i format shown)
    show guardText f (enclose name [] (encloseAll names _)) = enclose name [] (encloseAll names _)
    rw [guardText_enclose hf (hn name List.mem_cons_self) List.not_mem_nil hclosed,
      ih fun m hm => hn m (List.mem_cons_of_mem _ hm)]

/-- The tags of the styles with delimiters of their own. -/
def styleTags : List String := ["b", "strong", "i", "em", "s", "strike", "del"]

theorem not_isChildOf_code {ancestry : Ancestry} (ha : ∀ t ∈ ancestry.tags, t ∈ styleTags) :
    ancestry.isChildOf ["pre", "code"] = false := by
  obtain ⟨tags⟩ := ancestry
  cases tags with
  | nil => rfl
  | cons t tags =>
    have ht : ∀ t ∈ styleTags, ["pre", "code"].contains t = false := by decide
    exact ht t (ha t List.mem_cons_self)

/-- What the tag of a style does within styles. -/
theorem renderTag_style {name : String} (hn : name ∈ styleTags) (attrs : Attributes)
    (content : List Char) {ancestry : Ancestry} (ha : ∀ t ∈ ancestry.tags, t ∈ styleTags) :
    (renderTag name attrs content ancestry = .ok content ∧
        (name ∈ ["i", "em"] → ancestry.isDescendantOf ["i", "em"] = true)) ∨
      (name ∉ ["i", "em"] ∧ ∃ written c d, (written, c, d) ∈ [("b", '*', '\u2217'), ("s", '~', '\u223c')]
        ∧ renderTag name attrs content ancestry
          = .ok (enclose written [] (guardText (substitute c d) content))) ∨
      name ∈ ["i", "em"] ∧ ancestry.isDescendantOf ["i", "em"] = false ∧
        renderTag name attrs content ancestry = .ok (enclose "i" [] (guardEmphasis content)) := by
  have hchild := not_isChildOf_code ha
  have hdate : ancestry.isDescendantOf ["time"] = false := by
    have hall : ∀ t ∈ styleTags, ["time"].contains t = false := by decide
    rw [Ancestry.isDescendantOf, List.any_eq_false]
    intro t ht
    rw [hall t (ha t ht)]
    decide
  have hemphasis : ancestry.isDescendantOf Inline.emphasis.hiddenWithin
      = ancestry.isDescendantOf ["i", "em"] := by
    show ancestry.isDescendantOf ["i", "em", "time"] = _
    rw [Render.isDescendantOf_cons _ "i", Render.isDescendantOf_cons _ "em", hdate, Bool.or_false,
      Render.isDescendantOf_cons _ "i" ["em"]]
  have hwrite : ∀ kind, name ≠ "br" → Inline.ofName? name = some kind →
      renderTag name attrs content ancestry
        = if ancestry.isDescendantOf kind.hiddenWithin then .ok content
          else kind.write name attrs content ancestry := by
    intro kind hbr hkind
    simp [renderTag, hbr, hchild, hkind]
  simp only [styleTags, List.mem_cons, List.not_mem_nil, or_false] at hn
  have hcases : name ∉ ["i", "em"] ∧ name ≠ "br" ∧ Inline.ofName? name = some .strong ∨
      name ∉ ["i", "em"] ∧ name ≠ "br" ∧ Inline.ofName? name = some .strike ∨
      name ∈ ["i", "em"] ∧ name ≠ "br" ∧ Inline.ofName? name = some .emphasis := by
    rcases hn with rfl | rfl | rfl | rfl | rfl | rfl | rfl <;> decide
  rcases hcases with ⟨hname, hbr, hkind⟩ | ⟨hname, hbr, hkind⟩ | ⟨hname, hbr, hkind⟩
  · have hw := hwrite _ hbr hkind
    split at hw
    · exact .inl ⟨hw, fun h => absurd h hname⟩
    · exact .inr (.inl ⟨hname, "b", '*', '\u2217', by simp, hw⟩)
  · have hw := hwrite _ hbr hkind
    split at hw
    · exact .inl ⟨hw, fun h => absurd h hname⟩
    · exact .inr (.inl ⟨hname, "s", '~', '\u223c', by simp, hw⟩)
  · have hw := hwrite _ hbr hkind
    rw [hemphasis] at hw
    split at hw
    next hin => exact .inl ⟨hw, fun _ => hin⟩
    next hin => exact .inr (.inr ⟨hname, Bool.eq_false_iff.mpr hin, hw⟩)

end Markup

namespace Render

open Markup

/-- A date of plain texts. -/
def dateNode (attributes : Attributes) (parts : List String) : Child :=
  .node ⟨.tag "time", attributes, parts.map .text, none⟩

/-- An element with nothing else in it than a child. -/
def bareLevel (tag : String × Attributes) : Level :=
  ⟨tag.1, tag.2, [], []⟩

/-- A child within elements, outermost first. -/
def enclosing (tags : List (String × Attributes)) (d : Child) : Child :=
  nest (tags.map bareLevel) d

/-- The format of a date that is shown within the given elements. -/
def shownFormat (names : List String) (format : List Char) : List Char :=
  if "i" ∈ names then substitute '_' '\u02cd' format else format

theorem mem_of_mem_shownFormat {names : List String} {format : List Char} {c : Char}
    (h : c ∈ shownFormat names format) : c = '\u02cd' ∨ c ∈ format := by
  unfold shownFormat at h
  split at h
  · exact mem_of_mem_substitute h
  · exact .inr h

theorem exists_mem_shownFormat {p : Char → Prop} (hp : p '\u02cd') {format : List Char}
    (h : ∃ c ∈ format, p c) (names : List String) : ∃ c ∈ shownFormat names format, p c := by
  unfold shownFormat
  split
  · exact exists_mem_substitute hp h
  · exact h

theorem renderChild_dateNode {c : Context} (hc : c.mode = .html) {attributes : Attributes}
    {i : Calendar.Instant}
    (hi : readInstant ((attrText? attributes "datetime").getD []) = .ok i) (parts : List String) :
    renderChild c (dateNode attributes parts)
      = pure (.text (writtenDate attributes i (substituteBars (joined parts))
          (substituteBars (joined parts)))) := by
  have hparts : renderText (c.enter "time") (parts.map .text)
      = pure (escapeEntity (joined parts)) := renderText_texts (c := c.enter "time") hc parts
  have htag : renderTag "time" attributes (escapeEntity (joined parts)) c.ancestry
      = timeElement attributes (escapeEntity (joined parts)) := by
    have hnone : c.ancestry.isDescendantOf [] = false := by
      simp [Ancestry.isDescendantOf]
    simp [renderTag, Inline.ofName?, Inline.hiddenWithin, Inline.write, hnone]
  have hwritten : timeElement attributes (escapeEntity (joined parts))
      = .ok (writtenDate attributes i (substituteBars (joined parts))
          (substituteBars (joined parts))) := by
    have h₁ : "<time datetime=\"".toList
        = '<' :: ("time".toList ++ ' ' :: ("datetime".toList ++ ['=', '"'])) := rfl
    have h₂ : "\" data-fallback=\"".toList
        = '"' :: ' ' :: ("data-fallback".toList ++ ['=', '"']) := rfl
    have h₃ : "\">".toList = ['"', '>'] := rfl
    have h₄ : "</time>".toList = "</".toList ++ "time".toList ++ ['>'] := rfl
    simp only [timeElement, hi, bind, Except.bind, pure, Except.pure, substituteBars_escapeEntity,
      fallbackAttr_escapeEntity, h₁, h₂, h₃, h₄, writtenDate, enclose, List.append_assoc,
      List.cons_append, List.nil_append]
  rw [dateNode, renderChild, renderNode_tag hc, hparts, pure_bind, htag, hwritten]
  rfl

/-- Whether emphasised text is shown by one of the tags within the given elements. -/
def Emphasises (tags : List (String × Attributes)) (ancestry : Ancestry) : Prop :=
  (∃ tag ∈ tags, tag.1 ∈ ["i", "em"]) ∧ ancestry.isDescendantOf ["i", "em"] = false

section Emphasis

variable {name : String} (attrs : Attributes) (tags : List (String × Attributes))
  (ancestry : Ancestry)

theorem emphasises_push_of_not_mem (hn : name ∉ ["i", "em"]) :
    Emphasises tags (ancestry.push name) ↔ Emphasises ((name, attrs) :: tags) ancestry := by
  have hname : ["i", "em"].contains name = false := by simpa [List.contains_eq_mem] using hn
  simp only [Emphasises, Ancestry.isDescendantOf_push, hname, Bool.false_or,
    List.exists_mem_cons_iff, hn, false_or]

theorem not_emphasises_push (hn : name ∈ ["i", "em"]) : ¬Emphasises tags (ancestry.push name) := by
  have hname : ["i", "em"].contains name = true := by simpa [List.contains_eq_mem] using hn
  rintro ⟨-, h⟩
  rw [Ancestry.isDescendantOf_push, hname] at h
  cases h

theorem emphasises_cons (hn : name ∈ ["i", "em"]) :
    Emphasises ((name, attrs) :: tags) ancestry
      ↔ ancestry.isDescendantOf ["i", "em"] = false :=
  ⟨And.right, fun h => ⟨⟨_, List.mem_cons_self, hn⟩, h⟩⟩

/-- A style that is hidden emphasises nothing that was not emphasised already. -/
theorem emphasises_push_of_hidden
    (hh : name ∈ ["i", "em"] → ancestry.isDescendantOf ["i", "em"] = true) :
    Emphasises tags (ancestry.push name) ↔ Emphasises ((name, attrs) :: tags) ancestry := by
  by_cases hn : name ∈ ["i", "em"]
  · rw [emphasises_cons attrs tags ancestry hn, hh hn]
    exact iff_of_false (not_emphasises_push tags ancestry hn) Bool.noConfusion
  · exact emphasises_push_of_not_mem attrs tags ancestry hn

end Emphasis

/-- Bold and struck text leave a format as it is. -/
theorem substitute_shownFormat {u : List Char} (h : DateFormat u) {x : Char} (hx : x ∈ ['*', '~'])
    (y : Char) (names : List String) :
    substitute x y (escapeEntity (shownFormat names u)) = escapeEntity (shownFormat names u) := by
  have hxs : x ∉ "&ampltg;<>".toList ∧ x ≠ '\u02cd' := by
    simp only [List.mem_cons, List.not_mem_nil, or_false] at hx
    rcases hx with rfl | rfl <;> decide
  obtain ⟨hletters, hbar⟩ := hxs
  refine substitute_of_not_mem y fun hm => ?_
  exact (mem_of_mem_shownFormat ((Text.mem_escapeEntity hletters).mp hm)).elim hbar (h.not_mem hx)

/-- Emphasised text replaces the underscores of a format. -/
theorem substituteUnderscores_escapeEntity {u : List Char} (h : DateFormat u) :
    substituteUnderscores (escapeEntity u) = escapeEntity (substitute '_' '\u02cd' u) := by
  rw [substituteUnderscores_eq h.escapeEntity, substitute_escapeEntity (by decide) (by decide)]

/-- A date in styles is written within the elements of the styles that are shown, and its format is
guarded once if emphasised text is among them. -/
theorem exists_renderChild_enclosing {attributes : Attributes} {i : Calendar.Instant}
    (hi : readInstant ((attrText? attributes "datetime").getD []) = .ok i) {parts : List String}
    (hd : DateFormat (joined parts)) {tags : List (String × Attributes)}
    (ht : ∀ tag ∈ tags, tag.1 ∈ styleTags) {c : Context} (hc : c.mode = .html)
    (ha : ∀ t ∈ c.ancestry.tags, t ∈ styleTags) :
    ∃ names, (∀ name ∈ names, name ∈ ["b", "i", "s"]) ∧
      ("i" ∈ names ↔ Emphasises tags c.ancestry) ∧
      renderChild c (enclosing tags (dateNode attributes parts))
        = pure (.text (encloseAll names (writtenDate attributes i (substituteBars (joined parts))
            (shownFormat names (substituteBars (joined parts)))))) := by
  have hformat : DateFormat (substituteBars (joined parts)) :=
    hd.substitute (by decide) (by decide)
  generalize hu : substituteBars (joined parts) = u at hformat
  induction tags generalizing c with
  | nil =>
    refine ⟨[], fun _ h => absurd h List.not_mem_nil, by simp [Emphasises], ?_⟩
    rw [← hu]
    exact renderChild_dateNode hc hi parts
  | cons tag tags ih =>
    obtain ⟨name, attrs⟩ := tag
    have hname : name ∈ styleTags := ht _ List.mem_cons_self
    obtain ⟨names, hnames, hmem, hr⟩ := ih (fun t hm => ht t (List.mem_cons_of_mem _ hm))
      (c := c.enter name) hc (List.forall_mem_cons.mpr ⟨hname, ha⟩)
    have hdates : ∀ m ∈ names, m ∈ dateNames := by
      have hall : ∀ m ∈ ["b", "i", "s"], m ∈ dateNames := by decide
      exact fun m hm => hall m (hnames m hm)
    have hrender : renderChild c (enclosing ((name, attrs) :: tags) (dateNode attributes parts))
        = (RenderM.ofExcept (renderTag name attrs
            (encloseAll names (writtenDate attributes i u (shownFormat names u))) c.ancestry)
            >>= fun html => pure (.text html)) := by
      show renderNode c ⟨.tag name, attrs, [enclosing tags (dateNode attributes parts)], none⟩ = _
      rw [renderNode_tag hc, renderText_singleton, hr]
      simp only [pure_bind]
      rfl
    rcases renderTag_style hname attrs
        (encloseAll names (writtenDate attributes i u (shownFormat names u))) ha with
      ⟨htag, hhidden⟩ | ⟨hother, written, x, y, hmark, htag⟩ | ⟨hstyle, hfree, htag⟩
    · -- the style is hidden within one like it
      refine ⟨names, hnames, hmem.trans (emphasises_push_of_hidden attrs tags _ hhidden), ?_⟩
      rw [hrender, htag]
      rfl
    · -- bold or struck text
      have hwritten : written ∈ ["b", "i", "s"] ∧ written ≠ "i" ∧ x ∈ ['*', '~'] := by
        simp only [List.mem_cons, Prod.mk.injEq, List.not_mem_nil, or_false] at hmark
        rcases hmark with ⟨rfl, rfl, rfl⟩ | ⟨rfl, rfl, rfl⟩ <;> decide
      obtain ⟨hw, hne, hx⟩ := hwritten
      have hformat' : shownFormat (written :: names) u = shownFormat names u := by
        simp [shownFormat, Ne.symm hne]
      refine ⟨written :: names, List.forall_mem_cons.mpr ⟨hw, hnames⟩, ?_, ?_⟩
      · rw [List.mem_cons, or_iff_right (Ne.symm hne), hmem]
        exact emphasises_push_of_not_mem attrs tags c.ancestry hother
      · rw [hrender, htag, guardText_encloseAll rfl hdates attributes i u
          (substitute_shownFormat hformat hx y names), hformat']
        rfl
    · -- emphasised text
      have hplain : shownFormat names u = u := by
        rw [shownFormat, if_neg]
        rw [hmem]
        exact not_emphasises_push tags c.ancestry hstyle
      have hempty : substituteUnderscores [] = [] := by simp [substituteUnderscores]
      refine ⟨"i" :: names, List.forall_mem_cons.mpr ⟨by simp, hnames⟩, ?_, ?_⟩
      · rw [emphasises_cons attrs tags _ hstyle, hfree]
        simp
      · rw [hrender, htag, hplain, guardEmphasis, guardText_encloseAll hempty hdates attributes i u
          (substituteUnderscores_escapeEntity hformat)]
        simp only [shownFormat, List.mem_cons, true_or, if_true]
        rfl

end Render

namespace Html

/-! ## Reading a date -/

/-- A character of text as a token. -/
def textToken (c : Char) : Token :=
  if c.toNat = 0 then .null else .char c

theorem runFrom_entity_textToken (c : Char) :
    runFrom (.reading .text) (Text.entity c) = (.reading .text, [textToken c]) := by
  by_cases hc : c.toNat = 0
  · have hz : c = '\x00' := Char.toNat_inj.mp hc
    subst hz
    rfl
  · rw [runFrom_entity hc, textToken, if_neg hc]

theorem runFrom_escapeEntity_textToken (s : List Char) :
    runFrom (.reading .text) (escapeEntity s) = (.reading .text, s.map textToken) := by
  induction s with
  | nil => rfl
  | cons c s ih =>
    rw [Text.escapeEntity_cons, runFrom_append, runFrom_entity_textToken]
    simp only [ih]
    rfl

/-- The characters of a text that are read. -/
def readText (s : List Char) : List Char :=
  s.filter (·.toNat ≠ 0)

theorem mem_readText_iff {c : Char} (hc : c.toNat ≠ 0) {s : List Char} : c ∈ readText s ↔ c ∈ s := by
  simp [readText, hc]

variable {blocks : Bool}

theorem builds_textTokens (s t : List Char) (done : List Dom) :
    Builds blocks (s.map textToken) (.text t :: done) (.text (t ++ readText s) :: done) := by
  induction s generalizing t with
  | nil => simpa [readText] using (Builds.nil (.text t :: done) : Builds blocks [] _ _)
  | cons c s ih =>
    by_cases hc : c.toNat = 0
    · have hr : readText (c :: s) = readText s := by simp [readText, hc]
      rw [List.map_cons, textToken, if_pos hc, hr]
      exact .null (ih t)
    · have hr : t ++ readText (c :: s) = t ++ [c] ++ readText s := by simp [readText, hc]
      rw [List.map_cons, textToken, if_neg hc, hr]
      exact .char (ih (t ++ [c]))

theorem builds_textNodes (s : List Char) :
    Builds blocks (s.map textToken) [] (textNodes (readText s)) := by
  induction s with
  | nil => exact .nil []
  | cons c s ih =>
    by_cases hc : c.toNat = 0
    · have hr : readText (c :: s) = readText s := by simp [readText, hc]
      rw [List.map_cons, textToken, if_pos hc, hr]
      exact .null ih
    · have hr : textNodes (readText (c :: s)) = [.text ([c] ++ readText s)] := by
        simp [readText, hc, textNodes]
      rw [List.map_cons, textToken, if_neg hc, hr]
      exact .char (builds_textTokens s [c] [])

/-- An attribute of a new name is read with its value. -/
theorem AtAttr.runFrom_read {d : Draft} {m : Mode} (h : AtAttr d m) (name : String)
    (hne : name.toList ≠ []) (hn : ∀ c ∈ name.toList, Markup.isNameChar c = true)
    (hlower : (name.toList.map fun c => keepable c.toLower) = name.toList)
    (hnew : (d.attrs.any fun e => e.1 == name) = false) {value v : List Char}
    (hvalue : runFrom (.reading (.value d name.toList.reverse (some '"') [])) (value ++ ['"'])
      = .next (.afterValue (d.withAttr name.toList.reverse (v.reverse ++ [])))) (attrs : List Char) :
    runFrom m (' ' :: name.toList ++ '=' :: '"' :: value ++ '"' :: attrs ++ ['>'])
      = runFrom (.afterValue { d with attrs := d.attrs ++ [(name, v)] }) (attrs ++ ['>']) := by
  have hattr : d.withAttr name.toList.reverse (v.reverse ++ [])
      = { d with attrs := d.attrs ++ [(name, v)] } := by
    simp only [Draft.withAttr, List.append_nil, List.reverse_reverse, String.ofList_toList, hnew]
    rfl
  rw [h.runFrom_attr hne hn (hlower ▸ hvalue), hlower, hattr]

/-- An attribute is read with the value that was escaped. -/
theorem AtAttr.runFrom_escapeAttr {d : Draft} {m : Mode} (h : AtAttr d m) (name : String)
    (hne : name.toList ≠ []) (hn : ∀ c ∈ name.toList, Markup.isNameChar c = true)
    (hlower : (name.toList.map fun c => keepable c.toLower) = name.toList)
    (hnew : (d.attrs.any fun e => e.1 == name) = false) (value attrs : List Char) :
    runFrom m (' ' :: name.toList ++ '=' :: '"' :: escapeAttr value ++ '"' :: attrs ++ ['>'])
      = runFrom (.afterValue { d with attrs := d.attrs ++ [(name, value.map keepable)] })
          (attrs ++ ['>']) :=
  h.runFrom_read name hne hn hlower hnew (Html.runFrom_escapeAttr value d _ []) attrs

/-- The attributes of a date as they are read. -/
def dateAttrs (attrs : Attributes) (i : Calendar.Instant) (format : List Char) : Attrs :=
  [("datetime", Text.ofInt i.seconds),
    ("data-fallback", (Markup.fallbackText attrs i format).map keepable)]

/-- The tokens of content within elements without attributes, outermost first. -/
def enclosedTokens (names : List String) (ts : List Token) : List Token :=
  names.foldr (fun name ts => .startTag name [] :: ts ++ [.endTag name]) ts

/-- The tokens of a date. -/
def dateTokens (attrs : Attrs) (shown : List Char) : List Token :=
  .startTag "time" attrs :: shown.map textToken ++ [.endTag "time"]

theorem runFrom_enclose {name : String} (hn : name ∈ Markup.writtenNames) {content : List Char}
    {ts : List Token} (hc : runFrom (.reading .text) content = (.reading .text, ts))
    {attrs : List Char} {attrs' : Attrs}
    (ha : runFrom (.reading .text) ('<' :: name.toList ++ attrs ++ ['>'])
      = (.reading .text, [.startTag name attrs'])) :
    runFrom (.reading .text) (Markup.enclose name attrs content)
      = (.reading .text, .startTag name attrs' :: ts ++ [.endTag name]) := by
  have hslash : "</".toList = ['<', '/'] := rfl
  have he : Markup.enclose name attrs content
      = ('<' :: name.toList ++ attrs ++ ['>']) ++ (content ++ ('<' :: '/' :: name.toList ++ ['>'])) := by
    simp [Markup.enclose, hslash]
  rw [he, runFrom_append, ha]
  simp only
  rw [runFrom_append, hc]
  simp only
  rw [runFrom_endTag hn]
  rfl

theorem runFrom_writtenDate (attrs : Attributes) (i : Calendar.Instant) (format shown : List Char) :
    runFrom (.reading .text) (Markup.writtenDate attrs i format shown)
      = (.reading .text, dateTokens (dateAttrs attrs i format) shown) := by
  refine runFrom_enclose (by decide) (runFrom_escapeEntity_textToken shown) ?_
  have hstamp : escapeAttr (Text.ofInt i.seconds) = Text.ofInt i.seconds := by
    have hc : ∀ c ∈ Text.ofInt i.seconds,
        (if c = '"' then "&quot;".toList else Text.entity c) = [c] := by
      intro c hc
      obtain ⟨hf, hq, hlt, hgt⟩ := Markup.firm_of_mem_ofInt hc
      have hamp : c ≠ '&' := fun e => absurd hf (by rw [e]; decide)
      rw [if_neg hq, Text.entity_of_ne hamp hlt hgt]
    rw [escapeAttr, List.flatMap_congr hc]
    simp
  have hkept : (Text.ofInt i.seconds).map keepable = Text.ofInt i.seconds := by
    refine map_keepable_of_not_mem fun hm => ?_
    have := Calendar.all_isDateChar_ofInt i.seconds
    exact absurd (List.all_eq_true.mp this _ hm) (by decide)
  have hread := (AtAttr.name (d := ⟨false, "time".toList.reverse, []⟩)).runFrom_escapeAttr
    "datetime" (by decide) (Text.forall_mem_of_all (by decide)) (by decide) rfl
    (Text.ofInt i.seconds) (' ' :: "data-fallback".toList ++ '=' :: '"' ::
      escapeAttr (Markup.fallbackText attrs i format) ++ ['"'])
  have hread' := (AtAttr.value (d := ⟨false, "time".toList.reverse,
      [("datetime", Text.ofInt i.seconds)]⟩)).runFrom_escapeAttr
    "data-fallback" (by decide) (Text.forall_mem_of_all (by decide)) (by decide) rfl
    (Markup.fallbackText attrs i format) []
  rw [hstamp, hkept] at hread
  rw [List.append_assoc, runFrom_append, runFrom_startName (by decide)]
  simp only [Step.next]
  rw [hread]
  simp only [List.nil_append]
  rw [hread']
  rfl

theorem runFrom_encloseAll {names : List String} (hn : ∀ name ∈ names, name ∈ Markup.writtenNames)
    {content : List Char} {ts : List Token}
    (hc : runFrom (.reading .text) content = (.reading .text, ts)) :
    runFrom (.reading .text) (Markup.encloseAll names content)
      = (.reading .text, enclosedTokens names ts) := by
  induction names with
  | nil => exact hc
  | cons name names ih =>
    exact runFrom_enclose (hn name List.mem_cons_self)
      (ih fun m hm => hn m (List.mem_cons_of_mem _ hm)) (by
        rw [List.append_nil]
        exact runFrom_plainTag (hn name List.mem_cons_self))

/-- Nodes within elements without attributes, outermost first. -/
def nested (names : List String) (ds : List Dom) : List Dom :=
  names.foldr (fun name ds => [.element name [] ds]) ds

theorem builds_enclosedTokens {names : List String} (hn : ∀ name ∈ names, roleOf name = .style)
    {ts : List Token} {ds : List Dom} (h : Builds blocks ts [] ds.reverse) :
    Builds blocks (enclosedTokens names ts) [] (nested names ds).reverse := by
  induction names with
  | nil => exact h
  | cons name names ih =>
    have hpre : name ≠ "pre" := by
      rintro rfl
      exact absurd (hn _ List.mem_cons_self) (by decide)
    have hb : Builds blocks (enclosedTokens (name :: names) ts) []
        [.element name [] (nested names ds).reverse.reverse] :=
      .element (.inl (hn name List.mem_cons_self)) (fun e => absurd e hpre)
        (ih fun m hm => hn m (List.mem_cons_of_mem _ hm)) (.nil _)
    rw [List.reverse_reverse] at hb
    exact hb

theorem reverse_textNodes (s : List Char) : (textNodes s).reverse = textNodes s := by
  unfold textNodes
  split <;> rfl

theorem builds_dateTokens (attrs : Attrs) (shown : List Char) :
    Builds blocks (dateTokens attrs shown) [] [.element "time" attrs (textNodes (readText shown))] := by
  have hb : Builds blocks (dateTokens attrs shown) []
      [.element "time" attrs (textNodes (readText shown)).reverse] :=
    .element (.inr (.inl (by decide))) (fun e => absurd e (by decide)) (builds_textNodes shown)
      (.nil _)
  rw [reverse_textNodes] at hb
  exact hb

theorem carriageReturn_not_mem_encloseAll {names : List String}
    (hn : ∀ name ∈ names, name ∈ ["b", "i", "s"]) {content : List Char} (h : '\r' ∉ content) :
    '\r' ∉ Markup.encloseAll names content := by
  have hletters : ∀ name ∈ ["b", "i", "s"], '\r' ∉ name.toList := by decide
  induction names with
  | nil => exact h
  | cons name names ih =>
    have hname := hletters name (hn name List.mem_cons_self)
    have hrest := ih fun m hm => hn m (List.mem_cons_of_mem _ hm)
    show '\r' ∉ Markup.enclose name [] (Markup.encloseAll names content)
    simp [Markup.enclose, hname, hrest]

theorem carriageReturn_not_mem_writtenDate {attrs : Attributes} {i : Calendar.Instant}
    {format shown : List Char} (hf : '\r' ∉ Markup.fallbackText attrs i format)
    (hs : '\r' ∉ shown) : '\r' ∉ Markup.writtenDate attrs i format shown := by
  have hstamp : '\r' ∉ Text.ofInt i.seconds := fun hm =>
    absurd (Markup.firm_of_mem_ofInt hm).1 (by decide)
  have hfallback := Markup.carriageReturn_not_mem_escapeAttr hf
  have hshown : '\r' ∉ escapeEntity shown := fun hm =>
    hs ((Text.mem_escapeEntity (by decide)).mp hm)
  simp [Markup.writtenDate, Markup.enclose, hstamp, hfallback, hshown]

/-- The document of a written date: the styles, and in them the date with its attributes and the
format that is shown. -/
theorem parse_encloseAll {names : List String} (hn : ∀ name ∈ names, name ∈ ["b", "i", "s"])
    {attrs : Attributes} {i : Calendar.Instant} {format shown : List Char}
    (hf : '\r' ∉ Markup.fallbackText attrs i format) (hs : '\r' ∉ shown) :
    parse (Markup.encloseAll names (Markup.writtenDate attrs i format shown))
      = nested names [.element "time" (dateAttrs attrs i format) (textNodes (readText shown))] := by
  have hall : ∀ name ∈ ["b", "i", "s"], name ∈ Markup.writtenNames ∧ roleOf name = .style := by
    decide
  have hr := carriageReturn_not_mem_encloseAll hn (carriageReturn_not_mem_writtenDate hf hs)
  have hrun := runFrom_encloseAll (fun name hm => (hall name (hn name hm)).1)
    (runFrom_writtenDate attrs i format shown)
  have hmark : dropMark (Markup.encloseAll names (Markup.writtenDate attrs i format shown))
      = Markup.encloseAll names (Markup.writtenDate attrs i format shown) := by
    cases names <;> rfl
  have htokens : tokens (Markup.encloseAll names (Markup.writtenDate attrs i format shown))
      = enclosedTokens names (dateTokens (dateAttrs attrs i format) shown) := by
    rw [tokens, hmark, unifyLineEnds_of_not_mem hr,
      ← List.append_nil (Markup.encloseAll names (Markup.writtenDate attrs i format shown)),
      tokensFrom_append, hrun]
    exact List.append_nil _
  have hdate : Builds true (dateTokens (dateAttrs attrs i format) shown) []
      ([.element "time" (dateAttrs attrs i format) (textNodes (readText shown))] : List Dom).reverse :=
    builds_dateTokens (dateAttrs attrs i format) shown
  have hbuilds := builds_enclosedTokens (fun name hm => (hall name (hn name hm)).2) hdate
  rw [← htokens] at hbuilds
  refine (hbuilds.parse_eq ?_).trans (List.reverse_reverse _)
  rw [htokens]
  cases names with
  | nil => exact ⟨"time", _, _, by decide, rfl⟩
  | cons name names =>
    refine ⟨name, _, _, ?_, rfl⟩
    rintro rfl
    exact absurd (hn _ List.mem_cons_self) (by decide)

end Html

end MessageLayout
