import MessageLayout.Proofs.DatedText

/-!
# Dates in styles

A date of plain text is laid out as one token, and the styles around it put their delimiters around
the token. The fallback is not touched by them. The format is not either, but for one case: emphasised
text guards the underscores in it, those in the names of its tokens included.

    renderMrkdwn of the date within styles is its token between delimiters      (renderMrkdwn_enclosing)
    the token is that of the date by itself ↔ no style emphasises, or no underscore is in the format
                                                                           (renderMrkdwn_styled_date)
-/

namespace MessageLayout

open Html
open Text (escapeEntity)

namespace Text

variable {p : Char → Bool} {s : List Char} {c : Char}

theorem mem_of_mem_trimWhile (h : c ∈ trimWhile p s) : c ∈ s := by
  have hend := List.mem_reverse.mp h
  have hstart := List.mem_reverse.mp ((List.dropWhile_sublist p).subset hend)
  exact (List.dropWhile_sublist p).subset hstart

theorem mem_trimWhile_of_mem (hc : p c = false) (h : c ∈ s) : c ∈ trimWhile p s := by
  have hdrop : ∀ t : List Char, c ∈ t → c ∈ t.dropWhile p := by
    intro t ht
    rw [← List.takeWhile_append_dropWhile (p := p) (l := t), List.mem_append] at ht
    refine ht.resolve_left fun hm => ?_
    rw [List.mem_takeWhile_imp hm] at hc
    cases hc
  exact List.mem_reverse.mpr (hdrop _ (List.mem_reverse.mpr (hdrop s h)))

end Text

namespace Mrkdwn

/-! ## A token between delimiters -/

/-- The text is a token between delimiters. -/
def Framed (token s : List Char) : Prop :=
  ∃ before after, s = before ++ token ++ after ∧
    ∀ c ∈ before ++ after, c ∈ zeroWidthSpace :: delimiterChars

variable {d : Delimiters} {token s : List Char}

namespace Framed

theorem refl (token : List Char) : Framed token token :=
  ⟨[], [], by simp, fun _ h => absurd h List.not_mem_nil⟩

theorem tight (h : Framed token s) (ht : IsDateToken token) : Tight s := by
  have hspace : ∀ c ∈ zeroWidthSpace :: delimiterChars, c ≠ ' ' :=
    Text.forall_mem_of_all (by decide)
  obtain ⟨before, after, rfl, hmem⟩ := h
  obtain ⟨w, rfl, -⟩ := ht.exists_eq
  constructor
  · cases before with
    | nil => exact ⟨'<', _, rfl, by decide⟩
    | cons c before => exact ⟨c, _, rfl, hspace c (hmem c (by simp))⟩
  · obtain rfl | ⟨u, c, rfl⟩ := List.eq_nil_or_concat after
    · exact ⟨before ++ '<' :: '!' :: w, '>', by simp, by decide⟩
    · rw [List.concat_eq_append] at hmem ⊢
      exact ⟨before ++ ('<' :: '!' :: w ++ ['>']) ++ u, c, by simp, hspace c (hmem c (by simp))⟩

theorem newline_not_mem (h : Framed token s) (ht : IsDateToken token) : '\n' ∉ s := by
  obtain ⟨before, after, rfl, hmem⟩ := h
  have hframe : '\n' ∉ before ++ after := fun hm => absurd (hmem _ hm) (by decide)
  rw [List.mem_append, not_or] at hframe
  simp [hframe, ht.newline_not_mem]

/-- A line that holds a token is left alone or put in delimiters. -/
theorem wrapLine (h : Framed token s) (ht : IsDateToken token) {delimiter : List Char}
    (hd : ∀ c ∈ delimiter, c ∈ zeroWidthSpace :: delimiterChars) (wrapsFences : Bool) :
    Framed token (Mrkdwn.wrapLine delimiter wrapsFences s) := by
  obtain ⟨before, after, rfl, hmem⟩ := h
  obtain ⟨w, hw, -⟩ := ht.exists_eq
  have hquote : splitQuoteMark (before ++ token ++ after) = ([], before ++ token ++ after) := by
    have hhead : ∃ c t, before ++ token ++ after = c :: t ∧ c ≠ '&' := by
      cases before with
      | nil => exact ⟨'<', '!' :: w ++ ['>'] ++ after, by simp [hw], by decide⟩
      | cons c before =>
        refine ⟨c, _, rfl, ?_⟩
        rintro rfl
        exact absurd (hmem '&' (by simp)) (by decide)
    obtain ⟨c, t, he, hc⟩ := hhead
    rw [he]
    exact splitQuoteMark.eq_3 _ (fun _ h => hc (List.cons.inj h).1) fun _ h => hc (List.cons.inj h).1
  simp only [Mrkdwn.wrapLine, hquote]
  split
  · exact ⟨before, after, rfl, hmem⟩
  · refine ⟨delimiter ++ before, after ++ delimiter, by simp, fun c hc => ?_⟩
    simp only [List.mem_append] at hc
    rcases hc with (hc | hc) | hc | hc
    · exact hd c hc
    · exact hmem c (List.mem_append_left _ hc)
    · exact hmem c (List.mem_append_right _ hc)
    · exact hd c hc

theorem layInline (h : Framed token s) (ht : IsDateToken token) (hd : Delimiting d) {name : String}
    (hn : name ∈ styleNames) (attrs : Attrs) :
    Framed token (Mrkdwn.layInline d name attrs s) := by
  obtain he | ⟨delimiter, wrapsFences, ⟨-, hc⟩, he⟩ := layInline_of_mem hd hn attrs s
  · rwa [he]
  · rw [he, wrapLines_of_not_mem (h.newline_not_mem ht)]
    exact h.wrapLine ht hc wrapsFences

/-- What is left to do when the body is laid out does nothing to a token. -/
theorem restore_dropBreakMarks (h : Framed token s) (ht : IsDateToken token) (fences : Fences) :
    restore fences (dropBreakMarks s) = s := by
  obtain ⟨before, after, rfl, hmem⟩ := h
  have hframe : '<' ∉ before ++ after := fun hm => absurd (hmem _ hm) (by decide)
  rw [List.mem_append, not_or] at hframe
  rw [List.append_assoc, dropBreakMarks_append_of_not_mem hframe.1, ht.isToken.dropBreakMarks_append,
    dropBreakMarks_of_not_mem hframe.2, restore_append_of_not_mem hframe.1,
    ht.isToken.restore_append, restore_of_not_mem hframe.2]

end Framed

/-! ## Layout of a date within styles -/

/-- The token between delimiters, and outside of them spaces; at the start of a block there are
none. -/
def Padded (token : List Char) (isBlock : Bool) (s : List Char) : Prop :=
  ∃ first mid last, s = first ++ mid ++ last ∧ Framed token mid ∧ (∀ c ∈ first, c = ' ') ∧
    (∀ c ∈ last, c = ' ') ∧ (isBlock = true → first = [])

namespace Padded

variable {isBlock : Bool}

theorem newline_not_mem (h : Padded token isBlock s) (ht : IsDateToken token) : '\n' ∉ s := by
  obtain ⟨first, mid, last, rfl, hmid, hf, hl, -⟩ := h
  have h₁ : '\n' ∉ first := fun hm => absurd (hf _ hm) (by decide)
  have h₂ : '\n' ∉ last := fun hm => absurd (hl _ hm) (by decide)
  simp [h₁, h₂, hmid.newline_not_mem ht]

theorem trimStartIf (h : Padded token false s) (ht : IsDateToken token) (trims : Bool) :
    Padded token trims (Mrkdwn.trimStartIf trims s) := by
  obtain ⟨first, mid, last, rfl, hmid, hf, hl, -⟩ := h
  cases trims with
  | false => exact ⟨first, mid, last, rfl, hmid, hf, hl, fun h => absurd h Bool.false_ne_true⟩
  | true =>
    obtain ⟨c, t, hc, hne⟩ := (hmid.tight ht).first
    refine ⟨[], mid, last, ?_, hmid, fun _ h => absurd h List.not_mem_nil, hl, fun _ => rfl⟩
    show (first ++ mid ++ last).dropWhile (· = ' ') = mid ++ last
    rw [List.append_assoc, List.dropWhile_append_of_pos (by simpa using hf), hc, List.cons_append,
      List.dropWhile_cons_of_neg (by simpa using hne)]

/-- Spaces at the ends of the content of a style stay outside of its delimiters. -/
theorem layAround (h : Padded token isBlock s) (ht : IsDateToken token) (hd : Delimiting d)
    {name : String} (hn : name ∈ styleNames) (attrs : Attrs) (place : Mrkdwn.Place) :
    Padded token false (Mrkdwn.layAround d name attrs place s) := by
  obtain ⟨first, mid, last, rfl, hmid, hf, hl, -⟩ := h
  have htrim : Text.trimWhile (· = ' ') (first ++ mid ++ last) = mid := by
    obtain ⟨c, t, hc, hne⟩ := (hmid.tight ht).first
    obtain ⟨u, x, hx, hne'⟩ := (hmid.tight ht).last
    rw [Text.trimWhile_append_append (by simpa using hf) (by simpa using hl)]
    exact Text.trimWhile_of_ends hc (by simpa using hne) hx (by simpa using hne')
  rw [layAround_of_mem hn, htrim]
  exact ⟨_, _, _, rfl, hmid.layInline ht hd hn attrs, fun _ => Text.eq_of_mem_takeWhile,
    fun _ => Text.eq_of_mem_takeEndWhile, fun h => absurd h Bool.false_ne_true⟩

end Padded

/-- The date among attributes as a token. -/
def tokenOf (stamp fallback format : List Char) : List Char :=
  dateToken (escapeEntity (collapsed format)) stamp (escapeEntity fallback)

theorem dateToken_inj {format format' stamp fallback : List Char} :
    dateToken format stamp fallback = dateToken format' stamp fallback ↔ format = format' := by
  simp [dateToken_eq]

theorem mem_collapsed_iff {c : Char} (hc : isSpace c = false) (s : List Char) :
    c ∈ collapsed s ↔ c ∈ s := by
  have hne : c ≠ ' ' := by
    rintro rfl
    exact absurd hc (by decide)
  refine ⟨fun h => ?_, fun h => ?_⟩
  · exact (Text.mem_of_mem_squeeze (Text.mem_of_mem_trimWhile h)).resolve_left hne
  · exact Text.mem_trimWhile_of_mem (by simpa using hne) (Text.mem_squeezeFrom_of_neg hc h false)

theorem isDateToken_tokenOf {stamp fallback format : List Char}
    (hstamp : ∀ c ∈ stamp, isPartChar c = true) (hf : '|' ∉ fallback ∧ '\n' ∉ fallback)
    (hb : '|' ∉ format) : IsDateToken (tokenOf stamp fallback format) := by
  have hbar : '|' ∉ collapsed format := fun hm => hb ((mem_collapsed_iff (by decide) _).mp hm)
  have hline : '\n' ∉ collapsed format := fun hm =>
    Text.not_mem_squeeze (p := isSpace) (by decide) (by decide) format (Text.mem_of_mem_trimWhile hm)
  exact isDateToken_dateToken hstamp (isPartChar_escapeEntity hbar hline)
    (isPartChar_escapeEntity hf.1 hf.2)

/-- A token between delimiters begins and ends in no blank. -/
theorem Framed.trimEnds (h : Framed token s) (ht : IsDateToken token) {last : List Char}
    (hl : ∀ c ∈ last, c = ' ') : Mrkdwn.trimEnds (s ++ last) = s := by
  have hframe : ∀ c ∈ zeroWidthSpace :: delimiterChars, Text.isBlank c = false :=
    Text.forall_mem_of_all (by decide)
  obtain ⟨before, after, he, hmem⟩ := h
  obtain ⟨t, htoken, -⟩ := ht.exists_eq
  have hstart : ∃ c u, s = c :: u ∧ Text.isBlank c = false := by
    cases before with
    | nil => exact ⟨'<', _, by rw [he, htoken]; rfl, by decide⟩
    | cons c before => exact ⟨c, _, he, hframe c (hmem c (by simp))⟩
  have hend : ∃ u c, s = u ++ [c] ∧ Text.isBlank c = false := by
    obtain rfl | ⟨u, c, rfl⟩ := List.eq_nil_or_concat after
    · exact ⟨before ++ '<' :: '!' :: t, '>', by simp [he, htoken], by decide⟩
    · rw [List.concat_eq_append] at hmem he
      exact ⟨before ++ token ++ u, c, by simp [he], hframe c (hmem c (by simp))⟩
  obtain ⟨c, u, hc, hblank⟩ := hstart
  obtain ⟨u', c', hc', hblank'⟩ := hend
  have hdrop : (s ++ last).dropWhile (fun c => c = '\t' || c = '\r' || c = '\n') = s ++ last := by
    rw [hc, List.cons_append]
    refine List.dropWhile_cons_of_neg fun h => ?_
    simp only [Bool.or_eq_true, decide_eq_true_eq] at h
    rcases h with (rfl | rfl) | rfl <;> exact absurd hblank (by decide)
  rw [Mrkdwn.trimEnds, hdrop, Text.trimEndWhile_append_of_forall (Text.forall_mem_of_eq (by decide) hl),
    hc', Text.trimEndWhile_concat_of_neg hblank']

/-- Where no blanks but spaces are in a text, spaces can be trimmed before they are escaped or after. -/
theorem trimWhile_escapeEntity (h : ∀ c ∈ s, Text.isBlank c = true → c = ' ') :
    Text.trimWhile (· = ' ') (escapeEntity s) = escapeEntity (Text.trimWhile (· = ' ') s) := by
  have hdrop : ∀ c ∈ s.dropWhile (· = ' '), Text.isBlank c = decide (c = ' ') := fun c hc =>
    isBlank_eq_of_imp (h c ((List.dropWhile_sublist _).subset hc))
  have hescaped : ∀ c ∈ escapeEntity (s.dropWhile (· = ' ')),
      decide (c = ' ') = Text.isBlank c := by
    intro c hc
    refine (isBlank_eq_of_imp fun hb => ?_).symm
    have hshown : ∀ x ∈ "&ampltg;<>".toList, Text.isBlank x = false :=
      Text.forall_mem_of_all (by decide)
    have hm := (Text.mem_escapeEntity fun hx => absurd hb (by simp [hshown c hx])).mp hc
    have hx := hdrop c hm
    rw [hb] at hx
    exact of_decide_eq_true hx.symm
  rw [Text.trimWhile, Text.dropWhile_escapeEntity, Text.trimEndWhile_congr hescaped,
    Text.trimEndWhile_escapeEntity, Text.trimEndWhile_congr hdrop]
  rfl

/-- A date of plain text is laid out as its token. -/
theorem padded_layNode_date {format : List Char}
    (hformat : ∀ c ∈ format, Text.isBlank c = true → c = ' ') (stamp fallback : List Char)
    (ht : IsDateToken (tokenOf stamp fallback format)) (trims : Bool) (place : Mrkdwn.Place)
    (fences : Fences) :
    ∃ w, Padded (tokenOf stamp fallback format) trims w ∧
      layNode d trims place fences
        (.element "time" [("datetime", stamp), ("data-fallback", fallback)] (textNodes format))
        = ⟨w, fences⟩ := by
  have hsqueeze : '\n' ∉ escapeEntity (Text.squeeze isSpace ' ' format) := fun hm =>
    Text.not_mem_squeeze (p := isSpace) (by decide) (by decide) format
      ((Text.mem_escapeEntity (by decide)).mp hm)
  have hinner : layNodes d "time" [("datetime", stamp), ("data-fallback", fallback)] false 0
      ⟨[], fences⟩ (textNodes format) = ⟨escapeEntity (Text.squeeze isSpace ' ' format), fences⟩ := by
    cases format with
    | nil => rfl
    | cons c s => exact layNodes_singleton _ _ _ _ _ hsqueeze rfl
  have htrim : Text.trimWhile (· = ' ') (escapeEntity (Text.squeeze isSpace ' ' format))
      = escapeEntity (collapsed format) := by
    refine trimWhile_escapeEntity fun c hc hb => ?_
    rcases Text.mem_of_mem_squeeze hc with rfl | hm
    · rfl
    · exact hformat c hm hb
  have hlaid : layAround d "time" [("datetime", stamp), ("data-fallback", fallback)] place
      (escapeEntity (Text.squeeze isSpace ' ' format))
      = (escapeEntity (Text.squeeze isSpace ' ' format)).takeWhile (· = ' ')
        ++ tokenOf stamp fallback format
        ++ Text.takeEndWhile (· = ' ') (escapeEntity (Text.squeeze isSpace ' ' format)) := by
    rw [tokenOf, ← htrim]
    rfl
  have hpadded : Padded (tokenOf stamp fallback format) false
      (layAround d "time" [("datetime", stamp), ("data-fallback", fallback)] place
        (escapeEntity (Text.squeeze isSpace ' ' format))) :=
    ⟨_, _, _, hlaid, .refl _, fun _ => Text.eq_of_mem_takeWhile, fun _ => Text.eq_of_mem_takeEndWhile,
      fun h => absurd h Bool.false_ne_true⟩
  refine ⟨_, hpadded.trimStartIf ht trims, ?_⟩
  have hfence : fencedCode? "time" (textNodes format) = none := fencedCode?_of_ne (by decide) _
  have hblock : isBlockName "time" = false := rfl
  simp only [layNode, showsBlank, hfence, hblock]
  show (⟨trimStartIf trims (layAround d "time" _ place (layNodes d "time" _ false 0 ⟨[], fences⟩
    (textNodes format)).text), _⟩ : Laid) = _
  rw [hinner]

theorem textOf_nested (names : List String) (ds : List Dom) :
    Dom.textOf (nested names ds) = Dom.textOf ds := by
  induction names with
  | nil => rfl
  | cons name names ih =>
    show Dom.textOf [.element name [] (nested names ds)] = _
    simp [ih]

theorem textOf_textNodes (s : List Char) : Dom.textOf (textNodes s) = s := by
  cases s <;> simp [textNodes]

/-- A date within styles is laid out as its token between delimiters. -/
theorem padded_layNodes_nested (hd : Delimiting d) {names : List String}
    (hn : ∀ name ∈ names, name ∈ ["b", "i", "s"]) {format : List Char}
    (hformat : ∀ c ∈ format, Text.isBlank c = true → c = ' ')
    (hshown : Text.isAllBlank format = false) {stamp fallback : List Char}
    (ht : IsDateToken (tokenOf stamp fallback format)) (parent : String) (parentAttrs : Attrs)
    (isBlock : Bool) (fences : Fences) :
    ∃ w, Padded (tokenOf stamp fallback format) isBlock w ∧
      layNodes d parent parentAttrs isBlock 0 ⟨[], fences⟩
        (nested names [.element "time" [("datetime", stamp), ("data-fallback", fallback)]
          (textNodes format)]) = ⟨w, fences⟩ := by
  induction names generalizing parent parentAttrs isBlock with
  | nil =>
    obtain ⟨w, hw, hlaid⟩ := padded_layNode_date (d := d) hformat stamp fallback ht isBlock
      ⟨parent, parentAttrs, 0, false, false⟩ fences
    exact ⟨w, hw, layNodes_singleton _ _ _ _ _ (hw.newline_not_mem ht) hlaid⟩
  | cons name names ih =>
    have hall : ∀ name ∈ ["b", "i", "s"], name ∈ styleNames ∧ isBlockName name = false ∧
        showsBlank name = false ∧ name ≠ "pre" := by decide
    obtain ⟨hstyle, hblock, hblank, hpre⟩ := hall name (hn name List.mem_cons_self)
    obtain ⟨w, hw, hlaid⟩ := ih (fun m hm => hn m (List.mem_cons_of_mem _ hm)) name [] false
    have htext : Dom.textOf (nested names [.element "time"
        [("datetime", stamp), ("data-fallback", fallback)] (textNodes format)]) = format := by
      rw [textOf_nested]
      simp [textOf_textNodes]
    show ∃ w, _ ∧ layNodes d parent parentAttrs isBlock 0 ⟨[], fences⟩ [.element name [] (nested names _)]
      = _
    generalize nested names [.element "time" [("datetime", stamp), ("data-fallback", fallback)]
      (textNodes format)] = content at hlaid htext ⊢
    have hnot : (Dom.element name [] content).isBlank = false := by
      simp [Dom.isBlank, htext, hshown]
    have hw' := (hw.layAround ht hd hstyle [] ⟨parent, parentAttrs, 0, false, false⟩).trimStartIf ht
      isBlock
    refine ⟨_, hw', layNodes_singleton _ _ _ _ _ (hw'.newline_not_mem ht) ?_⟩
    simp only [layNode, hnot, fencedCode?_of_ne hpre content, hblank, hblock, Bool.and_false,
      Bool.false_eq_true, if_false, hlaid]

/-- The mrkdwn of a date within styles is its token between delimiters. -/
theorem framed_ofDoms_nested (hd : Delimiting d) {names : List String}
    (hn : ∀ name ∈ names, name ∈ ["b", "i", "s"]) {format : List Char}
    (hformat : ∀ c ∈ format, Text.isBlank c = true → c = ' ')
    (hshown : Text.isAllBlank format = false) {stamp fallback : List Char}
    (ht : IsDateToken (tokenOf stamp fallback format)) :
    Framed (tokenOf stamp fallback format)
      (ofDoms d (nested names [.element "time" [("datetime", stamp), ("data-fallback", fallback)]
        (textNodes format)])) := by
  obtain ⟨w, hw, hlaid⟩ := padded_layNodes_nested hd hn hformat hshown ht "body" [] true []
  obtain ⟨first, mid, last, rfl, hmid, -, hl, hfirst⟩ := hw
  rw [hfirst rfl, List.nil_append] at hlaid
  show Framed _ (restore (layBody d _).fences (dropBreakMarks (trimEnds (layBody d _).text)))
  have hbody : layBody d (nested names [.element "time"
      [("datetime", stamp), ("data-fallback", fallback)] (textNodes format)]) = ⟨mid ++ last, []⟩ := hlaid
  rw [hbody, hmid.trimEnds ht hl, hmid.restore_dropBreakMarks ht]
  exact hmid

end Mrkdwn

/-! ## Both stages -/

namespace Markup

/-- A date whose given fallback is on one line falls back on text without bars on one line. -/
theorem not_mem_fallbackText {attributes : Attributes} {format : List Char}
    (hgiven : ∀ given, attrText? attributes "fallback" = some given → ∀ c ∈ ['\n', '\r'], c ∉ given)
    (hformat : ∀ c ∈ ['\n', '\r'], c ∉ format) (i : Calendar.Instant) {x : Char}
    (hx : x ∈ partEnds) : x ∉ fallbackText attributes i (substituteBars format) := by
  unfold fallbackText
  cases hg : attrText? attributes "fallback" with
  | some given => exact not_mem_substituteBars hx (hgiven given hg)
  | none => exact not_mem_fallback hx (not_mem_substituteBars hx hformat) i

end Markup

open Markup Mrkdwn Render

theorem eq_ok_of_toOption {ε α : Type} {x : Except ε α} {a : α} (h : x.toOption = some a) :
    x = .ok a := by
  cases x with
  | error e => cases h
  | ok b => exact congrArg Except.ok (Option.some.inj h)

/-- The token of a date of plain text within styles, of which the given ones are written. -/
def tokenWithin (names : List String) (attributes : Attributes) (i : Calendar.Instant)
    (parts : List String) : List Char :=
  let format := substituteBars (joined parts)
  tokenOf (Text.ofInt i.seconds) ((fallbackText attributes i format).map Html.keepable)
    (readText (shownFormat names format))

section Format

variable {u : List Char} {names : List String}

/-- A blank of a shown format is a blank of the format, since the substitute is not blank. -/
theorem eq_space_of_mem_shownFormat (h : DateFormat u) {c : Char}
    (hc : c ∈ shownFormat names u) (hb : Text.isBlank c = true) : c = ' ' := by
  rcases mem_of_mem_shownFormat hc with rfl | hm
  · exact absurd hb (by decide)
  · exact h.eq_space_of_isBlank hm hb

theorem isAllBlank_readText_shownFormat (h : ∃ c ∈ u, Text.isBlank c = false ∧ c.toNat ≠ 0)
    (names : List String) : Text.isAllBlank (readText (shownFormat names u)) = false := by
  obtain ⟨c, hc, hb, hz⟩ := exists_mem_shownFormat (p := fun c => Text.isBlank c = false ∧ c.toNat ≠ 0)
    (by decide) h names
  rw [Text.isAllBlank, List.all_eq_false]
  exact ⟨c, List.mem_filter.mpr ⟨hc, by simpa using hz⟩, by simp [hb]⟩

/-- A format is shown in its token as it is exactly if it is not guarded, or if no underscore is in
it. -/
theorem formatText_shownFormat_eq_iff (names : List String) (u : List Char) :
    escapeEntity (collapsed (readText (shownFormat names u))) = escapeEntity (collapsed (readText u))
      ↔ "i" ∉ names ∨ '_' ∉ u := by
  have hletter : ∀ s, '_' ∈ escapeEntity (collapsed (readText s)) ↔ '_' ∈ s := fun s =>
    (Text.mem_escapeEntity (by decide)).trans ((mem_collapsed_iff (by decide) _).trans
      (mem_readText_iff (by decide)))
  by_cases hi : "i" ∈ names
  · have hguarded : shownFormat names u = substitute '_' '\u02cd' u := if_pos hi
    rw [hguarded, or_iff_right (not_not_intro hi), ← hletter]
    refine ⟨fun h => ?_, fun h => ?_⟩
    · rw [← h, hletter]
      exact not_mem_substitute (by decide) _
    · rw [hletter] at h
      rw [substitute_of_not_mem _ h]
  · have hsame : shownFormat names u = u := if_neg hi
    rw [hsame]
    exact iff_of_true rfl (.inl hi)

end Format

section Date

variable {attributes : Attributes} {i : Calendar.Instant} {parts : List String}

/-- A date of plain text on one line whose given fallback is on one line falls back on such text. -/
theorem partEnds_not_mem_fallbackText (hparts : DateFormat (joined parts))
    (hfallback : ∀ given, attrText? attributes "fallback" = some given →
      '\n' ∉ given ∧ '\r' ∉ given) :
    ∀ x ∈ partEnds, x ∉ fallbackText attributes i (substituteBars (joined parts)) := by
  have hlines : ∀ c ∈ ['\n', '\r'], Text.isBlank c = true ∧ c ≠ ' ' :=
    Text.forall_mem_of_all (by decide)
  refine fun x hx => not_mem_fallbackText (fun given hg c hc hm => ?_) (fun c hc hm => ?_) i hx
  · simp only [List.mem_cons, List.not_mem_nil, or_false] at hc
    rcases hc with rfl | rfl
    · exact (hfallback given hg).1 hm
    · exact (hfallback given hg).2 hm
  · exact (hlines c hc).2 (hparts.eq_space_of_isBlank hm (hlines c hc).1)

/-- The mrkdwn of a date within styles is its token between delimiters. -/
theorem renderMrkdwn_enclosing (options : FormatOptions)
    (hi : readInstant ((attrText? attributes "datetime").getD []) = .ok i)
    (hparts : DateFormat (joined parts))
    (hshown : ∃ c ∈ joined parts, Text.isBlank c = false ∧ c.toNat ≠ 0)
    (hfallback : ∀ given, attrText? attributes "fallback" = some given →
      '\n' ∉ given ∧ '\r' ∉ given)
    {tags : List (String × Attributes)} (ht : ∀ tag ∈ tags, tag.1 ∈ styleTags) :
    ∃ names out, ("i" ∈ names ↔ ∃ tag ∈ tags, tag.1 ∈ ["i", "em"]) ∧
      renderMrkdwn options (.ofChild (enclosing tags (dateNode attributes parts))) = .ok out ∧
        IsDateToken (tokenWithin names attributes i parts) ∧
          Framed (tokenWithin names attributes i parts) out.toList := by
  obtain ⟨names, hnames, hstyle, hrender⟩ := exists_renderChild_enclosing hi hparts ht
    (c := (Context.ofOptions options).withMode .html) rfl (fun _ h => absurd h List.not_mem_nil)
  have hformat : DateFormat (substituteBars (joined parts)) :=
    hparts.substitute (by decide) (by decide)
  have hcarried : ∃ c ∈ substituteBars (joined parts), Text.isBlank c = false ∧ c.toNat ≠ 0 :=
    exists_mem_substitute (by decide) hshown
  have hfall : ∀ x ∈ partEnds, x ∉ fallbackText attributes i (substituteBars (joined parts)) :=
    partEnds_not_mem_fallbackText hparts hfallback
  have hbar : '|' ∉ shownFormat names (substituteBars (joined parts)) := fun hm =>
    (mem_of_mem_shownFormat hm).elim (fun e => absurd e (by decide))
      (not_mem_substitute (by decide) _)
  simp only [tokenWithin]
  generalize substituteBars (joined parts) = u at *
  have hspace := fun c (hc : c ∈ shownFormat names u) hb => eq_space_of_mem_shownFormat hformat hc hb
  have hread := isAllBlank_readText_shownFormat hcarried names
  have hparse : parse (encloseAll names (writtenDate attributes i u (shownFormat names u))) = _ :=
    parse_encloseAll hnames (hfall '\r' (by decide))
      fun hm => absurd (hspace _ hm (by decide)) (by decide)
  have hkept : ∀ x ∈ partEnds, x ∉ (fallbackText attributes i u).map keepable := fun x hx =>
    not_mem_map_keepable (by rintro rfl; exact absurd hx (by decide)) (hfall x hx)
  have hstamp : ∀ c ∈ Text.ofInt i.seconds, isPartChar c = true := fun c hc =>
    isPartChar_of_firm (firm_of_mem_ofInt hc).1 (firm_of_mem_ofInt hc).2.2.1
      (firm_of_mem_ofInt hc).2.2.2
  have hread' : '|' ∉ readText (shownFormat names u) := fun hm => hbar (List.mem_filter.mp hm).1
  have htoken := isDateToken_tokenOf hstamp ⟨hkept '|' (by decide), hkept '\n' (by decide)⟩ hread'
  have hframed := framed_ofDoms_nested (delimiting_delimiters options) hnames
    (fun c hc => hspace c (List.mem_filter.mp hc).1) hread htoken
  have hmrkdwn := renderMrkdwn_eq_map_renderFragment options
    (.ofChild (enclosing tags (dateNode attributes parts)))
  have hcontent : renderText ((Context.ofOptions options).withMode .html)
      [enclosing tags (dateNode attributes parts)]
      = pure (encloseAll names (writtenDate attributes i u (shownFormat names u))) := by
    rw [renderText_singleton, hrender]
    rfl
  rw [CodePlace.renderFragment_of_renderText (Content.normalize_ofChild _) hcontent] at hmrkdwn
  refine ⟨names, _, hstyle.trans (and_iff_left rfl), hmrkdwn, htoken, ?_⟩
  rw [String.toList_ofList, String.toList_ofList, ofHtml, hparse]
  exact hframed

/-- A date of plain text and the same date within styles come to one token each, and the tokens agree
exactly if no style emphasises, or if no underscore is in the text of the date. -/
theorem renderMrkdwn_styled_date (options : FormatOptions)
    (hi : readInstant ((attrText? attributes "datetime").getD []) = .ok i)
    (hparts : DateFormat (joined parts))
    (hshown : ∃ c ∈ joined parts, Text.isBlank c = false ∧ c.toNat ≠ 0)
    (hfallback : ∀ given, attrText? attributes "fallback" = some given →
      '\n' ∉ given ∧ '\r' ∉ given)
    {tags : List (String × Attributes)} (ht : ∀ tag ∈ tags, tag.1 ∈ styleTags) :
    ∃ format styled fallback out out',
      renderMrkdwn options (.ofChild (dateNode attributes parts)) = .ok out ∧
        renderMrkdwn options (.ofChild (enclosing tags (dateNode attributes parts))) = .ok out' ∧
          let plainToken := dateToken format (Text.ofInt i.seconds) fallback
          let styledToken := dateToken styled (Text.ofInt i.seconds) fallback
          IsDateToken plainToken ∧ Framed plainToken out.toList ∧
            IsDateToken styledToken ∧ Framed styledToken out'.toList ∧
              (styledToken = plainToken ↔
                (∀ tag ∈ tags, tag.1 ∉ ["i", "em"]) ∨ '_' ∉ joined parts) := by
  obtain ⟨names, out, hnames, hout, htoken, hframed⟩ := renderMrkdwn_enclosing options hi hparts
    hshown hfallback fun _ h => absurd h List.not_mem_nil
  obtain ⟨names', out', hnames', hout', htoken', hframed'⟩ := renderMrkdwn_enclosing options hi hparts
    hshown hfallback ht
  have hplain : "i" ∉ names := by simpa using hnames
  have hsame : shownFormat names (substituteBars (joined parts)) = substituteBars (joined parts) :=
    if_neg hplain
  have hbars : '_' ∈ substituteBars (joined parts) ↔ '_' ∈ joined parts :=
    mem_substitute_of_ne (by decide) (by decide)
  refine ⟨_, _, _, out, out', hout, hout', htoken, hframed, htoken', hframed', ?_⟩
  rw [dateToken_inj, hsame, formatText_shownFormat_eq_iff, hnames', hbars]
  simp only [not_exists, not_and]

end Date

/-- Strong and struck text around a date whose token has an underscore in its name. -/
theorem renderMrkdwn_styled_date_strong :
    let attributes : Attributes := ⟨[("datetime", .json (.str "2019-03-10"))]⟩
    let tags : List (String × Attributes) := [("b", ⟨[]⟩), ("strike", ⟨[]⟩)]
    let parts := ["{date_num}"]
    readInstant ((attrText? attributes "datetime").getD []) = .ok ⟨1552176000⟩ ∧
      DateFormat (joined parts) ∧ (∃ c ∈ joined parts, Text.isBlank c = false ∧ c.toNat ≠ 0) ∧
        (∀ given, attrText? attributes "fallback" = some given → '\n' ∉ given ∧ '\r' ∉ given) ∧
          (∀ tag ∈ tags, tag.1 ∈ styleTags) ∧
            ∃ token out out', renderMrkdwn {} (.ofChild (dateNode attributes parts)) = .ok out ∧
              renderMrkdwn {} (.ofChild (enclosing tags (dateNode attributes parts))) = .ok out' ∧
                IsDateToken token ∧ Framed token out.toList ∧ Framed token out'.toList := by
  intro attributes tags parts
  have hi : readInstant ((attrText? attributes "datetime").getD []) = .ok ⟨1552176000⟩ :=
    eq_ok_of_toOption (by decide +kernel)
  have hparts : DateFormat (joined parts) :=
    show DateFormat ('{' :: "date_num".toList ++ '}' :: []) from
      .token (List.all_eq_true.mp (by decide)) .nil
  have hshown : ∃ c ∈ joined parts, Text.isBlank c = false ∧ c.toNat ≠ 0 :=
    ⟨'{', by decide, by decide⟩
  have hfallback : ∀ given, attrText? attributes "fallback" = some given →
      '\n' ∉ given ∧ '\r' ∉ given := fun given h => nomatch h
  have htags : ∀ tag ∈ tags, tag.1 ∈ styleTags := by decide
  obtain ⟨_, _, _, out, out', hout, hout', htoken, hplain, -, hstyled, hsame⟩ :=
    renderMrkdwn_styled_date {} hi hparts hshown hfallback htags
  have hnone : ∀ tag ∈ tags, tag.1 ∉ ["i", "em"] := by decide
  rw [hsame.mpr (.inl hnone)] at hstyled
  exact ⟨hi, hparts, hshown, hfallback, htags, _, out, out', hout, hout', htoken, hplain, hstyled⟩

/-- Emphasised text around the same date changes the name of its token. -/
theorem renderMrkdwn_date_changed :
    let date : Child := .node ⟨.tag "time", ⟨[("datetime", .json (.str "2019-03-10"))]⟩,
      [.text "{date_num}"], none⟩
    renderMrkdwn {} (.ofChild date) = .ok "<!date^1552176000^{date_num}|2019-03-10>" ∧
      renderMrkdwn {} (.node ⟨.tag "i", ⟨[]⟩, [date], none⟩)
        = .ok "_<!date^1552176000^\x7bdate\u02cdnum\x7d|2019-03-10>_" :=
  ⟨eq_ok_of_toOption (by decide +kernel), eq_ok_of_toOption (by decide +kernel)⟩

end MessageLayout
