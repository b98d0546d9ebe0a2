import MessageLayout.Proofs.DateFragments
import MessageLayout.Proofs.DateTokens
import MessageLayout.Proofs.FragmentText

/-!
# Dates in balanced text

A date that holds text and elements without a look of their own is written around a format, and falls
back on text in which every ampersand begins an entity. Guards may change both; they bring in neither
a bar nor an end of a line.

    childrenAreInline ds → childrenDatesAreSimple ds → renderText c ds = .ok r →
      DatedText _ r.output                                                (writes_dated_renderText)
-/

namespace MessageLayout

open Mrkdwn (bareNames)

namespace Markup

variable {blocks inLink : Bool} {s t content : List Char}

/-! ## Values -/

/-- What is written for a character in the value of an attribute. -/
def valueEntity (c : Char) : List Char :=
  if c = '"' then "&quot;".toList else Text.entity c

/-- The characters that are written as entities in the values of attributes. -/
def valueReserved : List Char :=
  ['&', '<', '>', '"']

/-- A text in which every ampersand begins an entity. -/
inductive EntityText : List Char → Prop
  | nil : EntityText []
  | char {c : Char} {s : List Char} : c ≠ '&' → EntityText s → EntityText (c :: s)
  | entity {c : Char} {s : List Char} :
      c ∈ valueReserved → EntityText s → EntityText (valueEntity c ++ s)

theorem exists_valueEntity {c : Char} (hc : c ∈ valueReserved) :
    ∃ w, valueEntity c = '&' :: w ∧ ∀ x ∈ w, Firm x ∧ x ∉ ['&', '"', '\x7b'] := by
  simp only [valueReserved, List.mem_cons, List.not_mem_nil, or_false] at hc
  rcases hc with rfl | rfl | rfl | rfl
  · exact ⟨"amp;".toList, rfl, Text.forall_mem_of_all (by decide)⟩
  · exact ⟨"lt;".toList, rfl, Text.forall_mem_of_all (by decide)⟩
  · exact ⟨"gt;".toList, rfl, Text.forall_mem_of_all (by decide)⟩
  · exact ⟨"quot;".toList, rfl, Text.forall_mem_of_all (by decide)⟩

namespace EntityText

theorem append (h : EntityText s) (h' : EntityText t) : EntityText (s ++ t) := by
  induction h with
  | nil => exact h'
  | char hc _ ih => exact char hc ih
  | entity hc _ ih =>
    rw [List.append_assoc]
    exact entity hc ih

theorem of_not_mem (h : '&' ∉ s) : EntityText s := by
  induction s with
  | nil => exact nil
  | cons c s ih =>
    simp only [List.mem_cons, not_or] at h
    exact char (Ne.symm h.1) (ih h.2)

theorem of_append (h : EntityText (s ++ t)) (hs : '&' ∉ s) : EntityText t := by
  induction s with
  | nil => exact h
  | cons c s ih =>
    simp only [List.mem_cons, not_or] at hs
    refine ih ?_ hs.2
    rw [List.cons_append] at h
    generalize hx : c :: (s ++ t) = x at h
    cases h with
    | nil => cases hx
    | char _ h => exact (List.cons.inj hx).2 ▸ h
    | entity hc _ =>
      obtain ⟨w, hw, -⟩ := exists_valueEntity hc
      rw [hw] at hx
      exact absurd (List.cons.inj hx).1.symm hs.1

theorem of_escapeAttr (s : List Char) : EntityText (Text.escapeAttr s) := by
  induction s with
  | nil => exact nil
  | cons c s ih =>
    show EntityText (valueEntity c ++ Text.escapeAttr s)
    by_cases hc : c ∈ valueReserved
    · exact entity hc ih
    · simp only [valueReserved, List.mem_cons, List.not_mem_nil, or_false, not_or] at hc
      have he : valueEntity c = [c] := by simp [valueEntity, Text.entity, hc]
      rw [he]
      exact char hc.1 ih

theorem alike (h : EntityText s) (ha : Alike s t) : EntityText t := by
  induction h generalizing t with
  | nil =>
    cases ha
    exact nil
  | @char c s hc _ ih =>
    generalize hx : c :: s = x at ha
    cases ha with
    | nil => cases hx
    | char d ha =>
      obtain ⟨rfl, rfl⟩ := List.cons.inj hx
      exact char hc (ih ha)
    | swap hd ha =>
      obtain ⟨rfl, rfl⟩ := List.cons.inj hx
      exact char (mem_lookalikes hd).2.2.2.1 (ih ha)
    | lineEnd ha =>
      obtain ⟨rfl, rfl⟩ := List.cons.inj hx
      exact ih (.char '\n' ha)
    | hyphen _ => exact absurd (List.cons.inj hx).1 hc
  | @entity c s hc _ ih =>
    obtain ⟨w, hw, hfirm⟩ := exists_valueEntity hc
    rw [hw] at ha
    obtain ⟨n, t₁, rfl, h₁⟩ := ha.exists_ampersand
    obtain ⟨t', rfl, h'⟩ := h₁.exists_append fun x hx => (hfirm x hx).1
    refine append (of_not_mem fun hm => ?_) ?_
    · exact absurd (List.eq_of_mem_replicate hm) (by decide)
    · rw [← List.cons_append, ← hw]
      exact entity hc (ih h')

/-- Expanded tokens stand beside entities. -/
theorem fallback (i : Calendar.Instant) (h : EntityText s) : EntityText (Calendar.fallback i s) := by
  -- behind a token the text goes on, so the induction is on the length
  induction hn : s.length using Nat.strong_induction_on generalizing s with
  | _ n ih =>
    cases h with
    | nil =>
      rw [Calendar.fallback_nil]
      exact nil
    | @char c s hc h =>
      have hrest := ih s.length (by simp [← hn]) h rfl
      by_cases hb : c = '\x7b'
      · subst hb
        cases hscan : Text.scanName? Calendar.isTokenChar '\x7d' s with
        | none =>
          rw [Calendar.fallback_cons i fun _ => hscan]
          exact char hc hrest
        | some r =>
          obtain ⟨name, rest⟩ := r
          have hlt := Text.length_lt_of_scanName? hscan
          have hname : '&' ∉ name ++ ['\x7d'] := by
            have hn : '&' ∉ name := fun hm =>
              absurd (Text.forall_of_scanName? hscan _ hm) (by decide)
            simp [hn]
          rw [Text.eq_append_of_scanName? hscan, List.append_cons] at h
          rw [Calendar.fallback_token i hscan]
          have hexpanded := Text.escapeEntity_eq_self_iff.mp
            (Calendar.escapeEntity_expansion (i := i) hscan)
          refine append (of_not_mem fun hm => hexpanded _ hm (by decide)) ?_
          exact ih rest.length (by simp [← hn]; omega) (h.of_append hname) rfl
      · rw [Calendar.fallback_cons i fun e => absurd e hb]
        exact char hc hrest
    | @entity c s hc h =>
      obtain ⟨w, hw, hfirm⟩ := exists_valueEntity hc
      have hbrace : '\x7b' ∉ valueEntity c := by
        rw [hw, List.mem_cons, not_or]
        exact ⟨by decide, fun hm => (hfirm _ hm).2 (by decide)⟩
      rw [Calendar.fallback_append hbrace]
      exact entity hc (ih s.length (by simp [← hn, hw]) h rfl)

theorem escapeQuotes (h : EntityText s) : EntityText (Markup.escapeQuotes s) := by
  have happend : ∀ u v, Markup.escapeQuotes (u ++ v) = Markup.escapeQuotes u ++ Markup.escapeQuotes v :=
    fun u v => List.flatMap_append
  have hcons : ∀ c t, Markup.escapeQuotes (c :: t) = Markup.escapeQuotes [c] ++ Markup.escapeQuotes t :=
    fun c t => happend [c] t
  induction h with
  | nil => exact nil
  | @char c s hc _ ih =>
    rw [hcons]
    by_cases hq : c = '"'
    · subst hq
      exact entity (c := '"') (by decide) ih
    · have he : Markup.escapeQuotes [c] = [c] := by simp [Markup.escapeQuotes, hq]
      rw [he]
      exact char hc ih
  | @entity c s hc _ ih =>
    have he : Markup.escapeQuotes (valueEntity c) = valueEntity c := by
      simp only [valueReserved, List.mem_cons, List.not_mem_nil, or_false] at hc
      rcases hc with rfl | rfl | rfl | rfl <;> rfl
    rw [happend, he]
    exact entity hc ih

end EntityText

/-- The characters that would end a part of a date or its line. -/
def partEnds : List Char :=
  ['|', '\n', '\r']

/-- The value of an attribute that is read as text without bars on one line. -/
structure ValueText (value : List Char) : Prop where
  entities : EntityText value
  quote : '"' ∉ value
  ends : ∀ x ∈ partEnds, x ∉ value

theorem ValueText.alike (h : ValueText s) (ha : Alike s t) : ValueText t where
  entities := h.entities.alike ha
  quote := not_mem_of_alike (by decide) ha h.quote
  ends := by
    have hline : ∀ c ∈ t, c ≠ '\n' ∧ c ≠ '\r' := by
      refine ha.forall_mem (fun c d hcd hc => ?_) (by decide) fun c hc =>
        ⟨fun e => h.ends '\n' (by decide) (e ▸ hc), fun e => h.ends '\r' (by decide) (e ▸ hc)⟩
      simp only [lookalikes, List.mem_cons, Prod.mk.injEq, List.not_mem_nil, or_false] at hcd
      rcases hcd with ⟨-, rfl⟩ | ⟨-, rfl⟩ | ⟨-, rfl⟩ | ⟨-, rfl⟩ | ⟨-, rfl⟩ | ⟨rfl, -⟩
      all_goals first | decide | exact absurd rfl hc.2
    intro x hx hm
    simp only [partEnds, List.mem_cons, List.not_mem_nil, or_false] at hx
    rcases hx with rfl | rfl | rfl
    · exact not_mem_of_alike (by decide) ha (h.ends _ (by decide)) hm
    · exact (hline _ hm).1 rfl
    · exact (hline _ hm).2 rfl

theorem not_mem_escapeAttr {x : Char} (hx : x ∈ partEnds) (h : x ∉ s) : x ∉ Text.escapeAttr s := by
  have hmarks : ∀ x ∈ partEnds, x ∉ "&quot;".toList ∧ x ∉ "&ampltg;<>".toList :=
    Text.forall_mem_of_all (by decide)
  obtain ⟨hquot, hentity⟩ := hmarks x hx
  intro hm
  obtain ⟨c, hc, hxc⟩ := List.mem_flatMap.mp hm
  split at hxc
  · exact hquot hxc
  · exact h ((Text.mem_entity hentity).mp hxc ▸ hc)

theorem not_mem_escapeQuotes {x : Char} (hx : x ∈ partEnds) (h : x ∉ s) :
    x ∉ Markup.escapeQuotes s := by
  have hquot : ∀ x ∈ partEnds, x ∉ "&quot;".toList := Text.forall_mem_of_all (by decide)
  intro hm
  obtain ⟨c, hc, hxc⟩ := List.mem_flatMap.mp hm
  split at hxc
  · exact hquot x hx hxc
  · exact h (List.mem_singleton.mp hxc ▸ hc)

theorem not_mem_fallback {x : Char} (hx : x ∈ partEnds) (h : x ∉ s) (i : Calendar.Instant) :
    x ∉ Calendar.fallback i s := by
  have hdate : ∀ x ∈ partEnds, Calendar.isDateChar x = false := Text.forall_mem_of_all (by decide)
  intro hm
  rcases Calendar.mem_of_mem_fallback hm with hm | hd
  · exact h hm
  · rw [hdate x hx] at hd
    cases hd

/-- Without its bars a text on one line holds none of these. -/
theorem not_mem_substituteBars {x : Char} (hx : x ∈ partEnds) (h : ∀ c ∈ ['\n', '\r'], c ∉ s) :
    x ∉ substituteBars s := by
  rw [substituteBars_eq]
  simp only [partEnds, List.mem_cons, List.not_mem_nil, or_false] at hx
  rcases hx with rfl | rfl | rfl
  · exact not_mem_substitute (by decide) s
  · exact fun hm => h _ (by simp) ((mem_substitute_of_ne (by decide) (by decide)).mp hm)
  · exact fun hm => h _ (by simp) ((mem_substitute_of_ne (by decide) (by decide)).mp hm)

/-! ## Formats -/

/-- Text and elements without a look of their own. -/
inductive FormatText : List Char → Prop
  | nil : FormatText []
  | char {c : Char} {s : List Char} : c ≠ '<' → c ≠ '&' → FormatText s → FormatText (c :: s)
  | entity {c : Char} {s : List Char} :
      c ∈ ['&', '<', '>'] → FormatText s → FormatText (Text.entity c ++ s)
  | element {name : String} {content s : List Char} :
      name ∈ bareNames → FormatText content → FormatText s →
        FormatText (enclose name [] content ++ s)

theorem mem_writtenNames_of_mem_bareNames {name : String} (hn : name ∈ bareNames) :
    name ∈ writtenNames ∧ Html.isBoundary name = false ∧ name ≠ "a" ∧ name ≠ "time" := by
  have hall : ∀ n ∈ bareNames, n ∈ writtenNames ∧ Html.isBoundary n = false ∧ n ≠ "a" ∧ n ≠ "time" := by
    decide
  exact hall name hn

namespace FormatText

theorem append (h : FormatText s) (h' : FormatText t) : FormatText (s ++ t) := by
  induction h with
  | nil => exact h'
  | char hc ha _ ih => exact char hc ha ih
  | entity hc _ ih =>
    rw [List.append_assoc]
    exact entity hc ih
  | element hn hc _ _ ih =>
    rw [List.append_assoc]
    exact element hn hc ih

theorem of_plain (h : ∀ c ∈ s, c ≠ '<' ∧ c ≠ '&') : FormatText s := by
  induction s with
  | nil => exact nil
  | cons c s ih =>
    obtain ⟨⟨hc, ha⟩, hs⟩ := List.forall_mem_cons.mp h
    exact char hc ha (ih hs)

theorem of_escapeEntity (s : List Char) : FormatText (Text.escapeEntity s) := by
  induction s with
  | nil => exact nil
  | cons c s ih =>
    rw [Text.escapeEntity_cons]
    by_cases hc : c ∈ ['&', '<', '>']
    · exact entity hc ih
    · simp only [List.mem_cons, List.not_mem_nil, or_false, not_or] at hc
      rw [Text.entity_of_ne hc.1 hc.2.1 hc.2.2]
      exact char hc.2.1 hc.1 ih

theorem enclosed {name : String} (hn : name ∈ bareNames) (h : FormatText content) :
    FormatText (enclose name [] content) := by
  rw [← List.append_nil (enclose name [] content)]
  exact element hn h nil

theorem alike (h : FormatText s) (ha : Alike s t) : FormatText t := by
  induction h generalizing t with
  | nil =>
    cases ha
    exact nil
  | @char c s hc hamp _ ih =>
    generalize hx : c :: s = x at ha
    cases ha with
    | nil => cases hx
    | char d ha =>
      obtain ⟨rfl, rfl⟩ := List.cons.inj hx
      exact char hc hamp (ih ha)
    | swap hd ha =>
      obtain ⟨rfl, rfl⟩ := List.cons.inj hx
      exact char (mem_lookalikes hd).2.2.1 (mem_lookalikes hd).2.2.2.1 (ih ha)
    | lineEnd ha =>
      obtain ⟨rfl, rfl⟩ := List.cons.inj hx
      exact ih (.char '\n' ha)
    | hyphen _ => exact absurd (List.cons.inj hx).1 hamp
  | @entity c s hc _ ih =>
    obtain ⟨w, hw, hfirm⟩ := exists_entity hc
    rw [hw] at ha
    obtain ⟨n, t₁, rfl, h₁⟩ := ha.exists_ampersand
    obtain ⟨t', rfl, h'⟩ := h₁.exists_append hfirm
    refine append (of_plain fun d hd => ?_) ?_
    · rw [List.eq_of_mem_replicate hd]
      decide
    · rw [← List.cons_append, ← hw]
      exact entity hc (ih h')
  | element hn _ _ ihc ih =>
    obtain ⟨_, content', s', rfl, rfl, hc, hs⟩ := alike_enclose (P := (· = []))
      (mem_writtenNames_of_mem_bareNames hn).1
      (fun ha => (ha.exists_cons (by decide)).imp' (fun _ => []) fun v hv => ⟨v, hv.1, rfl, hv.2⟩) ha
    exact element hn (ihc hc) (ih hs)

theorem balanced (h : FormatText s) : Balanced blocks inLink s := by
  induction h generalizing inLink with
  | nil => exact .nil
  | char hc ha _ ih => exact .char hc ha ih
  | entity hc _ ih => exact .entity hc ih
  | element hn _ _ ihc ih =>
    obtain ⟨hw, hb, ha, hd⟩ := mem_writtenNames_of_mem_bareNames hn
    exact .element (tagText_nil hw (fun h => absurd h (by simp [hb])) ha hd) ihc ih

theorem entityText (h : FormatText s) : EntityText s := by
  induction h with
  | nil => exact .nil
  | char _ ha _ ih => exact .char ha ih
  | @entity c s hc _ ih =>
    have he : Text.entity c = valueEntity c := by
      rw [valueEntity, if_neg]
      rintro rfl
      exact absurd hc (by decide)
    rw [he]
    refine .entity ?_ ih
    simp only [List.mem_cons, List.not_mem_nil, or_false] at hc
    rcases hc with rfl | rfl | rfl <;> decide
  | @element name content s hn _ _ ihc ih =>
    have hname : '&' ∉ name.toList := fun hm =>
      absurd (firm_of_mem_writtenNames (mem_writtenNames_of_mem_bareNames hn).1 _ hm) (by decide)
    rw [enclose_append]
    have hopen : EntityText ('<' :: name.toList ++ ['>']) := .of_not_mem (by simp [hname])
    have hclose : EntityText ('<' :: '/' :: name.toList ++ ['>']) := .of_not_mem (by simp [hname])
    simpa using hopen.append (ihc.append (hclose.append ih))

end FormatText

/-! ## Dates -/

theorem isPartChar_of_firm {c : Char} (hf : Firm c) (hlt : c ≠ '<') (hgt : c ≠ '>') :
    Mrkdwn.isPartChar c = true := by
  have hbar : c ≠ '|' := fun e => absurd hf (by rw [e]; decide)
  have hn : c ≠ '\n' := fun e => absurd hf (by rw [e]; decide)
  simp [Mrkdwn.isPartChar, hlt, hgt, hbar, hn]

/-- The attributes of a date whose timestamp and fallback are texts without bars on one line. -/
def DateText (attrs : List Char) : Prop :=
  ∃ stamp value, (∀ c ∈ stamp, Firm c ∧ c ≠ '"' ∧ c ≠ '<' ∧ c ≠ '>') ∧ ValueText value ∧
    attrs = ' ' :: "datetime".toList ++ '=' :: '"' :: stamp ++ '"' ::
      (' ' :: "data-fallback".toList ++ '=' :: '"' :: value ++ ['"'])

theorem DateText.alike {attrs : List Char} (h : DateText attrs) (ha : Alike (attrs ++ '>' :: s) t) :
    ∃ attrs' t', t = attrs' ++ '>' :: t' ∧ DateText attrs' ∧ Alike s t' := by
  obtain ⟨stamp, value, hstamp, hvalue, rfl⟩ := h
  have he : ' ' :: "datetime".toList ++ '=' :: '"' :: stamp ++ '"' ::
      (' ' :: "data-fallback".toList ++ '=' :: '"' :: value ++ ['"']) ++ '>' :: s
      = (" datetime=\x22".toList ++ (stamp ++ "\x22 data-fallback=\x22".toList))
        ++ (value ++ '"' :: '>' :: s) := by simp
  have hfirm : ∀ c ∈ " datetime=\x22".toList ++ (stamp ++ "\x22 data-fallback=\x22".toList), Firm c :=
    List.forall_mem_append.mpr ⟨Text.forall_mem_of_all (by decide),
      List.forall_mem_append.mpr ⟨fun c hc => (hstamp c hc).1, Text.forall_mem_of_all (by decide)⟩⟩
  rw [he] at ha
  obtain ⟨t₁, rfl, h₁⟩ := ha.exists_append hfirm
  obtain ⟨value', t₂, rfl, hv, h₂⟩ := h₁.exists_split (by simp)
  obtain ⟨t₃, rfl, h₃⟩ := h₂.exists_cons (by decide)
  obtain ⟨t', rfl, h'⟩ := h₃.exists_cons (by decide)
  exact ⟨_, t', by simp, ⟨stamp, value', hstamp, hvalue.alike hv, rfl⟩, h'⟩

/-- A balanced text in which every date is written around a format without bars, with such a
fallback. -/
inductive DatedText (blocks : Bool) : Bool → List Char → Prop
  | nil {inLink : Bool} : DatedText blocks inLink []
  | char {inLink : Bool} {c : Char} {s : List Char} :
      c ≠ '<' → c ≠ '&' → DatedText blocks inLink s → DatedText blocks inLink (c :: s)
  | entity {inLink : Bool} {c : Char} {s : List Char} :
      c ∈ ['&', '<', '>'] → DatedText blocks inLink s → DatedText blocks inLink (Text.entity c ++ s)
  | lineBreak {inLink : Bool} {s : List Char} :
      DatedText blocks inLink s → DatedText blocks inLink (Markup.lineBreak ++ s)
  | element {inLink : Bool} {name : String} {attrs content s : List Char} :
      TagText blocks inLink name attrs → name ≠ "time" →
        DatedText blocks (inLink || name == "a") content → DatedText blocks inLink s →
          DatedText blocks inLink (enclose name attrs content ++ s)
  | date {inLink : Bool} {attrs content s : List Char} :
      DateText attrs → FormatText content → '|' ∉ content → DatedText blocks inLink s →
        DatedText blocks inLink (enclose "time" attrs content ++ s)

namespace DatedText

theorem append (h : DatedText blocks inLink s) (h' : DatedText blocks inLink t) :
    DatedText blocks inLink (s ++ t) := by
  induction h with
  | nil => exact h'
  | char hc ha _ ih => exact char hc ha (ih h')
  | entity hc _ ih =>
    rw [List.append_assoc]
    exact entity hc (ih h')
  | lineBreak _ ih =>
    rw [List.append_assoc]
    exact lineBreak (ih h')
  | element ht hn hc _ _ ih =>
    rw [List.append_assoc]
    exact element ht hn hc (ih h')
  | date hd hf hb _ ih =>
    rw [List.append_assoc]
    exact date hd hf hb (ih h')

theorem of_formatText (h : FormatText s) : DatedText blocks inLink s := by
  induction h generalizing inLink with
  | nil => exact nil
  | char hc ha _ ih => exact char hc ha ih
  | entity hc _ ih => exact entity hc ih
  | element hn _ _ ihc ih =>
    obtain ⟨hw, hb, ha, hd⟩ := mem_writtenNames_of_mem_bareNames hn
    exact element (tagText_nil hw (fun h => absurd h (by simp [hb])) ha hd) hd ihc ih

theorem of_inLink (h : DatedText blocks true s) (inLink : Bool) : DatedText blocks inLink s := by
  generalize hx : true = x at h
  induction h generalizing inLink with
  | nil => exact nil
  | char hc ha _ ih => exact char hc ha (ih _ hx)
  | entity hc _ ih => exact entity hc (ih _ hx)
  | lineBreak _ ih => exact lineBreak (ih _ hx)
  | @element l name attrs content s ht hn _ _ ihc ih =>
    have hna : name ≠ "a" := fun e => absurd (ht.link e) (by simp [← hx])
    have ht' : TagText blocks inLink name attrs :=
      ⟨ht.written, ht.block, ht.text, ht.style, fun e => absurd e hna, ht.date⟩
    exact element ht' hn (ihc _ (by simp [← hx])) (ih _ hx)
  | date hd hf hb _ ih => exact date hd hf hb (ih _ hx)

theorem alike (h : DatedText blocks inLink s) (ha : Alike s t) : DatedText blocks inLink t := by
  induction h generalizing t with
  | nil =>
    cases ha
    exact nil
  | @char l c s hc hamp h ih =>
    generalize hx : c :: s = x at ha
    cases ha with
    | nil => cases hx
    | char d ha =>
      obtain ⟨rfl, rfl⟩ := List.cons.inj hx
      exact char hc hamp (ih ha)
    | swap hd ha =>
      obtain ⟨rfl, rfl⟩ := List.cons.inj hx
      exact char (mem_lookalikes hd).2.2.1 (mem_lookalikes hd).2.2.2.1 (ih ha)
    | lineEnd ha =>
      obtain ⟨rfl, rfl⟩ := List.cons.inj hx
      exact ih (.char '\n' ha)
    | hyphen _ => exact absurd (List.cons.inj hx).1 hamp
  | @entity l c s hc _ ih =>
    obtain ⟨w, hw, hfirm⟩ := exists_entity hc
    rw [hw] at ha
    obtain ⟨n, t₁, rfl, h₁⟩ := ha.exists_ampersand
    obtain ⟨t', rfl, h'⟩ := h₁.exists_append hfirm
    refine append (of_formatText (.of_plain fun d hd => ?_)) ?_
    · rw [List.eq_of_mem_replicate hd]
      decide
    · rw [← List.cons_append, ← hw]
      exact entity hc (ih h')
  | lineBreak _ ih =>
    obtain ⟨t', rfl, h'⟩ := ha.exists_append (Text.forall_mem_of_all (by decide))
    exact lineBreak (ih h')
  | element ht hn _ _ ihc ih =>
    obtain ⟨attrs', content', s', rfl, ht', hc, hs⟩ := ht.alike_enclose ha
    exact element ht' hn (ihc hc) (ih hs)
  | date hd hf hb _ ih =>
    obtain ⟨attrs', content', s', rfl, hd', hc, hs⟩ := alike_enclose (by decide) hd.alike ha
    exact date hd' (hf.alike hc) (not_mem_of_alike (by decide) hc hb) (ih hs)

theorem dropMark (h : DatedText blocks inLink s) : DatedText blocks inLink (Html.dropMark s) := by
  unfold Html.dropMark
  split
  next s =>
    generalize hx : '\ufeff' :: s = x at h
    cases h with
    | nil => cases hx
    | char _ _ h =>
      obtain ⟨rfl, rfl⟩ := List.cons.inj hx
      exact h
    | entity hc _ =>
      obtain ⟨w, hw, -⟩ := exists_entity hc
      rw [hw] at hx
      exact absurd (List.cons.inj hx).1 (by decide)
    | lineBreak _ => exact absurd (List.cons.inj hx).1 (by decide)
    | element _ _ _ _ => exact absurd (List.cons.inj hx).1 (by decide)
    | date _ _ _ _ => exact absurd (List.cons.inj hx).1 (by decide)
  · exact h

end DatedText

theorem fragments_datedText (blocks : Bool) : Fragments blocks (DatedText blocks) where
  lineBreak := by
    rw [← List.append_nil Markup.lineBreak]
    exact .lineBreak .nil
  plain h := .of_formatText (.of_plain h)
  of_inLink := .of_inLink
  alike := .alike
  enclosed {_ name attrs content} ht hn hc := by
    rw [← List.append_nil (enclose name attrs content)]
    exact .element ht hn hc .nil

end Markup

/-! ## Trees -/

/-- Elements that end a line, and dates. -/
def lineNames : List String :=
  ["br", "p", "ul", "ol", "li", "time"]

mutual

/-- Whether a node is no element of one of the names and holds none. -/
def Node.avoids (names : List String) : Node → Bool
  | ⟨kind, _, children, _⟩ => !kind.tagName?.any names.contains && childrenAvoid names children

/-- Whether no element of one of the names is among the children or in them. -/
def childrenAvoid (names : List String) : List Child → Bool
  | [] => true
  | .node n :: ds => n.avoids names && childrenAvoid names ds
  | .text _ :: ds => childrenAvoid names ds

end

mutual

/-- The strings in a node, in their order. -/
def Node.strings : Node → List String
  | ⟨_, _, children, _⟩ => childrenStrings children

/-- The strings among the children and in them. -/
def childrenStrings : List Child → List String
  | [] => []
  | .node n :: ds => n.strings ++ childrenStrings ds
  | .text s :: ds => s :: childrenStrings ds

end

/-- Whether a text holds no end of a line. -/
def isOneLine (s : List Char) : Bool :=
  s.all fun c => c ≠ '\n' && c ≠ '\r'

/-- Whether no element of a date ends a line, nor the text that it falls back on. -/
def dateIsSimple (attributes : Attributes) (children : List Child) : Bool :=
  childrenAvoid lineNames children &&
    match Markup.attrText? attributes "fallback" with
    | some given => isOneLine given
    | none => (childrenStrings children).all fun s => isOneLine s.toList

mutual

/-- Whether the dates at and in a node are simple. -/
def Node.datesAreSimple : Node → Bool
  | ⟨kind, attributes, children, _⟩ =>
    (kind.tagName? != some "time" || dateIsSimple attributes children)
      && childrenDatesAreSimple children

/-- Whether all dates among the children and in them are simple. -/
def childrenDatesAreSimple : List Child → Bool
  | [] => true
  | .node n :: ds => n.datesAreSimple && childrenDatesAreSimple ds
  | .text _ :: ds => childrenDatesAreSimple ds

end

namespace Render

open Markup

/-- What the children of a date are written to: a format whose characters at the ends of lines are
those of its strings. -/
structure DateContent (strings : List String) (content : List Char) : Prop where
  format : FormatText content
  lines : ∀ c ∈ ['\n', '\r'], (∀ s ∈ strings, c ∉ s.toList) → c ∉ content

namespace DateContent

variable {ss ts : List String} {s t : List Char}

theorem nil : DateContent [] [] :=
  ⟨.nil, fun _ _ _ => List.not_mem_nil⟩

theorem append (h : DateContent ss s) (h' : DateContent ts t) : DateContent (ss ++ ts) (s ++ t) where
  format := h.format.append h'.format
  lines c hc hs hm := by
    rw [List.forall_mem_append] at hs
    exact (List.mem_append.mp hm).elim (h.lines c hc hs.1) (h'.lines c hc hs.2)

theorem of_string (s : String) : DateContent [s] (Text.escapeEntity s.toList) where
  format := .of_escapeEntity _
  lines c hc hs hm := by
    refine hs s List.mem_cons_self ((Text.mem_escapeEntity ?_).mp hm)
    simp only [List.mem_cons, List.not_mem_nil, or_false] at hc
    rcases hc with rfl | rfl <;> decide

theorem enclosed {name : String} (hn : name ∈ bareNames) (h : DateContent ss s) :
    DateContent ss (enclose name [] s) where
  format := h.format.enclosed hn
  lines c hc hs hm := by
    have hname : c ∉ name.toList := fun hm => by
      have hf := firm_of_mem_writtenNames (mem_writtenNames_of_mem_bareNames hn).1 c hm
      simp only [List.mem_cons, List.not_mem_nil, or_false] at hc
      rcases hc with rfl | rfl <;> exact absurd hf (by decide)
    have hmarks : c ∉ ['<', '>', '/'] := by
      simp only [List.mem_cons, List.not_mem_nil, or_false] at hc
      rcases hc with rfl | rfl <;> decide
    have he := enclose_append name [] s []
    rw [List.append_nil] at he
    rw [he] at hm
    simp only [List.mem_cons, List.not_mem_nil, or_false, not_or] at hmarks
    have hs := h.lines c hc hs
    simp [hname, hmarks, hs] at hm

end DateContent

/-- The kind of an element within a date: its look is passed through, or it has none. -/
theorem hidden_or_bare {name : String} (hn : (Inline.ofName? name).isSome = true)
    (hl : name ∉ lineNames) :
    ∃ kind, Inline.ofName? name = some kind ∧
      ("time" ∈ kind.hiddenWithin ∨ kind = .plain ∧ name ∈ bareNames) := by
  unfold Inline.ofName? at hn ⊢
  split at hn
  all_goals first
    | exact ⟨_, rfl, .inl (by decide)⟩
    | exact ⟨_, rfl, .inr ⟨rfl, by decide⟩⟩
    | exact absurd (by decide) hl
    | cases hn

theorem isDescendantOf_of_mem {ancestry : Ancestry} {tag : String} {tags : List String}
    (h : ancestry.isDescendantOf [tag] = true) (ht : tag ∈ tags) :
    ancestry.isDescendantOf tags = true := by
  cases hd : ancestry.isDescendantOf tags with
  | true => rfl
  | false =>
    rw [not_isDescendantOf_of_subset (by simpa using ht) hd] at h
    cases h

/-- Within a date an element comes to its content, in the tag of an element without a look at most. -/
theorem renderTag_within_date {name : String} (attrs : Attributes) (content : List Char)
    {ancestry : Ancestry} (ht : ancestry.isDescendantOf ["time"] = true)
    (hn : (Inline.ofName? name).isSome = true) (hl : name ∉ lineNames) :
    renderTag name attrs content ancestry = .ok content ∨
      name ∈ bareNames ∧ renderTag name attrs content ancestry = .ok (enclose name [] content) := by
  have hbr : name ≠ "br" := by
    rintro rfl
    exact hl (by decide)
  obtain ⟨kind, hk, hkind⟩ := hidden_or_bare hn hl
  simp only [renderTag, if_neg hbr, hk]
  split
  · exact .inl rfl
  · rcases hkind with hm | ⟨rfl, hbare⟩
    · rw [if_pos (isDescendantOf_of_mem ht hm)]
      exact .inl rfl
    · have hshown : ancestry.isDescendantOf Inline.plain.hiddenWithin = false := by
        simp [Inline.hiddenWithin, Ancestry.isDescendantOf]
      rw [hshown]
      exact .inr ⟨hbare, rfl⟩

variable {blocks : Bool} {c : Context}

mutual

theorem writes_dateContent_renderNode {c : Context} (hc : c.mode = .html)
    (ht : c.ancestry.isDescendantOf ["time"] = true) : (n : Node) → n.isInline blocks = true →
    n.avoids lineNames = true → Writes (fun o => DateContent n.strings o.toText) (renderNode c n)
  | ⟨kind, ⟨entries⟩, children, hook⟩, h, hl => by
    simp only [Node.isInline, Bool.and_eq_true, Option.any_eq_true, Bool.or_eq_true,
      Bool.not_eq_true', Option.isNone_iff_eq_none] at h
    obtain ⟨⟨⟨name, hname, hn, -⟩, rfl⟩, hchildren⟩ := h
    simp only [Node.avoids, Bool.and_eq_true, Bool.not_eq_true'] at hl
    cases kind with
    | tag name' =>
      obtain rfl := Option.some.inj hname
      have hout : name' ∉ lineNames := fun hm => by
        have hcontains : lineNames.contains name' = true := List.contains_iff_mem.mpr hm
        simp [Kind.tagName?, hm] at hl
      have hsome : (Inline.ofName? name').isSome = true := by
        rcases hn with hbr | hn
        · exact absurd (by rw [eq_of_beq hbr]; decide) hout
        · exact hn.1
      have htime : (c.enter name').ancestry.isDescendantOf ["time"] = true := by
        simp [Context.enter, ht]
      rw [renderNode_tag hc]
      refine (writes_dateContent_renderText (c := c.enter name') hc htime children hchildren hl.2).bind
        fun content hcontent => ?_
      rcases renderTag_within_date ⟨entries⟩ content ht hsome hout with he | ⟨hbare, he⟩
      · rw [he]
        exact .pure hcontent
      · rw [he]
        exact .pure (hcontent.enclosed hbare)
    | _ => cases hname

/-- The children of a date are written to its format. -/
theorem writes_dateContent_renderText {c : Context} (hc : c.mode = .html)
    (ht : c.ancestry.isDescendantOf ["time"] = true) : (ds : List Child) →
    childrenAreInline blocks ds = true → childrenAvoid lineNames ds = true →
      Writes (DateContent (childrenStrings ds)) (renderText c ds)
  | [], _, _ => .pure .nil
  | .node n :: ds, h, hl => by
    simp only [childrenAreInline, Bool.and_eq_true] at h
    simp only [childrenAvoid, Bool.and_eq_true] at hl
    simp only [renderText, renderChild, childrenStrings]
    refine (writes_dateContent_renderNode hc ht n h.1 hl.1).bind fun o ho => ?_
    exact (writes_dateContent_renderText hc ht ds h.2 hl.2).bind fun s hs => .pure (ho.append hs)
  | .text s :: ds, h, hl => by
    simp only [renderText, renderChild, pure_bind, childrenStrings]
    refine (writes_dateContent_renderText hc ht ds h hl).bind fun t hts => .pure ?_
    simp only [leaf, hc, Output.toText]
    exact (DateContent.of_string s).append hts

end

theorem not_mem_of_isOneLine {s : List Char} (h : isOneLine s = true) : ∀ c ∈ ['\n', '\r'], c ∉ s := by
  intro c hc hm
  have hall := List.all_eq_true.mp h c hm
  simp only [List.mem_cons, List.not_mem_nil, or_false] at hc
  rcases hc with rfl | rfl <;> simp at hall

/-- The fallback of a simple date is written as text without bars on one line. -/
theorem valueText_fallbackAttr {attributes : Attributes} {children : List Child} {content : List Char}
    (hs : dateIsSimple attributes children = true) (hc : DateContent (childrenStrings children) content)
    (i : Calendar.Instant) : ValueText (fallbackAttr attributes i (substituteBars content)) := by
  simp only [dateIsSimple, Bool.and_eq_true] at hs
  simp only [fallbackAttr]
  cases hf : attrText? attributes "fallback" with
  | some given =>
    rw [hf] at hs
    exact ⟨.of_escapeAttr _, quote_not_mem_escapeAttr _, fun x hx =>
      not_mem_escapeAttr hx (not_mem_substituteBars hx (not_mem_of_isOneLine hs.2))⟩
  | none =>
    rw [hf] at hs
    have hstrings : ∀ s ∈ childrenStrings children, ∀ c ∈ ['\n', '\r'], c ∉ s.toList := fun s hm =>
      not_mem_of_isOneLine (List.all_eq_true.mp hs.2 s hm)
    have hcontent : ∀ c ∈ ['\n', '\r'], c ∉ content := fun c hm =>
      hc.lines c hm fun s hs => hstrings s hs c hm
    have hentities := (hc.format.alike (alike_substituteBars content)).entityText
    exact ⟨(hentities.fallback i).escapeQuotes, quote_not_mem_escapeQuotes _, fun x hx =>
      not_mem_escapeQuotes hx (not_mem_fallback hx (not_mem_substituteBars hx hcontent) i)⟩

/-- A simple date is written as a date of dated text. -/
theorem datedText_timeElement {inLink : Bool} {attributes : Attributes} {children : List Child}
    {content html : List Char} (hs : dateIsSimple attributes children = true)
    (hc : DateContent (childrenStrings children) content)
    (hr : timeElement attributes content = .ok html) : DatedText blocks inLink html := by
  obtain ⟨i, rfl⟩ := timeElement_eq_ok hr
  rw [← List.append_nil (enclose "time" _ _)]
  refine .date ⟨Text.ofInt i.seconds, _, fun c hc => firm_of_mem_ofInt hc,
    valueText_fallbackAttr hs hc i, rfl⟩ (hc.format.alike (alike_substituteBars content)) ?_ .nil
  exact not_mem_substitute (by decide) content

mutual

theorem writes_dated_renderNode {c : Context} (hc : c.mode = .html) : (n : Node) →
    n.isInline blocks = true → n.datesAreSimple = true →
      Writes (fun o => DatedText blocks c.inLink o.toText) (renderNode c n)
  | ⟨kind, ⟨entries⟩, children, hook⟩, h, hs => by
    simp only [Node.isInline, Bool.and_eq_true, Option.any_eq_true, Bool.or_eq_true,
      Bool.not_eq_true', Option.isNone_iff_eq_none] at h
    obtain ⟨⟨⟨name, hname, hn, ha⟩, rfl⟩, hchildren⟩ := h
    simp only [Node.datesAreSimple, Bool.and_eq_true, Bool.or_eq_true] at hs
    cases kind with
    | tag name' =>
      obtain rfl := Option.some.inj hname
      rw [renderNode_tag hc]
      have hcontent := writes_dated_renderText (c := c.enter name') hc children hchildren hs.2
      have hsimple : name' = "time" → dateIsSimple ⟨entries⟩ children = true := fun e => by
        simpa [Kind.tagName?, e] using hs.1
      have hdate : name' = "time" →
          Writes (DateContent (childrenStrings children)) (renderText (c.enter name') children) := by
        rintro rfl
        have hall := hsimple rfl
        simp only [dateIsSimple, Bool.and_eq_true] at hall
        exact writes_dateContent_renderText (c := c.enter "time") hc (by simp [Context.enter])
          children hchildren hall.1
      have hboth : Writes (fun s => DatedText blocks (c.enter name').inLink s ∧
          (name' = "time" → DateContent (childrenStrings children) s))
          (renderText (c.enter name') children) := by
        by_cases ht : name' = "time"
        · exact (hcontent.and (hdate ht)).imp fun _ h => ⟨h.1, fun _ => h.2⟩
        · exact hcontent.imp fun _ h => ⟨h, fun e => absurd e ht⟩
      refine hboth.bind fun content hb => ?_
      refine (Writes.ofExcept ((fragments_datedText blocks).written_renderTag ?_ ?_ ?_ hb.1)).bind
        fun html hb => .pure hb
      · simpa using hn
      · intro hm
        simpa [hm] using ha
      · intro ht
        have hformat : Balanced blocks false content := (hb.2 ht).format.balanced
        exact (written_timeElement ⟨entries⟩ hformat).imp fun html hr _ =>
          datedText_timeElement (hsimple ht) (hb.2 ht) hr
    | _ => cases hname

/-- Children whose dates are simple are written to dated text. -/
theorem writes_dated_renderText {c : Context} (hc : c.mode = .html) : (ds : List Child) →
    childrenAreInline blocks ds = true → childrenDatesAreSimple ds = true →
      Writes (DatedText blocks c.inLink) (renderText c ds)
  | [], _, _ => .pure .nil
  | .node n :: ds, h, hs => by
    simp only [childrenAreInline, Bool.and_eq_true] at h
    simp only [childrenDatesAreSimple, Bool.and_eq_true] at hs
    simp only [renderText, renderChild]
    refine (writes_dated_renderNode hc n h.1 hs.1).bind fun o ho => ?_
    exact (writes_dated_renderText hc ds h.2 hs.2).bind fun s hs => .pure (ho.append hs)
  | .text s :: ds, h, hs => by
    simp only [renderText, renderChild, pure_bind]
    refine (writes_dated_renderText hc ds h hs).bind fun t ht => .pure (DatedText.append ?_ ht)
    simp only [leaf, hc, Output.toText]
    exact .of_formatText (.of_escapeEntity _)

end

end Render

end MessageLayout
