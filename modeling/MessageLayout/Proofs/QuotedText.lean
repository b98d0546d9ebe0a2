import MessageLayout.Proofs.GuardedCode
import MessageLayout.Proofs.QuoteParts

/-!
# Text of quotations

`QuoteText ps s` says that a fragment is written of the parts `ps`. The guards of styles leave the
parts of a text as they are. The guard of a quotation puts a character before each mark at the start
of a line, so no row begins with a mark if every mark that one would begin with stands there, and only
then.

    QuoteText ps s → QuoteText ps (guardStrong s), …                       (QuoteText.guardText)
    QuoteText ps s → QuoteText (guardedParts true ps) (guardQuote s)         (QuoteText.guardAt)
    (rowAfter? true (guardedParts true ps)).isSome = marksAreFirst ps
                                                         (isSome_rowAfter?_eq_marksAreFirst)
-/

namespace MessageLayout

namespace Markup

open Mrkdwn (QuotePart enclosedParts rowNames)

/-- A fragment that is written of some parts. -/
inductive QuoteText : List QuotePart → List Char → Prop
  | nil : QuoteText [] []
  | char {c : Char} {ps : List QuotePart} {s : List Char} :
      c ∉ ['&', '<', '>'] → QuoteText ps s → QuoteText (.ofChar c :: ps) (c :: s)
  | entity {c : Char} {ps : List QuotePart} {s : List Char} :
      c ∈ ['&', '<', '>'] → QuoteText ps s → QuoteText (.ofChar c :: ps) (Text.entity c ++ s)
  | lineBreak {ps : List QuotePart} {s : List Char} :
      QuoteText ps s → QuoteText (.lineBreak :: ps) (Markup.lineBreak ++ s)
  | element {name : String} {qs ps : List QuotePart} {content s : List Char} :
      name ∈ rowNames → QuoteText qs content → QuoteText ps s →
        QuoteText (enclosedParts qs ++ ps) (enclose name [] content ++ s)
  | code {qs ps : List QuotePart} {content s : List Char} :
      QuoteText qs content → QuoteText ps s →
        QuoteText (.code (qs.any QuotePart.shows) :: ps) (codeBlock content ++ s)

theorem written_of_mem_rowNames {name : String} (h : name ∈ rowNames) : name ∈ writtenNames := by
  have hall : ∀ n ∈ rowNames, n ∈ writtenNames := by decide
  exact hall name h

namespace QuoteText

variable {ps qs : List QuotePart} {s t content : List Char}

theorem append (h : QuoteText ps s) (h' : QuoteText qs t) : QuoteText (ps ++ qs) (s ++ t) := by
  induction h with
  | nil => exact h'
  | char hc _ ih => exact char hc ih
  | entity hc _ ih =>
    rw [List.append_assoc]
    exact entity hc ih
  | lineBreak _ ih =>
    rw [List.append_assoc]
    exact lineBreak ih
  | element hn hc _ _ ih =>
    rw [List.append_assoc, List.append_assoc]
    exact element hn hc ih
  | code hc _ _ ih =>
    rw [List.append_assoc]
    exact code hc ih

theorem of_escapeEntity (s : List Char) :
    QuoteText (s.map QuotePart.ofChar) (Text.escapeEntity s) := by
  induction s with
  | nil => exact nil
  | cons c s ih =>
    rw [Text.escapeEntity_cons]
    by_cases hc : c ∈ ['&', '<', '>']
    · exact entity hc ih
    · have hne := hc
      simp only [List.mem_cons, List.not_mem_nil, or_false, not_or] at hne
      rw [Text.entity_of_ne hne.1 hne.2.1 hne.2.2]
      exact char hc ih

theorem enclosed {name : String} (hn : name ∈ rowNames) (h : QuoteText qs content) :
    QuoteText (enclosedParts qs) (enclose name [] content) := by
  rw [← List.append_nil (enclose name [] content), ← List.append_nil (enclosedParts qs)]
  exact element hn h nil

theorem codeBlock (h : QuoteText qs content) :
    QuoteText [.code (qs.any QuotePart.shows)] (Markup.codeBlock content) := by
  rw [← List.append_nil (Markup.codeBlock content)]
  exact code h nil

end QuoteText

/-! ## Guards of styles -/

/-- The characters that the guards of styles replace, with those that they put in their place. -/
def styleLookalikes : List (Char × Char) :=
  [('*', '\u2217'), ('_', '\u02cd'), ('~', '\u223c'), ('\x60', '\u02cb')]

/-- The second text is the first with look-alikes for some characters. -/
def Swaps (s t : List Char) : Prop :=
  List.Forall₂ (fun c d => c = d ∨ (c, d) ∈ styleLookalikes) s t

namespace Swaps

variable {s t s' t' w : List Char}

theorem refl (s : List Char) : Swaps s s := by
  induction s with
  | nil => exact .nil
  | cons c s ih => exact .cons (.inl rfl) ih

theorem append (h : Swaps s t) (h' : Swaps s' t') : Swaps (s ++ s') (t ++ t') :=
  List.rel_append h h'

/-- A character that no guard replaces stays where it is. -/
theorem exists_cons {c : Char} (hc : Firm c ∨ c = '&') (h : Swaps (c :: s) t) :
    ∃ t', t = c :: t' ∧ Swaps s t' := by
  cases h with
  | @cons _ d _ t hcd h =>
    rcases hcd with rfl | hm
    · exact ⟨t, rfl, h⟩
    · simp only [styleLookalikes, List.mem_cons, Prod.mk.injEq, List.not_mem_nil, or_false] at hm
      rcases hm with ⟨rfl, -⟩ | ⟨rfl, -⟩ | ⟨rfl, -⟩ | ⟨rfl, -⟩ <;> exact absurd hc (by decide)

theorem exists_append (hw : ∀ c ∈ w, Firm c ∨ c = '&') (h : Swaps (w ++ s) t) :
    ∃ t', t = w ++ t' ∧ Swaps s t' := by
  induction w generalizing t with
  | nil => exact ⟨t, rfl, h⟩
  | cons c w ih =>
    obtain ⟨t₁, rfl, h₁⟩ := h.exists_cons (hw c List.mem_cons_self)
    obtain ⟨t', rfl, h'⟩ := ih (fun d hd => hw d (List.mem_cons_of_mem _ hd)) h₁
    exact ⟨t', rfl, h'⟩

theorem exists_split (h : Swaps (s ++ s') t) :
    ∃ t₁ t₂, t = t₁ ++ t₂ ∧ Swaps s t₁ ∧ Swaps s' t₂ := by
  induction s generalizing t with
  | nil => exact ⟨[], t, rfl, .nil, h⟩
  | cons c s ih =>
    cases h with
    | @cons _ d _ t hcd h =>
      obtain ⟨t₁, t₂, rfl, h₁, h₂⟩ := ih h
      exact ⟨d :: t₁, t₂, rfl, .cons hcd h₁, h₂⟩

theorem exists_enclose {name : String} (hn : name ∈ writtenNames)
    (h : Swaps (enclose name [] s ++ s') t) :
    ∃ u v, t = enclose name [] u ++ v ∧ Swaps s u ∧ Swaps s' v := by
  have hname : ∀ c ∈ name.toList, Firm c ∨ c = '&' := fun c hc =>
    .inl (firm_of_mem_writtenNames hn c hc)
  rw [enclose_append, List.nil_append] at h
  obtain ⟨t₁, rfl, h₁⟩ := h.exists_cons (by decide)
  obtain ⟨t₂, rfl, h₂⟩ := h₁.exists_append hname
  obtain ⟨t₃, rfl, h₃⟩ := h₂.exists_cons (by decide)
  obtain ⟨u, t₄, rfl, hu, h₄⟩ := h₃.exists_split
  obtain ⟨t₅, rfl, h₅⟩ := h₄.exists_cons (by decide)
  obtain ⟨t₆, rfl, h₆⟩ := h₅.exists_cons (by decide)
  obtain ⟨t₇, rfl, h₇⟩ := h₆.exists_append hname
  obtain ⟨v, rfl, hv⟩ := h₇.exists_cons (by decide)
  exact ⟨u, v, by rw [enclose_append, List.nil_append], hu, hv⟩

theorem of_substitute {c d : Char} (h : (c, d) ∈ styleLookalikes) (s : List Char) :
    Swaps s (substitute c d s) := by
  induction s with
  | nil => exact .nil
  | cons x s ih =>
    refine .cons ?_ ih
    by_cases hx : x = c
    · exact .inr (by simpa [hx] using h)
    · exact .inl (by simp [hx])

theorem of_substituteUnderscores (s : List Char) : Swaps s (substituteUnderscores s) := by
  fun_induction substituteUnderscores s with
  | case1 => exact .nil
  | case2 t name rest h _ ih =>
    rw [Text.eq_append_of_scanName? h]
    exact .cons (.inl rfl) ((Swaps.refl name).append (.cons (.inl rfl) ih))
  | case3 t h ih => exact .cons (.inl rfl) ih
  | case4 c t hc ih =>
    refine .cons ?_ ih
    split
    next hu => exact .inr (hu ▸ by decide)
    · exact .inl rfl

end Swaps

theorem ofChar_of_mem_styleLookalikes {c d : Char} (h : (c, d) ∈ styleLookalikes) :
    QuotePart.ofChar c = QuotePart.ofChar d ∧ d ∉ ['&', '<', '>'] := by
  simp only [styleLookalikes, List.mem_cons, Prod.mk.injEq, List.not_mem_nil, or_false] at h
  rcases h with ⟨rfl, rfl⟩ | ⟨rfl, rfl⟩ | ⟨rfl, rfl⟩ | ⟨rfl, rfl⟩ <;> decide

namespace QuoteText

variable {ps : List QuotePart} {s t : List Char}

/-- Look-alikes are parts like the characters that they stand for. -/
theorem swaps (h : QuoteText ps s) (hs : Swaps s t) : QuoteText ps t := by
  induction h generalizing t with
  | nil =>
    cases hs
    exact nil
  | char hc _ ih =>
    cases hs with
    | @cons _ d _ t hcd hs =>
      rcases hcd with rfl | hm
      · exact char hc (ih hs)
      · obtain ⟨hpart, hd⟩ := ofChar_of_mem_styleLookalikes hm
        rw [hpart]
        exact char hd (ih hs)
  | @entity c _ _ hc _ ih =>
    obtain ⟨w, hw, hfirm⟩ := exists_entity hc
    rw [hw] at hs
    obtain ⟨t', rfl, h'⟩ := hs.exists_append (w := '&' :: w)
      (List.forall_mem_cons.mpr ⟨.inr rfl, fun x hx => .inl (hfirm x hx)⟩)
    rw [← hw]
    exact entity hc (ih h')
  | lineBreak _ ih =>
    obtain ⟨t', rfl, h'⟩ := hs.exists_append fun c hc =>
      .inl (Text.forall_mem_of_all (p := Firm) (by decide) c hc)
    exact lineBreak (ih h')
  | element hn _ _ ihc ih =>
    obtain ⟨u, v, rfl, hu, hv⟩ := hs.exists_enclose (written_of_mem_rowNames hn)
    exact element hn (ihc hu) (ih hv)
  | code _ _ ihc ih =>
    obtain ⟨u, v, rfl, hu, hv⟩ := hs.exists_enclose (by decide)
    rw [← List.append_nil (enclose "code" [] _)] at hu
    obtain ⟨u', w, rfl, hu', hw⟩ := hu.exists_enclose (by decide)
    cases hw
    rw [List.append_nil]
    exact code (ihc hu') (ih hv)

/-- The guard of a style leaves the parts of a text as they are. -/
theorem guardText {f : List Char → List Char} (hf : ∀ s, Swaps s (f s)) (h : QuoteText ps s) :
    QuoteText ps (Markup.guardText f s) :=
  h.swaps (guardText_related .refl .append hf s)

end QuoteText

/-! ## The guard of a quotation -/

/-- The parts of a text with a further character before each mark at the start of a line. The flag
tells whether a line starts here. -/
def guardedParts : Bool → List QuotePart → List QuotePart
  | _, [] => []
  | _, .lineFeed :: ps => .lineFeed :: guardedParts true ps
  | line, .mark :: ps => (if line then [.shown] else []) ++ .mark :: guardedParts false ps
  | _, p :: ps => p :: guardedParts false ps

/-- Guards the lines of a quotation from a place on, which may be the start of a line. -/
def guardAt (line : Bool) (s : List Char) : List Char :=
  if line then guardQuote s else guardLater s

theorem guardAt_nil (line : Bool) : guardAt line [] = [] := by
  cases line <;> rfl

theorem guardAt_newline (line : Bool) (s : List Char) :
    guardAt line ('\n' :: s) = '\n' :: guardAt true s := by
  have hlines : Text.lines ('\n' :: s) = [] :: Text.lines s := rfl
  have hne : (Text.lines s).map guardQuoteLine ≠ [] := by simpa using Text.lines_ne_nil s
  cases line with
  | true =>
    show guardQuote ('\n' :: s) = '\n' :: guardQuote s
    rw [guardQuote, guardQuote, hlines, List.map_cons, Text.unlines_cons _ hne]
    rfl
  | false =>
    show guardLater ('\n' :: s) = '\n' :: guardQuote s
    rw [guardLater_of_lines hlines, Text.unlines_cons _ hne]
    rfl

/-- A first line that does not start with a mark stays as it is. -/
theorem guardAt_of_ne {s l : List Char} {ls : List (List Char)} (h : Text.lines s = l :: ls)
    (hl : guardQuoteLine l = l) (line : Bool) : guardAt line s = guardLater s := by
  cases line with
  | false => rfl
  | true =>
    show guardQuote s = guardLater s
    rw [guardQuote, h, List.map_cons, hl, guardLater_of_lines h]

theorem guardAt_cons {c : Char} (hn : c ≠ '\n') (hamp : c ≠ '&') (line : Bool) (s : List Char) :
    guardAt line (c :: s) = c :: guardAt false s := by
  obtain ⟨l, ls, hl⟩ := List.exists_cons_of_ne_nil (Text.lines_ne_nil s)
  have hline : guardQuoteLine (c :: l) = c :: l := guardQuoteLine.eq_2 _ fun t ht =>
    hamp (List.cons.inj ht).1
  exact (guardAt_of_ne (Text.lines_cons hn hl) hline line).trans (guardLater_cons hn s)

theorem guardAt_entity {c : Char} (hc : c ∈ ['&', '<', '>']) (line : Bool) (s : List Char) :
    guardAt line (Text.entity c ++ s)
      = (if line && c = '>' then ['\u00ad'] else []) ++ (Text.entity c ++ guardAt false s) := by
  obtain ⟨l, ls, hl⟩ := List.exists_cons_of_ne_nil (Text.lines_ne_nil s)
  have hn : '\n' ∉ Text.entity c := by
    simp only [List.mem_cons, List.not_mem_nil, or_false] at hc
    rcases hc with rfl | rfl | rfl <;> decide
  have hlines := Text.lines_append_of_not_mem hn hl
  have hlater : guardLater (Text.entity c ++ s) = Text.entity c ++ guardLater s :=
    guardLater_append_of_not_mem hn s
  have hother : guardQuoteLine (Text.entity c ++ l) = Text.entity c ++ l → (line && c = '>') = false →
      guardAt line (Text.entity c ++ s)
        = (if line && c = '>' then ['\u00ad'] else []) ++ (Text.entity c ++ guardAt false s) := by
    intro hsame hmark
    rw [guardAt_of_ne hlines hsame, hlater, hmark]
    rfl
  simp only [List.mem_cons, List.not_mem_nil, or_false] at hc
  rcases hc with rfl | rfl | rfl
  · exact hother rfl (by simp)
  · exact hother rfl (by simp)
  · cases line with
    | false => exact hlater
    | true =>
      have hmark : guardQuoteLine (Text.entity '>' ++ l) = '\u00ad' :: (Text.entity '>' ++ l) := rfl
      show guardQuote (Text.entity '>' ++ s) = '\u00ad' :: (Text.entity '>' ++ guardLater s)
      rw [guardQuote, hlines, List.map_cons, hmark, ← hlater, guardLater_of_lines hlines]
      exact (unlines_append_cons [] ['\u00ad'] _ _).trans rfl

/-- An element is guarded within and behind its start tag, at the starts of later lines. -/
theorem guardAt_enclose {name : String} (hn : name ∈ writtenNames) (line : Bool)
    (content s : List Char) :
    guardAt line (enclose name [] content ++ s)
      = enclose name [] (guardAt false content) ++ guardAt false s := by
  have hname : '\n' ∉ name.toList := fun hm => absurd (firm_of_mem_writtenNames hn _ hm) (by decide)
  have hcons : ∀ {c : Char} {t : List Char}, c ≠ '\n' → guardLater (c :: t) = c :: guardLater t :=
    fun hc => guardLater_cons hc _
  rw [enclose_append, enclose_append, List.nil_append, List.nil_append,
    guardAt_cons (by decide) (by decide)]
  show '<' :: guardLater _ = '<' :: (name.toList ++ '>' :: (guardLater content ++
    '<' :: '/' :: (name.toList ++ '>' :: guardLater s)))
  rw [guardLater_append_of_not_mem hname, hcons (by decide),
    guardLater_append (by decide) (by decide), hcons (by decide),
    guardLater_append_of_not_mem hname, hcons (by decide)]

/-! ### Parts under the guard -/

/-- A tag ends the start of a line. -/
theorem guardedParts_append_tag (line : Bool) (ps qs : List QuotePart) :
    guardedParts line (ps ++ .tag :: qs) = guardedParts line ps ++ .tag :: guardedParts false qs := by
  induction ps generalizing line with
  | nil => rfl
  | cons p ps ih =>
    cases p with
    | lineFeed => exact congrArg (QuotePart.lineFeed :: ·) (ih true)
    | mark =>
      simp only [List.cons_append, guardedParts, ih, List.append_assoc]
    | space => exact congrArg (QuotePart.space :: ·) (ih false)
    | blank => exact congrArg (QuotePart.blank :: ·) (ih false)
    | shown => exact congrArg (QuotePart.shown :: ·) (ih false)
    | tag => exact congrArg (QuotePart.tag :: ·) (ih false)
    | lineBreak => exact congrArg (QuotePart.lineBreak :: ·) (ih false)
    | code shows => exact congrArg (QuotePart.code shows :: ·) (ih false)

/-- The guard neither shows something new nor takes code away. -/
theorem guardedParts_eq (line : Bool) (ps : List QuotePart) :
    (guardedParts line ps).any QuotePart.shows = ps.any QuotePart.shows ∧
      (guardedParts line ps).count (.code true) = ps.count (.code true) := by
  induction ps generalizing line with
  | nil => exact ⟨rfl, rfl⟩
  | cons p ps ih =>
    obtain ⟨ihs, ihc⟩ := ih false
    cases p with
    | lineFeed => simp [guardedParts, ih true]
    | mark => cases line <;> simp [guardedParts, ihc, QuotePart.shows]
    | _ => simp [guardedParts, ihs, ihc, List.count_cons]

theorem guardedParts_enclosedParts (line : Bool) (qs ps : List QuotePart) :
    guardedParts line (enclosedParts qs ++ ps)
      = enclosedParts (guardedParts false qs) ++ guardedParts false ps := by
  have hshows := (guardedParts_eq false qs).1
  unfold Mrkdwn.enclosedParts
  rw [hshows]
  split
  · have htag := guardedParts_append_tag false qs ps
    simpa [guardedParts] using htag
  · rfl

/-- Where the next character of a quotation stands. -/
inductive RowPlace where
  /-- At the start of a row and of the text, or right behind a line feed of the text. -/
  | start
  /-- In a row that has yet to show something, behind a tag, a space or what ended the row before. -/
  | begun
  /-- Behind what a row shows. -/
  | within
deriving DecidableEq, Repr

/-- The place behind a part. There is none behind a mark that a row begins with, unless it stands at
the start. -/
def RowPlace.next? (place : RowPlace) (p : QuotePart) : Option RowPlace :=
  match p with
  | .lineFeed => some (if place = within then within else start)
  | .space | .tag => some (if place = within then within else begun)
  | .mark => if place = begun then none else some within
  | .blank | .shown => some within
  | .lineBreak | .code _ => some begun

/-- Whether every mark that a row begins with stands at the very start of the text or right behind a
line feed of it. -/
def marksAreFirst (ps : List QuotePart) : Bool :=
  (ps.foldlM RowPlace.next? .start).isSome

/-- The place in a row that has yet to show something or not, at the start of a line or not. -/
def RowPlace.of (row line : Bool) : RowPlace :=
  if row then (if line then start else begun) else within

/-- The guard sees the starts of lines, and so the places are those in the rows under the guard. -/
theorem isSome_rowAfter?_guardedParts (row line : Bool) (ps : List QuotePart) :
    (Mrkdwn.rowAfter? row (guardedParts line ps)).isSome
      = (ps.foldlM RowPlace.next? (.of row line)).isSome := by
  induction ps generalizing row line with
  | nil => rfl
  | cons p ps ih =>
    cases p with
    | lineFeed => cases row <;> cases line <;> exact ih _ true
    | mark =>
      cases row with
      | true =>
        cases line with
        | true => exact ih false false
        | false => rfl
      | false => cases line <;> exact ih false false
    | space => cases row <;> cases line <;> exact ih _ false
    | tag => cases row <;> cases line <;> exact ih _ false
    | blank => exact ih false false
    | shown => exact ih false false
    | lineBreak => exact ih true false
    | code _ => exact ih true false

/-- Under the guard no row begins with a mark if and only if every mark that one begins with stands at
the start. -/
theorem isSome_rowAfter?_eq_marksAreFirst (ps : List QuotePart) :
    (Mrkdwn.rowAfter? true (guardedParts true ps)).isSome = marksAreFirst ps :=
  isSome_rowAfter?_guardedParts true true ps

theorem QuoteText.guardAt {ps : List QuotePart} {s : List Char} (h : QuoteText ps s) (line : Bool) :
    QuoteText (guardedParts line ps) (Markup.guardAt line s) := by
  induction h generalizing line with
  | nil =>
    rw [guardAt_nil]
    exact .nil
  | @char c ps s hc _ ih =>
    by_cases hn : c = '\n'
    · subst hn
      rw [guardAt_newline]
      exact .char hc (ih true)
    · have hne := hc
      simp only [List.mem_cons, List.not_mem_nil, or_false, not_or] at hne
      have hpart : guardedParts line (.ofChar c :: ps) = .ofChar c :: guardedParts false ps := by
        unfold QuotePart.ofChar
        rw [if_neg hn, if_neg hne.2.2]
        split
        · rfl
        · split <;> rfl
      rw [guardAt_cons hn hne.1, hpart]
      exact .char hc (ih false)
  | @entity c ps s hc _ ih =>
    have hpart : guardedParts line (.ofChar c :: ps)
        = (if line && c = '>' then [.shown] else []) ++ .ofChar c :: guardedParts false ps := by
      simp only [List.mem_cons, List.not_mem_nil, or_false] at hc
      rcases hc with rfl | rfl | rfl <;> cases line <;> rfl
    rw [guardAt_entity hc, hpart]
    refine append ?_ (.entity hc (ih false))
    split
    · have hshown : QuotePart.ofChar '\u00ad' = .shown := by decide
      rw [← hshown]
      exact .char (by decide) .nil
    · exact .nil
  | @lineBreak ps s _ ih =>
    have hn : ∀ c ∈ Markup.lineBreak, c ≠ '\n' ∧ c ≠ '&' := Text.forall_mem_of_all (by decide)
    have hcons : Markup.guardAt line (Markup.lineBreak ++ s)
        = Markup.lineBreak ++ Markup.guardAt false s := by
      show Markup.guardAt line ('<' :: ("br />".toList ++ s)) = _
      rw [guardAt_cons (by decide) (by decide)]
      exact congrArg ('<' :: ·) (guardLater_append_of_not_mem (by decide) s)
    rw [hcons]
    exact .lineBreak (ih false)
  | @element name qs ps content s hn _ _ ihc ih =>
    rw [guardAt_enclose (written_of_mem_rowNames hn), guardedParts_enclosedParts]
    exact .element hn (ihc false) (ih false)
  | @code qs ps content s _ _ ihc ih =>
    have hname : "code" ∈ writtenNames := by decide
    have hcode := guardAt_enclose hname false content []
    rw [List.append_nil, guardAt_nil, List.append_nil] at hcode
    rw [Markup.codeBlock, guardAt_enclose (by decide), hcode]
    have h := QuoteText.code (ihc false) (ih false)
    rw [(guardedParts_eq false qs).1] at h
    exact h

end Markup

end MessageLayout
