import MessageLayout.Proofs.BuiltElements
import MessageLayout.Proofs.DateFragments
import MessageLayout.Proofs.QuotedText

/-!
# Elements of quotations

The reader builds just the elements that the text of a quotation is written of, and their parts are
those of the text, as far as they count.

    QuoteText ps s → the tokens of s add nodes with those of ps that count
                                                                        (QuoteText.exists_runFrom)
    QuoteText ps s → parse (enclose "blockquote" [] s) = [.element "blockquote" [] inner], whose parts
      are those of ps that count                                         (exists_parse_quotation)
-/

namespace MessageLayout

namespace Html

open Markup (QuoteText codeBlock enclose firm_of_mem_writtenNames enclose_append
  written_of_mem_rowNames)
open Mrkdwn (QuotePart enclosedParts rowNames areQuotable isQuotable quoteParts quotePartsOf textParts
  areQuotable_iff quotePartsOf_append quotePartsOf_singleton quoteParts_of_mem_rowNames
  any_shows_quotePartsOf)

/-! ## Reading -/

theorem unifyLineEnds_enclose {name : String} (hn : name ∈ Markup.writtenNames)
    (content s : List Char) :
    unifyLineEnds (enclose name [] content ++ s)
      = enclose name [] (unifyLineEnds content) ++ unifyLineEnds s := by
  have hname : '\r' ∉ name.toList := fun hm => absurd (firm_of_mem_writtenNames hn _ hm) (by decide)
  rw [enclose_append, enclose_append, List.nil_append, List.nil_append,
    unifyLineEnds_cons (by decide), unifyLineEnds_append hname, unifyLineEnds_cons (by decide),
    unifyLineEnds_append_cons (by decide) (by decide), unifyLineEnds_cons (by decide),
    unifyLineEnds_append hname, unifyLineEnds_cons (by decide)]

theorem any_shows_filter (ps : List QuotePart) :
    (ps.filter QuotePart.counts).any QuotePart.shows = ps.any QuotePart.shows := by
  rw [List.any_filter]
  refine congrArg (ps.any ·) (funext fun p => ?_)
  cases p <;> rfl

/-- The parts of an element that count. -/
theorem filter_enclosedParts (ps : List QuotePart) :
    (enclosedParts ps).filter QuotePart.counts
      = if (ps.filter QuotePart.counts).any QuotePart.shows then ps.filter QuotePart.counts else [] := by
  rw [any_shows_filter]
  unfold enclosedParts
  split
  · simp [QuotePart.counts]
  · rfl

/-- Written as line feeds, line ends leave the parts that count. -/
theorem QuoteText.unifyLineEnds {ps : List QuotePart} {s : List Char} (h : QuoteText ps s) :
    ∃ qs, QuoteText qs (unifyLineEnds s) ∧ qs.filter QuotePart.counts = ps.filter QuotePart.counts := by
  induction h with
  | nil => exact ⟨[], .nil, rfl⟩
  | @char c ps s hc _ ih =>
    obtain ⟨qs, hqs, he⟩ := ih
    by_cases hr : c = '\r'
    · subst hr
      by_cases hn : ∃ t, s = '\n' :: t
      · obtain ⟨t, rfl⟩ := hn
        have hunify : Html.unifyLineEnds ('\r' :: '\n' :: t) = Html.unifyLineEnds ('\n' :: t) :=
          (unifyLineEnds_cons (by decide) t).symm
        rw [hunify]
        exact ⟨qs, hqs, he⟩
      · have hunify := unifyLineEnds_carriageReturn fun t ht => hn ⟨t, ht⟩
        rw [hunify]
        exact ⟨.ofChar '\n' :: qs, .char (by decide) hqs, he⟩
    · rw [unifyLineEnds_cons hr]
      refine ⟨.ofChar c :: qs, .char hc hqs, ?_⟩
      rw [List.filter_cons, List.filter_cons, he]
  | @entity c ps s hc _ ih =>
    obtain ⟨qs, hqs, he⟩ := ih
    have hr : '\r' ∉ Text.entity c := by
      simp only [List.mem_cons, List.not_mem_nil, or_false] at hc
      rcases hc with rfl | rfl | rfl <;> decide
    rw [unifyLineEnds_append hr]
    refine ⟨.ofChar c :: qs, .entity hc hqs, ?_⟩
    rw [List.filter_cons, List.filter_cons, he]
  | lineBreak _ ih =>
    obtain ⟨qs, hqs, he⟩ := ih
    rw [unifyLineEnds_append (by decide)]
    exact ⟨.lineBreak :: qs, .lineBreak hqs, congrArg (QuotePart.lineBreak :: ·) he⟩
  | element hn _ _ ihc ih =>
    obtain ⟨qs, hqs, he⟩ := ih
    obtain ⟨rs, hrs, hr⟩ := ihc
    rw [unifyLineEnds_enclose (written_of_mem_rowNames hn)]
    refine ⟨_, .element hn hrs hqs, ?_⟩
    simp only [List.filter_append, filter_enclosedParts, he, hr]
  | @code inner _ content _ _ _ ihc ih =>
    obtain ⟨qs, hqs, he⟩ := ih
    obtain ⟨rs, hrs, hr⟩ := ihc
    have hname : "code" ∈ Markup.writtenNames := by decide
    have hcode := unifyLineEnds_enclose hname content []
    rw [List.append_nil] at hcode
    rw [codeBlock, unifyLineEnds_enclose (by decide), hcode]
    have h := QuoteText.code hrs hqs
    rw [← any_shows_filter, hr, any_shows_filter] at h
    refine ⟨.code (inner.any QuotePart.shows) :: qs, ?_, by rw [List.filter_cons, List.filter_cons, he]⟩
    simpa [codeBlock, Html.unifyLineEnds] using h

theorem areQuotable_reverse {ds : List Dom} (h : areQuotable ds = true) :
    areQuotable ds.reverse = true := by
  rw [areQuotable_iff] at h ⊢
  exact fun d hd => h d (List.mem_reverse.mp hd)

theorem areQuotable_addChar {done : List Dom} (h : areQuotable done = true) {x : Char}
    (hx : x ≠ '\u0000') : areQuotable (addChar done x) = true := by
  rw [areQuotable_iff] at h ⊢
  unfold addChar
  split
  next t ds =>
    obtain ⟨ht, hds⟩ := List.forall_mem_cons.mp h
    refine List.forall_mem_cons.mpr ⟨?_, hds⟩
    simp only [isQuotable, decide_eq_true_eq] at ht ⊢
    simp [ht, Ne.symm hx]
  · exact List.forall_mem_cons.mpr ⟨by simp [isQuotable, Ne.symm hx], h⟩

theorem quotePartsOf_addChar (done : List Dom) (x : Char) :
    quotePartsOf (addChar done x).reverse
      = quotePartsOf done.reverse ++ [QuotePart.ofChar x].filter QuotePart.counts := by
  unfold addChar
  split
  next t ds =>
    simp only [List.reverse_cons, quotePartsOf_append, quotePartsOf_singleton, quoteParts, textParts,
      List.map_append, List.filter_append, List.append_assoc]
    rfl
  · simp only [List.reverse_cons, quotePartsOf_append, quotePartsOf_singleton, quoteParts, textParts]
    rfl

/-- Tokens that build nodes with some parts behind what is finished. -/
def BuildsParts (ps : List QuotePart) (ts : List Token) : Prop :=
  ∀ done, areQuotable done = true → ∃ done', areQuotable done' = true ∧
    quotePartsOf done'.reverse = quotePartsOf done.reverse ++ ps.filter QuotePart.counts ∧
      Builds true ts done done'

variable {ps qs : List QuotePart} {ts us : List Token}

namespace BuildsParts

theorem nil : BuildsParts [] [] :=
  fun done h => ⟨done, h, (List.append_nil _).symm, .nil done⟩

/-- With nothing finished before them, the nodes have these parts and no others. -/
theorem exists_inner (h : BuildsParts ps ts) :
    ∃ inner, areQuotable inner.reverse = true ∧
      quotePartsOf inner.reverse = ps.filter QuotePart.counts ∧ Builds true ts [] inner := by
  obtain ⟨inner, hinner, hparts, hbuilds⟩ := h [] rfl
  exact ⟨inner, areQuotable_reverse hinner, by simpa [quotePartsOf] using hparts, hbuilds⟩

/-- Further parts stand behind the nodes that a first one adds. -/
theorem cons {p : QuotePart} (h : BuildsParts ps ts)
    (hfirst : ∀ done, areQuotable done = true → ∃ more, areQuotable more = true ∧
      quotePartsOf more.reverse = quotePartsOf done.reverse ++ [p].filter QuotePart.counts ∧
        ∀ done', Builds true ts more done' → Builds true us done done') :
    BuildsParts (p :: ps) us := by
  intro done hdone
  obtain ⟨more, hmore, hparts, hbuilds⟩ := hfirst done hdone
  obtain ⟨done', hdone', hparts', h⟩ := h more hmore
  refine ⟨done', hdone', ?_, hbuilds done' h⟩
  rw [hparts', hparts, List.append_assoc, ← List.filter_append]
  rfl

theorem char {x : Char} (hx : x ≠ '\u0000') (h : BuildsParts ps ts) :
    BuildsParts (.ofChar x :: ps) (.char x :: ts) :=
  h.cons fun done hdone => ⟨addChar done x, areQuotable_addChar hdone hx, quotePartsOf_addChar done x,
    fun _ hb => .char hb⟩

/-- An element stands with its parts behind what is finished. -/
theorem element {name : String} (hopens : OpensPlainly true name)
    (hpre : name = "pre" → ∀ x vs, us ≠ .char x :: vs) (hc : BuildsParts qs us) (h : BuildsParts ps ts)
    (rs : List QuotePart)
    (hself : ∀ inner, areQuotable inner = true →
      quotePartsOf inner = qs.filter QuotePart.counts →
        isQuotable (.element name [] inner) = true ∧
          quoteParts (.element name [] inner) = rs.filter QuotePart.counts) :
    BuildsParts (rs ++ ps) (.startTag name [] :: us ++ .endTag name :: ts) := by
  intro done hdone
  obtain ⟨inner, hinner, hparts, hbuilds⟩ := hc.exists_inner
  obtain ⟨hq, hown⟩ := hself inner.reverse hinner hparts
  have hmore : areQuotable (.element name [] inner.reverse :: done) = true := by
    simp [areQuotable, hq, hdone]
  obtain ⟨done', hdone', hrest, h⟩ := h _ hmore
  refine ⟨done', hdone', ?_, .element hopens hpre hbuilds h⟩
  rw [hrest, List.reverse_cons, quotePartsOf_append, quotePartsOf_singleton, hown, List.filter_append,
    List.append_assoc]

end BuildsParts

theorem opensPlainly_of_mem_rowNames {name : String} (hn : name ∈ rowNames) :
    OpensPlainly true name ∧ name ≠ "pre" := by
  simp only [rowNames, List.mem_cons, List.not_mem_nil, or_false] at hn
  unfold OpensPlainly
  rcases hn with rfl | rfl | rfl | rfl | rfl <;> decide

/-- An element shows something when what is in it does. -/
theorem isBlank_element {name : String} {inner : List Dom} (hinner : areQuotable inner = true)
    (hparts : quotePartsOf inner = qs.filter QuotePart.counts) :
    (Dom.element name [] inner).isBlank = !qs.any QuotePart.shows := by
  have hshows := any_shows_quotePartsOf inner hinner
  rw [hparts, any_shows_filter] at hshows
  have hvisible : (Dom.element name [] inner).isBlank = false ↔ Dom.HasVisible inner :=
    Dom.isBlank_element_eq_false
  rw [← hshows] at hvisible
  cases hs : qs.any QuotePart.shows with
  | true => exact hvisible.mpr hs
  | false => simpa [hs] using hvisible

/-- A code block shows something when its code does. -/
theorem isBlank_codeBlock {inner : List Dom} (hinner : areQuotable inner = true)
    (hparts : quotePartsOf inner = qs.filter QuotePart.counts) :
    (Dom.element "pre" [] [.element "code" [] inner]).isBlank = !qs.any QuotePart.shows := by
  have hcode : (Dom.element "pre" [] [.element "code" [] inner]).isBlank
      = (Dom.element "code" [] inner).isBlank := by
    simp [Dom.isBlank, Dom.anyMentions, Dom.mentions]
  rw [hcode, isBlank_element hinner hparts]

/-- A code block stands behind what is finished as one part, whatever parts its code has. -/
theorem BuildsParts.code (hc : BuildsParts qs us) (h : BuildsParts ps ts) :
    BuildsParts (.code (qs.any QuotePart.shows) :: ps)
      (.startTag "pre" [] :: (.startTag "code" [] :: us ++ [.endTag "code"]) ++ .endTag "pre" :: ts) := by
  have hname : "code" ∈ rowNames := by decide
  refine h.cons fun done hdone => ?_
  obtain ⟨inner, hinner, hparts, hbuilds⟩ := hc.exists_inner
  refine ⟨.element "pre" [] [.element "code" [] inner.reverse] :: done, ?_, ?_, fun done' hb => ?_⟩
  · simp [areQuotable, isQuotable, Mrkdwn.fencedCode?, hdone, hinner, hname]
  · rw [List.reverse_cons, quotePartsOf_append, quotePartsOf_singleton]
    simp only [quoteParts, Mrkdwn.fencedCode?, isBlank_codeBlock hinner hparts, Bool.not_not]
    rfl
  · have hcodes : Builds true (.startTag "code" [] :: us ++ [.endTag "code"]) []
        [.element "code" [] inner.reverse] :=
      .element (opensPlainly_of_mem_rowNames hname).1 (fun e => absurd e (by decide)) hbuilds (.nil _)
    have hopens : OpensPlainly true "pre" := .inr (.inr ⟨rfl, by decide⟩)
    exact .element hopens (fun _ x vs e => by cases e) hcodes hb

theorem runFrom_plainElement {name : String} (hn : name ∈ Markup.writtenNames) {content : List Char}
    {ts : List Token} (hc : runFrom (.reading .text) content = (.reading .text, ts)) :
    runFrom (.reading .text) (enclose name [] content)
      = (.reading .text, .startTag name [] :: ts ++ [.endTag name]) :=
  runFrom_enclose hn hc (by simpa using runFrom_plainTag hn)

/-- The tokens of a text build nodes with its parts. -/
theorem QuoteText.exists_runFrom {ps : List QuotePart} {s : List Char} (h : QuoteText ps s) :
    ∃ ts, runFrom (.reading .text) s = (.reading .text, ts) ∧ BuildsParts ps ts := by
  induction h with
  | nil => exact ⟨[], rfl, .nil⟩
  | @char c ps s hc _ ih =>
    obtain ⟨ts, hr, hts⟩ := ih
    simp only [List.mem_cons, List.not_mem_nil, or_false, not_or] at hc
    by_cases hz : c.toNat = 0
    · obtain rfl : c = '\u0000' := Char.toNat_inj.mp hz
      refine ⟨.null :: ts, by simp [runFrom, Mode.step, Place.step, textChar, hr], ?_⟩
      exact hts.cons fun done hdone => ⟨done, hdone, (List.append_nil _).symm, fun _ hb => .null hb⟩
    · refine ⟨.char c :: ts, by simp [runFrom, Mode.step, Place.step, textChar, hc, hz, hr], ?_⟩
      exact hts.char fun e => hz (e ▸ rfl)
  | @entity c ps s hc _ ih =>
    obtain ⟨ts, hr, hts⟩ := ih
    have hz : c.toNat ≠ 0 ∧ c ≠ '\u0000' := by
      simp only [List.mem_cons, List.not_mem_nil, or_false] at hc
      rcases hc with rfl | rfl | rfl <;> decide
    refine ⟨.char c :: ts, ?_, hts.char hz.2⟩
    rw [runFrom_append, runFrom_entity hz.1, hr]
    rfl
  | lineBreak _ ih =>
    obtain ⟨ts, hr, hts⟩ := ih
    have hb : runFrom (.reading .text) Markup.lineBreak = (.reading .text, [.startTag "br" []]) := rfl
    refine ⟨.startTag "br" [] :: ts, ?_, hts.cons fun done hdone => ?_⟩
    · rw [runFrom_append, hb, hr]
      rfl
    · refine ⟨.element "br" [] [] :: done, ?_, ?_, fun _ hb => .lineBreak hb⟩
      · simp [areQuotable, isQuotable, hdone]
      · rw [List.reverse_cons, quotePartsOf_append, quotePartsOf_singleton]
        rfl
  | @element name qs ps content s hn _ _ ihc ih =>
    obtain ⟨us, hrc, hus⟩ := ihc
    obtain ⟨ts, hr, hts⟩ := ih
    obtain ⟨hopens, hpre⟩ := opensPlainly_of_mem_rowNames hn
    refine ⟨.startTag name [] :: us ++ .endTag name :: ts, ?_, ?_⟩
    · rw [runFrom_append, runFrom_plainElement (written_of_mem_rowNames hn) hrc, hr]
      simp
    · exact hus.element hopens (fun e => absurd e hpre) hts (enclosedParts qs)
        fun inner hinner hparts => ⟨by simp [isQuotable, hn, hinner], by
          rw [quoteParts_of_mem_rowNames hn, hparts, isBlank_element hinner hparts,
            filter_enclosedParts, any_shows_filter]
          cases qs.any QuotePart.shows <;> rfl⟩
  | @code qs ps content s _ _ ihc ih =>
    obtain ⟨us, hrc, hus⟩ := ihc
    obtain ⟨ts, hr, hts⟩ := ih
    have hname : "code" ∈ rowNames := by decide
    have hcode := runFrom_plainElement (written_of_mem_rowNames hname) hrc
    have hpre : "pre" ∈ Markup.writtenNames := by decide
    refine ⟨.startTag "pre" [] :: (.startTag "code" [] :: us ++ [.endTag "code"]) ++ .endTag "pre" :: ts,
      ?_, hus.code hts⟩
    rw [runFrom_append, codeBlock, runFrom_plainElement hpre hcode, hr]
    simp

/-- A quotation is read as an element around nodes with its parts. -/
theorem exists_parse_quotation {ps : List QuotePart} {s : List Char} (h : QuoteText ps s) :
    ∃ inner, areQuotable inner = true ∧ quotePartsOf inner = ps.filter QuotePart.counts ∧
      parse (enclose "blockquote" [] s) = [.element "blockquote" [] inner] := by
  obtain ⟨qs, hqs, he⟩ := QuoteText.unifyLineEnds h
  obtain ⟨us, hr, hus⟩ := QuoteText.exists_runFrom hqs
  obtain ⟨inner, hinner, hparts, hbuilds⟩ := hus.exists_inner
  have hname : "blockquote" ∈ Markup.writtenNames := by decide
  have hunified := unifyLineEnds_enclose hname s []
  rw [List.append_nil] at hunified
  have htokens : tokens (enclose "blockquote" [] s)
      = .startTag "blockquote" [] :: us ++ [.endTag "blockquote"] := by
    have hmark : dropMark (enclose "blockquote" [] s) = enclose "blockquote" [] s := rfl
    have hempty : Html.unifyLineEnds [] = [] := rfl
    refine tokens_eq_of_runFrom ?_
    rw [hmark, hunified, hempty, List.append_nil, runFrom_plainElement hname hr]
  have hopens : OpensPlainly true "blockquote" := .inr (.inr ⟨rfl, by decide⟩)
  have hbuilt : Builds true (tokens (enclose "blockquote" [] s)) []
      [.element "blockquote" [] inner.reverse] := by
    rw [htokens]
    exact .element hopens (fun e => absurd e (by decide)) hbuilds (.nil _)
  exact ⟨inner.reverse, hinner, hparts.trans he, hbuilt.parse_eq ⟨_, _, _, by decide, htokens⟩⟩

end Html

end MessageLayout
