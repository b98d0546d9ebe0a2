import MessageLayout.Proofs.HoledLayout
import MessageLayout.Proofs.LinkPlaces

/-!
# Labels of mentions in a fragment

A link that mentions someone may have a word of letters and digits for its content, its label. Two
fragments that differ in labels only, and nowhere in a code block, stay such fragments under every
guard, for no guard touches a letter or a digit. They are read to the same tokens but for the words,
and so to one tree with holes. In the end the mrkdwn of both is the same.

    Labelled u v s t → Labelled u v (guardText f s) (guardText f t)      (Labelled.guardText)
    Labelled u v s t → Labelled u v (guardQuote s) (guardQuote t)        (Labelled.guardQuote)
    Labelled u v s t → ofHtml options s = ofHtml options t               (ofHtml_of_labelled)
-/

namespace MessageLayout

/-- A label: a text of letters and digits. -/
structure IsLabel (u : List Char) : Prop where
  ne_nil : u ≠ []
  alphanum : ∀ c ∈ u, c.isAlphanum = true

namespace IsLabel

variable {u : List Char}

theorem not_mem (h : IsLabel u) {c : Char} (hc : c.isAlphanum = false) : c ∉ u := by
  intro hm
  rw [h.alphanum c hm] at hc
  cases hc

theorem plainWord (h : IsLabel u) : PlainWord u := by
  refine ⟨h.ne_nil, fun c hc => Text.isBlank_of_isAlphanum (h.alphanum c hc), fun c hc hm => ?_⟩
  exact h.not_mem (Text.forall_mem_of_all (p := fun c => c.isAlphanum = false) (by decide) c hm) hc

theorem isSpace_eq_false (h : IsLabel u) : ∀ c ∈ u, Html.isSpace c = false := by
  intro c hc
  refine Bool.eq_false_iff.mpr fun hs => ?_
  simp only [Html.isSpace, Bool.or_eq_true, decide_eq_true_eq] at hs
  rcases hs with (((rfl | rfl) | rfl) | he) | rfl
  case inl.inr =>
    have hfeed : c = '\x0c' := by rw [← Char.ofNat_toNat c, he]
    exact h.not_mem (by decide) (hfeed ▸ hc)
  all_goals exact h.not_mem (by decide) hc

end IsLabel

/-- The target of a mention holds letters and digits and the sign before them. -/
theorem mem_of_ofHref? {href : List Char} (h : (Mention.ofHref? href).isSome = true) :
    ∀ c ∈ href, c ∈ ['#', '@'] ∨ c.isAlphanum = true := by
  obtain ⟨m, hm⟩ := Option.isSome_iff_exists.mp h
  have htarget := fun c hc => Mrkdwn.isAlphanum_of_mem_target hm (c := c) hc
  obtain ⟨sign, hsign, rfl⟩ := Mrkdwn.exists_cons_target hm
  exact List.forall_mem_cons.mpr ⟨.inl hsign, fun c hc => .inr (htarget c hc)⟩

theorem not_mem_of_ofHref? {href : List Char} (h : (Mention.ofHref? href).isSome = true) {c : Char}
    (hs : c ∉ ['#', '@']) (hc : c.isAlphanum = false) : c ∉ href := by
  intro hm
  rcases mem_of_ofHref? h c hm with hm | ha
  · exact hs hm
  · rw [hc] at ha
    cases ha

theorem escapeAttr_of_ofHref? {href : List Char} (h : (Mention.ofHref? href).isSome = true) :
    Text.escapeAttr href = href := by
  have hchar : ∀ c ∈ href, (if c = '"' then "&quot;".toList else Text.entity c) = [c] := by
    intro c hc
    have hne : ∀ {d}, d ∉ ['#', '@'] → d.isAlphanum = false → c ≠ d := fun hs ha e =>
      not_mem_of_ofHref? h hs ha (e ▸ hc)
    rw [if_neg (hne (by decide) (by decide)), Text.entity_of_ne (hne (by decide) (by decide))
      (hne (by decide) (by decide)) (hne (by decide) (by decide))]
  rw [Text.escapeAttr, List.flatMap_congr hchar]
  simp

namespace Markup

/-! ## Tags that need not nest -/

/-- A text of tags, and text without blocks between them. The tags need not nest, save those of code
blocks, which hold balanced text. -/
inductive TagSoup : List Char → Prop
  | last {s : List Char} : Balanced false false s → TagSoup s
  | startTag {inLink : Bool} {name : String} {before attrs s : List Char} :
      Balanced false false before → TagText true inLink name attrs → name ≠ "pre" → TagSoup s →
        TagSoup (before ++ '<' :: (name.toList ++ (attrs ++ '>' :: s)))
  | endTag {name : String} {before s : List Char} :
      Balanced false false before → name ∈ writtenNames → name ≠ "pre" → TagSoup s →
        TagSoup (before ++ '<' :: '/' :: (name.toList ++ '>' :: s))
  | codeBlock {blocks inLink : Bool} {before attrs content s : List Char} :
      Balanced false false before → TagText blocks inLink "pre" attrs →
        Balanced blocks (inLink || "pre" == "a") content → TagSoup s →
          TagSoup (before ++ (enclose "pre" attrs content ++ s))

namespace TagSoup

variable {s t : List Char}

theorem balanced_append (hs : Balanced false false s) (h : TagSoup t) : TagSoup (s ++ t) := by
  cases h with
  | last hb => exact .last (hs.append hb)
  | startTag hb ht hn h =>
    rw [← List.append_assoc]
    exact .startTag (hs.append hb) ht hn h
  | endTag hb hw hn h =>
    rw [← List.append_assoc]
    exact .endTag (hs.append hb) hw hn h
  | codeBlock hb ht hc h =>
    rw [← List.append_assoc]
    exact .codeBlock (hs.append hb) ht hc h

theorem append (h : TagSoup s) (h' : TagSoup t) : TagSoup (s ++ t) := by
  induction h with
  | last hb => exact h'.balanced_append hb
  | startTag hb ht hn _ ih =>
    simp only [List.append_assoc, List.cons_append]
    exact .startTag hb ht hn ih
  | endTag hb hw hn _ ih =>
    simp only [List.append_assoc, List.cons_append]
    exact .endTag hb hw hn ih
  | codeBlock hb ht hc _ ih =>
    simp only [List.append_assoc]
    exact .codeBlock hb ht hc ih

theorem of_balanced {blocks inLink : Bool} (h : Balanced blocks inLink s) : TagSoup s := by
  induction h with
  | nil => exact .last .nil
  | char hc ha _ ih => exact ih.balanced_append (.char hc ha .nil)
  | entity hc _ ih =>
    refine ih.balanced_append ?_
    rw [← List.append_nil (Text.entity _)]
    exact .entity hc .nil
  | lineBreak _ ih =>
    refine ih.balanced_append ?_
    rw [← List.append_nil Markup.lineBreak]
    exact .lineBreak .nil
  | @element inLink name attrs content s ht hc _ ihc ih =>
    by_cases hn : name = "pre"
    · subst hn
      exact .codeBlock .nil ht hc ih
    · have ht' : TagText true inLink name attrs :=
        ⟨ht.written, fun _ => rfl, ht.text, ht.style, ht.link, ht.date⟩
      rw [enclose_append]
      exact .startTag .nil ht' hn (ihc.append (.endTag .nil ht.written hn ih))

theorem alike (h : TagSoup s) (ha : Alike s t) : TagSoup t := by
  induction h generalizing t with
  | last hb => exact .last (hb.alike ha)
  | startTag hb ht hn _ ih =>
    obtain ⟨before', t₁, rfl, hb', h₁⟩ := ha.exists_split (by simp)
    obtain ⟨t₂, rfl, h₂⟩ := h₁.exists_cons (by decide)
    obtain ⟨t₃, rfl, h₃⟩ := h₂.exists_append (firm_of_mem_writtenNames ht.written)
    obtain ⟨attrs', t₄, rfl, ht', h₄⟩ := ht.alike h₃
    exact .startTag (hb.alike hb') ht' hn (ih h₄)
  | endTag hb hw hn _ ih =>
    obtain ⟨before', t₁, rfl, hb', h₁⟩ := ha.exists_split (by simp)
    obtain ⟨t₂, rfl, h₂⟩ := h₁.exists_cons (by decide)
    obtain ⟨t₃, rfl, h₃⟩ := h₂.exists_cons (by decide)
    obtain ⟨t₄, rfl, h₄⟩ := h₃.exists_append (firm_of_mem_writtenNames hw)
    obtain ⟨t₅, rfl, h₅⟩ := h₄.exists_cons (by decide)
    exact .endTag (hb.alike hb') hw hn (ih h₅)
  | codeBlock hb ht hc _ ih =>
    obtain ⟨before', t₁, rfl, hb', h₁⟩ := ha.exists_split (by simp [enclose])
    obtain ⟨attrs', content', s', rfl, ht', hc', h₂⟩ := ht.alike_enclose h₁
    exact .codeBlock (hb.alike hb') ht' (hc.alike hc') (ih h₂)

theorem closed (h : TagSoup s) : Closed s := by
  induction h with
  | last hb => exact hb.closed
  | @startTag _ name before attrs s hb _ _ _ ih =>
    have he : before ++ '<' :: (name.toList ++ (attrs ++ '>' :: s))
        = before ++ ('<' :: name.toList ++ attrs ++ ['>']) ++ s := by simp
    rw [he]
    exact (hb.closed.append (closed_concat _)).append ih
  | @endTag name before s hb _ _ _ ih =>
    have he : before ++ '<' :: '/' :: (name.toList ++ '>' :: s)
        = before ++ ('<' :: '/' :: name.toList ++ ['>']) ++ s := by simp
    rw [he]
    exact (hb.closed.append (closed_concat _)).append ih
  | codeBlock hb _ hc _ ih => exact hb.closed.append ((closed_enclose _ _ hc.closed).append ih)

theorem dropMark (h : TagSoup s) : TagSoup (Html.dropMark s) := by
  cases h with
  | last hb => exact .last (Html.Balanced.dropMark hb)
  | startTag hb ht hn h =>
    rw [Html.dropMark_append_tag]
    exact .startTag (Html.Balanced.dropMark hb) ht hn h
  | endTag hb hw hn h =>
    rw [Html.dropMark_append_tag]
    exact .endTag (Html.Balanced.dropMark hb) hw hn h
  | codeBlock hb ht hc h =>
    rw [enclose_append, Html.dropMark_append_tag, ← enclose_append]
    exact .codeBlock (Html.Balanced.dropMark hb) ht hc h

end TagSoup

/-! ## Links under guards -/

/-- The guard of a style works on what stands before a link, and leaves the link as it is. -/
theorem exists_guardFrom_link (f : List Char → List Char) (depth : Nat) {before attrs : List Char}
    (hb : Closed before) (hgt : '>' ∉ attrs) :
    ∃ depth', ∀ u s, '<' ∉ u → f u = u →
      guardFrom f depth (spans (before ++ (enclose "a" attrs u ++ s)))
        = guardFrom f depth (spans before)
          ++ (enclose "a" attrs u ++ guardFrom f depth' (spans s)) := by
  have hstart : '>' ∉ 'a' :: attrs := by simpa using hgt
  obtain ⟨depth', h⟩ := LinkedText.exists_guardFrom_tag f depth hb hstart
  refine ⟨depth', fun u s hlt hu => ?_⟩
  have hcut : spans (u ++ '<' :: ("/a".toList ++ '>' :: s))
      = .text u :: .tag "</a>".toList :: spans s := by
    rw [spans, spansFrom_text hlt [] (by simp), spansFrom_tag (by decide)]
    rfl
  have hdepth : codeDepth depth' "</a>".toList = depth' := rfl
  rw [LinkedText.enclose_link_append, h, hcut, guardFrom, guardFrom, hdepth, hu, ite_self,
    LinkedText.enclose_link_append]
  rfl

/-- A change of line starts and line ends. -/
structure ChangesLines (g : List Char → List Char) : Prop extends ChangesValues g where
  bracket : ∀ c ∈ ['<', '>'], ∀ s t, g (s ++ c :: t) = g s ++ c :: g t
  line : ∀ w, '\n' ∉ w → '\r' ∉ w → ∀ s, g (w ++ s) = w ++ g s

theorem ChangesLines.eq_self {g : List Char → List Char} (hg : ChangesLines g) {w : List Char}
    (hn : '\n' ∉ w) (hr : '\r' ∉ w) : g w = w := by
  have h := hg.line w hn hr []
  rwa [List.append_nil, hg.nil, List.append_nil] at h

theorem changesLines_guardLater : ChangesLines guardLater := by
  refine ⟨changesValues_guardLater, fun c hc s t => ?_, fun w hw _ => guardLater_append_of_not_mem hw⟩
  have hcut := Text.forall_mem_of_all (p := fun c => c ∉ "&gt;".toList ∧ c ≠ '\n') (s := ['<', '>'])
    (by decide) c hc
  exact guardLater_append hcut.1 hcut.2 s t

theorem changesLines_unifyLineEnds : ChangesLines Html.unifyLineEnds := by
  refine ⟨changesValues_unifyLineEnds, fun c hc s t => ?_, fun w _ hw => Html.unifyLineEnds_append hw⟩
  have hcut := Text.forall_mem_of_all (p := fun c => c ≠ '\r' ∧ c ≠ '\n') (s := ['<', '>'])
    (by decide) c hc
  exact Html.unifyLineEnds_append_cons hcut.1 hcut.2 s t

/-- A change of the text before the first tag, and of lines behind it. -/
structure ChangesStart (f g : List Char → List Char) : Prop where
  soup : ∀ {s}, TagSoup s → TagSoup (f s)
  tag : ∀ s t, f (s ++ '<' :: t) = f s ++ '<' :: g t

variable {f g : List Char → List Char} {u : List Char}

theorem ChangesLines.changesStart (hg : ChangesLines g) : ChangesStart g g :=
  ⟨fun h => h.alike (hg.alike _), hg.bracket '<' (by decide)⟩

/-- A link keeps its label and its target when lines are changed. -/
theorem ChangesStart.link (hf : ChangesStart f g) (hg : ChangesLines g) (hu : IsLabel u)
    (before attrs s : List Char) :
    f (before ++ (enclose "a" attrs u ++ s)) = f before ++ (enclose "a" (g attrs) u ++ g s) := by
  have hattrs : g ('a' :: attrs) = 'a' :: g attrs := hg.line ['a'] (by decide) (by decide) attrs
  have hlabel : g u = u := hg.eq_self (hu.not_mem (by decide)) (hu.not_mem (by decide))
  have hend : g ("/a".toList ++ '>' :: s) = "/a".toList ++ '>' :: g s := by
    rw [hg.bracket '>' (by decide), hg.eq_self (by decide) (by decide)]
  rw [LinkedText.enclose_link_append, hf.tag, hg.bracket '>' (by decide), hattrs,
    hg.bracket '<' (by decide), hlabel, hend, LinkedText.enclose_link_append]

/-! ## Two texts -/

/-- Two texts that differ in the content of links that mention someone, and in no code block: it is
`u` in the first text and `v` in the second. -/
inductive Labelled (u v : List Char) : List Char → List Char → Prop
  | same {s : List Char} : TagSoup s → Labelled u v s s
  | label {href before attrs s t : List Char} :
      TagSoup before → HrefText href attrs → '>' ∉ attrs → (Mention.ofHref? href).isSome = true →
        Labelled u v s t →
          Labelled u v (before ++ (enclose "a" attrs u ++ s)) (before ++ (enclose "a" attrs v ++ t))

namespace Labelled

variable {v s t s' t' : List Char}

theorem soup_append (hs : TagSoup s) (h : Labelled u v s' t') :
    Labelled u v (s ++ s') (s ++ t') := by
  cases h with
  | same ht => exact .same (hs.append ht)
  | @label _ before _ _ _ hb hh hgt hm h =>
    rw [← List.append_assoc s before, ← List.append_assoc s before]
    exact .label (hs.append hb) hh hgt hm h

theorem append (h : Labelled u v s t) (h' : Labelled u v s' t') :
    Labelled u v (s ++ s') (t ++ t') := by
  induction h with
  | same hs => exact h'.soup_append hs
  | label hb hh hgt hm _ ih =>
    simp only [List.append_assoc]
    exact .label hb hh hgt hm ih

/-- A link by itself. -/
theorem of_label {href attrs : List Char} (hh : HrefText href attrs) (hgt : '>' ∉ attrs)
    (hm : (Mention.ofHref? href).isSome = true) :
    Labelled u v (enclose "a" attrs u) (enclose "a" attrs v) := by
  have h : Labelled u v ([] ++ (enclose "a" attrs u ++ [])) ([] ++ (enclose "a" attrs v ++ [])) :=
    .label (.last .nil) hh hgt hm (.same (.last .nil))
  simpa using h

theorem enclosed {inLink : Bool} {name : String} {attrs : List Char}
    (ht : TagText true inLink name attrs) (hn : name ≠ "pre") (h : Labelled u v s t) :
    Labelled u v (enclose name attrs s) (enclose name attrs t) := by
  have hopen : TagSoup ([] ++ '<' :: (name.toList ++ (attrs ++ '>' :: []))) :=
    .startTag .nil ht hn (.last .nil)
  have hclose : TagSoup ([] ++ '<' :: '/' :: (name.toList ++ '>' :: [])) :=
    .endTag .nil ht.written hn (.last .nil)
  have hall := ((Labelled.same hopen).append h).append (.same hclose)
  have he : ∀ r, enclose name attrs r
      = [] ++ '<' :: (name.toList ++ (attrs ++ '>' :: [])) ++ r
        ++ ([] ++ '<' :: '/' :: (name.toList ++ '>' :: [])) := fun r => by
    simp [enclose]
  rw [he s, he t]
  exact hall

/-- The guard of a style works on texts that differ in labels alike. -/
theorem guardText {f : List Char → List Char} (hf : ∀ s, Alike s (f s)) (hfu : f u = u)
    (hfv : f v = v) (hu : IsLabel u) (hv : IsLabel v) (h : Labelled u v s t) :
    Labelled u v (Markup.guardText f s) (Markup.guardText f t) := by
  have hsoup : ∀ depth s, TagSoup s → TagSoup (guardFrom f depth (spans s)) := by
    intro depth s hs
    have hchange := alike_guardFrom hf depth (spans s)
    rw [flatMap_content_spans] at hchange
    exact hs.alike hchange
  have hfrom : ∀ depth, Labelled u v (guardFrom f depth (spans s)) (guardFrom f depth (spans t)) := by
    induction h with
    | same hs => exact fun depth => .same (hsoup depth _ hs)
    | label hb hh hgt hm _ ih =>
      intro depth
      obtain ⟨depth', hlink⟩ := exists_guardFrom_link f depth hb.closed hgt
      rw [hlink u _ (hu.not_mem (by decide)) hfu, hlink v _ (hv.not_mem (by decide)) hfv]
      exact .label (hsoup depth _ hb) hh hgt hm (ih depth')
  exact hfrom 0

/-- Lines are changed in texts that differ in labels alike. -/
theorem change (hg : ChangesLines g) (hf : ChangesStart f g) (hu : IsLabel u) (hv : IsLabel v)
    (h : Labelled u v s t) : Labelled u v (f s) (f t) := by
  induction h generalizing f with
  | same hs => exact .same (hf.soup hs)
  | @label href before attrs s t hb hh hgt hm _ ih =>
    have hvalue : g (Text.escapeAttr href) = Text.escapeAttr href := by
      rw [escapeAttr_of_ofHref? hm]
      exact hg.eq_self (not_mem_of_ofHref? hm (by decide) (by decide))
        (not_mem_of_ofHref? hm (by decide) (by decide))
    rw [hf.link hg hu, hf.link hg hv]
    exact .label (hf.soup hb) (hg.hrefText hvalue hh)
      (not_mem_of_alike (by decide) (hg.alike attrs) hgt) hm (ih hg.changesStart)

theorem guardQuote (hu : IsLabel u) (hv : IsLabel v) (h : Labelled u v s t) :
    Labelled u v (Markup.guardQuote s) (Markup.guardQuote t) :=
  h.change changesLines_guardLater ⟨fun hs => hs.alike (alike_guardQuote _), guardQuote_append⟩ hu hv

end Labelled

end Markup

namespace Html

open Markup

/-! ## Tokens -/

variable {u v s t : List Char}

theorem fills_of_nested {inLink : Bool} {ts : List Token} (h : Nested false inLink ts)
    (hts : ∀ t ∈ ts, t.isChar hole = false) : ∀ t ∈ ts, Construction.Fills t := by
  induction h with
  | nil => exact fun _ h => absurd h List.not_mem_nil
  | char x _ ih =>
    obtain ⟨hx, hts⟩ := List.forall_mem_cons.mp hts
    exact List.forall_mem_cons.mpr ⟨of_decide_eq_false hx, ih hts⟩
  | null _ ih => exact List.forall_mem_cons.mpr ⟨trivial, ih (List.forall_mem_cons.mp hts).2⟩
  | lineBreak _ ih =>
    have hbr : "br" ≠ "pre" := by decide
    exact List.forall_mem_cons.mpr ⟨hbr, ih (List.forall_mem_cons.mp hts).2⟩
  | @element _ name attrs content ts ht _ _ ihc ih =>
    have hpre : name ≠ "pre" := by
      rintro rfl
      exact absurd (ht.block (by decide)) (by decide)
    rw [List.cons_append, List.forall_mem_cons, List.forall_mem_append, List.forall_mem_cons] at hts ⊢
    exact ⟨hpre, ihc hts.2.1, hpre, ih hts.2.2.2⟩

theorem HoledTokens.of_fills {ts : List Token} (h : ∀ t ∈ ts, Construction.Fills t) :
    HoledTokens ts := by
  induction ts with
  | nil => exact .nil
  | cons t ts ih =>
    obtain ⟨ht, hts⟩ := List.forall_mem_cons.mp h
    exact .token ht (ih hts)

/-- Text without blocks is read to tokens without holes. -/
theorem exists_runFrom_inline (h : Balanced false false s) :
    ∃ ts, runFrom (.reading .text) s = (.reading .text, ts) ∧ HoledTokens ts ∧
      ∀ t ∈ ts, t.isChar hole = false := by
  obtain ⟨ts, hr, hn, hseen⟩ := Balanced.exists_runFrom_seen h
  exact ⟨ts, hr, .of_fills (fills_of_nested hn hseen), hseen⟩

/-- Tags that need not nest are read one by one, without holes. -/
theorem exists_runFrom_tagSoup (h : TagSoup s) :
    ∃ ts, runFrom (.reading .text) s = (.reading .text, ts) ∧ HoledTokens ts ∧
      ∀ t ∈ ts, t.isChar hole = false := by
  induction h with
  | last hb => exact exists_runFrom_inline hb
  | @startTag _ name before attrs s hb ht hn _ ih =>
    obtain ⟨ts, hr, hts, hseen⟩ := exists_runFrom_inline hb
    obtain ⟨attrs', -, hstart⟩ := exists_runFrom_startTag ht
    obtain ⟨us, hru, hus, hseen'⟩ := ih
    have hsplit : before ++ '<' :: (name.toList ++ (attrs ++ '>' :: s))
        = before ++ (('<' :: name.toList ++ attrs ++ ['>']) ++ s) := by simp
    refine ⟨ts ++ .startTag name attrs' :: us, ?_, hts.append (.token hn hus), ?_⟩
    · rw [hsplit, runFrom_append, hr, runFrom_append, hstart, hru]
      simp
    · rw [List.forall_mem_append, List.forall_mem_cons]
      exact ⟨hseen, rfl, hseen'⟩
  | @endTag name before s hb hw hn _ ih =>
    obtain ⟨ts, hr, hts, hseen⟩ := exists_runFrom_inline hb
    obtain ⟨us, hru, hus, hseen'⟩ := ih
    have hsplit : before ++ '<' :: '/' :: (name.toList ++ '>' :: s)
        = before ++ (('<' :: '/' :: name.toList ++ ['>']) ++ s) := by simp
    refine ⟨ts ++ .endTag name :: us, ?_, hts.append (.token hn hus), ?_⟩
    · rw [hsplit, runFrom_append, hr, runFrom_append, runFrom_endTag hw, hru]
      simp
    · rw [List.forall_mem_append, List.forall_mem_cons]
      exact ⟨hseen, rfl, hseen'⟩
  | @codeBlock blocks inLink before attrs content s hb ht hc _ ih =>
    obtain ⟨ts, hr, hts, hseen⟩ := exists_runFrom_inline hb
    obtain ⟨cs, hrc, hnc, hseenc⟩ := Balanced.exists_runFrom_seen hc
    obtain ⟨attrs', -, hblock⟩ := exists_runFrom_enclose ht hrc
    obtain ⟨us, hru, hus, hseen'⟩ := ih
    refine ⟨ts ++ (.startTag "pre" attrs' :: cs ++ .endTag "pre" :: us), ?_,
      hts.append (.codeBlock hnc hseenc hus), ?_⟩
    · rw [runFrom_append, hr, runFrom_append, hblock, hru]
      simp
    · rw [List.forall_mem_append, List.cons_append, List.forall_mem_cons, List.forall_mem_append,
        List.forall_mem_cons]
      exact ⟨hseen, rfl, hseenc, rfl, hseen'⟩

theorem fillTokens_append (w : List Char) (ts us : List Token) :
    fillTokens w (ts ++ us) = fillTokens w ts ++ fillTokens w us :=
  List.flatMap_append

theorem fillTokens_of_seen (w : List Char) {ts : List Token}
    (h : ∀ t ∈ ts, t.isChar hole = false) : fillTokens w ts = ts := by
  induction ts with
  | nil => rfl
  | cons t ts ih =>
    obtain ⟨ht, hts⟩ := List.forall_mem_cons.mp h
    have hcut : fillTokens w (t :: ts)
        = (if t.isChar hole then w.map .char else [t]) ++ fillTokens w ts := rfl
    rw [hcut, ih hts, ht]
    rfl

/-- A label is read character by character. -/
theorem runFrom_label (hu : IsLabel u) :
    runFrom (.reading .text) u = (.reading .text, u.map .char) := by
  have hz : ∀ c ∈ u, c.toNat ≠ 0 := by
    intro c hc he
    have hzero : c = '\x00' := by rw [← Char.ofNat_toNat c, he]
    exact hu.not_mem (by decide) (hzero ▸ hc)
  have h := runFrom_escapeEntity hz
  rwa [Text.escapeEntity_eq_self_iff.mpr hu.plainWord.plain] at h

/-- Two texts that differ in labels are read to the same tokens with holes. -/
theorem exists_runFrom_labelled (hu : IsLabel u) (hv : IsLabel v) (h : Labelled u v s t) :
    ∃ ts, HoledTokens ts ∧ runFrom (.reading .text) s = (.reading .text, fillTokens u ts) ∧
      runFrom (.reading .text) t = (.reading .text, fillTokens v ts) := by
  induction h with
  | same hs =>
    obtain ⟨ts, hr, hts, hseen⟩ := exists_runFrom_tagSoup hs
    exact ⟨ts, hts, by rw [fillTokens_of_seen u hseen, hr], by rw [fillTokens_of_seen v hseen, hr]⟩
  | @label href before attrs s t hb hh hgt hm _ ih =>
    obtain ⟨ts, hr, hts, hseen⟩ := exists_runFrom_tagSoup hb
    obtain ⟨attrs', hhref, hstart⟩ :=
      exists_runFrom_linkTag hh (not_mem_of_ofHref? hm (by decide) (by decide))
    obtain ⟨us, hus, hrs, hrt⟩ := ih
    have hend : runFrom (.reading .text) ('<' :: '/' :: "a".toList ++ ['>'])
        = (.reading .text, [.endTag "a"]) := runFrom_endTag (by decide)
    have hread : ∀ {w r : List Char}, IsLabel w →
        runFrom (.reading .text) r = (.reading .text, fillTokens w us) →
          runFrom (.reading .text) (before ++ (Markup.enclose "a" attrs w ++ r))
            = (.reading .text, fillTokens w
                (ts ++ .startTag "a" attrs' :: .char hole :: .endTag "a" :: us)) := by
      intro w r hw hr'
      have hsplit : before ++ (Markup.enclose "a" attrs w ++ r)
          = before ++ (('<' :: "a".toList ++ attrs ++ ['>']) ++ (w
            ++ (('<' :: '/' :: "a".toList ++ ['>']) ++ r))) := by
        simp [Markup.enclose]
      have hfill : fillTokens w (.startTag "a" attrs' :: .char hole :: .endTag "a" :: us)
          = .startTag "a" attrs' :: (w.map .char ++ .endTag "a" :: fillTokens w us) := rfl
      rw [hsplit, runFrom_append, hr, runFrom_append, hstart, runFrom_append, runFrom_label hw,
        runFrom_append, hend, hr', fillTokens_append, fillTokens_of_seen w hseen, hfill]
      simp
    exact ⟨_, hts.append (.label ⟨href, hhref, hm⟩ hus), hread hu hrs, hread hv hrt⟩

/-- Two texts that differ in labels are read to the same tree with holes. -/
theorem exists_parse_labelled (hu : IsLabel u) (hv : IsLabel v) (h : Labelled u v s t) :
    ∃ ds, Dom.Holed false ds ∧ parse s = ds.map (Dom.fill u) ∧ parse t = ds.map (Dom.fill v) := by
  have hdropped : Labelled u v (unifyLineEnds (dropMark s)) (unifyLineEnds (dropMark t)) := by
    refine h.change (f := fun r => unifyLineEnds (dropMark r)) changesLines_unifyLineEnds
      ⟨fun hs => hs.dropMark.alike (alike_unifyLineEnds _), fun r r' => ?_⟩ hu hv
    rw [dropMark_append_tag, unifyLineEnds_append_cons (by decide) (by decide)]
  obtain ⟨ts, hts, hs, ht⟩ := exists_runFrom_labelled hu hv hdropped
  have hread : ∀ {w r : List Char}, IsLabel w →
      runFrom (.reading .text) (unifyLineEnds (dropMark r)) = (.reading .text, fillTokens w ts) →
        parse r = ((ts.foldl Construction.token .start).spine.toDoms).map (Dom.fill w) := by
    intro w r hw hr
    rw [parse, tokens_eq_of_runFrom hr, ← Spine.toDoms_fill]
    exact congrArg (fun c : Construction => c.spine.toDoms)
      (foldl_token_fillTokens hw.ne_nil hw.isSpace_eq_false ts .start)
  exact ⟨_, (hts.holed Construction.holed_start).spine.toDoms, hread hu hs, hread hv ht⟩

end Html

open Html Markup

/-- The mrkdwn of a text does not depend on the labels of mentions outside of code blocks. -/
theorem Mrkdwn.ofHtml_of_labelled (options : FormatOptions) {u v s t : List Char} (hu : IsLabel u)
    (hv : IsLabel v) (h : Labelled u v s t) : ofHtml options s = ofHtml options t := by
  obtain ⟨ds, hds, hs, ht⟩ := exists_parse_labelled hu hv h
  have hlaid : ∀ {w}, IsLabel w →
      ofDoms (delimiters options) (ds.map (Dom.fill w)) = ofDoms (delimiters options) ds := by
    intro w hw
    simp only [ofDoms, layBody_fill hw.plainWord hds]
  rw [ofHtml, ofHtml, hs, ht, hlaid hu, hlaid hv]

end MessageLayout
