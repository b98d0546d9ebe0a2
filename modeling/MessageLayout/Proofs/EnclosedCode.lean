import Mathlib
import MessageLayout.Proofs.CodeInPlace
import MessageLayout.Proofs.CodePlace

/-!
# Code blocks within other elements

A code block within plain elements comes through both stages. It is written into the fragment by
itself, read into an element by itself, and laid out as a fence, with two exceptions that the
elements around it bring along. A quotation puts soft hyphens before the quote marks that start
lines of the code behind the first. And a style that a block ended while it was in force is shown
again in the next text: where that text is the code, the style comes to stand between the elements
`pre` and `code`, and what is in them is no code block.

    p.Keeps before code → the fence of the code is in the mrkdwn          (renderMrkdwn_codeBlock)
    p.Calm → pendingBehind before = []                                    (renderMrkdwn_codeBlock)
-/

namespace MessageLayout

open Render Markup

/-! ## The tree -/

theorem Html.Nested.brings {blocks inLink : Bool} {ts : List Html.Token}
    (h : Html.Nested blocks inLink ts) :
    ∀ t ∈ ts, Html.Construction.Brings (fun name attrs => name = "time" →
      ∀ stamp, attrs.lookup "datetime" = some stamp → '<' ∉ stamp ∧ '>' ∉ stamp) t := by
  induction h with
  | nil => exact fun _ h => absurd h List.not_mem_nil
  | char x _ ih => exact List.forall_mem_cons.mpr ⟨trivial, ih⟩
  | null _ ih => exact List.forall_mem_cons.mpr ⟨trivial, ih⟩
  | lineBreak _ ih =>
    exact List.forall_mem_cons.mpr ⟨fun h => absurd h (by decide), ih⟩
  | element ht _ _ ihc ih =>
    refine List.forall_mem_cons.mpr ⟨ht.date, fun t h => ?_⟩
    rcases List.mem_append.mp h with h | h
    · exact ihc t h
    · exact List.forall_mem_cons.mpr ⟨fun _ _ h => (by cases h), ih⟩ t h

/-- No date in the tree of a balanced text holds anything that could open a placeholder. -/
theorem Markup.Balanced.everyOf_plainDate_parse {blocks : Bool} {html : List Char}
    (h : Balanced blocks false html) :
    Html.Dom.EveryOf Mrkdwn.PlainDate (Html.parse html) := by
  have hbuilt := Html.everyOf_built_parse (Html.Balanced.nested_tokens h).brings
  exact Html.Dom.EveryOf.mono (fun _ _ _ hb _ ht stamp hl => (hb.1 ht stamp hl).1) _ hbuilt hbuilt

theorem Render.hyphenated_shielded (quoted : Bool) (code : List Char) :
    Hyphenated code (shielded quoted code) := by
  unfold shielded
  split
  · exact hyphenated_shieldLater code
  · exact .refl code

theorem Render.shielded_eq_iff {quoted : Bool} {code : List Char} :
    shielded quoted code = code
      ↔ (quoted = true → ∀ l ∈ (Text.lines code).tail, l.head? ≠ some '>') := by
  cases quoted with
  | false => exact ⟨fun _ h => (Bool.false_ne_true h).elim, fun _ => rfl⟩
  | true => exact shieldLater_eq_iff.trans ⟨fun h _ => h, fun h => h rfl⟩

theorem Render.not_mem_shielded {quoted : Bool} {code : List Char} {c : Char} (hc : c ≠ '\u00ad')
    (h : c ∉ code) : c ∉ shielded quoted code :=
  fun hm => ((hyphenated_shielded quoted code).mem_or hm).elim hc h

theorem Render.isAllBlank_shielded {quoted : Bool} {code : List Char}
    (h : Text.isAllBlank code = false) : Text.isAllBlank (shielded quoted code) = false := by
  rw [← Bool.not_eq_true] at h ⊢
  intro hb
  refine h (List.all_eq_true.mpr fun c hc => List.all_eq_true.mp hb c ?_)
  exact (hyphenated_shielded quoted code).sublist.subset hc

/-! ## Both stages -/

namespace CodePlace

variable {p : CodePlace} {blocks : Bool}

/-- The fragment with a block of the given code between two texts. -/
def fragment (p : CodePlace) (before after code : List Char) : List Char :=
  before ++ codeBlock (Text.escapeEntity (shielded p.isQuoted code)) ++ after

/-- The element that is read of a block of the given code behind a text. -/
def element (p : CodePlace) (before code : List Char) : Html.Dom :=
  Html.blockElement (Html.pendingBehind before) (shielded p.isQuoted code)

/-- Whether the code of a block behind the given text stays a code block as it is: no style is shown
again in it, and no quotation shields a line of it. -/
def Keeps (p : CodePlace) (before code : List Char) : Prop :=
  Mrkdwn.startsWithCode (Html.pendingBehind before) = true ∧
    (p.isQuoted = true → ∀ l ∈ (Text.lines code).tail, l.head? ≠ some '>')

/-- Whether no style can wait at the place to be shown again: no style stands around it, or no
paragraph and no list item stands around a style and no blocks stand before the place. -/
def Calm (p : CodePlace) : Prop :=
  (∀ l ∈ p.levels, Html.roleOf l.written ≠ .style) ∨
    p.isPlain false = true ∧ p.levels.Pairwise fun outer inner =>
      outer.written ∈ Html.closableNames → Html.roleOf inner.written ≠ .style

instance (p : CodePlace) : Decidable p.Calm :=
  inferInstanceAs (Decidable (_ ∨ _))

theorem renderFragment_of_renderText {options : FormatOptions} {content : Content}
    {ds : List Child} (hds : content.normalize = ds) {x : RenderM (List Char)}
    (hx : renderText ((Context.ofOptions options).withMode .html) ds = x) :
    renderFragment options content = (do
      let html ← x.checked
      return String.ofList html) := by
  rw [renderFragment, hds, hx]

/-- What stands around a block in the fragment is the same for all codes. -/
theorem renderFragment_codeBlock (options : FormatOptions) (hp : p.isPlain blocks = true)
    (hall : p.isPlain true = true) :
    (∃ text, ∀ content parts, p.Holds content parts →
        renderFragment options content = .error (.invalidDatetime text)) ∨
      ∃ before after, Opened blocks (p.levels.map Level.written) before ∧
        ∀ content parts, p.Holds content parts →
          renderFragment options content
              = .ok (String.ofList (p.fragment before after (joined parts))) ∧
            Balanced true false (p.fragment before after (joined parts)) := by
  have hc : ((Context.ofOptions options).withMode .html).mode = .html := rfl
  rcases p.writesAround_children hp hc rfl with ⟨text, hfail⟩ | ⟨before, after, hb, hwrite⟩
  · refine .inl ⟨text, fun content parts h => ?_⟩
    rw [renderFragment_of_renderText h.children (hfail parts (h.plain _ (by simp)))]
    rfl
  · refine .inr ⟨before, after, hb, fun content parts h => ?_⟩
    have hx := hwrite parts (h.plain _ (by simp))
    refine ⟨?_, ?_⟩
    · rw [renderFragment_of_renderText h.children hx]
      rfl
    · rcases writes_renderText hc _ (childrenAreInline_children hall parts) with
        ⟨text, hfail⟩ | ⟨html, hbal, hok⟩
      · cases hx.symm.trans hfail
      · cases hx.symm.trans hok
        exact hbal

theorem Calm.pendingBehind_eq_nil (hc : p.Calm) {before : List Char}
    (hb : Opened blocks (p.levels.map Level.written) before)
    (hblocks : p.isPlain false = true → blocks = false) : Html.pendingBehind before = [] := by
  rcases hc with hstyles | ⟨hplain, horder⟩
  · refine Html.pendingBehind_of_unstyled hb fun name hn => ?_
    obtain ⟨l, hl, rfl⟩ := List.mem_map.mp hn
    exact hstyles l hl
  · obtain rfl := hblocks hplain
    exact Html.pendingBehind_of_sheltered hb (List.pairwise_map.mpr horder)

end CodePlace

/-- A block of code behind a text is one element of the tree, and a fence of the mrkdwn if this is a
code block. -/
theorem Mrkdwn.ofHtml_codeBlock (options : FormatOptions) {blocks : Bool} {names : List String}
    {before after code shown : List Char} (hb : Opened blocks names before)
    (hbal : Balanced true false (before ++ codeBlock (Text.escapeEntity shown) ++ after))
    (hnull : '\x00' ∉ shown) (hcr : '\r' ∉ shown) (hblank : Text.isAllBlank shown = false) :
    let html := before ++ codeBlock (Text.escapeEntity shown) ++ after
    let element := Html.blockElement (Html.pendingBehind before) shown
    Html.KeptIn element (Html.parse html) ∧
      (IsCodeBlock code element → fenced (Text.escapeEntity code) false <:+: ofHtml options html) := by
  have hne : shown ≠ [] := by
    rintro rfl
    cases hblank
  have hnull' : ∀ c ∈ shown, c.toNat ≠ 0 := by
    intro c hc hz
    rw [← Char.ofNat_toNat c, hz] at hc
    exact hnull hc
  have hkept := Html.keptIn_parse hb hne hnull' hcr after
  exact ⟨hkept, fun hx => infix_ofDoms options hbal.everyOf_plainDate_parse hx hkept⟩

/-- A block of code in a place comes through both stages: it is written into the fragment by itself,
read into one element, and laid out between fence marks, unless a style that is shown again in it
or the quotation around it stands in the way. -/
theorem renderMrkdwn_codeBlock (options : FormatOptions) {p : CodePlace}
    (hp : p.isPlain true = true) :
    (∃ text, ∀ content parts, p.Holds content parts →
        renderMrkdwn options content = .error (.invalidDatetime text)) ∨
      ∃ before after, (p.Calm → Html.pendingBehind before = []) ∧
        ∀ content parts, p.Holds content parts → ∃ out,
          let code := joined parts
          renderFragment options content = .ok (String.ofList (p.fragment before after code)) ∧
            renderMrkdwn options content = .ok out ∧
            Html.KeptIn (p.element before code) (Html.parse (p.fragment before after code)) ∧
            (Mrkdwn.IsCodeBlock code (p.element before code) ↔ p.Keeps before code) ∧
            (p.Keeps before code →
              Mrkdwn.fenced (Text.escapeEntity code) false <:+: out.toList) := by
  obtain ⟨blocks, hplain, hblocks⟩ :
      ∃ blocks, p.isPlain blocks = true ∧ (p.isPlain false = true → blocks = false) := by
    by_cases hfalse : p.isPlain false = true
    · exact ⟨false, hfalse, fun _ => rfl⟩
    · exact ⟨true, hp, fun h => absurd h hfalse⟩
  rcases p.renderFragment_codeBlock options hplain hp with ⟨text, hfail⟩ | ⟨before, after, hb, hwrite⟩
  · refine .inl ⟨text, fun content parts h => ?_⟩
    rw [renderMrkdwn_eq_map_renderFragment, hfail content parts h]
    rfl
  · refine .inr ⟨before, after, fun hc => hc.pendingBehind_eq_nil hb hblocks,
      fun content parts h => ?_⟩
    obtain ⟨hfragment, hbal⟩ := hwrite content parts h
    have hout : renderMrkdwn options content
        = .ok (String.ofList (Mrkdwn.ofHtml options (p.fragment before after (joined parts)))) := by
      rw [renderMrkdwn_eq_map_renderFragment, hfragment, Except.map, String.toList_ofList]
    have hblank : Text.isAllBlank (shielded p.isQuoted (joined parts)) = false :=
      isAllBlank_shielded h.notBlank
    have hnull : '\x00' ∉ shielded p.isQuoted (joined parts) :=
      not_mem_shielded (by decide) (h.plain _ (by simp))
    have hcr : '\r' ∉ shielded p.isQuoted (joined parts) :=
      not_mem_shielded (by decide) (h.plain _ (by simp))
    have hiff : Mrkdwn.IsCodeBlock (joined parts) (p.element before (joined parts))
        ↔ p.Keeps before (joined parts) :=
      (Mrkdwn.isCodeBlock_blockElement hb hblank).trans (and_congr_right fun _ => shielded_eq_iff)
    obtain ⟨hkept, hfence⟩ := Mrkdwn.ofHtml_codeBlock options hb hbal hnull hcr hblank
    refine ⟨_, hfragment, hout, hkept, hiff, fun hk => ?_⟩
    rw [String.toList_ofList]
    exact hfence (hiff.mpr hk)

/-- Code in a quotation in a style behind texts, with siblings around: its fence is in the mrkdwn. -/
theorem renderMrkdwn_codeBlock_styled :
    let place : CodePlace :=
      ⟨[.text "so "], [⟨"s", ⟨[]⟩, [.text "a "], []⟩, ⟨"blockquote", ⟨[]⟩, [], [.text "> b"]⟩], ⟨[]⟩, []⟩
    let content : Content := .list [.text "so ", .node ⟨.tag "s", ⟨[]⟩, [.text "a ",
      .node ⟨.tag "blockquote", ⟨[]⟩, [.node ⟨.tag "pre", ⟨[]⟩, [.text "x *", .text "\ny"], none⟩,
        .text "> b"], none⟩], none⟩]
    place.isPlain true = true ∧ place.Calm ∧ place.Holds content ["x *", "\ny"] ∧
      ∃ out, renderMrkdwn {} content = .ok out ∧
        Mrkdwn.fenced (Text.escapeEntity "x *\ny".toList) false <:+: out.toList := by
  intro place content
  have hplain : place.isPlain true = true := rfl
  have hcalm : place.Calm := .inr ⟨rfl, by decide +kernel⟩
  have hholds : place.Holds content ["x *", "\ny"] :=
    ⟨rfl, Text.forall_mem_of_all (by decide), rfl⟩
  have hok : renderMrkdwn {} content
      = .ok "so ~a ~\n\n&gt; \x60\x60\x60\nx *\ny\n\x60\x60\x60\n&gt; ~&gt; b~" := by cbv
  refine ⟨hplain, hcalm, hholds, ?_⟩
  rcases renderMrkdwn_codeBlock {} hplain with ⟨text, hfail⟩ | ⟨before, after, hpending, hkeeps⟩
  · rw [hfail content _ hholds] at hok
    cases hok
  · obtain ⟨out, -, hout, -, -, hfence⟩ := hkeeps content _ hholds
    refine ⟨out, hout, hfence ⟨?_, fun _ => by decide⟩⟩
    rw [hpending hcalm]
    rfl

/-- A quotation puts a soft hyphen into the code, and a style within a paragraph takes the fence. -/
theorem renderMrkdwn_codeBlock_altered :
    let pre (code : String) : Child := .node ⟨.tag "pre", ⟨[]⟩, [.text code], none⟩
    let quoted : CodePlace := ⟨[], [⟨"blockquote", ⟨[]⟩, [], []⟩], ⟨[]⟩, []⟩
    let styled : CodePlace := ⟨[], [⟨"p", ⟨[]⟩, [], []⟩, ⟨"b", ⟨[]⟩, [], []⟩], ⟨[]⟩, []⟩
    let quotation : Content := .list [.node ⟨.tag "blockquote", ⟨[]⟩, [pre "a\n>b"], none⟩]
    let paragraph : Content :=
      .list [.node ⟨.tag "p", ⟨[]⟩, [.node ⟨.tag "b", ⟨[]⟩, [pre "x"], none⟩], none⟩]
    (quoted.isPlain true = true ∧ quoted.Holds quotation ["a\n>b"] ∧
      renderMrkdwn {} quotation = .ok "&gt; \x60\x60\x60\na\n\u00ad&gt;b\n\x60\x60\x60" ∧
      ¬Mrkdwn.fenced (Text.escapeEntity "a\n>b".toList) false
        <:+: "&gt; \x60\x60\x60\na\n\u00ad&gt;b\n\x60\x60\x60".toList) ∧
    styled.isPlain true = true ∧ styled.Holds paragraph ["x"] ∧
      renderMrkdwn {} paragraph = .ok "*\x60x\x60*" ∧
      ¬Mrkdwn.fenced (Text.escapeEntity "x".toList) false <:+: "*\x60x\x60*".toList := by
  intro pre quoted styled quotation paragraph
  refine ⟨⟨rfl, ⟨rfl, Text.forall_mem_of_all (by decide), rfl⟩, ?_, by decide⟩,
    rfl, ⟨rfl, Text.forall_mem_of_all (by decide), rfl⟩, ?_, by decide⟩
  · cbv
  · cbv

end MessageLayout
