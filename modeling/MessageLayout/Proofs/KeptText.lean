import MessageLayout.Proofs.CarriedLayout

/-!
# Text that is kept

The layout trims, cuts, joins and encloses texts, and drops blank elements, but no character of a
text that is not blank is lost on the way or changes places: escaped, they stand in the mrkdwn in
the order in which they stand in the document. A mention has a text of its own, and a code block
shows the code that it starts with, so both are left out.

    (nonblanks (escapeEntity n.textContent)).Sublist (carried parent n)  (sublist_carried)
    (nonblanks (escapeEntity (Dom.textOf body))).Sublist (ofDoms … body)  (sublist_ofDoms)
    (nonblanks (escapeEntity (Dom.textOf (parse html)))).Sublist (ofHtml options html)
                                                                         (nonblanks_sublist_ofHtml)
-/

namespace MessageLayout.Mrkdwn

open Html
open Text (nonblanks escapeEntity)

/-- A code block holds nothing but its code. -/
def SoleCode (name : String) (_ : Attrs) (children : List Dom) : Prop :=
  name = "pre" → ∀ attrs code rest, children = .element "code" attrs code :: rest → rest = []

/-- An element that leaves nothing out of what it shows. -/
structure Complete (name : String) (attrs : Attrs) (children : List Dom) : Prop where
  noMention : NoMention name attrs children
  soleCode : SoleCode name attrs children
  emptyBreak : EmptyBreak name attrs children

/-! ## Code -/

mutual

theorem nonblanks_codeText : (n : Dom) → n.Every Complete →
    nonblanks (codeText n) = nonblanks n.textContent
  | .text _, _ => rfl
  | .comment, _ => rfl
  | .element name attrs children, h => by
    rw [codeText, Dom.textContent_element]
    split
    next hbr =>
      rw [h.1.emptyBreak (eq_of_beq hbr)]
      rfl
    next => exact nonblanks_codeOf children h.2

/-- Code shows the text that is in it. -/
theorem nonblanks_codeOf : (ns : List Dom) → Dom.EveryOf Complete ns →
    nonblanks (codeOf ns) = nonblanks (Dom.textOf ns)
  | [], _ => rfl
  | n :: ns, h => by
    rw [codeOf, Dom.textOf_cons, Text.nonblanks_append, Text.nonblanks_append,
      nonblanks_codeText n h.1, nonblanks_codeOf ns h.2]

end

theorem nonblanks_fenced (code : List Char) (singleLine : Bool) :
    nonblanks (fenced code singleLine) = fenceMark ++ nonblanks code ++ fenceMark := by
  simp only [fenced]
  split
  · rw [Text.nonblanks_append, Text.nonblanks_append,
      Text.nonblanks_squeeze Text.isBlank_of_eq_newline rfl]
    rfl
  · rw [Text.nonblanks_append, Text.nonblanks_append, Text.nonblanks_cons_of_blank rfl,
      Text.nonblanks_cons_of_blank rfl]
    rfl

/-- The text of a code block that holds only its code is the text of its code. -/
theorem textOf_of_fencedCode? {name : String} {attrs : Attrs} {children code : List Dom}
    (hsole : SoleCode name attrs children) (h : fencedCode? name children = some code) :
    ∃ codeAttrs, children = [.element "code" codeAttrs code] := by
  obtain ⟨hpre, codeAttrs, rest, rfl⟩ := exists_of_fencedCode? h
  exact ⟨codeAttrs, by rw [hsole hpre codeAttrs code rest rfl]⟩

/-! ## Trees -/

theorem sublist_around {name : String} {attrs : Attrs} {children : List Dom}
    (h : Complete name attrs children) {s a : List Char} (hs : s.Sublist a)
    (hbr : name = "br" → s = []) : s.Sublist ((framing name attrs).around a) := by
  have htoken : s.Sublist ('<' :: a ++ ['>']) :=
    (hs.cons '<').trans (List.sublist_append_left _ _)
  unfold framing
  split
  next hname =>
    rw [hbr hname]
    exact List.nil_sublist _
  · split
    next hname =>
      cases hl : attrs.lookup "href" with
      | none => exact hs
      | some href =>
        simp only [Option.map_some, Option.getD_some, linkFraming, h.noMention hname href hl]
        split
        · exact hs
        · exact htoken
    next =>
      split
      · cases attrs.lookup "datetime" with
        | none => exact hs
        | some timestamp => exact htoken
      · exact hs

mutual

theorem sublist_carried (parent : String) : (n : Dom) → n.Every Complete →
    (nonblanks (escapeEntity n.textContent)).Sublist (carried parent n)
  | .text content, _ => List.Sublist.refl _
  | .comment, _ => .slnil
  | .element name attrs children, h => by
    obtain ⟨hn, hc⟩ := h
    rw [Dom.textContent_element, Text.nonblanks_escapeEntity, carried]
    split
    next hblank =>
      simp only [Dom.isBlank, Text.isAllBlank, Bool.and_eq_true, List.all_eq_true] at hblank
      rw [Text.nonblanks_of_isBlank hblank.2.2]
      exact List.nil_sublist _
    next =>
      cases hcode : fencedCode? name children with
      | some code =>
        obtain ⟨codeAttrs, rfl⟩ := textOf_of_fencedCode? hn.soleCode hcode
        have hkept := nonblanks_codeOf code hc.1.2
        rw [Dom.textOf_cons, Dom.textOf_nil, List.append_nil, Dom.textContent_element, ← hkept,
          ← Text.nonblanks_escapeEntity]
        change List.Sublist _ (nonblanks (fenced (escapeEntity (codeOf code)) (parent == "a")))
        rw [nonblanks_fenced]
        exact (List.sublist_append_right _ _).trans (List.sublist_append_left _ _)
      | none =>
        have ih := sublist_carriedOf name children hc
        rw [Text.nonblanks_escapeEntity] at ih
        refine sublist_around hn ih fun hbr => ?_
        rw [hn.emptyBreak hbr]
        rfl

theorem sublist_carriedOf (parent : String) : (ns : List Dom) → Dom.EveryOf Complete ns →
    (nonblanks (escapeEntity (Dom.textOf ns))).Sublist (carriedOf parent ns)
  | [], _ => .slnil
  | n :: ns, h => by
    rw [Dom.textOf_cons, Text.escapeEntity_append, Text.nonblanks_append, carriedOf]
    exact (sublist_carried parent n h.1).append (sublist_carriedOf parent ns h.2)

end

/-! ## The mrkdwn -/

/-- If no element leaves out what it holds, all characters of the text of a document that are not
blank stand in its mrkdwn, escaped and in their order. -/
theorem sublist_ofDoms (options : FormatOptions) {body : List Dom}
    (h : Dom.EveryOf Complete body) :
    (nonblanks (escapeEntity (Dom.textOf body))).Sublist (ofDoms (delimiters options) body) := by
  have hdates : Dom.EveryOf (AllowedDate True) body :=
    Dom.EveryOf.mono (fun _ _ _ _ _ _ _ _ _ _ _ => trivial) body h h
  obtain ⟨F, hc⟩ := carries_ofDoms options hdates
  exact (sublist_carriedOf "body" body h).trans (hc.sublist id)

/-- No text of a fragment is lost or moved, if no link in it is a mention and every code block holds
only its code: the characters of its text that are not blank stand in the mrkdwn, escaped and in
their order, also beside timestamps that look like marks of the layout. -/
theorem nonblanks_sublist_ofHtml (options : FormatOptions) (html : List Char)
    (hlinks : Dom.EveryOf NoMention (parse html)) (hcode : Dom.EveryOf SoleCode (parse html)) :
    (nonblanks (escapeEntity (Dom.textOf (parse html)))).Sublist (ofHtml options html) := by
  have hboth : Dom.EveryOf (fun name attrs children =>
      NoMention name attrs children ∧ SoleCode name attrs children) (parse html) :=
    Dom.EveryOf.mono (fun _ _ _ h₁ h₂ => ⟨h₁, h₂⟩) _ hlinks hcode
  exact sublist_ofDoms options <|
    Dom.EveryOf.mono (fun _ _ _ h₁ h₂ => ⟨h₁.1, h₁.2, h₂⟩) _ hboth (everyOf_emptyBreak_parse html)

/-- Text in a date whose timestamp spells a placeholder, and code over two lines. -/
theorem nonblanks_sublist_ofHtml_lookalike :
    let html := "<time datetime='<<pre:0>>'>a<i> b</i></time><pre><code>x<br>y</code></pre>".toList
    let fence := "\x60\x60\x60\nx\ny\n\x60\x60\x60".toList
    (Dom.EveryOf NoMention (parse html) ∧ Dom.EveryOf SoleCode (parse html)) ∧
      nonblanks (escapeEntity (Dom.textOf (parse html))) = "abxy".toList ∧
        ofHtml {} html = "<!date^".toList ++ fence ++ "^a _b_|>\n".toList ++ fence ∧
          (nonblanks (escapeEntity (Dom.textOf (parse html)))).Sublist (ofHtml {} html) := by
  intro html fence
  have hp : parse html = [.element "time" [("datetime", "<<pre:0>>".toList)]
        [.text ['a'], .element "i" [] [.text [' ', 'b']]],
      .element "pre" [] [.element "code" [] [.text ['x'], .element "br" [] [], .text ['y']]]] := rfl
  have hlinks : Dom.EveryOf NoMention (parse html) := by
    simp [hp, Dom.EveryOf, Dom.Every, NoMention]
  have hcode : Dom.EveryOf SoleCode (parse html) := by
    simp [hp, Dom.EveryOf, Dom.Every, SoleCode]
  have htext : nonblanks (escapeEntity (Dom.textOf (parse html))) = "abxy".toList := by
    decide +kernel
  exact ⟨⟨hlinks, hcode⟩, htext, by decide +kernel, nonblanks_sublist_ofHtml {} html hlinks hcode⟩

end MessageLayout.Mrkdwn
