import MessageLayout.Payload
import MessageLayout.Proofs.EscapedText

/-!
# Plain text

A text without inline elements goes through both stages: it is escaped into a fragment, read back,
laid out as the only node of the body, and escaped once more. What comes out is the text, escaped
once, with its space collapsed as a reader of the fragment collapses it.

    renderMrkdwn options (texts) = .ok (escapeEntity (shown s))     (renderMrkdwn_texts)
-/

namespace MessageLayout

open Text (escapeEntity)

namespace Html

/-- A body that holds one text. -/
def Construction.ofText (t : List Char) : Construction :=
  ⟨.within, ⟨[], [.text t]⟩, [], 0, false⟩

theorem Construction.token_ofText (t : List Char) (c : Char) :
    (ofText t).token (.char c) = ofText (t ++ [c]) := by
  simp [token, ofText]
  rfl

theorem Construction.foldl_token_ofText (s t : List Char) :
    (s.map Token.char).foldl token (ofText t) = ofText (t ++ s) := by
  induction s generalizing t with
  | nil => simp
  | cons c s ih =>
    rw [List.map_cons, List.foldl_cons, token_ofText, ih]
    simp

/-- Spaces before the first character that is none leave no trace. -/
theorem Construction.foldl_token_start (s : List Char) :
    (s.map Token.char).foldl token .start
      = match s.dropWhile isSpace with
        | [] => .start
        | c :: t => .ofText (c :: t) := by
  induction s with
  | nil => rfl
  | cons c s ih =>
    rw [List.map_cons, List.foldl_cons, List.dropWhile_cons]
    by_cases hc : isSpace c = true
    · rw [if_pos hc, ← ih]
      have h : token .start (.char c) = .start := by simp [token, start, opensBody, hc]
      rw [h]
    · rw [if_neg hc]
      have h : token .start (.char c) = .ofText [c] := by
        simp [token, start, opensBody, hc]
        rfl
      rw [h, foldl_token_ofText]
      rfl

/-- The nodes that stand for a text. -/
def textNodes : List Char → List Dom
  | [] => []
  | s => [.text s]

theorem toNat_ne_zero_of_mem_unifyLineEnds {s : List Char} (hs : ∀ c ∈ s, c.toNat ≠ 0) :
    ∀ c ∈ unifyLineEnds s, c.toNat ≠ 0 := by
  fun_induction unifyLineEnds s with
  | case1 => exact hs
  | case2 s ih => simp_all
  | case3 s _ ih => simp_all
  | case4 c s _ _ ih => simp_all

/-- Escaped text is one text node, without the spaces before it. -/
theorem parse_escapeEntity {s : List Char} (hnull : ∀ c ∈ s, c.toNat ≠ 0)
    (hmark : ∀ t, s ≠ '\ufeff' :: t) :
    parse (escapeEntity s) = textNodes ((unifyLineEnds s).dropWhile isSpace) := by
  have ht : tokens (escapeEntity s) = (unifyLineEnds s).map .char := by
    rw [tokens, dropMark_escapeEntity hmark, unifyLineEnds_escapeEntity,
      ← List.append_nil (escapeEntity _), tokensFrom_append,
      runFrom_escapeEntity (toNat_ne_zero_of_mem_unifyLineEnds hnull)]
    simp [tokensFrom, Mode.finish]
  rw [parse, ht, Construction.foldl_token_start]
  split
  · next h => rw [h]; rfl
  · next h => rw [h]; rfl

end Html

/-! ## Layout -/

/-- The space of a text as a reader of a fragment sees it: none before the text, one space for each
run of spaces, tabs and line ends, and no blank behind the text. -/
def shownText (s : List Char) : List Char :=
  Text.trimEndWhile Text.isBlank (Text.squeeze Mrkdwn.isSpace ' ' (s.dropWhile Html.isSpace))

theorem Html.dropWhile_unifyLineEnds {p : Char → Bool} (hr : p '\r' = true) (hn : p '\n' = true)
    (s : List Char) : (unifyLineEnds s).dropWhile p = unifyLineEnds (s.dropWhile p) := by
  fun_induction unifyLineEnds s with
  | case1 => rfl
  | case2 s ih => simpa [hr, hn] using ih
  | case3 s _ ih => simpa [hr, hn] using ih
  | case4 c s _ hc ih =>
    by_cases hp : p c = true
    · simpa [hp] using ih
    · simp [hp, unifyLineEnds_cons hc]

theorem Html.squeeze_unifyLineEnds {p : Char → Bool} (hr : p '\r' = true) (hn : p '\n' = true)
    (d : Char) (s : List Char) :
    Text.squeeze p d (unifyLineEnds s) = Text.squeeze p d s := by
  suffices h : ∀ inRun,
      Text.squeezeFrom p d inRun (unifyLineEnds s) = Text.squeezeFrom p d inRun s from h false
  fun_induction unifyLineEnds s with
  | case1 => exact fun _ => rfl
  | case2 s ih => simp [Text.squeezeFrom, hr, hn, ih]
  | case3 s _ ih => simp [Text.squeezeFrom, hr, hn, ih]
  | case4 c s _ _ ih => simp [Text.squeezeFrom, ih]

namespace Mrkdwn

theorem layText_of_head {c : Char} (hc : isSpace c = false) (trims : Bool) (u : List Char) :
    layText trims (c :: u) = escapeEntity (Text.squeeze isSpace ' ' (c :: u)) := by
  have hne : c ≠ ' ' := by
    rintro rfl
    exact absurd hc (by decide)
  cases trims <;> simp [layText, trimStartIf, Text.squeeze, Text.squeezeFrom, hc, hne]

/-- A text that starts with no space is laid out alone: its space collapsed, and escaped. -/
theorem layBody_textNodes (d : Delimiters) {t : List Char}
    (ht : ∀ c u, t = c :: u → isSpace c = false) :
    layBody d (Html.textNodes t) = ⟨escapeEntity (Text.squeeze isSpace ' ' t), []⟩ := by
  cases t with
  | nil => rfl
  | cons c u =>
    have hn : '\n' ∉ escapeEntity (Text.squeeze isSpace ' ' (c :: u)) := by
      rw [Text.mem_escapeEntity (by decide)]
      exact Text.not_mem_squeeze (by decide) (by decide) _
    simp only [layBody, Html.textNodes, layNodes, layNode, layText_of_head (ht c u rfl),
      join_nil_of_not_mem hn]

theorem trimEnds_of_not_mem {s : List Char} (ht : '\t' ∉ s) (hr : '\r' ∉ s) (hn : '\n' ∉ s) :
    trimEnds s = Text.trimEndWhile Text.isBlank s := by
  unfold trimEnds
  cases s with
  | nil => rfl
  | cons c s =>
    simp only [List.mem_cons, not_or] at ht hr hn
    simp [Ne.symm ht.1, Ne.symm hr.1, Ne.symm hn.1]

/-- A text is laid out alone with its entities, behind the spaces that its reading drops. -/
theorem ofDoms_textNodes (d : Delimiters) {t : List Char}
    (ht : ∀ c u, t = c :: u → isSpace c = false) :
    ofDoms d (Html.textNodes t)
      = escapeEntity (Text.trimEndWhile Text.isBlank (Text.squeeze isSpace ' ' t)) := by
  have hmem : ∀ c, isSpace c = true → c ≠ ' ' → c ∉ "&ampltg;<>".toList →
      c ∉ escapeEntity (Text.squeeze isSpace ' ' t) := by
    intro c hc hne he
    rw [Text.mem_escapeEntity he]
    exact Text.not_mem_squeeze hc hne _
  have ht' := hmem '\t' (by decide) (by decide) (by decide)
  have hr := hmem '\r' (by decide) (by decide) (by decide)
  have hn := hmem '\n' (by decide) (by decide) (by decide)
  simp only [ofDoms, layBody_textNodes d ht, trimEnds_of_not_mem ht' hr hn,
    Text.trimEndWhile_escapeEntity]
  rw [dropBreakMarks_of_not_mem (Text.lt_not_mem_escapeEntity _),
    restore_of_not_mem (Text.lt_not_mem_escapeEntity _)]

theorem ofHtml_escapeEntity (options : FormatOptions) {s : List Char}
    (hnull : ∀ c ∈ s, c.toNat ≠ 0) (hmark : ∀ t, s ≠ '\ufeff' :: t) :
    ofHtml options (escapeEntity s) = escapeEntity (shownText s) := by
  have hspace : ∀ c, Html.isSpace c = false → isSpace c = false := by
    intro c hc
    simp only [Html.isSpace, Bool.or_eq_false_iff, decide_eq_false_iff_not] at hc
    simp [isSpace, hc]
  rw [ofHtml, Html.parse_escapeEntity hnull hmark,
    Html.dropWhile_unifyLineEnds (by decide) (by decide), ofDoms_textNodes,
    Html.squeeze_unifyLineEnds (by decide) (by decide), shownText]
  intro c u h
  rw [← Html.dropWhile_unifyLineEnds (by decide) (by decide)] at h
  apply hspace
  have hne : (Html.unifyLineEnds s).dropWhile Html.isSpace ≠ [] := by simp [h]
  simpa [h] using List.head_dropWhile_not Html.isSpace hne

end Mrkdwn

/-- Plain text survives both stages: whatever texts the children come to, rendering them succeeds
and gives their text escaped once, under all options. -/
theorem renderMrkdwn_texts (options : FormatOptions) (content : Content) (parts : List String)
    (hparts : content.normalize = parts.map Child.text)
    (hnull : '\x00' ∉ parts.flatMap String.toList)
    (hmark : (parts.flatMap String.toList).head? ≠ some '\ufeff') :
    renderMrkdwn options content
      = .ok (String.ofList (escapeEntity (shownText (parts.flatMap String.toList)))) := by
  have hf : renderFragment options content
      = .ok (String.ofList (escapeEntity (parts.flatMap String.toList))) := by
    unfold renderFragment
    rw [hparts, Render.renderText_texts rfl]
    rfl
  have hnull' : ∀ c ∈ parts.flatMap String.toList, c.toNat ≠ 0 := by
    intro c hc h
    rw [← Char.ofNat_toNat c, h] at hc
    exact hnull hc
  have hmark' : ∀ t, parts.flatMap String.toList ≠ '\ufeff' :: t := by
    intro t h
    exact hmark (by rw [h]; rfl)
  rw [renderMrkdwn_eq_map_renderFragment, hf]
  simp only [Except.map, String.toList_ofList, Mrkdwn.ofHtml_escapeEntity options hnull' hmark']

/-- Two texts with an entity look-alike, a placeholder look-alike, a line end and space around. -/
theorem renderMrkdwn_texts_lookalikes :
    let content : Content := .list [.text " &amp; <<pre:0>>\r", .empty, .text "\nx  "]
    let parts := [" &amp; <<pre:0>>\r", "\nx  "]
    content.normalize = parts.map Child.text ∧ '\x00' ∉ parts.flatMap String.toList ∧
      (parts.flatMap String.toList).head? ≠ some '\ufeff' ∧
      renderMrkdwn {} content
        = .ok (String.ofList (escapeEntity (shownText (parts.flatMap String.toList)))) ∧
      escapeEntity (shownText (parts.flatMap String.toList))
        = "&amp;amp; &lt;&lt;pre:0&gt;&gt; x".toList :=
  ⟨rfl, by decide, by decide,
    renderMrkdwn_texts {} _ _ rfl (by decide) (by decide), by decide⟩

end MessageLayout
