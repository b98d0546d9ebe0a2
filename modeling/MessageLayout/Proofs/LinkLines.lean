import MessageLayout.Proofs.EnclosedCode
import MessageLayout.Proofs.LinkTokens

/-!
# Links on one line

`itemsOf` lists the links, mentions and code blocks that a document shows, and the layout spells
them. In the mrkdwn of a document the bracket of a link is closed before any line begins, with one
exception: code is put back last, and stands on one line only where its block stands right in the
link. So the links are all on one line exactly if no other element stands between a link and a code
block in it.

    Spells F .complete [] (itemsOf "body" body) (ofDoms … body) []        (spells_ofDoms)
    every label is on one line ↔ every code block in a link stands right in it   (ofDoms_links_iff)
-/

namespace MessageLayout

namespace Mrkdwn

open Html
open Text (Matched)

/-! ## Items of a document -/

/-- What an element shows that is no character, given what its content shows: a break hides its
content, a link comes before its content, or is a mention instead. -/
def shownAs (name : String) (attrs : Attrs) (content : List Item) : List Item :=
  if name = "br" then []
  else
    match (if name = "a" then attrs.lookup "href" else none) with
    | none | some [] => content
    | some href =>
      match Mention.ofHref? href with
      | some m => [.mention m]
      | none => .link href :: content.map (Item.within true)

mutual

/-- The links, mentions and code blocks that a node shows within an element of the given name. -/
def items (parent : String) : Dom → List Item
  | .element name attrs children =>
    if !showsBlank name && (Dom.element name attrs children).isBlank then []
    else
      match fencedCode? name children with
      | some code => [.code false ⟨codeOf code, parent == "a"⟩]
      | none => shownAs name attrs (itemsOf name children)
  | _ => []

/-- The links, mentions and code blocks that several nodes show. -/
def itemsOf (parent : String) : List Dom → List Item
  | [] => []
  | n :: ns => items parent n ++ itemsOf parent ns

end

/-! ## Layout -/

section Layout

variable {d : Delimiters} {F : Fences} {is : List Item} {s : List Char}

theorem spells_layInline_link (attrs : Attrs) (h : Spells F .laid [] is s []) :
    Spells F .laid [] (shownAs "a" attrs is) (layInline d "a" attrs s) [] := by
  simp only [layInline, shownAs, String.reduceEq, if_false, if_true]
  cases attrs.lookup "href" with
  | none => exact h
  | some href =>
    cases href with
    | nil => exact h
    | cons c href =>
      cases hm : Mention.ofHref? (c :: href) with
      | none => simpa [hm] using h.link hm
      | some m =>
        have hmention : Spells F .laid [] [.mention m] m.token [] := .of_part (.mention hm)
        simpa [hm, link] using hmention

theorem shownAs_of_ne {name : String} (hbr : name ≠ "br") (ha : name ≠ "a") (attrs : Attrs) :
    shownAs name attrs is = is := by
  simp [shownAs, hbr, ha]

theorem spells_layInline (hd : Delimiting d) {name : String} (hbr : name ≠ "br") {attrs : Attrs}
    (ht : UnbracketedDate name attrs []) (h : Spells F .laid [] is s []) :
    Spells F .laid [] (shownAs name attrs is) (layInline d name attrs s) [] := by
  by_cases ha : name = "a"
  · subst ha
    exact spells_layInline_link attrs h
  · rw [shownAs_of_ne hbr ha]
    by_cases htime : name = "time"
    · subst htime
      simp only [layInline]
      cases hl : attrs.lookup "datetime" with
      | none => exact h
      | some timestamp => exact h.dateToken (ht rfl timestamp hl) (unbracketed_escapeEntity _)
    · exact Spells.isReading.layInline hd ha htime attrs h

theorem spells_layAround (hd : Delimiting d) {name : String} {attrs : Attrs} (place : Mrkdwn.Place)
    (ht : UnbracketedDate name attrs []) (h : Spells F .laid [] is s []) :
    Spells F .laid [] (shownAs name attrs is) (layAround d name attrs place s) [] := by
  refine Spells.isReading.layAround place (fun hblock => ?_) (fun hbr => ?_)
    (fun hbr hi => spells_layInline hd hbr ht hi) h
  · obtain ⟨hbr, ha⟩ := isBlockName_ne hblock
    exact shownAs_of_ne hbr ha attrs
  · have hbreak := (Spells.of_part (F := F) (x := []) .breakMark).append_unbracketed
      (t := ['\n']) (by decide)
    rw [hbr]
    exact hbreak

mutual

theorem spells_layNode (hd : Delimiting d) (trims : Bool) (place : Mrkdwn.Place) (fences : Fences) :
    (n : Dom) → n.Every UnbracketedDate → (layNode d trims place fences n).fences <+: F →
    Spells F .laid [] (items place.parent n) (layNode d trims place fences n).text []
  | .text content, _, _ => by
    simp only [layNode, items]
    exact .of_unbracketed (unbracketed_escapeEntity _) fun _ => List.not_mem_nil
  | .comment, _, _ => .nil _
  | .element name attrs children, h, hF => by
    obtain ⟨hdate, hc⟩ := h
    simp only [layNode, items] at hF ⊢
    split
    next hblank =>
      exact Spells.isReading.trimStartIf trims (Spells.isReading.layBlank name children)
    next hblank =>
      rw [if_neg hblank] at hF
      cases hcode : fencedCode? name children with
      | some code =>
        simp only [hcode] at hF ⊢
        have hrestored := restored_of_prefix hF (place.parent == "a")
        have hmark : Spells F .laid [] [.code false ⟨codeOf code, place.parent == "a"⟩]
            (Mark.text (fences.length, place.parent == "a")) [] :=
          .of_part (.mark (by simp) rfl hrestored)
        exact Spells.isReading.placeholder _ _ hmark
      | none =>
        simp only [hcode] at hF ⊢
        have hm := spells_layNodes hd name attrs (isBlockName name) 0 [] ⟨[], fences⟩ (.nil _)
          children hc hF
        exact Spells.isReading.trimStartIf trims (spells_layAround hd place hdate hm)

/-- Nodes show what each of them shows, behind what is shown before them. -/
theorem spells_layNodes (hd : Delimiting d) (parent : String) (parentAttrs : Attrs) (isBlock : Bool)
    (elementsBefore : Nat) (before : List Item) (laid : Laid)
    (hl : Spells F .laid [] before laid.text []) :
    (ns : List Dom) → Dom.EveryOf UnbracketedDate ns →
    (layNodes d parent parentAttrs isBlock elementsBefore laid ns).fences <+: F →
    Spells F .laid [] (before ++ itemsOf parent ns)
      (layNodes d parent parentAttrs isBlock elementsBefore laid ns).text []
  | [], _, _ => by simpa only [layNodes, itemsOf, List.append_nil] using hl
  | n :: ns, h, hF => by
    simp only [layNodes, itemsOf, ← List.append_assoc] at hF ⊢
    have hF' := (prefix_fences_layNodes d parent parentAttrs isBlock _ _ ns).trans hF
    have hn := spells_layNode hd _ _ laid.fences n h.1 hF'
    exact spells_layNodes hd parent parentAttrs isBlock _ _ _ (Spells.isReading.join hl hn) ns h.2 hF

end

end Layout

/-- The mrkdwn of a document shows what the document shows. -/
theorem spells_ofDoms (options : FormatOptions) {body : List Dom}
    (hdates : Dom.EveryOf UnbracketedDate body) :
    ∃ F, Spells F .complete [] (itemsOf "body" body) (ofDoms (delimiters options) body) [] := by
  have h := spells_layNodes (delimiting_delimiters options) "body" [] true 0 [] ⟨[], []⟩ (.nil _) body
    hdates List.prefix_rfl
  exact ⟨_, (Spells.isReading.trimEnds h).dropBreakMarks.restore⟩

/-! ## Labels -/

/-- A text made of the characters of encoded targets. -/
def IsTarget (url : List Char) : Prop :=
  ∀ c ∈ url, Text.Uri.isPlain c = true ∨ c = '%'

/-- A text holds a link: behind the target comes a label, up to the bracket that closes the link. -/
def HoldsLink (s url label : List Char) : Prop :=
  IsTarget url ∧ Matched label ∧ '<' :: url ++ '|' :: label ++ ['>'] <:+: s

/-- A text closes the given number of brackets that were opened before it, and those that it opens. -/
structure Closes (d : Nat) (s : List Char) : Prop where
  le : ∀ p, p <+: s → p.count '>' ≤ p.count '<' + d
  total : s.count '<' + d = s.count '>'

theorem closes_zero_iff {s : List Char} : Closes 0 s ↔ Matched s :=
  ⟨fun h => ⟨h.le, h.total⟩, fun h => ⟨h.le, h.total⟩⟩

theorem Closes.of_append {d e : Nat} {p s : List Char} (h : Closes d (p ++ s))
    (hd : p.count '<' + d = p.count '>' + e) : Closes e s := by
  refine ⟨fun q hq => ?_, ?_⟩
  · have hle := h.le (p ++ q) ((List.prefix_append_right_inj p).mpr hq)
    rw [List.count_append, List.count_append] at hle
    omega
  · have htotal := h.total
    rw [List.count_append, List.count_append] at htotal
    omega

theorem Closes.prepend {d e : Nat} {p s : List Char} (h : Closes e s)
    (hp : ∀ q, q <+: p → q.count '>' ≤ q.count '<' + d)
    (hd : p.count '<' + d = p.count '>' + e) : Closes d (p ++ s) := by
  refine ⟨fun q hq => ?_, ?_⟩
  · rcases Text.prefix_append_cases hq with hq | ⟨r, rfl, hr⟩
    · exact hp q hq
    · have hle := h.le r hr
      rw [List.count_append, List.count_append]
      omega
  · have htotal := h.total
    rw [List.count_append, List.count_append]
    omega

/-- Where text up to a closing bracket begins with a part that holds none, the part belongs to it. -/
theorem exists_of_append_eq {p t l v : List Char} (hp : '>' ∉ p) (h : p ++ t = l ++ '>' :: v) :
    ∃ l', l = p ++ l' ∧ t = l' ++ '>' :: v := by
  rcases List.append_eq_append_iff.mp h with ⟨l', rfl, ht⟩ | ⟨p', rfl, hv⟩
  · exact ⟨l', rfl, ht⟩
  · cases p' with
    | nil => exact ⟨[], by simp, hv.symm⟩
    | cons c p' =>
      obtain ⟨rfl, -⟩ := List.cons.inj hv
      exact absurd (by simp) hp

/-- Texts up to the first character of a kind are equal where those with what follows are. -/
theorem append_cons_inj {c : Char} {s t u v : List Char} (hs : c ∉ s) (ht : c ∉ t)
    (h : s ++ c :: u = t ++ c :: v) : s = t ∧ u = v := by
  rcases List.append_eq_append_iff.mp h with ⟨w, rfl, hw⟩ | ⟨w, rfl, hw⟩
  all_goals
    cases w with
    | nil =>
      obtain ⟨-, huv⟩ := List.cons.inj hw
      exact ⟨by simp, huv.symm ▸ rfl⟩
    | cons d w =>
      obtain ⟨rfl, -⟩ := List.cons.inj hw
      simp at hs ht

theorem bar_not_mem_of_isTarget {url : List Char} (h : IsTarget url) : '|' ∉ url :=
  fun hm => absurd (h _ hm) (by decide)

theorem count_of_unbracketed {s : List Char} (h : Unbracketed s) :
    s.count '<' = 0 ∧ s.count '>' = 0 :=
  ⟨List.count_eq_zero.mpr fun hm => (h _ hm).1 rfl, List.count_eq_zero.mpr fun hm => (h _ hm).2 rfl⟩

/-- What stands behind the bracket of a date is no target. -/
theorem IsTarget.append_bar_ne_date {url : List Char} (h : IsTarget url) (s t : List Char) :
    url ++ '|' :: s ≠ "!date".toList ++ '^' :: t := by
  intro he
  rcases List.append_eq_append_iff.mp he with ⟨w, hw, hs⟩ | ⟨w, rfl, hs⟩
  · cases w with
    | nil => exact absurd (List.cons.inj hs).1 (by decide)
    | cons c w =>
      obtain ⟨rfl, -⟩ := List.cons.inj hs
      have hm : '|' ∈ "!date".toList := by simp [hw]
      exact absurd hm (by decide)
  · cases w with
    | nil => exact absurd (List.cons.inj hs).1 (by decide)
    | cons c w =>
      obtain ⟨rfl, -⟩ := List.cons.inj hs
      exact absurd (h '^' (by simp)) (by decide)

/-- Matched text up to a closing bracket stands within the text without brackets that the same
bracket ends. -/
theorem infix_of_matched_append_eq {p label v w t : List Char} (h : Matched label) (hp : '>' ∉ p)
    (hw : Unbracketed w) (he : p ++ (label ++ '>' :: v) = w ++ '>' :: t) : label <:+: w := by
  obtain ⟨w', rfl, hw'⟩ := exists_of_append_eq hp he
  rcases List.append_eq_append_iff.mp hw' with ⟨r, rfl, -⟩ | ⟨r, rfl, hend⟩
  · exact ⟨p, r, by simp⟩
  · cases r with
    | nil => exact ⟨p, [], by simp⟩
    | cons c r =>
      obtain ⟨rfl, -⟩ := List.cons.inj hend
      obtain ⟨hopen, -⟩ := count_of_unbracketed fun c hc => hw c (List.mem_append_right p hc)
      have hle := h.le (w' ++ ['>']) ⟨r, by simp⟩
      rw [List.count_append, List.count_append, hopen] at hle
      simp at hle

/-- The bracket that opens a link or a date, with what stands behind it. -/
theorem count_opening {w : List Char} {b : Char} (hw : Unbracketed w) (hb : b ∈ barriers) :
    ('<' :: w ++ [b]).count '<' = 1 ∧ ('<' :: w ++ [b]).count '>' = 0 := by
  obtain ⟨hlt, hgt, -⟩ := of_mem_barriers hb
  have hall : Unbracketed (w ++ [b]) := List.forall_mem_append.mpr ⟨hw, by simp [hlt, hgt]⟩
  have hcount := count_of_unbracketed hall
  rw [List.cons_append, List.count_cons_self, List.count_cons_of_ne (by decide)]
  exact ⟨by rw [hcount.1], hcount.2⟩

theorem unbracketed_text (b : CodeBlock) : Unbracketed b.text := by
  rw [b.text_eq_fenced]
  exact unbracketed_fenced b.code b.singleLine

theorem newline_mem_text_iff (b : CodeBlock) : '\n' ∈ b.text ↔ b.singleLine = false := by
  cases hs : b.singleLine with
  | false => simp [CodeBlock.text, hs]
  | true =>
    have hsqueeze : '\n' ∉ Text.squeeze (· = '\n') ' ' (Text.escapeEntity b.code) :=
      Text.not_mem_squeeze (by decide) (by decide) _
    simp [CodeBlock.text, hs, hsqueeze]

theorem exists_text_eq (b : CodeBlock) : ∃ w, b.text = '\x60' :: w := by
  simp only [CodeBlock.text]
  split <;> exact ⟨_, rfl⟩

section Label

variable {F : Fences} {x y : Open} {is : List Item} {s t : List Char}

/-- A mention is text in brackets. -/
theorem exists_token_eq_enclose {href : List Char} {m : Mention} (h : Mention.ofHref? href = some m) :
    ∃ w, m.token = '<' :: w ++ ['>'] ∧ Unbracketed w ∧ '\n' ∉ w := by
  obtain ⟨b, v, he, hb, hv, hblank⟩ := exists_token_eq h
  obtain ⟨hlt, hgt, hn, -⟩ := of_mem_barriers hb
  refine ⟨b :: v, by simp [he], List.forall_mem_cons.mpr ⟨⟨hlt, hgt⟩, hv⟩, ?_⟩
  rw [List.mem_cons, not_or]
  exact ⟨hn.symm, fun hm => absurd (hblank _ hm) (by decide)⟩

/-- Up to the bracket that closes a link, each part of a text stands within the link and begins no
line. -/
theorem Part.of_closes {d : Nat} {l v : List Char} (h : Part F .complete x is s y)
    (hcodes : ∀ b, .code true b ∈ is → b.singleLine = true) (hx : true ∈ x.drop d)
    (hl : Closes d l) (he : s ++ t = l ++ '>' :: v) :
    l = [] ∨ ∃ l' e, l = s ++ l' ∧ t = l' ++ '>' :: v ∧ Closes e l' ∧ true ∈ y.drop e ∧ '\n' ∉ s := by
  cases h with
  | @char _ _ c hlt hgt hn =>
    obtain ⟨l', rfl, rfl⟩ := exists_of_append_eq (by simpa using hgt.symm) he
    have hne : c ≠ '\n' := fun e => hn e (List.mem_of_mem_drop hx)
    exact .inr ⟨l', d, rfl, rfl, hl.of_append (by simp [hlt, hgt]), hx, by simpa using hne.symm⟩
  | link href =>
    obtain ⟨hopen, hclose⟩ := count_opening (unbracketed_encode href) (b := '|') (by decide)
    obtain ⟨l', rfl, rfl⟩ := exists_of_append_eq (List.count_eq_zero.mp hclose) he
    have hn : '\n' ∉ Text.Uri.encode href := fun hm => absurd (isBlank_of_mem_encode hm) (by decide)
    exact .inr ⟨l', d + 1, rfl, rfl, hl.of_append (by omega), by simpa using hx, by simp [hn]⟩
  | date =>
    obtain ⟨hopen, hclose⟩ := count_opening (w := "!date".toList) (b := '^') (by decide) (by decide)
    obtain ⟨l', rfl, rfl⟩ := exists_of_append_eq (List.count_eq_zero.mp hclose) he
    exact .inr ⟨l', d + 1, rfl, rfl, hl.of_append (by omega), by simpa using hx, by decide⟩
  | close =>
    cases l with
    | nil => exact .inl rfl
    | cons c l =>
      obtain ⟨rfl, rfl⟩ := List.cons.inj he
      have hd : d ≠ 0 := by
        rintro rfl
        exact absurd (hl.le ['>'] ⟨l, rfl⟩) (by decide)
      obtain ⟨e, rfl⟩ := Nat.exists_eq_succ_of_ne_zero hd
      have hl' : Closes (e + 1) (['>'] ++ l) := hl
      exact .inr ⟨l, e, rfl, rfl, hl'.of_append (by simp [Nat.add_comm]), by simpa using hx, by decide⟩
  | mention hm =>
    obtain ⟨w, hw, hu, hn⟩ := exists_token_eq_enclose hm
    obtain ⟨hlt, hgt⟩ := count_of_unbracketed hu
    rw [hw, List.append_assoc] at he
    have hopen : ('<' :: w).count '<' = 1 ∧ ('<' :: w).count '>' = 0 := by
      rw [List.count_cons_self, List.count_cons_of_ne (by decide)]
      exact ⟨by rw [hlt], hgt⟩
    obtain ⟨l₁, rfl, hl₁⟩ := exists_of_append_eq (List.count_eq_zero.mp hopen.2) he
    cases l₁ with
    | nil =>
      -- the bracket of the mention would be closed twice
      have htotal := hl.total
      rw [List.append_nil] at htotal
      omega
    | cons c l' =>
      obtain ⟨rfl, rfl⟩ := List.cons.inj hl₁
      have hl' : Closes d ('<' :: w ++ ['>'] ++ l') := by simpa using hl
      refine .inr ⟨l', d, by rw [hw]; simp, rfl, hl'.of_append ?_, hx, by rw [hw]; simp [hn]⟩
      rw [List.count_append, List.count_append, hopen.1, hopen.2]
      simp [Nat.add_comm]
  | code b =>
    have hin : decide (true ∈ x) = true := decide_eq_true (List.mem_of_mem_drop hx)
    obtain ⟨hlt, hgt⟩ := count_of_unbracketed (unbracketed_text b)
    obtain ⟨l', rfl, rfl⟩ := exists_of_append_eq (List.count_eq_zero.mp hgt) he
    have hsingle := hcodes b (by rw [hin]; exact List.mem_singleton_self _)
    have hn : '\n' ∉ b.text := fun hm => by
      rw [(newline_mem_text_iff b).mp hm] at hsingle
      cases hsingle
    exact .inr ⟨l', d, rfl, rfl, hl.of_append (by omega), hx, hn⟩
  | mark hstage _ _ => exact absurd rfl hstage

/-- No line begins before the bracket that closes a link. -/
theorem Spells.newline_not_mem {d : Nat} {l v : List Char}
    (h : Spells F .complete x is (l ++ '>' :: v) y)
    (hcodes : ∀ b, .code true b ∈ is → b.singleLine = true) (hx : true ∈ x.drop d)
    (hl : Closes d l) : '\n' ∉ l := by
  generalize hr : l ++ '>' :: v = r at h
  induction h generalizing d l with
  | nil => simp at hr
  | step hs _ ih =>
    have hcodes' := fun b hb => hcodes b (List.mem_append_left _ hb)
    rcases hs.of_closes hcodes' hx hl hr.symm with rfl | ⟨l', e, rfl, ht, hl', hy, hn⟩
    · exact List.not_mem_nil
    · have hrest := ih (fun b hb => hcodes b (List.mem_append_right _ hb)) hy hl' ht.symm
      rw [List.mem_append, not_or]
      exact ⟨hn, hrest⟩

/-- A part holds a bracket only at its start. -/
theorem Part.exists_cons (h : Part F .complete x is s y) : ∃ c w, s = c :: w ∧ '<' ∉ w := by
  cases h with
  | char _ _ _ => exact ⟨_, [], rfl, List.not_mem_nil⟩
  | link href => exact ⟨_, _, rfl, lt_not_mem_opening (unbracketed_encode href) (by decide)⟩
  | date => exact ⟨_, _, rfl, by decide⟩
  | close => exact ⟨_, [], rfl, List.not_mem_nil⟩
  | mention hm =>
    obtain ⟨w, hw, hu, -⟩ := exists_token_eq_enclose hm
    refine ⟨'<', w ++ ['>'], hw, ?_⟩
    simpa using fun hmem => (hu _ hmem).1 rfl
  | code b =>
    obtain ⟨w, hw⟩ := exists_text_eq b
    exact ⟨_, w, hw, fun hm => (unbracketed_text b '<' (hw ▸ List.mem_cons_of_mem _ hm)).1 rfl⟩
  | mark hstage _ _ => exact absurd rfl hstage

/-- A part begins at each bracket. -/
theorem Spells.exists_opening {u : List Char} (h : Spells F .complete x is (u ++ '<' :: t) y) :
    ∃ x' js, js <:+ is ∧ Spells F .complete x' js ('<' :: t) y := by
  generalize hr : u ++ '<' :: t = r at h
  induction h generalizing u with
  | nil => simp at hr
  | @step x y z is js p q hs h ih =>
    cases u with
    | nil =>
      rw [List.nil_append] at hr
      rw [hr]
      exact ⟨x, _, List.suffix_rfl, .step hs h⟩
    | cons d u =>
      obtain ⟨c, w, rfl, hw⟩ := hs.exists_cons
      obtain ⟨rfl, htail⟩ := List.cons.inj hr
      rcases List.append_eq_append_iff.mp htail with ⟨w', rfl, hq⟩ | ⟨u', rfl, hq⟩
      · cases w' with
        | nil =>
          obtain ⟨x', js', hjs, h'⟩ := ih (u := []) (by simpa using hq)
          exact ⟨x', js', hjs.trans (List.suffix_append _ _), h'⟩
        | cons e w' =>
          obtain ⟨rfl, -⟩ := List.cons.inj hq
          exact absurd (by simp) hw
      · obtain ⟨x', js', hjs, h'⟩ := ih hq.symm
        exact ⟨x', js', hjs.trans (List.suffix_append _ _), h'⟩

/-- A bracket that opens a link with the target of the link token opens a link of the text. -/
theorem Spells.newline_not_mem_of_holdsLink {is : List Item} {s url label : List Char}
    (h : Spells F .complete [] is s []) (hcodes : ∀ b, .code true b ∈ is → b.singleLine = true)
    (hl : HoldsLink s url label) : '\n' ∉ label := by
  obtain ⟨hurl, hmatched, u, v, rfl⟩ := hl
  have he : u ++ ('<' :: url ++ '|' :: label ++ ['>']) ++ v
      = u ++ '<' :: (url ++ '|' :: (label ++ '>' :: v)) := by simp
  rw [he] at h
  obtain ⟨x, js, hjs, h⟩ := h.exists_opening
  have hcodes' : ∀ b, .code true b ∈ js → b.singleLine = true := fun b hb => hcodes b (hjs.subset hb)
  generalize hr : '<' :: (url ++ '|' :: (label ++ '>' :: v)) = r at h
  cases h with
  | nil => cases hr
  | @step _ _ _ is₁ is₂ p t hs h =>
    have hbar := bar_not_mem_of_isTarget hurl
    cases hs with
    | char hlt _ _ => exact absurd (List.cons.inj hr).1.symm hlt
    | close => exact absurd (List.cons.inj hr).1 (by decide)
    | link href =>
      have hbar' : '|' ∉ Text.Uri.encode href := fun hm =>
        absurd (Text.Uri.isPlain_of_mem_encode hm) (by decide)
      have hr' : url ++ '|' :: (label ++ '>' :: v) = Text.Uri.encode href ++ '|' :: t := by
        simpa using hr
      obtain ⟨-, rfl⟩ := append_cons_inj hbar hbar' hr'
      exact h.newline_not_mem (fun b hb => hcodes' b (List.mem_append_right _ hb))
        List.mem_cons_self (closes_zero_iff.mpr hmatched)
    | date =>
      refine absurd ?_ (hurl.append_bar_ne_date (label ++ '>' :: v) t)
      simpa using (List.cons.inj hr).2
    | mention hm =>
      obtain ⟨w, hw, hu, hn⟩ := exists_token_eq_enclose hm
      have hgt : '>' ∉ url ++ ['|'] := by
        simpa using fun hm => absurd (hurl _ hm) (by decide)
      have hr' : (url ++ ['|']) ++ (label ++ '>' :: v) = w ++ '>' :: t := by
        rw [hw] at hr
        simpa using hr
      -- the label ends where the mention ends
      exact fun hmem => hn ((infix_of_matched_append_eq hmatched hgt hu hr').subset hmem)
    | mark hstage _ _ => exact absurd rfl hstage
    | code b =>
      obtain ⟨w, hw⟩ := exists_text_eq b
      rw [hw] at hr
      exact absurd (List.cons.inj hr).1 (by decide)

/-- The bracket above those of `st` is closed in the text, behind `n` others and behind all that
stands in it. -/
def ClosedBehind (F : Fences) (n : Nat) (st : Open) (is : List Item) (s : List Char) : Prop :=
  ∃ is₁ is₂ l rest, is = is₁ ++ is₂ ∧ s = l ++ '>' :: rest ∧ Closes n l ∧
    (∀ i b, .code i b ∈ is₁ → b.text <:+: l) ∧ Spells F .complete st is₂ rest []

/-- A part that closes no bracket but those above stands before the rest, with no code but its own. -/
theorem ClosedBehind.prepend {n m : Nat} {st : Open} {js : List Item} {p : List Char}
    (h : ClosedBehind F m st js t) (hle : ∀ q, q <+: p → q.count '>' ≤ q.count '<' + n)
    (hcount : p.count '<' + n = p.count '>' + m) (hcode : ∀ i b, .code i b ∈ is → b.text = p) :
    ClosedBehind F n st (is ++ js) (p ++ t) := by
  obtain ⟨is₁, is₂, l, rest, rfl, rfl, hl, hin, hrest⟩ := h
  refine ⟨is ++ is₁, is₂, p ++ l, rest, by simp, by simp, hl.prepend hle hcount, ?_, hrest⟩
  intro i b hb
  rcases List.mem_append.mp hb with hb | hb
  · exact ⟨[], l, by simp [hcode i b hb]⟩
  · exact (hin i b hb).trans (List.suffix_append _ _).isInfix

/-- A part without a closing bracket stands before the rest. -/
theorem ClosedBehind.prepend_of_not_mem {n m : Nat} {st : Open} {js : List Item} {p : List Char}
    (h : ClosedBehind F m st js t) (hgt : '>' ∉ p) (hcount : p.count '<' + n = m)
    (hcode : ∀ i b, .code i b ∈ is → b.text = p) : ClosedBehind F n st (is ++ js) (p ++ t) := by
  refine h.prepend (fun q hq => ?_) (by rw [List.count_eq_zero.mpr hgt, hcount, Nat.zero_add]) hcode
  rw [List.count_eq_zero.mpr fun hm => hgt (hq.subset hm)]
  exact Nat.zero_le _

/-- The bracket that is open is closed behind all that stands in it. -/
theorem Spells.exists_close {o : Bool} (pre : Open) {st : Open} {is : List Item} {s : List Char}
    (h : Spells F .complete (pre ++ o :: st) is s []) : ClosedBehind F pre.length st is s := by
  generalize hx : pre ++ o :: st = x at h
  generalize hy : ([] : Open) = y at h
  induction h generalizing pre with
  | nil => rw [← hy] at hx; simp at hx
  | @step x y z is js p t hs h ih =>
    subst hy
    cases hs with
    | @char _ _ c hlt hgt _ =>
      exact (ih pre hx rfl).prepend_of_not_mem (by simpa using hgt.symm) (by simp [hlt]) (by simp)
    | link href =>
      obtain ⟨hopen, hclose⟩ := count_opening (unbracketed_encode href) (b := '|') (by decide)
      refine (ih (true :: pre) (by rw [← hx]; rfl) rfl).prepend_of_not_mem
        (List.count_eq_zero.mp hclose) ?_ (by simp)
      rw [hopen, List.length_cons, Nat.add_comm]
    | date =>
      obtain ⟨hopen, hclose⟩ := count_opening (w := "!date".toList) (b := '^') (by decide) (by decide)
      refine (ih (false :: pre) (by rw [← hx]; rfl) rfl).prepend_of_not_mem
        (List.count_eq_zero.mp hclose) ?_ (by simp)
      rw [hopen, List.length_cons, Nat.add_comm]
    | code b =>
      obtain ⟨hlt, hgt⟩ := count_of_unbracketed (unbracketed_text b)
      refine (ih pre hx rfl).prepend_of_not_mem (List.count_eq_zero.mp hgt) (by rw [hlt, Nat.zero_add])
        fun i b' hb => ?_
      obtain ⟨-, rfl⟩ := Item.code.inj (List.mem_singleton.mp hb)
      rfl
    | close =>
      cases pre with
      | nil =>
        obtain ⟨-, rfl⟩ := List.cons.inj hx
        exact ⟨[], js, [], t, rfl, rfl, closes_zero_iff.mpr .nil, by simp, h⟩
      | cons o' pre =>
        obtain ⟨rfl, hx'⟩ := List.cons.inj hx
        refine (ih pre hx' rfl).prepend (fun q hq => ?_) (by simp [Nat.add_comm]) (by simp)
        have hle := hq.sublist.count_le '>'
        simp at hle ⊢
        omega
    | mention hm =>
      obtain ⟨w, hw, hu, -⟩ := exists_token_eq_enclose hm
      have hnone : Text.brackets w = Text.brackets [] := brackets_eq_nil hu
      have hmatched : Matched ('<' :: w ++ ['>']) := (Matched.nil.of_brackets_eq hnone).enclose
      rw [← hw] at hmatched
      exact (ih pre hx rfl).prepend
        (fun q hq => Nat.le_trans (hmatched.le q hq) (Nat.le_add_right _ _))
        (by rw [hmatched.total]) (by simp)
    | mark hstage _ _ => exact absurd rfl hstage

theorem HoldsLink.append {s url label : List Char} (h : HoldsLink s url label) (p : List Char) :
    HoldsLink (p ++ s) url label :=
  ⟨h.1, h.2.1, h.2.2.trans (List.suffix_append _ _).isInfix⟩

/-- Code that is shown in a link stands in the label of a link of the text. -/
theorem Spells.exists_holdsLink {b : CodeBlock} {x : Open} {is : List Item} {s : List Char}
    (h : Spells F .complete x is s []) (hx : true ∉ x) (hb : .code true b ∈ is) :
    ∃ url label, HoldsLink s url label ∧ b.text <:+: label := by
  induction hn : s.length using Nat.strong_induction_on generalizing x is s with
  | _ n ih =>
    cases h with
    | nil => cases hb
    | @step _ y _ is js p t hs h =>
      -- code that the part does not show is shown in the rest
      have rest : true ∉ y → .code true b ∈ js →
          ∃ url label, HoldsLink (p ++ t) url label ∧ b.text <:+: label := by
        intro hy hb
        obtain ⟨c, w, rfl, -⟩ := hs.exists_cons
        obtain ⟨url, label, hl, hin⟩ := ih t.length (by simp at hn; omega) h hy hb rfl
        exact ⟨url, label, hl.append _, hin⟩
      cases hs with
      | char _ _ _ => exact rest hx hb
      | date => exact rest (by simpa using hx) hb
      | close => exact rest (fun hm => hx (List.mem_cons_of_mem _ hm)) hb
      | mention _ => exact rest hx (by simpa using hb)
      | code b' =>
        refine rest hx ?_
        rw [decide_eq_false hx] at hb
        simpa using hb
      | mark hstage _ _ => exact absurd rfl hstage
      | link href =>
        obtain ⟨is₁, is₂, l, behind, rfl, rfl, hl, hin, hrest⟩ := Spells.exists_close [] h
        have hb' : .code true b ∈ is₁ ∨ .code true b ∈ is₂ := by simpa using hb
        rcases hb' with hb | hb
        · refine ⟨Text.Uri.encode href, l, ⟨fun c => Text.Uri.isPlain_of_mem_encode,
            closes_zero_iff.mp hl, [], behind, by simp⟩, hin true b hb⟩
        · obtain ⟨url, label, hlink, hcode⟩ := ih behind.length (by simp at hn; omega) hrest hx hb rfl
          refine ⟨url, label, ?_, hcode⟩
          have := hlink.append ('<' :: Text.Uri.encode href ++ ['|'] ++ (l ++ ['>']))
          simpa using this

end Label

/-- In the mrkdwn of a document every link is on one line exactly if every code block that is shown
in a link stands right in an `a` element. -/
theorem ofDoms_links_iff (options : FormatOptions) {body : List Dom}
    (hdates : Dom.EveryOf UnbracketedDate body) :
    (∀ url label, HoldsLink (ofDoms (delimiters options) body) url label → '\n' ∉ label)
      ↔ ∀ b, .code true b ∈ itemsOf "body" body → b.singleLine = true := by
  obtain ⟨F, h⟩ := spells_ofDoms options hdates
  constructor
  · intro hall b hb
    obtain ⟨url, label, hl, hin⟩ := h.exists_holdsLink List.not_mem_nil hb
    cases hs : b.singleLine with
    | true => rfl
    | false => exact absurd (hin.subset ((newline_mem_text_iff b).mpr hs)) (hall url label hl)
  · exact fun hcodes url label hl => h.newline_not_mem_of_holdsLink hcodes hl

/-! ## Fragments -/

/-- A text on which a fragment is written has no brackets in the timestamps of its dates. -/
theorem everyOf_unbracketedDate_parse {blocks : Bool} {html : List Char}
    (h : Markup.Balanced blocks false html) : Dom.EveryOf UnbracketedDate (parse html) := by
  have hbuilt := everyOf_built_parse (Html.Balanced.nested_tokens h).brings
  refine Dom.EveryOf.mono (fun _ _ _ hb _ ht stamp hl c hc => ?_) _ hbuilt hbuilt
  obtain ⟨hlt, hgt⟩ := hb.1 ht stamp hl
  exact ⟨fun e => hlt (e ▸ hc), fun e => hgt (e ▸ hc)⟩

end Mrkdwn

open Mrkdwn Html

/-- Content that is written comes to a fragment and its mrkdwn, unless a date cannot be read. -/
theorem exists_renderFragment {options : FormatOptions} {content : Content} {P : List Char → Prop}
    (h : Render.Writes P
      (Render.renderText ((Render.Context.ofOptions options).withMode .html) content.normalize)) :
    (∃ text, renderFragment options content = .error (.invalidDatetime text) ∧
        renderMrkdwn options content = .error (.invalidDatetime text)) ∨
      ∃ html out, renderFragment options content = .ok html ∧ renderMrkdwn options content = .ok out ∧
        out.toList = ofHtml options html.toList ∧ P html.toList := by
  have hmrkdwn := renderMrkdwn_eq_map_renderFragment options content
  rcases h with ⟨text, hfail⟩ | ⟨html, hwritten, hok⟩
  · have hfragment : renderFragment options content = _ :=
      CodePlace.renderFragment_of_renderText rfl hfail
    rw [hfragment] at hmrkdwn
    exact .inl ⟨text, hfragment, hmrkdwn⟩
  · have hfragment : renderFragment options content = _ :=
      CodePlace.renderFragment_of_renderText rfl hok
    rw [hfragment] at hmrkdwn
    exact .inr ⟨String.ofList html, _, hfragment, hmrkdwn, by simp, by simpa using hwritten⟩

/-- In the mrkdwn of inline children every link is on one line exactly if every code block that is
shown in a link stands right in the element of a link. -/
theorem renderMrkdwn_links_iff (options : FormatOptions) {content : Content}
    (h : childrenAreInline true content.normalize = true) :
    (∃ text, renderMrkdwn options content = .error (.invalidDatetime text)) ∨
      ∃ html out, renderFragment options content = .ok html ∧ renderMrkdwn options content = .ok out ∧
        ((∀ url label, HoldsLink out.toList url label → '\n' ∉ label)
          ↔ ∀ b, .code true b ∈ itemsOf "body" (parse html.toList) → b.singleLine = true) := by
  rcases exists_renderFragment (Render.writes_renderText rfl _ h) with
    ⟨text, -, hfail⟩ | ⟨html, out, hhtml, hout, he, hbal⟩
  · exact .inl ⟨text, hfail⟩
  · refine .inr ⟨html, out, hhtml, hout, ?_⟩
    rw [he]
    exact ofDoms_links_iff options (everyOf_unbracketedDate_parse hbal)

/-- A paragraph and a code block in a link. -/
theorem renderMrkdwn_links_iff_blocks :
    let tag (name : String) (children : List Child) : Child := .node ⟨.tag name, ⟨[]⟩, children, none⟩
    let link : Child := .node ⟨.tag "a", ⟨[("href", .json (.str "#top"))]⟩,
      [tag "p" [.text "x"], tag "pre" [.text "y\nz"]], none⟩
    let content : Content := .ofChild (tag "b" [link])
    childrenAreInline true content.normalize = true ∧
      renderMrkdwn {} content = .ok "*<#top|x \x60\x60\x60y z\x60\x60\x60>*" ∧
        ∃ out, renderMrkdwn {} content = .ok out ∧
          ∀ url label, HoldsLink out.toList url label → '\n' ∉ label := by
  intro tag link content
  have hinline : childrenAreInline true content.normalize = true := by decide
  have hok : renderMrkdwn {} content = .ok "*<#top|x \x60\x60\x60y z\x60\x60\x60>*" := by cbv
  have hfragment : renderFragment {} content
      = .ok "<b><a href=\"#top\"><p>x</p><pre><code>y\nz</code></pre></a></b>" := by cbv
  have hitems : itemsOf "body"
      (parse "<b><a href=\"#top\"><p>x</p><pre><code>y\nz</code></pre></a></b>".toList)
        = [.link "#top".toList, .code true ⟨"y\nz".toList, true⟩] := by cbv
  refine ⟨hinline, hok, ?_⟩
  rcases renderMrkdwn_links_iff {} hinline with ⟨text, hfail⟩ | ⟨html, out, hhtml, hout, hiff⟩
  · rw [hok] at hfail
    cases hfail
  · refine ⟨out, hout, hiff.mpr fun b hb => ?_⟩
    obtain rfl := Except.ok.inj (hfragment.symm.trans hhtml)
    rw [hitems] at hb
    simp only [List.mem_cons, Item.code.injEq, reduceCtorEq, true_and, List.not_mem_nil, or_false,
      false_or] at hb
    rw [hb]

/-- A style between a link and a code block: the lines of the block break the link. -/
theorem renderMrkdwn_link_broken :
    let tag (name : String) (children : List Child) : Child := .node ⟨.tag name, ⟨[]⟩, children, none⟩
    let content : Content := .ofChild (.node ⟨.tag "a", ⟨[("href", .json (.str "https://example.com"))]⟩,
      [tag "b" [tag "pre" [.text "x"]]], none⟩)
    let out := "<https://example.com|*\x60\x60\x60\nx\n\x60\x60\x60*>"
    let label := "*\x60\x60\x60\nx\n\x60\x60\x60*".toList
    childrenAreInline true content.normalize = true ∧ renderMrkdwn {} content = .ok out ∧
      HoldsLink out.toList "https://example.com".toList label ∧ '\n' ∈ label := by
  intro tag content out label
  have hbrackets : Text.brackets label = Text.brackets [] := by decide
  have htarget : IsTarget "https://example.com".toList := Text.forall_mem_of_all (by decide)
  exact ⟨by decide, by cbv, ⟨htarget, Text.Matched.nil.of_brackets_eq hbrackets, [], [], by decide⟩,
    by decide⟩

end MessageLayout
