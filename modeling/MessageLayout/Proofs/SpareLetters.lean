import MessageLayout.Proofs.LineBreaks
import MessageLayout.Proofs.CodeFences

/-!
# Letters that nothing writes

Some capital letters stand in nothing that is written besides the texts and attributes of a document:
in no mark, no token, no name of a month and no escaped byte. Such a letter is in the mrkdwn only if
the document brings it along.

    IsSpare x → IsReading (Avoids x) ()                                  (isReading_avoids)
    IsSpare x → x in no text and no attribute of body → x ∉ ofDoms … body  (not_mem_ofDoms)
-/

namespace MessageLayout

/-- The capital letters that nothing writes by itself. -/
def spareLetters : List Char := "GHIKLQRUVXYZ".toList

/-- Whether a letter is one that nothing writes by itself. -/
def IsSpare (x : Char) : Prop :=
  x ∈ spareLetters

instance (x : Char) : Decidable (IsSpare x) :=
  inferInstanceAs (Decidable (x ∈ spareLetters))

namespace IsSpare

variable {x : Char} {s : List Char}

theorem eq_false (hx : IsSpare x) {p : Char → Bool}
    (hp : spareLetters.all (fun c => !p c) = true) : p x = false := by
  simpa using List.all_eq_true.mp hp x hx

theorem not_mem (hx : IsSpare x) (hs : spareLetters.all (fun c => !s.contains c) = true) :
    x ∉ s := by
  simpa using hx.eq_false hs

theorem ne (hx : IsSpare x) {c : Char} (hc : c ∉ spareLetters) : x ≠ c := by
  rintro rfl
  exact hc hx

end IsSpare

namespace Mrkdwn

open Html

section Layout

variable {x : Char} {d : Delimiters} {s : List Char}

/-- A text without the letter, whatever is read before it. -/
def Avoids (x : Char) (_ : Unit) (_ : List Unit) (s : List Char) (_ : Unit) : Prop :=
  x ∉ s

/-- The rules of the layout bring in no spare letter. -/
theorem isReading_avoids (hx : IsSpare x) : IsReading (Avoids x) () where
  nil _ := List.not_mem_nil
  append h h' hm := (List.mem_append.mp hm).elim h h'
  framing hc _ _ hm := by
    have hfalse : isFraming x = false := hx.eq_false (by decide)
    rw [List.mem_singleton.mp hm, hc] at hfalse
    cases hfalse
  newline := hx.not_mem (by decide)
  blank hc h := by
    have hfalse : Text.isBlank x = false := hx.eq_false (by decide)
    refine ⟨fun hm => ?_, fun hm => h (List.mem_cons_of_mem _ hm)⟩
    rw [List.mem_singleton.mp hm, hc] at hfalse
    cases hfalse
  split {_ _ a _ _} h _ :=
    ⟨[], a, (), rfl, fun hm => h (List.mem_append_left _ hm), fun hm => h (List.mem_append_right _ hm)⟩

theorem not_mem_escapeEntity (hx : IsSpare x) (hs : x ∉ s) : x ∉ Text.escapeEntity s :=
  fun hm => hs ((Text.mem_escapeEntity (hx.not_mem (by decide))).mp hm)

theorem not_mem_layText (hx : IsSpare x) (trims : Bool) (hs : x ∉ s) : x ∉ layText trims s := by
  have hsqueeze : x ∉ Text.squeeze isSpace ' ' s := fun hm =>
    (Text.mem_of_mem_squeeze hm).elim (hx.ne (by decide)) hs
  exact not_mem_escapeEntity hx ((isReading_avoids hx).trimStartIf trims (a := []) hsqueeze)

/-! ### Links and dates -/

theorem mem_of_mem_joinLinesFrom {inRun : Bool} {c : Char} (h : c ∈ joinLinesFrom inRun s) :
    c = ' ' ∨ c ∈ s := by
  have hspace : ∀ {inRun : Bool}, c ∈ (if inRun then [] else [' ']) → c = ' ' := by
    rintro (_ | _) hm
    · exact List.mem_singleton.mp hm
    · cases hm
  fun_induction joinLinesFrom inRun s with
  | case1 => cases h
  | case2 inRun s ih =>
    rcases List.mem_append.mp h with h | h
    · exact .inl (hspace h)
    · exact (ih h).imp_right (List.mem_cons_of_mem _)
  | case3 inRun s ih =>
    rcases List.mem_append.mp h with h | h
    · exact .inl (hspace h)
    · exact (ih h).imp_right fun hm => List.mem_append_right "<br />\n".toList hm
  | case4 inRun d s _ _ ih =>
    rcases List.mem_cons.mp h with rfl | h
    · exact .inr List.mem_cons_self
    · exact (ih h).imp_right (List.mem_cons_of_mem _)

theorem not_mem_encode (hx : IsSpare x) (hs : x ∉ s) : x ∉ Text.Uri.encode s := by
  have hdigit : ∀ n < 16, Text.Uri.hexDigit n ∉ spareLetters := by decide
  intro hm
  obtain ⟨c, hc, hm⟩ := List.mem_flatMap.mp hm
  simp only [Text.Uri.encodeChar] at hm
  split at hm
  · exact hs (List.mem_singleton.mp hm ▸ hc)
  · obtain ⟨b, -, hb⟩ := List.mem_flatMap.mp hm
    have hhigh : b.toNat / 16 < 16 := by
      have := b.toNat_lt
      omega
    simp only [Text.Uri.escapeByte, List.mem_cons, List.not_mem_nil, or_false] at hb
    rcases hb with rfl | rfl | rfl
    · exact hx.ne (by decide) rfl
    · exact hdigit _ hhigh hx
    · exact hdigit _ (Nat.mod_lt _ (by decide)) hx

theorem not_mem_token (hx : IsSpare x) {href : List Char} (hh : x ∉ href) {m : Mention}
    (hm : Mention.ofHref? href = some m) : x ∉ m.token := by
  obtain ⟨sign, -, rfl⟩ := exists_cons_target hm
  have ht : x ∉ m.target := fun h => hh (List.mem_cons_of_mem _ h)
  have token : ∀ {first s : List Char}, x ∉ first → x ∉ s → x ∉ first ++ s ++ ['>'] :=
    fun hfirst hs => List.not_mem_append (List.not_mem_append hfirst hs) (hx.not_mem (by decide))
  cases m with
  | channel id => exact token (hx.not_mem (by decide)) ht
  | user id => exact token (hx.not_mem (by decide)) ht
  | userGroup id => exact token (hx.not_mem (by decide)) ht
  | audience word =>
    have hopen : x ∉ "<!".toList := hx.not_mem (by decide)
    exact token (List.not_mem_append hopen ht)
      (List.not_mem_cons_of_ne_of_not_mem (hx.ne (by decide)) ht)

theorem not_mem_link (hx : IsSpare x) {href : List Char} (hh : x ∉ href) (hs : x ∉ s) :
    x ∉ link s href := by
  simp only [link]
  split
  next m hm => exact not_mem_token hx hh hm
  · have hjoined : x ∉ joinLinesFrom false s := fun hm =>
      (mem_of_mem_joinLinesFrom hm).elim (hx.ne (by decide)) hs
    have hlabel : x ∉ label s :=
      (isReading_avoids hx).trimWhile (fun _ hb => hb) (a := []) hjoined
    have htarget : x ∉ '<' :: Text.Uri.encode href :=
      List.not_mem_cons_of_ne_of_not_mem (hx.ne (by decide)) (not_mem_encode hx hh)
    have hlabel : x ∉ '|' :: label s :=
      List.not_mem_cons_of_ne_of_not_mem (hx.ne (by decide)) hlabel
    exact List.not_mem_append (List.not_mem_append htarget hlabel) (hx.not_mem (by decide))

theorem not_mem_dateToken (hx : IsSpare x) {timestamp fallback : List Char} (ht : x ∉ timestamp)
    (hf : x ∉ fallback) (hs : x ∉ s) : x ∉ dateToken s timestamp fallback := by
  have hopen : x ∉ "<!date^".toList := hx.not_mem (by decide)
  have hformat : x ∉ '^' :: s := List.not_mem_cons_of_ne_of_not_mem (hx.ne (by decide)) hs
  have hfallback : x ∉ '|' :: fallback :=
    List.not_mem_cons_of_ne_of_not_mem (hx.ne (by decide)) hf
  have htokens := List.not_mem_append (List.not_mem_append hopen ht) hformat
  exact List.not_mem_append (List.not_mem_append htokens hfallback) (hx.not_mem (by decide))

/-! ### Code -/

mutual

theorem not_mem_codeText (hx : IsSpare x) : (n : Dom) → x ∉ n.textContent → x ∉ codeText n
  | .text _, h => h
  | .comment, _ => List.not_mem_nil
  | .element name _ children, h => by
    rw [codeText]
    split
    · exact hx.not_mem (by decide)
    · exact not_mem_codeOf hx children (by rwa [Dom.textContent_element] at h)

theorem not_mem_codeOf (hx : IsSpare x) : (ns : List Dom) → x ∉ Dom.textOf ns → x ∉ codeOf ns
  | [], _ => List.not_mem_nil
  | n :: ns, h => by
    rw [Dom.textOf_cons, List.mem_append, not_or] at h
    exact List.not_mem_append (not_mem_codeText hx n h.1) (not_mem_codeOf hx ns h.2)

end

theorem not_mem_fenced (hx : IsSpare x) {code : List Char} (hc : x ∉ code) (singleLine : Bool) :
    x ∉ fenced code singleLine := by
  have hfence : x ∉ fenceMark := hx.not_mem (by decide)
  have hline : ∀ {s : List Char}, x ∉ s → x ∉ '\n' :: s :=
    List.not_mem_cons_of_ne_of_not_mem (hx.ne (by decide))
  have hsqueeze : x ∉ Text.squeeze (· = '\n') ' ' code := fun hm =>
    (Text.mem_of_mem_squeeze hm).elim (hx.ne (by decide)) hc
  simp only [fenced]
  split
  · exact List.not_mem_append (List.not_mem_append hfence hsqueeze) hfence
  · exact List.not_mem_append (List.not_mem_append hfence (hline hc)) (hline hfence)

theorem not_mem_placeholder (hx : IsSpare x) (n : Nat) (singleLine : Bool) :
    x ∉ placeholder n singleLine := by
  have hdigits : x ∉ Text.ofNat n := fun hm => by
    have hdigit : x.isDigit = false := hx.eq_false (by decide)
    rw [Nat.isDigit_of_mem_toDigits (by decide) (by decide) hm] at hdigit
    cases hdigit
  have hsingle : x ∉ (if singleLine then ['s'] else []) := by
    split <;> exact hx.not_mem (by decide)
  have hopen := List.not_mem_append (hx.not_mem (by decide) : x ∉ Placeholder.opening) hdigits
  exact (isReading_avoids hx).placeholder n singleLine (a := [])
    (List.not_mem_append (List.not_mem_append hopen hsingle) (hx.not_mem (by decide)))

theorem not_mem_restore (hx : IsSpare x) {F : Fences} (hF : ∀ code ∈ F, x ∉ code) (hs : x ∉ s) :
    x ∉ restore F s := by
  intro hm
  obtain ⟨p, hp, hm⟩ := List.mem_flatMap.mp hm
  have htext : x ∉ p.text := fun h => by
    rw [← flatMap_text_pieces s] at hs
    exact hs (List.mem_flatMap.mpr ⟨p, hp, h⟩)
  cases p with
  | char c => exact htext hm
  | mark q =>
    simp only [Piece.restore] at hm
    split at hm
    next code hcode =>
      obtain ⟨i, -, hi⟩ := Option.bind_eq_some_iff.mp hcode
      exact not_mem_fenced hx (hF code (List.mem_of_getElem? hi)) _ hm
    · exact htext hm

/-! ### Trees -/

/-- Attributes of an element without the letter. -/
def AttrsLack (x : Char) (_ : String) (attrs : Attrs) (_ : List Dom) : Prop :=
  ∀ a ∈ attrs, x ∉ a.2

theorem AttrsLack.not_mem_lookup {name key : String} {attrs : Attrs} {ns : List Dom}
    (h : AttrsLack x name attrs ns) {value : List Char} (hv : attrs.lookup key = some value) :
    x ∉ value := by
  obtain ⟨before, after, rfl, -⟩ := List.lookup_eq_some_iff.mp hv
  exact h (key, value) (by simp)

theorem not_mem_layInline (hx : IsSpare x) (hd : Delimiting d) {name : String} {attrs : Attrs}
    {ns : List Dom} (ha : AttrsLack x name attrs ns) (hs : x ∉ s) :
    x ∉ layInline d name attrs s := by
  by_cases hlink : name = "a"
  · subst hlink
    simp only [layInline]
    split
    next href hh =>
      split
      · exact hs
      · exact not_mem_link hx (ha.not_mem_lookup hh) hs
    · exact hs
  · by_cases htime : name = "time"
    · subst htime
      simp only [layInline]
      split
      next timestamp ht =>
        refine not_mem_dateToken hx (ha.not_mem_lookup ht) (not_mem_escapeEntity hx ?_) hs
        cases hf : attrs.lookup "data-fallback" with
        | none => exact List.not_mem_nil
        | some fallback => exact ha.not_mem_lookup hf
      · exact hs
    · exact (isReading_avoids hx).layInline hd hlink htime attrs (a := []) hs

mutual

theorem not_mem_layNode (hx : IsSpare x) (hd : Delimiting d) (trims : Bool) (place : Mrkdwn.Place)
    {fences : Fences} (hF : ∀ code ∈ fences, x ∉ code) : (n : Dom) → x ∉ n.textContent →
    n.Every (AttrsLack x) → x ∉ (layNode d trims place fences n).text ∧
      ∀ code ∈ (layNode d trims place fences n).fences, x ∉ code
  | .text content, ht, _ => ⟨not_mem_layText hx trims ht, hF⟩
  | .comment, _, _ => ⟨List.not_mem_nil, hF⟩
  | .element name attrs children, ht, h => by
    have hR := isReading_avoids hx
    rw [Dom.textContent_element] at ht
    simp only [layNode]
    split
    · exact ⟨hR.trimStartIf trims (hR.layBlank name children), hF⟩
    · split
      next code hcode =>
        have hchildren : x ∉ Dom.textOf code := by
          obtain ⟨-, codeAttrs, rest, rfl⟩ := exists_of_fencedCode? hcode
          rw [Dom.textOf_cons, List.mem_append, not_or, Dom.textContent_element] at ht
          exact ht.1
        refine ⟨not_mem_placeholder hx _ _, fun code' hm => ?_⟩
        rcases List.mem_append.mp hm with hm | hm
        · exact hF code' hm
        · rw [List.mem_singleton.mp hm]
          exact not_mem_escapeEntity hx (not_mem_codeOf hx code hchildren)
      · obtain ⟨hinner, hfences⟩ := not_mem_layNodes hx hd name attrs (isBlockName name) 0
          ⟨[], fences⟩ List.not_mem_nil hF children ht h.2
        refine ⟨hR.trimStartIf trims (hR.layAround place (fun _ => rfl)
          (fun _ => hx.not_mem (by decide)) (fun _ hi => ?_) (a := []) hinner), hfences⟩
        exact not_mem_layInline hx hd h.1 hi

/-- Nodes are laid out without a spare letter if they hold none. -/
theorem not_mem_layNodes (hx : IsSpare x) (hd : Delimiting d) (parent : String)
    (parentAttrs : Attrs) (isBlock : Bool) (elementsBefore : Nat) (laid : Laid)
    (hl : x ∉ laid.text) (hF : ∀ code ∈ laid.fences, x ∉ code) : (ns : List Dom) →
    x ∉ Dom.textOf ns → Dom.EveryOf (AttrsLack x) ns →
    x ∉ (layNodes d parent parentAttrs isBlock elementsBefore laid ns).text ∧
      ∀ code ∈ (layNodes d parent parentAttrs isBlock elementsBefore laid ns).fences, x ∉ code
  | [], _, _ => ⟨hl, hF⟩
  | n :: ns, ht, h => by
    rw [Dom.textOf_cons, List.mem_append, not_or] at ht
    simp only [layNodes]
    obtain ⟨hn, hfences⟩ := not_mem_layNode hx hd (afterSpace laid.text isBlock)
      ⟨parent, parentAttrs, elementsBefore, !ns.isEmpty, ns.any Dom.isElement⟩ hF n ht.1 h.1
    have hjoin := (isReading_avoids hx).join (a := []) (b := []) hl hn
    exact not_mem_layNodes hx hd parent parentAttrs isBlock _ ⟨join _ _, _⟩ hjoin hfences ns ht.2 h.2

end

/-- A spare letter is in the mrkdwn of a document only if it is in its texts or attributes. -/
theorem not_mem_ofDoms (hx : IsSpare x) (options : FormatOptions) {body : List Dom}
    (ht : x ∉ Dom.textOf body) (ha : Dom.EveryOf (AttrsLack x) body) :
    x ∉ ofDoms (delimiters options) body := by
  obtain ⟨hl, hF⟩ := not_mem_layNodes hx (delimiting_delimiters options) "body" [] true 0
    ⟨[], []⟩ List.not_mem_nil (List.forall_mem_nil _) body ht ha
  have htrim : x ∉ trimEnds (layBody (delimiters options) body).text :=
    (isReading_avoids hx).trimEnds (a := []) hl
  exact not_mem_restore hx hF fun hm => htrim ((dropBreakMarks_sublist _).subset hm)

end Layout

end Mrkdwn

end MessageLayout
