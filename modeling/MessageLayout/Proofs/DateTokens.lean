import MessageLayout.Proofs.LineBreaks
import MessageLayout.Proofs.TextParts

/-!
# Tokens of dates

Where every date of a document holds text without bars on one line, and falls back on such a text,
every date of the mrkdwn is one token: between its brackets stand the timestamp, the format and one
bar before the fallback, and nothing else that could end a part of it.

    EveryOf HasSimpleDates body → HoldsDate (ofDoms d body) w → w has one bar and no bracket, on one line
                                                                             (oneBar_of_holdsDate)
-/

namespace MessageLayout.Mrkdwn

open Html

/-! ## Dates of a document -/

/-- Whether a character may stand in a part of a date: it ends neither the part nor its line. -/
def isPartChar (c : Char) : Bool :=
  c ∉ ['<', '>', '|', '\n']

/-- The elements that the layout shows as their content. -/
def bareNames : List String :=
  ["small", "span"]

mutual

/-- Whether a node is text without bars, within elements that are shown as their content. -/
def isFormat : Dom → Bool
  | .text content => '|' ∉ content
  | .comment => true
  | .element name _ children => bareNames.contains name && areFormat children

/-- Whether several nodes are text without bars. -/
def areFormat : List Dom → Bool
  | [] => true
  | d :: ds => isFormat d && areFormat ds

end

/-- A date that is written as one token with three parts. -/
structure SimpleDate (attrs : Attrs) (children : List Dom) : Prop where
  stamp : ∀ s, attrs.lookup "datetime" = some s → ∀ c ∈ s, isPartChar c = true
  fallback : ∀ s, attrs.lookup "data-fallback" = some s → '|' ∉ s ∧ '\n' ∉ s
  format : areFormat children = true

/-- An element that is a simple date if it is a date. -/
def HasSimpleDates (name : String) (attrs : Attrs) (children : List Dom) : Prop :=
  name = "time" → SimpleDate attrs children

/-! ## Formats -/

theorem isPartChar_escapeEntity {s : List Char} (hbar : '|' ∉ s) (hn : '\n' ∉ s) :
    ∀ c ∈ Text.escapeEntity s, isPartChar c = true := by
  intro c hc
  have hlt : c ≠ '<' := fun e => Text.lt_not_mem_escapeEntity s (e ▸ hc)
  have hgt : c ≠ '>' := fun e => Text.gt_not_mem_escapeEntity s (e ▸ hc)
  have hbar' : c ≠ '|' := by
    rintro rfl
    exact hbar ((Text.mem_escapeEntity (by decide)).mp hc)
  have hn' : c ≠ '\n' := by
    rintro rfl
    exact hn ((Text.mem_escapeEntity (by decide)).mp hc)
  simp [isPartChar, hlt, hgt, hbar', hn']

theorem newline_not_mem_of_isPartChar {s : List Char} (hs : ∀ c ∈ s, isPartChar c = true) :
    '\n' ∉ s :=
  fun hm => absurd (hs _ hm) (by decide)

variable {d : Delimiters}

theorem isPartChar_layText (trims : Bool) {content : List Char} (h : '|' ∉ content) :
    ∀ c ∈ layText trims content, isPartChar c = true := by
  have hsub : ∀ c ∈ trimStartIf trims (Text.squeeze isSpace ' ' content),
      c ∈ Text.squeeze isSpace ' ' content := by
    unfold trimStartIf
    split
    · exact fun c hc => (List.dropWhile_sublist _).subset hc
    · exact fun c hc => hc
  refine isPartChar_escapeEntity (fun hm => ?_) (fun hm => ?_)
  · exact (Text.mem_of_mem_squeeze (hsub _ hm)).elim (by decide) h
  · exact Text.not_mem_squeeze (p := isSpace) (by decide) (by decide) content (hsub _ hm)

theorem isPartChar_trimStartIf (trims : Bool) {s : List Char} (hs : ∀ c ∈ s, isPartChar c = true) :
    ∀ c ∈ trimStartIf trims s, isPartChar c = true := by
  unfold trimStartIf
  split
  · exact fun c hc => hs c ((List.dropWhile_sublist _).subset hc)
  · exact hs

theorem isPartChar_append {s t : List Char} (hs : ∀ c ∈ s, isPartChar c = true)
    (ht : ∀ c ∈ t, isPartChar c = true) : ∀ c ∈ join s t, isPartChar c = true := by
  rw [join_of_not_mem (newline_not_mem_of_isPartChar hs) (newline_not_mem_of_isPartChar ht)]
  exact List.forall_mem_append.mpr ⟨hs, ht⟩

/-- An element that is shown as its content. -/
theorem mem_of_mem_layAround {name : String} (hn : name ∈ bareNames) (attrs : Attrs)
    (place : Mrkdwn.Place) {s : List Char} {c : Char} (hc : c ∈ layAround d name attrs place s) :
    c ∈ s := by
  have hlaid : layAround d name attrs place s = s.takeWhile (· = ' ')
      ++ Text.trimWhile (· = ' ') s ++ Text.takeEndWhile (· = ' ') s := by
    simp only [bareNames, List.mem_cons, List.not_mem_nil, or_false] at hn
    rcases hn with rfl | rfl <;> exact layAround_inline d rfl (by decide) attrs place s
  rw [hlaid, List.mem_append, List.mem_append] at hc
  rcases hc with (hc | hc) | hc
  · exact (List.takeWhile_sublist _).subset hc
  · exact (List.dropWhile_sublist _).subset
      (List.mem_reverse.mp ((List.dropWhile_sublist _).subset (List.mem_reverse.mp hc)))
  · exact List.mem_reverse.mp ((List.takeWhile_sublist _).subset (List.mem_reverse.mp hc))

mutual

theorem isPartChar_layNode (trims : Bool) (place : Mrkdwn.Place) (fences : Fences) :
    (n : Dom) → isFormat n = true → ∀ c ∈ (layNode d trims place fences n).text,
      isPartChar c = true
  | .text content, h => by
    simp only [layNode]
    exact isPartChar_layText trims (of_decide_eq_true h)
  | .comment, _ => List.forall_mem_nil _
  | .element name attrs children, h => by
    simp only [isFormat, Bool.and_eq_true, List.contains_iff_mem] at h
    have hname : ∀ n ∈ bareNames, isBlockName n = false ∧ n ≠ "pre" := by decide
    obtain ⟨hblock, hpre⟩ := hname name h.1
    simp only [layNode, fencedCode?_of_ne hpre children]
    split
    · refine isPartChar_trimStartIf trims ?_
      simp only [layBlank, hblock, Bool.false_eq_true, if_false]
      split
      · exact List.forall_mem_nil _
      · exact List.all_eq_true.mp (by decide)
    · refine isPartChar_trimStartIf trims fun c hc => ?_
      exact isPartChar_layNodes name attrs (isBlockName name) 0 ⟨[], fences⟩ children h.2
        (List.forall_mem_nil _) c (mem_of_mem_layAround h.1 attrs place hc)

/-- A format is laid out on one line, without bars and brackets. -/
theorem isPartChar_layNodes (parent : String) (parentAttrs : Attrs) (isBlock : Bool)
    (elementsBefore : Nat) (laid : Laid) :
    (ns : List Dom) → areFormat ns = true → (∀ c ∈ laid.text, isPartChar c = true) →
      ∀ c ∈ (layNodes d parent parentAttrs isBlock elementsBefore laid ns).text,
        isPartChar c = true
  | [], _, hl => hl
  | n :: ns, h, hl => by
    simp only [areFormat, Bool.and_eq_true] at h
    simp only [layNodes]
    exact isPartChar_layNodes parent parentAttrs isBlock _ _ ns h.2
      (isPartChar_append hl (isPartChar_layNode _ _ laid.fences n h.1))

end

/-! ## Tokens -/

/-- The token of a date: within its brackets stands one bar and no other bracket, on one line. -/
def IsDateToken (s : List Char) : Prop :=
  ∃ w, s = "<!date^".toList ++ w ++ ['>'] ∧ w.count '|' = 1 ∧
    ∀ c ∈ w, c = '|' ∨ isPartChar c = true

theorem dateOpening_eq : "<!date^".toList = '<' :: '!' :: ['d', 'a', 't', 'e', '^'] := rfl

theorem dateToken_eq (format stamp fallback : List Char) :
    dateToken format stamp fallback
      = "<!date^".toList ++ (stamp ++ '^' :: format ++ '|' :: fallback) ++ ['>'] := by
  have h : ∀ u : List Char, u ++ stamp ++ '^' :: format ++ '|' :: fallback ++ ['>']
      = u ++ (stamp ++ '^' :: format ++ '|' :: fallback) ++ ['>'] := by simp
  exact h _

theorem isDateToken_dateToken {format stamp fallback : List Char}
    (hs : ∀ c ∈ stamp, isPartChar c = true) (hformat : ∀ c ∈ format, isPartChar c = true)
    (hf : ∀ c ∈ fallback, isPartChar c = true) : IsDateToken (dateToken format stamp fallback) := by
  have hcount : ∀ {s : List Char}, (∀ c ∈ s, isPartChar c = true) → s.count '|' = 0 := fun hs =>
    List.count_eq_zero.mpr fun hm => absurd (hs _ hm) (by decide)
  have hbar : (stamp ++ '^' :: format ++ '|' :: fallback).count '|' = 1 := by
    simp [List.count_append, hcount hs, hcount hformat, hcount hf]
  refine ⟨_, dateToken_eq _ _ _, hbar, ?_⟩
  · have hmark : isPartChar '^' = true := by decide
    intro c hc
    simp only [List.mem_append, List.mem_cons] at hc
    rcases hc with (hc | rfl | hc) | rfl | hc
    · exact .inr (hs c hc)
    · exact .inr hmark
    · exact .inr (hformat c hc)
    · exact .inl rfl
    · exact .inr (hf c hc)

namespace IsDateToken

variable {s : List Char}

/-- Between its brackets a date token holds none, and no line feed. -/
theorem exists_eq (h : IsDateToken s) :
    ∃ w, s = '<' :: '!' :: w ++ ['>'] ∧ ∀ c ∈ w, c ≠ '<' ∧ c ≠ '>' ∧ c ≠ '\n' := by
  obtain ⟨w, rfl, -, hw⟩ := h
  have hletters : ∀ c ∈ ['d', 'a', 't', 'e', '^'], c ≠ '<' ∧ c ≠ '>' ∧ c ≠ '\n' :=
    Text.forall_mem_of_all (p := fun c => c ≠ '<' ∧ c ≠ '>' ∧ c ≠ '\n') (by decide)
  refine ⟨['d', 'a', 't', 'e', '^'] ++ w, by simp only [dateOpening_eq, List.cons_append],
    List.forall_mem_append.mpr ⟨hletters, fun c hc => ?_⟩⟩
  rcases hw c hc with rfl | hp
  · decide
  · refine ⟨?_, ?_, ?_⟩ <;> (rintro rfl; exact absurd hp (by decide))

theorem newline_not_mem (h : IsDateToken s) : '\n' ∉ s := by
  obtain ⟨w, rfl, hw⟩ := h.exists_eq
  have hn : '\n' ∉ w := fun hm => (hw _ hm).2.2 rfl
  simp [hn]

theorem isToken (h : IsDateToken s) : IsToken s := by
  obtain ⟨w, rfl, hw⟩ := h.exists_eq
  have hlt : '<' ∉ w := fun hm => (hw _ hm).1 rfl
  have hn : '\n' ∉ w := fun hm => (hw _ hm).2.2 rfl
  refine ⟨[], '!', w ++ ['>'], rfl, List.forall_mem_nil _, List.forall_mem_nil _, by decide, ?_, ?_,
    ?_⟩
  · simp [hlt]
  · simp [hn]
  · rw [List.getLast?_concat]
    rintro c ⟨⟩
    decide

end IsDateToken

/-- Text in which links, mentions and dates are the tokens. -/
def dateLexicon : Lexicon Unit where
  Single c a := c ≠ '<' ∧ a = []
  Token s a := a = [] ∧ ((∃ href, s = '<' :: Text.Uri.encode href ++ ['|']) ∨
    (∃ href m, Mention.ofHref? href = some m ∧ s = m.token) ∨ IsDateToken s)
  Code _ a := a = []
  framing {c} h := ⟨fun e => absurd h (by rw [e]; decide), rfl⟩
  close := ⟨by decide, rfl⟩
  blank h _ := h.2
  unopened h := h.1
  token := by
    rintro s a ⟨-, ⟨href, rfl⟩ | ⟨href, m, hm, rfl⟩ | h⟩
    · exact isToken_link href
    · exact .of_mention hm
    · exact h.isToken

/-- A text in which every date is one token. -/
abbrev Dated (F : Fences) (stage : Stage) (s : List Char) : Prop :=
  MadeOf dateLexicon F stage s []

section Layout

variable {F : Fences} {s : List Char}

theorem dated_of_not_mem {stage : Stage} (hs : '<' ∉ s) : Dated F stage s :=
  .of_singles fun _ hc => ⟨fun e => hs (e ▸ hc), rfl⟩

/-- A link keeps the dates in it. -/
theorem dated_layInline_link (attrs : Attrs) (h : Dated F .laid s) :
    Dated F .laid (layInline d "a" attrs s) := by
  simp only [layInline]
  cases attrs.lookup "href" with
  | none => exact h
  | some href =>
    simp only
    split
    · exact h
    · cases hm : Mention.ofHref? href with
      | none => exact h.link hm ⟨rfl, .inl ⟨href, rfl⟩⟩
      | some m =>
        have hmention : Dated F .laid m.token :=
          .of_segment (.token ⟨rfl, .inr (.inl ⟨href, m, hm, rfl⟩)⟩)
        simpa [link, hm] using hmention

theorem dated_layInline (hd : Delimiting d) {name : String} (hn : name ≠ "time") (attrs : Attrs)
    (h : Dated F .laid s) : Dated F .laid (layInline d name attrs s) := by
  by_cases ha : name = "a"
  · subst ha
    exact dated_layInline_link attrs h
  · exact MadeOf.isReading.layInline hd ha hn attrs h

theorem dated_layAround (hd : Delimiting d) {name : String} (hn : name ≠ "time") (attrs : Attrs)
    (place : Mrkdwn.Place) (h : Dated F .laid s) :
    Dated F .laid (layAround d name attrs place s) :=
  MadeOf.isReading.layAround place (fun _ => rfl) (fun _ => .lineBreak)
    (fun _ hi => dated_layInline hd hn attrs hi) h

/-- A simple date is laid out as one token, with the spaces at the ends of its format outside. -/
theorem dated_layAround_time {attrs : Attrs} {children : List Dom} (hdate : SimpleDate attrs children)
    (place : Mrkdwn.Place) (hs : ∀ c ∈ s, isPartChar c = true) :
    Dated F .laid (layAround d "time" attrs place s) := by
  rw [layAround_inline d rfl (by decide)]
  simp only [layInline]
  have hi : ∀ c ∈ Text.trimWhile (· = ' ') s, isPartChar c = true := fun c hc =>
    hs c ((List.dropWhile_sublist _).subset
      (List.mem_reverse.mp ((List.dropWhile_sublist _).subset (List.mem_reverse.mp hc))))
  refine MadeOf.append_framing (MadeOf.framing_append
    (Text.forall_mem_of_eq (by decide) fun _ => Text.eq_of_mem_takeWhile) ?_)
    (Text.forall_mem_of_eq (by decide) fun _ => Text.eq_of_mem_takeEndWhile)
  cases hl : attrs.lookup "datetime" with
  | none => exact dated_of_not_mem fun hm => absurd (hi _ hm) (by decide)
  | some stamp =>
    have hfallback : ∀ c ∈ Text.escapeEntity ((attrs.lookup "data-fallback").getD []),
        isPartChar c = true := by
      cases hf : attrs.lookup "data-fallback" with
      | none => exact List.forall_mem_nil _
      | some fallback =>
        obtain ⟨hbar, hn⟩ := hdate.fallback fallback hf
        exact isPartChar_escapeEntity hbar hn
    exact .of_segment (.token ⟨rfl, .inr (.inr (isDateToken_dateToken (hdate.stamp stamp hl) hi
      hfallback))⟩)

mutual

theorem dated_layNode (hd : Delimiting d) (trims : Bool) (place : Mrkdwn.Place) (fences : Fences) :
    (n : Dom) → n.Every HasSimpleDates → (layNode d trims place fences n).fences <+: F →
    Dated F .laid (layNode d trims place fences n).text
  | .text content, _, _ => by
    simp only [layNode]
    exact dated_of_not_mem (Text.lt_not_mem_escapeEntity _)
  | .comment, _, _ => .nil
  | .element name attrs children, h, hF => by
    obtain ⟨hdate, hc⟩ := h
    simp only [layNode] at hF ⊢
    split
    · exact MadeOf.isReading.trimStartIf trims (MadeOf.isReading.layBlank name children)
    next hblank =>
      rw [if_neg hblank] at hF
      cases hcode : fencedCode? name children with
      | some code =>
        simp only [hcode] at hF ⊢
        have hrestored := restored_of_prefix hF (place.parent == "a")
        have hmark : Dated F .laid (Mark.text (fences.length, place.parent == "a")) :=
          .of_segment (.mark (b := ⟨codeOf code, place.parent == "a"⟩) (by simp) hrestored rfl)
        exact MadeOf.isReading.placeholder _ _ hmark
      | none =>
        simp only [hcode] at hF ⊢
        refine MadeOf.isReading.trimStartIf trims ?_
        by_cases hn : name = "time"
        · subst hn
          exact dated_layAround_time (hdate rfl) place (isPartChar_layNodes _ _ _ _ _ children
            (hdate rfl).format (List.forall_mem_nil _))
        · exact dated_layAround hd hn attrs place
            (dated_layNodes hd name attrs (isBlockName name) 0 ⟨[], fences⟩ .nil children hc hF)

/-- Nodes whose dates are simple are laid out with each date as one token. -/
theorem dated_layNodes (hd : Delimiting d) (parent : String) (parentAttrs : Attrs) (isBlock : Bool)
    (elementsBefore : Nat) (laid : Laid) (hl : Dated F .laid laid.text) :
    (ns : List Dom) → Dom.EveryOf HasSimpleDates ns →
    (layNodes d parent parentAttrs isBlock elementsBefore laid ns).fences <+: F →
    Dated F .laid (layNodes d parent parentAttrs isBlock elementsBefore laid ns).text
  | [], _, _ => by simpa only [layNodes] using hl
  | n :: ns, h, hF => by
    simp only [layNodes] at hF ⊢
    have hF' := (prefix_fences_layNodes d parent parentAttrs isBlock _ _ ns).trans hF
    have hn := dated_layNode hd _ _ laid.fences n h.1 hF'
    exact dated_layNodes hd parent parentAttrs isBlock _ _ (MadeOf.isReading.join hl hn) ns h.2 hF

end

end Layout

/-- In the mrkdwn of a document whose dates are simple each date is one token. -/
theorem dated_ofDoms (options : FormatOptions) {body : List Dom}
    (h : Dom.EveryOf HasSimpleDates body) :
    ∃ F, Dated F .complete (ofDoms (delimiters options) body) := by
  have hlaid := dated_layNodes (delimiting_delimiters options) "body" [] true 0 ⟨[], []⟩ .nil body h
    List.prefix_rfl
  have hends : Dated _ .laid _ := MadeOf.isReading.trimEnds hlaid
  exact ⟨_, hends.dropBreakMarks.restore⟩

/-! ## Dates of a text -/

/-- A text holds a date: behind its opening comes `w`, up to the bracket that closes the date. -/
def HoldsDate (s w : List Char) : Prop :=
  Text.Matched w ∧ "<!date^".toList ++ w ++ ['>'] <:+: s

theorem mem_audiences_of_ofHref? {href word : List Char}
    (h : Mention.ofHref? href = some (.audience word)) : word ∈ Mention.audiences := by
  unfold Mention.ofHref? at h
  split at h
  · split at h <;> cases h
  · split at h <;> split at h <;> cases h
    next hword => exact List.contains_iff_mem.mp hword
  · cases h

/-- A mention does not open like a date. -/
theorem token_append_ne_date {href : List Char} {m : Mention} (h : Mention.ofHref? href = some m)
    (s t : List Char) : m.token ++ s ≠ '<' :: '!' :: 'd' :: t := by
  cases m with
  | channel id => exact fun he => absurd (List.cons.inj (List.cons.inj he).2).1 (by decide)
  | user id => exact fun he => absurd (List.cons.inj (List.cons.inj he).2).1 (by decide)
  | userGroup id =>
    exact fun he => absurd (List.cons.inj (List.cons.inj (List.cons.inj he).2).2).1 (by decide)
  | audience word =>
    have hword := mem_audiences_of_ofHref? h
    simp only [Mention.audiences, List.mem_cons, List.not_mem_nil, or_false] at hword
    rcases hword with rfl | rfl | rfl
    all_goals
      exact fun he => absurd (List.cons.inj (List.cons.inj (List.cons.inj he).2).2).1 (by decide)

/-- A link does not open like a date. -/
theorem encode_append_ne_date (href s t : List Char) :
    '<' :: Text.Uri.encode href ++ ['|'] ++ s ≠ '<' :: '!' :: 'd' :: 'a' :: 't' :: 'e' :: '^' :: t := by
  have htarget : IsTarget (Text.Uri.encode href) := fun c => Text.Uri.isPlain_of_mem_encode
  intro he
  rw [List.append_assoc, List.singleton_append] at he
  exact htarget.append_bar_ne_date s t (List.cons.inj he).2

/-- Matched text up to a closing bracket is the text without brackets that a bracket ends. -/
theorem eq_of_matched_append_eq {w w' s t : List Char} (hw : Text.Matched w)
    (hw' : Unbracketed w') (h : w ++ '>' :: s = w' ++ '>' :: t) : w = w' := by
  have hwithin := infix_of_matched_append_eq (p := []) hw List.not_mem_nil hw' h
  have hgt : '>' ∉ w' := fun hm => (hw' _ hm).2 rfl
  exact (append_cons_inj (fun hm => hgt (hwithin.subset hm)) hgt h).1

/-- What stands in a date of a text whose dates are single tokens. -/
theorem Dated.of_holdsDate {F : Fences} {s w : List Char} (h : Dated F .complete s)
    (hw : HoldsDate s w) : w.count '|' = 1 ∧ '<' ∉ w ∧ '\n' ∉ w := by
  obtain ⟨hmatched, before, after, rfl⟩ := hw
  have he : before ++ ("<!date^".toList ++ w ++ ['>']) ++ after
      = before ++ '<' :: '!' :: 'd' :: 'a' :: 't' :: 'e' :: '^' :: (w ++ '>' :: after) := by
    rw [dateOpening_eq]
    simp
  rw [he] at h
  obtain ⟨p, r, b, hp, -, ⟨href, rfl⟩ | ⟨href, m, hm, rfl⟩ | ⟨w', rfl, hbar, hw'⟩⟩ := h.exists_token
  · exact absurd hp.symm (encode_append_ne_date href _ _)
  · exact absurd hp.symm (token_append_ne_date hm _ _)
  · have hne : ∀ {x : Char}, isPartChar x = false → x ≠ '|' → x ∉ w' := fun hx hbar hm =>
      (hw' _ hm).elim hbar fun hp => absurd hp (by simp [hx])
    have hlt : '<' ∉ w' := hne (by decide) (by decide)
    have hgt : '>' ∉ w' := hne (by decide) (by decide)
    have hrest : w ++ '>' :: after = w' ++ '>' :: r := by
      rw [dateOpening_eq] at hp
      simpa using hp
    obtain rfl := eq_of_matched_append_eq hmatched
      (fun c hc => ⟨fun e => hlt (e ▸ hc), fun e => hgt (e ▸ hc)⟩) hrest
    exact ⟨hbar, hlt, hne (by decide) (by decide)⟩

/-- In the mrkdwn of a document whose dates are simple, every date has one bar and no bracket, on one
line. -/
theorem oneBar_of_holdsDate (options : FormatOptions) {body : List Dom}
    (h : Dom.EveryOf HasSimpleDates body) {w : List Char}
    (hw : HoldsDate (ofDoms (delimiters options) body) w) :
    w.count '|' = 1 ∧ '<' ∉ w ∧ '\n' ∉ w := by
  obtain ⟨F, hF⟩ := dated_ofDoms options h
  exact hF.of_holdsDate hw

end MessageLayout.Mrkdwn
