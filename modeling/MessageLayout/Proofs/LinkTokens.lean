import MessageLayout.Proofs.TokenBrackets

/-!
# Tokens in a text

Links, dates, mentions and placeholders go through the rules of the layout as a whole: none is cut,
and nothing comes to stand between a bracket and what it opens. `Spells F stage x is s y` says that
`s` shows the items `is`, in this order, where `x` lists the brackets that are open before it and `y`
those that are open behind it. Within a link no line begins. A rule lays out complete content, in
which nothing is open, and the content of a link is put on one line before its bracket comes before
it. A token that every pass leaves as it is is an `IsToken`.

    IsReading (Spells F .laid) []                                        (Spells.isReading)
    Spells F .laid [] is s [] → Spells F .laid [] (link :: …) (link s href) []   (Spells.link)
    Spells F .laid x is s y → … (dropBreakMarks s) …, … (restore F s) …
-/

namespace MessageLayout.Mrkdwn

/-- What a text shows beside its characters. -/
inductive Item where
  /-- The bracket of a link with the given target. -/
  | link (href : List Char)
  /-- A mention. -/
  | mention (m : Mention)
  /-- A code block, and whether it stands in a link. -/
  | code (inLink : Bool) (b : CodeBlock)

/-- An item, within a link if so told. -/
def Item.within (inLink : Bool) : Item → Item
  | code already b => code (already || inLink) b
  | i => i

/-- How far a text is done. -/
inductive Stage where
  /-- The text holds break marks and placeholders. -/
  | laid
  /-- The text holds placeholders. -/
  | unbroken
  /-- The text holds the code itself. -/
  | complete

/-- The brackets that are open at a place, the innermost first: whether each opened a link. -/
abbrev Open := List Bool

/-- The smallest parts of a text, with the items that they show and the brackets that are open
before and behind them. -/
inductive Part (F : Fences) : Stage → Open → List Item → List Char → Open → Prop
  | char {stage : Stage} {x : Open} {c : Char} :
      c ≠ '<' → c ≠ '>' → (c = '\n' → true ∉ x) → Part F stage x [] [c] x
  | link {stage : Stage} {x : Open} (href : List Char) :
      Part F stage x [.link href] ('<' :: Text.Uri.encode href ++ ['|']) (true :: x)
  | date {stage : Stage} {x : Open} : Part F stage x [] ('<' :: "!date".toList ++ ['^']) (false :: x)
  | close {stage : Stage} {x : Open} {inLink : Bool} : Part F stage (inLink :: x) [] ['>'] x
  | mention {stage : Stage} {x : Open} {href : List Char} {m : Mention} :
      Mention.ofHref? href = some m → Part F stage x [.mention m] m.token x
  | breakMark {x : Open} : Part F .laid x [] Mrkdwn.breakMark x
  | mark {stage : Stage} {x : Open} {m : Mark} {b : CodeBlock} :
      stage ≠ .complete → m.2 = b.singleLine → m.restored F = b.text →
        Part F stage x [.code (decide (true ∈ x)) b] m.text x
  | code {x : Open} (b : CodeBlock) :
      Part F .complete x [.code (decide (true ∈ x)) b] b.text x

/-- A text made of such parts. -/
inductive Spells (F : Fences) (stage : Stage) : Open → List Item → List Char → Open → Prop
  | nil (x : Open) : Spells F stage x [] [] x
  | step {x y z : Open} {is js : List Item} {s t : List Char} :
      Part F stage x is s y → Spells F stage y js t z → Spells F stage x (is ++ js) (s ++ t) z

/-! ## Parts -/

theorem unbracketed_encode (href : List Char) : Unbracketed (Text.Uri.encode href) := by
  refine fun c hc => ⟨(Marked.of_mem_encode hc).1, ?_⟩
  rintro rfl
  exact absurd (Text.Uri.isPlain_of_mem_encode hc) (by decide)

theorem isBlank_of_mem_encode {href : List Char} {c : Char} (hc : c ∈ Text.Uri.encode href) :
    Text.isBlank c = false :=
  (Marked.of_mem_encode hc).2

theorem isBlank_of_mem_target {href : List Char} {m : Mention} (h : Mention.ofHref? href = some m)
    {c : Char} (hc : c ∈ m.target) : Text.isBlank c = false :=
  Text.isBlank_of_isAlphanum (isAlphanum_of_mem_target h hc)

/-- A mention is a bracket and a sign, and text up to the bracket that closes it. -/
theorem exists_token_eq {href : List Char} {m : Mention} (h : Mention.ofHref? href = some m) :
    ∃ b v, m.token = '<' :: [] ++ [b] ++ (v ++ ['>']) ∧ b ∈ barriers ∧ Unbracketed v ∧
      ∀ c ∈ v, Text.isBlank c = false := by
  have ht : Unbracketed m.target := fun c hc =>
    ⟨fun e => not_mem_target h (e ▸ hc),
      fun e => not_mem_target_of (c := '>') (by decide) (by decide) h (e ▸ hc)⟩
  have hb : ∀ c ∈ m.target, Text.isBlank c = false := fun c hc => isBlank_of_mem_target h hc
  cases m with
  | channel id => exact ⟨'#', id, rfl, by decide, ht, hb⟩
  | user id => exact ⟨'@', id, rfl, by decide, ht, hb⟩
  | userGroup id =>
    have hgroup : Unbracketed "subteam^".toList ∧ ∀ c ∈ "subteam^".toList, Text.isBlank c = false :=
      ⟨by decide, Text.forall_mem_of_all (by decide)⟩
    have hopen : "<!subteam^".toList = '<' :: '!' :: "subteam^".toList := rfl
    have htoken : (Mention.userGroup id).token
        = '<' :: [] ++ ['!'] ++ ("subteam^".toList ++ id ++ ['>']) := by
      unfold Mention.token
      rw [hopen]
      simp only [List.append_assoc, List.cons_append, List.nil_append]
    exact ⟨'!', "subteam^".toList ++ id, htoken, by decide, List.forall_mem_append.mpr ⟨hgroup.1, ht⟩,
      List.forall_mem_append.mpr ⟨hgroup.2, hb⟩⟩
  | audience word =>
    have hopen : "<!".toList = ['<', '!'] := rfl
    have htoken : (Mention.audience word).token
        = '<' :: [] ++ ['!'] ++ (word ++ '|' :: word ++ ['>']) := by
      unfold Mention.token
      rw [hopen]
      simp only [List.append_assoc, List.cons_append, List.nil_append]
    exact ⟨'!', word ++ '|' :: word, htoken, by decide,
      List.forall_mem_append.mpr ⟨ht, List.forall_mem_cons.mpr ⟨by decide, ht⟩⟩,
      List.forall_mem_append.mpr ⟨hb, List.forall_mem_cons.mpr ⟨rfl, hb⟩⟩⟩

/-- A token that every pass over a text leaves as it is. -/
def IsToken (s : List Char) : Prop :=
  ∃ w b v, s = '<' :: w ++ [b] ++ v ∧ Unbracketed w ∧ (∀ c ∈ w, Text.isBlank c = false) ∧
    b ∈ barriers ∧ '<' ∉ v ∧ '\n' ∉ v ∧ ∀ c ∈ v.getLast?, Text.isBlank c = false

namespace IsToken

variable {s : List Char}

theorem of_opening {w : List Char} {b : Char} (hw : Unbracketed w)
    (hblank : ∀ c ∈ w, Text.isBlank c = false) (hb : b ∈ barriers) : IsToken ('<' :: w ++ [b]) :=
  ⟨w, b, [], by simp, hw, hblank, hb, List.not_mem_nil, List.not_mem_nil, by simp⟩

theorem of_mention {href : List Char} {m : Mention} (h : Mention.ofHref? href = some m) :
    IsToken m.token := by
  obtain ⟨b, v, he, hb, hv, hblank⟩ := exists_token_eq h
  have hn : '\n' ∉ v := fun hm => absurd (hblank _ hm) (by decide)
  refine ⟨[], b, v ++ ['>'], he, List.forall_mem_nil _, List.forall_mem_nil _, hb, ?_, ?_, ?_⟩
  · simpa using fun hm => (hv _ hm).1 rfl
  · simpa using hn
  · rw [List.getLast?_concat]
    rintro c ⟨⟩
    decide

theorem solid (h : IsToken s) : Solid s := by
  obtain ⟨w, b, v, rfl, hw, hblank, hb, -, hn, hlast⟩ := h
  have hopening := solid_opening hblank hb
  obtain rfl | ⟨u, c, rfl⟩ := List.eq_nil_or_concat v
  · simpa using hopening
  · rw [List.concat_eq_append] at hn hlast ⊢
    have hline : '\n' ∉ w ++ [b] := by
      rcases hopening with hl | ⟨t, d, he, hd, -⟩
      · simp at hl
      · have hw : w ++ [b] = t ++ [d] := (List.cons.inj he).2
        rwa [hw]
    refine .inr ⟨w ++ [b] ++ u, c, by simp, ?_, hlast c (by simp)⟩
    rw [List.append_assoc, List.mem_append, not_or]
    exact ⟨hline, hn⟩

theorem exists_cons (h : IsToken s) : ∃ t, s = '<' :: t := by
  obtain ⟨w, b, v, rfl, -⟩ := h
  exact ⟨w ++ [b] ++ v, rfl⟩

theorem dropBreakMarks_append (h : IsToken s) (t : List Char) :
    dropBreakMarks (s ++ t) = s ++ dropBreakMarks t := by
  obtain ⟨w, b, v, rfl, hw, hblank, hb, hlt, -, -⟩ := h
  rw [List.append_assoc, dropBreakMarks_opening hw hblank hb, dropBreakMarks_append_of_not_mem hlt]
  exact (List.append_assoc _ _ _).symm

theorem restore_append (h : IsToken s) (F : Fences) (t : List Char) :
    restore F (s ++ t) = s ++ restore F t := by
  obtain ⟨w, b, v, rfl, hw, -, hb, hlt, -, -⟩ := h
  rw [List.append_assoc, restore_opening hw hb, restore_append_of_not_mem hlt]
  exact (List.append_assoc _ _ _).symm

theorem joinLinesFrom_append (h : IsToken s) (inRun : Bool) (t : List Char) :
    joinLinesFrom inRun (s ++ t) = s ++ joinLinesFrom false t := by
  obtain ⟨w, b, v, rfl, hw, hblank, hb, hlt, hn, -⟩ := h
  rw [List.append_assoc, joinLinesFrom_opening hw hblank hb]
  cases v with
  | nil => simp
  | cons c v =>
    have hline : ∀ d ∈ c :: v, d ≠ '\n' ∧ d ≠ '<' := fun d hd =>
      ⟨fun e => hn (e ▸ hd), fun e => hlt (e ▸ hd)⟩
    rw [Mrkdwn.joinLinesFrom_append (by simp) hline]
    exact (List.append_assoc _ _ _).symm

end IsToken

theorem isToken_link (href : List Char) : IsToken ('<' :: Text.Uri.encode href ++ ['|']) :=
  .of_opening (unbracketed_encode href) (fun _ => isBlank_of_mem_encode) (by decide)

theorem isToken_date : IsToken ('<' :: "!date".toList ++ ['^']) :=
  .of_opening (by decide) (Text.forall_mem_of_all (by decide)) (by decide)

theorem Part.solid {F : Fences} {x y : Open} {is : List Item} {s : List Char}
    (h : Part F .laid x is s y) : Solid s := by
  cases h with
  | char _ _ _ => exact .inl (by simp)
  | link href => exact (isToken_link href).solid
  | date => exact isToken_date.solid
  | close => exact .inl (by simp)
  | mention hm => exact (IsToken.of_mention hm).solid
  | breakMark => exact solid_breakMark
  | mark _ _ _ => exact solid_mark _

theorem Item.within_false (i : Item) : i.within false = i := by
  cases i with
  | code already b => simp [within]
  | _ => rfl

/-- A part may stand behind other brackets, but no line begins in a link. -/
theorem Part.within {F : Fences} {stage : Stage} {x y : Open} {is : List Item} {s : List Char}
    (h : Part F stage x is s y) (z : Open) (hz : true ∈ z → '\n' ∉ s) :
    Part F stage (x ++ z) (is.map (Item.within (decide (true ∈ z)))) s (y ++ z) := by
  have hcode : ∀ b, [Item.code (decide (true ∈ x ++ z)) b]
      = [Item.code (decide (true ∈ x)) b].map (Item.within (decide (true ∈ z))) := by
    intro b
    simp [Item.within]
  cases h with
  | char hlt hgt hn =>
    refine .char hlt hgt fun hc hm => ?_
    rcases List.mem_append.mp hm with hm | hm
    · exact hn hc hm
    · exact hz hm (hc ▸ List.mem_cons_self)
  | link href => exact .link href
  | date => exact .date
  | close => exact .close
  | mention hm => exact .mention hm
  | breakMark => exact .breakMark
  | mark hstage hs hr =>
    rw [← hcode]
    exact .mark hstage hs hr
  | code b =>
    rw [← hcode]
    exact .code b

theorem newline_not_mem_joinLinesFrom (inRun : Bool) (s : List Char) :
    '\n' ∉ joinLinesFrom inRun s := by
  fun_induction joinLinesFrom inRun s with
  | case1 => exact List.not_mem_nil
  | case2 inRun s ih => cases inRun <;> simp [ih]
  | case3 inRun s ih => cases inRun <;> simp [ih]
  | case4 inRun c s hn _ ih => simp [ih, Ne.symm hn]

/-- No line begins in a label. -/
theorem newline_not_mem_label (s : List Char) : '\n' ∉ label s := by
  intro hm
  have hdrop := (List.dropWhile_sublist _).subset (List.mem_reverse.mp hm)
  exact newline_not_mem_joinLinesFrom false s
    ((List.dropWhile_sublist _).subset (List.mem_reverse.mp hdrop))

namespace Spells

variable {F : Fences} {stage : Stage} {x y z : Open} {is js : List Item} {s t : List Char}

theorem of_part (h : Part F stage x is s y) : Spells F stage x is s y := by
  simpa using step h (nil y)

theorem sequence (h : Spells F stage x is s y) : Sequence (Part F stage) x is s y := by
  induction h with
  | nil x => exact .nil x
  | step hs _ ih => exact .step hs ih

theorem of_sequence (h : Sequence (Part F stage) x is s y) : Spells F stage x is s y := by
  induction h with
  | nil x => exact nil x
  | step hs _ ih => exact step hs ih

theorem append (h : Spells F stage x is s y) (h' : Spells F stage y js t z) :
    Spells F stage x (is ++ js) (s ++ t) z :=
  of_sequence (h.sequence.append h'.sequence)

/-- Text without brackets shows nothing, and its lines begin outside of links. -/
theorem of_unbracketed (hs : Unbracketed s) (hx : '\n' ∈ s → true ∉ x) : Spells F stage x [] s x := by
  induction s with
  | nil => exact nil x
  | cons c s ih =>
    obtain ⟨hc, hs⟩ := List.forall_mem_cons.mp hs
    have hn : c = '\n' → true ∉ x := fun e => hx (e ▸ List.mem_cons_self)
    exact step (.char hc.1 hc.2 hn) (ih hs fun hm => hx (List.mem_cons_of_mem _ hm))

/-- Where nothing is open, any text without brackets may stand. -/
theorem append_unbracketed (h : Spells F stage x is s []) (ht : Unbracketed t) :
    Spells F stage x is (s ++ t) [] := by
  simpa using h.append (of_unbracketed ht fun _ => List.not_mem_nil)

/-- A text may stand behind other brackets, but no line begins in a link. -/
theorem within (h : Spells F stage x is s y) (z : Open) (hz : true ∈ z → '\n' ∉ s) :
    Spells F stage (x ++ z) (is.map (Item.within (decide (true ∈ z)))) s (y ++ z) := by
  induction h with
  | nil x => exact nil _
  | step hs _ ih =>
    simp only [List.mem_append, not_or] at hz
    rw [List.map_append]
    exact step (hs.within z fun hm => (hz hm).1) (ih fun hm => (hz hm).2)

/-- A character at the start that is no bracket is a part by itself. -/
theorem of_cons {c : Char} (hlt : c ≠ '<') (hgt : c ≠ '>') (h : Spells F .laid x is (c :: s) z) :
    (c = '\n' → true ∉ x) ∧ Spells F .laid x is s z := by
  generalize hr : c :: s = r at h
  cases h with
  | nil => cases hr
  | step hs h =>
    cases hs with
    | char _ _ hn =>
      obtain ⟨rfl, rfl⟩ := List.cons.inj hr
      exact ⟨hn, h⟩
    | close => exact absurd (List.cons.inj hr).1 hgt
    | link _ => exact absurd (List.cons.inj hr).1 hlt
    | date => exact absurd (List.cons.inj hr).1 hlt
    | mention hm =>
      obtain ⟨b, v, he, -⟩ := exists_token_eq hm
      rw [he] at hr
      exact absurd (List.cons.inj hr).1 hlt
    | breakMark => exact absurd (List.cons.inj hr).1 hlt
    | @mark _ _ m _ _ _ _ =>
      obtain ⟨w, hw, -⟩ := m.text_eq
      rw [hw] at hr
      exact absurd (List.cons.inj hr).1 hlt

/-- The rules of the layout keep what a text shows. -/
theorem isReading : IsReading (Spells F .laid) [] where
  nil := nil
  append := append
  framing hc hn x :=
    have hb := ne_bracket_of_isFraming hc
    of_part (.char hb.1 hb.2 fun e => absurd e hn)
  newline := of_part (.char (by decide) (by decide) fun _ => List.not_mem_nil)
  blank hb h :=
    have hc := ne_bracket_of_isFraming (isFraming_of_isBlank hb)
    have hcons := of_cons hc.1 hc.2 h
    ⟨of_part (.char hc.1 hc.2 hcons.1), hcons.2⟩
  split h hcut := by
    obtain ⟨is₁, is₂, y, his, h₁, h₂⟩ := h.sequence.exists_split Part.solid hcut
    exact ⟨is₁, is₂, y, his, of_sequence h₁, of_sequence h₂⟩

/-! ### Patterns -/

/-- Without its break marks a text shows the same. -/
theorem dropBreakMarks (h : Spells F .laid x is s z) :
    Spells F .unbroken x is (Mrkdwn.dropBreakMarks s) z := by
  induction h with
  | nil => exact nil _
  | step hs _ ih =>
    cases hs with
    | char hlt hgt hn =>
      rw [List.singleton_append, dropBreakMarks_cons hlt]
      exact step (.char hlt hgt hn) ih
    | link href =>
      rw [(isToken_link href).dropBreakMarks_append]
      exact step (.link href) ih
    | date =>
      rw [isToken_date.dropBreakMarks_append]
      exact step .date ih
    | close =>
      rw [List.singleton_append, dropBreakMarks_cons (by decide)]
      exact step .close ih
    | mention hm =>
      rw [(IsToken.of_mention hm).dropBreakMarks_append]
      exact step (.mention hm) ih
    | breakMark =>
      rw [dropBreakMarks_breakMark_append]
      exact ih
    | mark _ hs hr =>
      rw [dropBreakMarks_mark]
      exact step (.mark (by simp) hs hr) ih

/-- On one line a text shows the same. -/
theorem joinLinesFrom (inRun : Bool) (h : Spells F .laid x is s z) :
    Spells F .laid x is (Mrkdwn.joinLinesFrom inRun s) z := by
  have hspace : ∀ inRun : Bool, IsMargin (if inRun then [] else [' ']) := by decide
  induction h generalizing inRun with
  | nil => exact nil _
  | @step x y z is js p t hs _ ih =>
    cases hs with
    | @char _ _ c hlt hgt hc =>
      by_cases hn : c = '\n'
      · subst hn
        rw [List.singleton_append, joinLinesFrom_newline]
        exact isReading.margin_append (hspace inRun) (ih true)
      · rw [List.singleton_append, joinLinesFrom_cons inRun hn hlt]
        exact step (.char hlt hgt hc) (ih false)
    | link href =>
      rw [(isToken_link href).joinLinesFrom_append]
      exact step (.link href) (ih false)
    | date =>
      rw [isToken_date.joinLinesFrom_append]
      exact step .date (ih false)
    | close =>
      rw [List.singleton_append, joinLinesFrom_cons inRun (by decide) (by decide)]
      exact step .close (ih false)
    | mention hm =>
      rw [(IsToken.of_mention hm).joinLinesFrom_append]
      exact step (.mention hm) (ih false)
    | breakMark =>
      by_cases hn : ∃ u, t = '\n' :: u
      · obtain ⟨u, rfl⟩ := hn
        have ih := ih true
        rw [joinLinesFrom_newline] at ih
        rw [joinLinesFrom_breakMark]
        exact isReading.margin_append (hspace inRun) ih
      · rw [joinLinesFrom_breakMark_append inRun fun u hu => hn ⟨u, hu⟩]
        exact step .breakMark (ih false)
    | mark hstage hs hr =>
      rw [joinLinesFrom_mark]
      exact step (.mark hstage hs hr) (ih false)

/-- With the code in place of the placeholders a text shows the same. -/
theorem restore (h : Spells F .unbroken x is s z) :
    Spells F .complete x is (Mrkdwn.restore F s) z := by
  induction h with
  | nil =>
    rw [restore_nil]
    exact nil _
  | step hs _ ih =>
    cases hs with
    | char hlt hgt hn =>
      rw [restore_append_of_not_mem (by simp [Ne.symm hlt])]
      exact step (.char hlt hgt hn) ih
    | link href =>
      rw [(isToken_link href).restore_append]
      exact step (.link href) ih
    | date =>
      rw [isToken_date.restore_append]
      exact step .date ih
    | close =>
      rw [restore_append_of_not_mem (by decide)]
      exact step .close ih
    | mention hm =>
      rw [(IsToken.of_mention hm).restore_append]
      exact step (.mention hm) ih
    | mark _ _ hr =>
      rw [Marked.restore_mark, hr]
      exact step (.code _) ih

/-! ### Tokens -/

/-- A link shows itself, and what is in it stands in a link. -/
theorem link {href : List Char} (hm : Mention.ofHref? href = none) (h : Spells F .laid [] is s []) :
    Spells F .laid [] (.link href :: is.map (Item.within true)) (Mrkdwn.link s href) [] := by
  have hlabel : Spells F .laid [] is (label s) [] :=
    isReading.trimWhile (fun _ hb => hb) (h.joinLinesFrom false)
  have hin : Spells F .laid [true] (is.map (Item.within true)) (label s) [true] :=
    hlabel.within [true] fun _ => newline_not_mem_label s
  have hall := (of_part (.link href)).append (hin.append (of_part .close))
  simpa [Mrkdwn.link, hm] using hall

/-- A date shows what its format shows. -/
theorem dateToken {timestamp fallback : List Char} (ht : Unbracketed timestamp)
    (hf : Unbracketed fallback) (h : Spells F .laid [] is s []) :
    Spells F .laid [] is (Mrkdwn.dateToken s timestamp fallback) [] := by
  have hopen : ∀ t : List Char, '\n' ∈ t → true ∉ [false] := by simp
  have hformat : Spells F .laid [false] is s [false] := by
    have hin := h.within [false] (by simp)
    have hid : Item.within (decide (true ∈ [false])) = id := funext Item.within_false
    rwa [hid, List.map_id] at hin
  have hbehind : Unbracketed ('|' :: fallback) := List.forall_mem_cons.mpr ⟨by decide, hf⟩
  have hclose : Spells F .laid [false] [] ['>'] [] := .of_part .close
  have hafter := (of_unbracketed hbehind (hopen _)).append hclose
  have hstamp : Unbracketed (timestamp ++ ['^']) := List.forall_mem_append.mpr ⟨ht, by simp⟩
  have hall := (of_part .date).append
    ((of_unbracketed hstamp (hopen _)).append (hformat.append hafter))
  have he : Mrkdwn.dateToken s timestamp fallback
      = '<' :: "!date".toList ++ ['^']
        ++ ((timestamp ++ ['^']) ++ (s ++ ('|' :: fallback ++ ['>']))) := by
    have hdate : "<!date^".toList = '<' :: "!date".toList ++ ['^'] := rfl
    unfold Mrkdwn.dateToken
    simp only [hdate, List.append_assoc, List.cons_append, List.nil_append]
  rw [he]
  simpa using hall

end Spells

end MessageLayout.Mrkdwn
