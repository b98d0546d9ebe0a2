import MessageLayout.Proofs.GuardedCode

/-!
# Tokens of balanced text

The tags of a balanced text are read one by one, and what stands between the quotation marks of an
attribute never leads out of its tag. So the tokens nest as the elements of the text do.

    Balanced l s → runFrom (.reading .text) s = (.reading .text, ts), Nested l ts
                                                                          (Balanced.exists_runFrom)
    tokens (before ++ codeBlock code ++ after)
      = ts ++ codeTokens code ++ rest, OpenedTokens ts                    (Opened.exists_tokens)
-/

namespace MessageLayout.Html

open Markup (Balanced AttrsText DateAttrs TagText Opened Alike writtenNames placeNames codeBlock)

/-- The tag of an element of a fragment. The flags tell whether blocks may be among the elements and
whether the tag stands in a link. -/
structure ElementTag (blocks inLink : Bool) (name : String) (attrs : Attrs) : Prop where
  written : name ∈ writtenNames
  block : isBoundary name = true → blocks = true
  style : roleOf name = .style → attrs = []
  link : name = "a" → inLink = false
  date : name = "time" → ∀ stamp, attrs.lookup "datetime" = some stamp → '<' ∉ stamp ∧ '>' ∉ stamp

/-- Tokens of elements that nest. -/
inductive Nested (blocks : Bool) : Bool → List Token → Prop
  | nil {inLink : Bool} : Nested blocks inLink []
  | char {inLink : Bool} {ts : List Token} (x : Char) :
      Nested blocks inLink ts → Nested blocks inLink (.char x :: ts)
  | null {inLink : Bool} {ts : List Token} :
      Nested blocks inLink ts → Nested blocks inLink (.null :: ts)
  | lineBreak {inLink : Bool} {ts : List Token} :
      Nested blocks inLink ts → Nested blocks inLink (.startTag "br" [] :: ts)
  | element {inLink : Bool} {name : String} {attrs : Attrs} {content ts : List Token} :
      ElementTag blocks inLink name attrs → Nested blocks (inLink || name == "a") content →
        Nested blocks inLink ts →
          Nested blocks inLink (.startTag name attrs :: content ++ .endTag name :: ts)

/-- Tokens before a place: the start tags of elements around it, and nested tokens between. Some of
the elements, which have the given names, may be passed through. -/
inductive OpenedTokens (blocks : Bool) : List String → List Token → Prop
  | here {ts : List Token} : Nested blocks false ts → OpenedTokens blocks [] ts
  | passed {name : String} {names : List String} {ts : List Token} :
      OpenedTokens blocks names ts → OpenedTokens blocks (name :: names) ts
  | within {name : String} {names : List String} {attrs : Attrs} {ts us : List Token} :
      Nested blocks false ts → name ∈ placeNames → ElementTag true false name attrs →
        OpenedTokens blocks names us →
          OpenedTokens blocks (name :: names) (ts ++ .startTag name attrs :: us)

variable {blocks : Bool} {names : List String}

theorem Nested.append {inLink : Bool} {ts us : List Token} (h : Nested blocks inLink ts)
    (h' : Nested blocks inLink us) : Nested blocks inLink (ts ++ us) := by
  induction h with
  | nil => exact h'
  | char x _ ih => exact .char x (ih h')
  | null _ ih => exact .null (ih h')
  | lineBreak _ ih => exact .lineBreak (ih h')
  | element he hc _ _ ih =>
    rw [List.append_assoc, List.cons_append]
    exact .element he hc (ih h')

/-! ## Attributes -/

/-- A reader is within the value of an attribute in quotation marks. -/
inductive InValue (d : Draft) (name : List Char) : Mode → Prop
  | reading (v : List Char) : InValue d name (.reading (.value d name (some '"') v))
  | reference (v seen : List Char) : InValue d name (.reference (.value d name (some '"') v) seen)

theorem valueChar_quoted {c : Char} (hc : c ≠ '&') (d : Draft) (name v : List Char) :
    valueChar d name (some '"') v c
      = if c = '"' then .next (.afterValue (d.withAttr name v))
        else .next (.reading (.value d name (some '"') (keepable c :: v))) := by
  simp [valueChar, hc]

/-- A reference in a value is put into it, and the character behind it is read as any other. -/
theorem step_reference_value {seen : List Char} {c : Char}
    (h : Reference.continues seen.reverse c = false) (d : Draft) (name v : List Char)
    (quote : Option Char) :
    ∃ r : Reference.Reading, r = Reference.read true seen.reverse (some c) ∧
      (Mode.reference (.value d name quote v) seen).step c
        = if r.takesNext then .next (.reading (.value d name quote (r.chars.reverse ++ v)))
          else valueChar d name quote (r.chars.reverse ++ v) c := by
  refine ⟨_, rfl, ?_⟩
  simp [Mode.step, h, Place.putReading, Place.put, Place.isValue, Place.step, Step.next]

theorem exists_step_value {c : Char} (hc : c ≠ '"') (d : Draft) (name v : List Char) :
    ∃ m, valueChar d name (some '"') v c = .next m ∧ InValue d name m := by
  by_cases ha : c = '&'
  · exact ⟨_, by rw [ha]; rfl, .reference v []⟩
  · rw [valueChar_quoted ha, if_neg hc]
    exact ⟨_, rfl, .reading _⟩

theorem InValue.exists_step {d : Draft} {name : List Char} {m : Mode} (h : InValue d name m)
    {c : Char} (hc : c ≠ '"') : ∃ m', m.step c = .next m' ∧ InValue d name m' := by
  cases h with
  | reading v => exact exists_step_value hc d name v
  | reference v seen =>
    cases hcont : Reference.continues seen.reverse c with
    | true => exact ⟨_, by simp [Mode.step, hcont], .reference v (c :: seen)⟩
    | false =>
      obtain ⟨r, -, hr⟩ := step_reference_value hcont d name v (some '"')
      rw [hr]
      split
      · exact ⟨_, rfl, .reading _⟩
      · exact exists_step_value hc d name _

theorem takesNext_read {c : Char} (hc : c ≠ ';') (inAttribute : Bool) (seen : List Char) :
    (Reference.read inAttribute seen (some c)).takesNext = false := by
  have hnext : (some c == some ';') = false := by simp [hc]
  have hloose : ∀ literal : Reference.Reading, literal.takesNext = false →
      (Reference.read.loose inAttribute seen (some c) literal).takesNext = false := by
    intro literal hl
    unfold Reference.read.loose
    split
    · exact hl
    · split
      · exact hl
      · rfl
  unfold Reference.read
  split
  · split
    · exact hnext
    · rfl
  · split
    · simp only [hnext]
      exact hloose _ rfl
    · exact hloose _ rfl

/-- A quotation mark ends a value, also within a reference. -/
theorem InValue.exists_step_quote {d : Draft} {name : List Char} {m : Mode}
    (h : InValue d name m) : ∃ v, m.step '"' = .next (.afterValue (d.withAttr name v)) := by
  cases h with
  | reading v => exact ⟨v, by simp [Mode.step, Place.step, valueChar]⟩
  | reference v seen =>
    have hcont : Reference.continues seen.reverse '"' = false := by
      unfold Reference.continues
      split <;> decide
    obtain ⟨r, hr, hstep⟩ := step_reference_value hcont d name v (some '"')
    have htakes : r.takesNext = false := by
      rw [hr]
      exact takesNext_read (by decide) true seen.reverse
    refine ⟨r.chars.reverse ++ v, ?_⟩
    rw [hstep, htakes]
    simp [valueChar]

theorem InValue.exists_runFrom {d : Draft} {name : List Char} {m : Mode} (h : InValue d name m)
    {value : List Char} (hv : '"' ∉ value) :
    ∃ v, runFrom m (value ++ ['"']) = .next (.afterValue (d.withAttr name v)) := by
  induction value generalizing m with
  | nil =>
    obtain ⟨v, hv⟩ := h.exists_step_quote
    exact ⟨v, by simp [runFrom, hv, Step.next]⟩
  | cons c value ih =>
    simp only [List.mem_cons, not_or] at hv
    obtain ⟨m', hm, h'⟩ := h.exists_step (Ne.symm hv.1)
    obtain ⟨v, hv⟩ := ih h' hv.2
    exact ⟨v, by simp [runFrom, hm, hv, Step.next]⟩

/-- A value without references is kept as it is. -/
theorem runFrom_value {value : List Char} (hv : ∀ c ∈ value, c ≠ '"' ∧ c ≠ '&') (d : Draft)
    (name v : List Char) :
    runFrom (.reading (.value d name (some '"') v)) (value ++ ['"'])
      = .next (.afterValue (d.withAttr name ((value.map keepable).reverse ++ v))) := by
  induction value generalizing v with
  | nil => simp [runFrom, Mode.step, Place.step, valueChar, Step.next]
  | cons c value ih =>
    obtain ⟨hq, ha⟩ := hv c List.mem_cons_self
    have hstep : (Mode.reading (.value d name (some '"') v)).step c
        = .next (.reading (.value d name (some '"') (keepable c :: v))) := by
      show valueChar d name (some '"') v c = _
      rw [valueChar_quoted ha, if_neg hq]
    have ih := ih (fun x hx => hv x (List.mem_cons_of_mem _ hx)) (keepable c :: v)
    simp [runFrom, hstep, Step.next] at ih ⊢
    simp [ih]

/-- A reader stands where an attribute or the end of a tag may follow. -/
inductive AtAttr (d : Draft) : Mode → Prop
  | name : AtAttr d (.tagName d)
  | value : AtAttr d (.afterValue d)

theorem runFrom_attrName {name : List Char} (hn : ∀ c ∈ name, Markup.isNameChar c = true)
    (d : Draft) (seen : List Char) :
    runFrom (.attrName d seen) name
      = .next (.attrName d ((name.map fun c => keepable c.toLower).reverse ++ seen)) := by
  induction name generalizing seen with
  | nil => rfl
  | cons c name ih =>
    have hc := hn c List.mem_cons_self
    have ih := ih (fun x hx => hn x (List.mem_cons_of_mem _ hx)) (keepable c.toLower :: seen)
    have hstep : (Mode.attrName d seen).step c = .next (.attrName d (keepable c.toLower :: seen)) := by
      simp [Markup.isNameChar] at hc
      simp [Mode.step, hc]
    simp [runFrom, hstep, Step.next] at ih ⊢
    simp [ih]

/-- The name of an attribute leads to its value. -/
theorem AtAttr.runFrom_name {d : Draft} {m : Mode} (h : AtAttr d m) {name : List Char}
    (hne : name ≠ []) (hn : ∀ c ∈ name, Markup.isNameChar c = true) :
    runFrom m (' ' :: name ++ ['=', '"'])
      = .next (.reading (.value d (name.map fun c => keepable c.toLower).reverse (some '"') [])) := by
  cases name with
  | nil => exact absurd rfl hne
  | cons c name =>
    have hspace : m.step ' ' = .next (.beforeName d) := by cases h <;> rfl
    have hc := hn c List.mem_cons_self
    have hfirst : (Mode.beforeName d).step c = .next (.attrName d [keepable c.toLower]) := by
      simp [Markup.isNameChar] at hc
      simp [Mode.step, betweenAttrs, hc]
    have hrest := runFrom_attrName (fun x hx => hn x (List.mem_cons_of_mem _ hx)) d
      [keepable c.toLower]
    simp only [List.cons_append, runFrom, hspace, hfirst, Step.next, runFrom_append, hrest]
    simp [Mode.step, isSpace, Step.next]

/-- An attribute is read with its value, and what stands behind it is read next. -/
theorem AtAttr.runFrom_attr {d : Draft} {m : Mode} (h : AtAttr d m) {name value v : List Char}
    (hne : name ≠ []) (hn : ∀ c ∈ name, Markup.isNameChar c = true)
    (hvalue : runFrom (.reading (.value d (name.map fun c => keepable c.toLower).reverse (some '"') []))
        (value ++ ['"'])
      = .next (.afterValue (d.withAttr (name.map fun c => keepable c.toLower).reverse v)))
    (attrs : List Char) :
    runFrom m (' ' :: name ++ '=' :: '"' :: value ++ '"' :: attrs ++ ['>'])
      = runFrom (.afterValue (d.withAttr (name.map fun c => keepable c.toLower).reverse v))
          (attrs ++ ['>']) := by
  have hsplit : ' ' :: name ++ '=' :: '"' :: value ++ '"' :: attrs ++ ['>']
      = (' ' :: name ++ ['=', '"']) ++ ((value ++ ['"']) ++ (attrs ++ ['>'])) := by simp
  rw [hsplit, runFrom_append, h.runFrom_name hne hn]
  simp only [Step.next]
  rw [runFrom_append, hvalue]
  simp [Step.next]

theorem exists_withAttr (d : Draft) (name value : List Char) :
    ∃ more, d.withAttr name value = { d with attrs := d.attrs ++ more } := by
  simp only [Draft.withAttr]
  split
  · exact ⟨[], by simp⟩
  · exact ⟨_, rfl⟩

/-- The attributes of a tag are read to its end. -/
theorem AtAttr.exists_runFrom {attrs : List Char} (ha : AttrsText attrs) {d : Draft} {m : Mode}
    (h : AtAttr d m) :
    ∃ more, runFrom m (attrs ++ ['>']) = .tag { d with attrs := d.attrs ++ more } := by
  induction ha generalizing d m with
  | nil =>
    refine ⟨[], ?_⟩
    cases h <;> simp [runFrom, Mode.step, betweenAttrs, isSpace, Step.tag]
  | @attr name value attrs hne hn hv _ ih =>
    have hreading : InValue d (name.map fun c => keepable c.toLower).reverse
        (.reading (.value d (name.map fun c => keepable c.toLower).reverse (some '"') [])) :=
      .reading []
    obtain ⟨v, hvalue⟩ := hreading.exists_runFrom hv
    obtain ⟨more₁, h₁⟩ := exists_withAttr d (name.map fun c => keepable c.toLower).reverse v
    obtain ⟨more₂, h₂⟩ := ih .value
    refine ⟨more₁ ++ more₂, ?_⟩
    rw [h.runFrom_attr hne hn hvalue, h₂, h₁, List.append_assoc]

theorem not_mem_map_keepable {c : Char} (hc : c ≠ '\ufffd') {s : List Char} (hs : c ∉ s) :
    c ∉ s.map keepable := by
  intro hm
  obtain ⟨d, hd, h⟩ := List.mem_map.mp hm
  unfold keepable at h
  split at h
  · exact hc h.symm
  · exact hs (h ▸ hd)

/-- The timestamp of a date is read as its first attribute. -/
theorem exists_runFrom_dateAttrs {attrs : List Char} (ha : DateAttrs attrs) {d : Draft}
    (hd : d.attrs = []) :
    ∃ stamp more, ('<' ∉ stamp ∧ '>' ∉ stamp) ∧ runFrom (.tagName d) (attrs ++ ['>'])
      = .tag { d with attrs := ("datetime", stamp) :: more } := by
  obtain ⟨stamp, rest, hstamp, hrest, rfl⟩ := ha
  have hletters : ∀ c ∈ "datetime".toList, Markup.isNameChar c = true :=
    Text.forall_mem_of_all (by decide)
  have hlower : ("datetime".toList.map fun c => keepable c.toLower) = "datetime".toList := by decide
  have hplain : ∀ c ∈ stamp, c ≠ '"' ∧ c ≠ '&' := fun c hc =>
    ⟨(hstamp c hc).2.1, fun e => absurd (hstamp c hc).1 (by rw [e]; decide)⟩
  have hvalue := runFrom_value hplain d "datetime".toList.reverse []
  have hattr : d.withAttr "datetime".toList.reverse ((stamp.map keepable).reverse ++ [])
      = { d with attrs := [("datetime", stamp.map keepable)] } := by
    have hofList : String.ofList "datetime".toList = "datetime" := String.ofList_toList
    simp only [Draft.withAttr, hd, List.append_nil, List.reverse_reverse, hofList, List.any_nil]
    rfl
  obtain ⟨more, hmore⟩ := AtAttr.value.exists_runFrom hrest
  have hbrackets : '<' ∉ stamp.map keepable ∧ '>' ∉ stamp.map keepable :=
    ⟨not_mem_map_keepable (by decide) fun hm => (hstamp _ hm).2.2.1 rfl,
      not_mem_map_keepable (by decide) fun hm => (hstamp _ hm).2.2.2 rfl⟩
  refine ⟨stamp.map keepable, more, hbrackets, ?_⟩
  rw [AtAttr.name.runFrom_attr (by decide) hletters (hlower ▸ hvalue), hlower, hattr, hmore]
  rfl

/-! ## Elements -/

theorem runFrom_startName {name : String} (hn : name ∈ writtenNames) :
    runFrom (.reading .text) ('<' :: name.toList)
      = .next (.tagName ⟨false, name.toList.reverse, []⟩) := by
  simp only [writtenNames, List.mem_cons, List.not_mem_nil, or_false] at hn
  rcases hn with rfl | rfl | rfl | rfl | rfl | rfl | rfl | rfl | rfl | rfl | rfl | rfl | rfl | rfl | rfl
    <;> rfl

theorem runFrom_endTag {name : String} (hn : name ∈ writtenNames) :
    runFrom (.reading .text) ('<' :: '/' :: name.toList ++ ['>'])
      = (.reading .text, [.endTag name]) := by
  simp only [writtenNames, List.mem_cons, List.not_mem_nil, or_false] at hn
  rcases hn with rfl | rfl | rfl | rfl | rfl | rfl | rfl | rfl | rfl | rfl | rfl | rfl | rfl | rfl | rfl
    <;> rfl

/-- The start tag of an element is read with its attributes. -/
theorem exists_runFrom_startTag {inLink : Bool} {name : String} {attrs : List Char}
    (h : TagText blocks inLink name attrs) :
    ∃ attrs', ElementTag blocks inLink name attrs' ∧
      runFrom (.reading .text) ('<' :: name.toList ++ attrs ++ ['>'])
        = (.reading .text, [.startTag name attrs']) := by
  have hread : ∀ attrs' : Attrs, runFrom (.tagName ⟨false, name.toList.reverse, []⟩) (attrs ++ ['>'])
      = .tag ⟨false, name.toList.reverse, attrs'⟩ →
      runFrom (.reading .text) ('<' :: name.toList ++ attrs ++ ['>'])
        = (.reading .text, [.startTag name attrs']) := by
    intro attrs' ha
    rw [List.append_assoc, runFrom_append, runFrom_startName h.written]
    simp only [Step.next, ha]
    simp [Step.tag, Draft.token]
  by_cases hd : name = "time"
  · obtain ⟨stamp, more, hstamp, ha⟩ := exists_runFrom_dateAttrs (h.date hd)
      (d := ⟨false, name.toList.reverse, []⟩) rfl
    refine ⟨_, ⟨h.written, h.block, fun hr => absurd hr (by rw [hd]; decide), h.link, ?_⟩, hread _ ha⟩
    intro _ stamp' hl
    obtain rfl : stamp = stamp' := by simpa using hl
    exact hstamp
  · by_cases hs : roleOf name = .style
    · refine ⟨[], ⟨h.written, h.block, fun _ => rfl, h.link, fun e => absurd e hd⟩, hread [] ?_⟩
      rw [h.style hs]
      rfl
    · obtain ⟨more, ha⟩ := (AtAttr.name (d := ⟨false, name.toList.reverse, []⟩)).exists_runFrom h.text
      exact ⟨_, ⟨h.written, h.block, fun hr => absurd hr hs, h.link, fun e => absurd e hd⟩, hread _ ha⟩

/-- An element is read with its content. -/
theorem exists_runFrom_enclose {inLink : Bool} {name : String} {attrs content : List Char}
    (h : TagText blocks inLink name attrs) {ts : List Token}
    (hc : runFrom (.reading .text) content = (.reading .text, ts)) :
    ∃ attrs', ElementTag blocks inLink name attrs' ∧
      runFrom (.reading .text) (Markup.enclose name attrs content)
        = (.reading .text, .startTag name attrs' :: ts ++ [.endTag name]) := by
  obtain ⟨attrs', he, hstart⟩ := exists_runFrom_startTag h
  refine ⟨attrs', he, ?_⟩
  have hsplit : Markup.enclose name attrs content
      = ('<' :: name.toList ++ attrs ++ ['>']) ++ (content ++ ('<' :: '/' :: name.toList ++ ['>'])) := by
    simp [Markup.enclose]
  rw [hsplit, runFrom_append, hstart, runFrom_append, hc, runFrom_endTag h.written]
  rfl

/-- The tokens of a balanced text nest, and none of them is the character U+0000. -/
theorem Balanced.exists_runFrom_seen {inLink : Bool} {s : List Char}
    (h : Balanced blocks inLink s) :
    ∃ ts, runFrom (.reading .text) s = (.reading .text, ts) ∧ Nested blocks inLink ts ∧
      ∀ t ∈ ts, t.isChar '\x00' = false := by
  induction h with
  | nil => exact ⟨[], rfl, .nil, fun _ h => absurd h List.not_mem_nil⟩
  | @char _ c s hc ha _ ih =>
    obtain ⟨ts, hr, hn, hseen⟩ := ih
    by_cases hz : c.toNat = 0
    · exact ⟨.null :: ts, by simp [runFrom, Mode.step, Place.step, textChar, hc, ha, hz, hr], .null hn,
        List.forall_mem_cons.mpr ⟨rfl, hseen⟩⟩
    · have hne : c ≠ '\x00' := fun e => hz (by rw [e]; rfl)
      exact ⟨.char c :: ts, by simp [runFrom, Mode.step, Place.step, textChar, hc, ha, hz, hr],
        .char c hn, List.forall_mem_cons.mpr ⟨decide_eq_false hne, hseen⟩⟩
  | @entity _ c s hc _ ih =>
    obtain ⟨ts, hr, hn, hseen⟩ := ih
    have hz : c.toNat ≠ 0 ∧ Token.isChar '\x00' (.char c) = false := by
      simp only [List.mem_cons, List.not_mem_nil, or_false] at hc
      rcases hc with rfl | rfl | rfl <;> decide
    refine ⟨.char c :: ts, ?_, .char c hn, List.forall_mem_cons.mpr ⟨hz.2, hseen⟩⟩
    rw [runFrom_append, runFrom_entity hz.1, hr]
    rfl
  | lineBreak _ ih =>
    obtain ⟨ts, hr, hn, hseen⟩ := ih
    have hb : runFrom (.reading .text) Markup.lineBreak = (.reading .text, [.startTag "br" []]) := rfl
    refine ⟨.startTag "br" [] :: ts, ?_, .lineBreak hn, List.forall_mem_cons.mpr ⟨rfl, hseen⟩⟩
    rw [runFrom_append, hb, hr]
    rfl
  | @element _ name attrs content s ht _ _ ihc ih =>
    obtain ⟨us, hrc, hnc, hseenc⟩ := ihc
    obtain ⟨ts, hr, hn, hseen⟩ := ih
    obtain ⟨attrs', he, hread⟩ := exists_runFrom_enclose ht hrc
    refine ⟨.startTag name attrs' :: us ++ .endTag name :: ts, ?_, .element he hnc hn, ?_⟩
    · rw [runFrom_append, hread, hr]
      simp
    · rw [List.cons_append, List.forall_mem_cons, List.forall_mem_append, List.forall_mem_cons]
      exact ⟨rfl, hseenc, rfl, hseen⟩

/-- The tokens of a balanced text nest. -/
theorem Balanced.exists_runFrom {inLink : Bool} {s : List Char} (h : Balanced blocks inLink s) :
    ∃ ts, runFrom (.reading .text) s = (.reading .text, ts) ∧ Nested blocks inLink ts := by
  obtain ⟨ts, hr, hn, -⟩ := exists_runFrom_seen h
  exact ⟨ts, hr, hn⟩

/-! ## The whole text -/

theorem alike_unifyLineEnds (s : List Char) : Alike s (unifyLineEnds s) := by
  fun_induction unifyLineEnds s with
  | case1 => exact .nil
  | case2 s ih => exact .lineEnd ih
  | case3 s _ ih => exact .swap (by decide) ih
  | case4 c s _ _ ih => exact .char c ih

/-- A character that belongs to no line end cuts a text. -/
theorem unifyLineEnds_append_cons {c : Char} (hr : c ≠ '\r') (hn : c ≠ '\n') (s t : List Char) :
    unifyLineEnds (s ++ c :: t) = unifyLineEnds s ++ c :: unifyLineEnds t := by
  fun_induction unifyLineEnds s with
  | case1 => exact unifyLineEnds_cons hr t
  | case2 s ih => exact congrArg ('\n' :: ·) ih
  | case3 s h ih =>
    have hs : ∀ u, s ++ c :: t ≠ '\n' :: u := by
      intro u hu
      cases s with
      | nil => exact hn (List.cons.inj hu).1
      | cons d s => exact h s (by rw [(List.cons.inj hu).1])
    rw [List.cons_append, unifyLineEnds_carriageReturn hs, ih]
    rfl
  | case4 d s _ hd ih =>
    rw [List.cons_append, unifyLineEnds_cons hd, ih]
    rfl

theorem Balanced.dropMark {inLink : Bool} {s : List Char} (h : Balanced blocks inLink s) :
    Balanced blocks inLink (dropMark s) := by
  unfold Html.dropMark
  split
  next s =>
    generalize hx : '\ufeff' :: s = x at h
    cases h with
    | nil => cases hx
    | char _ _ h =>
      obtain ⟨rfl, rfl⟩ := List.cons.inj hx
      exact h
    | entity hc _ =>
      obtain ⟨w, hw, -⟩ := Markup.exists_entity hc
      rw [hw] at hx
      exact absurd (List.cons.inj hx).1 (by decide)
    | lineBreak _ => exact absurd (List.cons.inj hx).1 (by decide)
    | element _ _ _ => exact absurd (List.cons.inj hx).1 (by decide)
  · exact h

theorem dropMark_append_tag (s t : List Char) :
    dropMark (s ++ '<' :: t) = dropMark s ++ '<' :: t := by
  cases s with
  | nil => exact dropMark.eq_2 _ fun u hu => absurd (List.cons.inj hu).1 (by decide)
  | cons c s =>
    by_cases hc : c = '\ufeff'
    · subst hc
      rfl
    · have hne : ∀ x u : List Char, c :: x ≠ '\ufeff' :: u := fun x u hu => hc (List.cons.inj hu).1
      rw [List.cons_append, dropMark.eq_2 _ (hne _), dropMark.eq_2 _ (hne _), List.cons_append]

theorem Opened.dropMark {s : List Char} (h : Opened blocks names s) :
    Opened blocks names (dropMark s) := by
  induction h with
  | here h => exact .here (Balanced.dropMark h)
  | passed _ ih => exact .passed ih
  | within h hn htag ho _ =>
    rw [dropMark_append_tag]
    exact .within (Balanced.dropMark h) hn htag ho

theorem tokens_eq_of_runFrom {s : List Char} {ts : List Token}
    (h : runFrom (.reading .text) (unifyLineEnds (dropMark s)) = (.reading .text, ts)) :
    tokens s = ts := by
  have ht := tokensFrom_append (.reading .text) (unifyLineEnds (dropMark s)) []
  rw [List.append_nil, h] at ht
  exact ht.trans (List.append_nil ts)

theorem Balanced.nested_tokens {s : List Char} (h : Balanced blocks false s) :
    Nested blocks false (tokens s) := by
  obtain ⟨ts, hr, hn⟩ := Balanced.exists_runFrom
    ((Balanced.dropMark h).alike (alike_unifyLineEnds _))
  rw [tokens_eq_of_runFrom hr]
  exact hn

theorem runFrom_plainTag {name : String} (hn : name ∈ writtenNames) :
    runFrom (.reading .text) ('<' :: name.toList ++ ['>'])
      = (.reading .text, [.startTag name []]) := by
  rw [runFrom_append, runFrom_startName hn]
  simp [Step.next, runFrom, Mode.step, isSpace, Step.tag, Draft.token]

theorem Opened.exists_runFrom {s : List Char} (h : Opened blocks names s) :
    ∃ ts, runFrom (.reading .text) s = (.reading .text, ts) ∧ OpenedTokens blocks names ts := by
  induction h with
  | here h =>
    obtain ⟨ts, hr, hn⟩ := Balanced.exists_runFrom h
    exact ⟨ts, hr, .here hn⟩
  | passed _ ih =>
    obtain ⟨ts, hr, ho⟩ := ih
    exact ⟨ts, hr, .passed ho⟩
  | @within name names attrs s t h hn htag _ ih =>
    obtain ⟨ts, hr, hts⟩ := Balanced.exists_runFrom h
    obtain ⟨attrs', he, hstart⟩ := exists_runFrom_startTag htag
    obtain ⟨us, hru, hus⟩ := ih
    refine ⟨_, ?_, .within hts hn he hus⟩
    have hsplit : s ++ '<' :: (name.toList ++ (attrs ++ '>' :: t))
        = s ++ (('<' :: name.toList ++ attrs ++ ['>']) ++ t) := by simp
    rw [hsplit, runFrom_append, hr, runFrom_append, hstart, hru]
    simp

/-- The tokens of a code block. -/
def codeTokens (code : List Char) : List Token :=
  [.startTag "pre" [], .startTag "code" []] ++ code.map .char ++ [.endTag "code", .endTag "pre"]

theorem runFrom_codeBlock {code : List Char} (hc : ∀ c ∈ code, c.toNat ≠ 0) :
    runFrom (.reading .text) (codeBlock (Text.escapeEntity code))
      = (.reading .text, codeTokens code) := by
  have hsplit : codeBlock (Text.escapeEntity code)
      = ('<' :: "pre".toList ++ ['>']) ++ (('<' :: "code".toList ++ ['>'])
          ++ (Text.escapeEntity code ++ (('<' :: '/' :: "code".toList ++ ['>'])
            ++ ('<' :: '/' :: "pre".toList ++ ['>'])))) := by
    simp [codeBlock, Markup.enclose]
  rw [hsplit, runFrom_append, runFrom_plainTag (by decide), runFrom_append,
    runFrom_plainTag (by decide), runFrom_append, runFrom_escapeEntity hc, runFrom_append,
    runFrom_endTag (by decide), runFrom_endTag (by decide)]
  simp [codeTokens]

/-- The tokens of the text before a place. -/
def tokensBefore (before : List Char) : List Token :=
  (runFrom (.reading .text) (unifyLineEnds (dropMark before))).2

theorem openedTokens_tokensBefore {before : List Char} (h : Opened blocks names before) :
    OpenedTokens blocks names (tokensBefore before) := by
  obtain ⟨ts, hr, ho⟩ := Opened.exists_runFrom
    ((Opened.dropMark h).alike (alike_unifyLineEnds _))
  rw [tokensBefore, hr]
  exact ho

/-- A code block is read by itself, and what stands before it is read as if nothing followed. -/
theorem exists_tokens {before : List Char} (hb : Opened blocks names before) {code : List Char}
    (hcode : ∀ c ∈ code, c.toNat ≠ 0) (hcr : '\r' ∉ code) (after : List Char) :
    ∃ rest, tokens (before ++ codeBlock (Text.escapeEntity code) ++ after)
      = tokensBefore before ++ (codeTokens code ++ rest) := by
  have hblock : '\r' ∉ codeBlock (Text.escapeEntity code) := by
    have he : '\r' ∉ Text.escapeEntity code := fun hm =>
      hcr ((Text.mem_escapeEntity (by decide)).mp hm)
    simp [codeBlock, Markup.enclose, he]
  have hunify : unifyLineEnds (dropMark (before ++ codeBlock (Text.escapeEntity code) ++ after))
      = unifyLineEnds (dropMark before)
        ++ (codeBlock (Text.escapeEntity code) ++ unifyLineEnds after) := by
    rw [← unifyLineEnds_append hblock, List.append_assoc, Markup.codeBlock_eq, dropMark_append_tag,
      unifyLineEnds_append_cons (by decide) (by decide), unifyLineEnds_cons (by decide)]
  obtain ⟨ts, hr, -⟩ := Opened.exists_runFrom
    ((Opened.dropMark hb).alike (alike_unifyLineEnds _))
  have hbefore : tokensBefore before = ts := by rw [tokensBefore, hr]
  refine ⟨tokensFrom (.reading .text) (unifyLineEnds after), ?_⟩
  rw [tokens, hunify, tokensFrom_append, hr, hbefore, tokensFrom_append, runFrom_codeBlock hcode]

end MessageLayout.Html
