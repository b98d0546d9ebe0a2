import MessageLayout.Proofs.FragmentText
import MessageLayout.Proofs.NestedTokens

/-!
# Start tags of links

The target of a link is written as the value of its attribute `href`, and the value is read as the
target. The guards of styles leave tags alone, and the guard of a quotation puts soft hyphens into a
value only before quote marks that start its lines.

    HrefText href attrs → ChangesValues f → HrefText href (f attrs)      (ChangesValues.hrefText)
    HrefText href attrs → the target is read from the tag of the link    (exists_runFrom_linkTag)
-/

namespace MessageLayout

/-- No line of a target behind the first starts with a quote mark. -/
def Unquoted (href : List Char) : Prop :=
  ∀ l ∈ (Text.lines href).tail, l.head? ≠ some '>'

instance (href : List Char) : Decidable (Unquoted href) :=
  inferInstanceAs (Decidable (∀ l ∈ (Text.lines href).tail, l.head? ≠ some '>'))

/-- The attributes of a link with the given target: it is the first that is named `href`, in capital
or small letters. -/
def Targets (href : String) (attributes : Attributes) : Prop :=
  ∃ before after, attributes.entries = before ++ ("href", .json (.str href)) :: after ∧
    ∀ e ∈ before, e.1.toList.map Char.toLower ≠ "href".toList

namespace Markup

/-- The text of attributes of which the first that is named `href` has the given value. -/
inductive HrefText (href : List Char) : List Char → Prop
  | here {more : List Char} :
      AttrsText more →
        HrefText href (' ' :: "href".toList ++ '=' :: '"' :: Text.escapeAttr href ++ '"' :: more)
  | later {name value attrs : List Char} :
      name ≠ [] → (∀ c ∈ name, isNameChar c = true) → name.map Char.toLower ≠ "href".toList →
        '"' ∉ value → HrefText href attrs →
          HrefText href (' ' :: name ++ '=' :: '"' :: value ++ '"' :: attrs)

variable {href : List Char} {attrs : List Char}

theorem isNameChar_href : ∀ c ∈ "href".toList, isNameChar c = true :=
  Text.forall_mem_of_all (by decide)

/-! ## Writing -/

theorem gt_not_mem_escapeAttr (s : List Char) : '>' ∉ Text.escapeAttr s := by
  have hc : ∀ c, '>' ∉ (if c = '"' then "&quot;".toList else Text.entity c) := by
    intro c
    split
    · decide
    · exact (Text.bracket_not_mem_entity c).2
  intro hm
  obtain ⟨c, -, h⟩ := List.mem_flatMap.mp hm
  exact hc c h

theorem carriageReturn_not_mem_escapeAttr {s : List Char} (hs : '\r' ∉ s) :
    '\r' ∉ Text.escapeAttr s := by
  intro hm
  obtain ⟨c, hc, h⟩ := List.mem_flatMap.mp hm
  split at h
  · exact absurd h (by decide)
  · exact hs ((Text.mem_entity (by decide)).mp h ▸ hc)

theorem gt_not_mem_writeAttrs {entries : List (String × AttrValue)}
    (h : entries.all (fun e => isAttrName e.1) = true) : '>' ∉ writeAttrs ⟨entries⟩ := by
  intro hm
  obtain ⟨⟨name, value⟩, he, hm⟩ := List.mem_flatMap.mp hm
  have hname := List.all_eq_true.mp h _ he
  simp only [isAttrName, Bool.and_eq_true] at hname
  cases ht : value.attrText? with
  | none => simp [ht] at hm
  | some text =>
    have hgt : '>' ∉ name.toList := fun hm => absurd (List.all_eq_true.mp hname.2 _ hm) (by decide)
    have hequal : '>' ∉ "=\"".toList := by decide
    simp [ht, hgt, gt_not_mem_escapeAttr] at hm

/-- The attributes of a link are written with its target. -/
theorem hrefText_writeAttrs {href : String} {attributes : Attributes}
    (ht : Targets href attributes)
    (h : attributes.entries.all (fun e => isAttrName e.1) = true) :
    HrefText href.toList (writeAttrs attributes) := by
  obtain ⟨entries⟩ := attributes
  obtain ⟨before, after, rfl, hbefore⟩ := ht
  have hequal : "=\"".toList = ['=', '"'] := rfl
  simp only at h
  induction before with
  | nil =>
    rw [List.nil_append, List.all_cons, Bool.and_eq_true] at h
    have hafter := attrsText_writeAttrs h.2
    simp only [writeAttrs] at hafter
    have hhere : HrefText href.toList _ := .here hafter
    simpa [writeAttrs, AttrValue.attrText?, hequal] using hhere
  | cons e before ih =>
    obtain ⟨name, value⟩ := e
    rw [List.cons_append, List.all_cons, Bool.and_eq_true] at h
    have hrest := ih (fun e he => hbefore e (List.mem_cons_of_mem _ he)) h.2
    have hname := h.1
    simp only [isAttrName, Bool.and_eq_true, Bool.not_eq_true', List.isEmpty_eq_false_iff] at hname
    simp only [writeAttrs, List.cons_append, List.flatMap_cons] at hrest ⊢
    cases value.attrText? with
    | none => exact hrest
    | some text =>
      have hlater := HrefText.later hname.1 (List.all_eq_true.mp hname.2)
        (hbefore _ List.mem_cons_self) (quote_not_mem_escapeAttr text) hrest
      simpa [hequal] using hlater

/-! ## The guard of a quotation -/

theorem guardQuoteLine_of_head? {s : List Char} (h : s.head? ≠ some '&') : guardQuoteLine s = s :=
  guardQuoteLine.eq_2 s fun t ht => h (by rw [ht]; rfl)

theorem guardQuoteLine_escapeAttr {s : List Char} (h : s.head? ≠ some '>') :
    guardQuoteLine (Text.escapeAttr s) = Text.escapeAttr s := by
  cases s with
  | nil => rfl
  | cons c s =>
    have hgt : c ≠ '>' := fun e => h (by rw [e]; rfl)
    have hcons : Text.escapeAttr (c :: s)
        = (if c = '"' then "&quot;".toList else Text.entity c) ++ Text.escapeAttr s := rfl
    rw [hcons]
    split
    · rfl
    · unfold Text.entity
      split
      · rfl
      · split
        · rfl
        next hamp _ => exact guardQuoteLine_of_head? (by simpa using hamp)

/-- The guard of a quotation leaves a text alone of which it alters no line behind the first. -/
theorem guardLater_eq_self {s : List Char}
    (h : ∀ l ∈ (Text.lines s).tail, guardQuoteLine l = l) : guardLater s = s := by
  cases hs : Text.lines s with
  | nil => exact absurd hs (Text.lines_ne_nil s)
  | cons l ls =>
    rw [hs, List.tail_cons] at h
    have hmap : ls.map guardQuoteLine = ls := (List.map_congr_left h).trans (List.map_id ls)
    rw [guardLater_of_lines hs, hmap, ← hs, Text.unlines_lines]

theorem guardLater_escapeAttr (hq : Unquoted href) :
    guardLater (Text.escapeAttr href) = Text.escapeAttr href := by
  have hlines : Text.lines (Text.escapeAttr href) = (Text.lines href).map Text.escapeAttr := by
    refine lines_flatMap rfl (fun c hc hm => ?_) href
    split at hm
    · exact absurd hm (by decide)
    · exact hc ((Text.mem_entity (by decide)).mp hm).symm
  refine guardLater_eq_self fun l hl => ?_
  rw [hlines, ← List.map_tail] at hl
  obtain ⟨m, hm, rfl⟩ := List.mem_map.mp hl
  exact guardQuoteLine_escapeAttr (hq m hm)

theorem guardLater_attr {name : List Char} (hn : ∀ c ∈ name, isNameChar c = true)
    (value attrs : List Char) :
    guardLater (' ' :: name ++ '=' :: '"' :: value ++ '"' :: attrs)
      = ' ' :: name ++ '=' :: '"' :: guardLater value ++ '"' :: guardLater attrs := by
  have hname : '\n' ∉ ' ' :: name ++ ['=', '"'] := by
    have hnl : '\n' ∉ name := fun hm => absurd (hn _ hm) (by decide)
    simp [hnl]
  have hsplit : ' ' :: name ++ '=' :: '"' :: value ++ '"' :: attrs
      = (' ' :: name ++ ['=', '"']) ++ (value ++ '"' :: attrs) := by simp
  rw [hsplit, guardLater_append_of_not_mem hname, guardLater_append (by decide) (by decide)]
  simp

theorem alike_guardLater (s : List Char) : Alike s (guardLater s) := by
  cases hs : Text.lines s with
  | nil => exact absurd hs (Text.lines_ne_nil s)
  | cons l ls =>
    have hunlines := Text.unlines_lines s
    rw [hs] at hunlines
    rw [guardLater_of_lines hs, ← hunlines]
    cases ls with
    | nil => exact .refl _
    | cons m ms =>
      rw [Text.unlines_cons l (by simp), Text.unlines_cons l (by simp)]
      exact (Alike.refl l).append (.char '\n' (alike_unlines_map alike_guardQuoteLine _))

/-! ## Changes of attributes -/

/-- A change brings in no character that is not among the look-alikes. -/
theorem not_mem_of_alike {c : Char} (hc : c ∉ '\u00ad' :: lookalikes.map Prod.snd) {s t : List Char}
    (h : Alike s t) (hs : c ∉ s) : c ∉ t := by
  rw [List.mem_cons, not_or] at hc
  obtain ⟨hhyphen, hswap⟩ := hc
  refine fun hm => h.forall_mem (p := (· ≠ c)) (fun a d hd _ e => ?_) (Ne.symm hhyphen)
    (fun _ ha e => hs (e ▸ ha)) _ hm rfl
  exact hswap (e ▸ List.mem_map_of_mem hd)

/-- A harmless change of texts that changes the values of attributes by themselves. -/
structure ChangesValues (f : List Char → List Char) : Prop where
  alike : ∀ s, Alike s (f s)
  nil : f [] = []
  attr : ∀ {name : List Char}, (∀ c ∈ name, isNameChar c = true) → ∀ value attrs,
    f (' ' :: name ++ '=' :: '"' :: value ++ '"' :: attrs)
      = ' ' :: name ++ '=' :: '"' :: f value ++ '"' :: f attrs

variable {f : List Char → List Char}

theorem ChangesValues.attrsText (hf : ChangesValues f) (h : AttrsText attrs) :
    AttrsText (f attrs) := by
  induction h with
  | nil =>
    rw [hf.nil]
    exact .nil
  | attr hne hn hv _ ih =>
    rw [hf.attr hn]
    exact .attr hne hn (not_mem_of_alike (by decide) (hf.alike _) hv) ih

/-- The target of a link stays if its text as a value does. -/
theorem ChangesValues.hrefText (hf : ChangesValues f)
    (hhref : f (Text.escapeAttr href) = Text.escapeAttr href) (h : HrefText href attrs) :
    HrefText href (f attrs) := by
  induction h with
  | here hm =>
    rw [hf.attr isNameChar_href, hhref]
    exact .here (hf.attrsText hm)
  | later hne hn hl hv _ ih =>
    rw [hf.attr hn]
    exact .later hne hn hl (not_mem_of_alike (by decide) (hf.alike _) hv) ih

theorem changesValues_guardLater : ChangesValues guardLater :=
  ⟨alike_guardLater, rfl, guardLater_attr⟩

theorem changesValues_unifyLineEnds : ChangesValues Html.unifyLineEnds := by
  refine ⟨Html.alike_unifyLineEnds, rfl, fun {name} hn value attrs => ?_⟩
  have hname : '\r' ∉ ' ' :: name ++ ['=', '"'] := by
    have hr : '\r' ∉ name := fun hm => absurd (hn _ hm) (by decide)
    simp [hr]
  have hsplit : ' ' :: name ++ '=' :: '"' :: value ++ '"' :: attrs
      = (' ' :: name ++ ['=', '"']) ++ (value ++ '"' :: attrs) := by simp
  rw [hsplit, Html.unifyLineEnds_append hname,
    Html.unifyLineEnds_append_cons (by decide) (by decide)]
  simp

end Markup

namespace Html

open Markup (HrefText)

/-! ## Reading -/

/-- A character of a value is read from what is written for it. -/
theorem runFrom_valueChar {c : Char} (d : Draft) (name v : List Char) :
    runFrom (.reading (.value d name (some '"') v))
        (if c = '"' then "&quot;".toList else Text.entity c)
      = .next (.reading (.value d name (some '"') (keepable c :: v))) := by
  split
  · next h => subst h; rfl
  · unfold Text.entity
    split
    · next h => subst h; rfl
    · split
      · next h => subst h; rfl
      · split
        · next h => subst h; rfl
        next hq ha _ _ =>
          simp [runFrom, Mode.step, Place.step, valueChar_quoted ha, hq, Step.next]

theorem runFrom_escapeAttr (value : List Char) (d : Draft) (name v : List Char) :
    runFrom (.reading (.value d name (some '"') v)) (Text.escapeAttr value ++ ['"'])
      = .next (.afterValue (d.withAttr name ((value.map keepable).reverse ++ v))) := by
  induction value generalizing v with
  | nil => simp [Text.escapeAttr, runFrom, Mode.step, Place.step, valueChar, Step.next]
  | cons c value ih =>
    have hcons : Text.escapeAttr (c :: value)
        = (if c = '"' then "&quot;".toList else Text.entity c) ++ Text.escapeAttr value := rfl
    rw [hcons, List.append_assoc, runFrom_append, runFrom_valueChar]
    simp only [Step.next] at ih ⊢
    rw [ih]
    simp

theorem withAttr_of_lookup {d : Draft} {name : List Char} (hd : d.attrs.lookup "href" = none)
    (hn : name.reverse ≠ "href".toList) (value : List Char) :
    (d.withAttr name value).attrs.lookup "href" = none := by
  have hne : ("href" == String.ofList name.reverse) = false := by
    rw [beq_eq_false_iff_ne]
    exact fun e => hn (by rw [e, String.toList_ofList])
  simp only [Draft.withAttr]
  split
  · exact hd
  · simp [List.lookup_append, hd, List.lookup_cons, hne]

theorem eq_of_map_keepable {s t : List Char} (h : s.map keepable = t) (ht : '\ufffd' ∉ t) :
    s = t := by
  refine (List.map_id s).symm.trans ((List.map_congr_left fun c hc => ?_).trans h)
  have hm : keepable c ∈ t := h ▸ List.mem_map_of_mem hc
  unfold keepable at hm ⊢
  split
  next hz =>
    rw [if_pos hz] at hm
    exact absurd hm ht
  · rfl

theorem map_keepable_of_not_mem {s : List Char} (hz : '\x00' ∉ s) : s.map keepable = s := by
  refine (List.map_congr_left fun c hc => ?_).trans (List.map_id s)
  have hne : c.toNat ≠ 0 := fun e => hz (by rwa [← Char.ofNat_toNat c, e] at hc)
  simp [keepable, hne]

/-- The target of a link is read with its attributes. -/
theorem exists_runFrom_hrefText {href attrs : List Char} (h : HrefText href attrs)
    (hz : '\x00' ∉ href) {d : Draft} {m : Mode} (hm : AtAttr d m)
    (hd : d.attrs.lookup "href" = none) :
    ∃ attrs' : Attrs, attrs'.lookup "href" = some href ∧
      runFrom m (attrs ++ ['>']) = .tag { d with attrs := attrs' } := by
  induction h generalizing d m with
  | @here more hmore =>
    have hlower : ("href".toList.map fun c => keepable c.toLower) = "href".toList := by decide
    have hvalue := runFrom_escapeAttr href d "href".toList.reverse []
    have hnone : (d.attrs.any fun e => e.1 == "href") = false := by
      rw [List.any_eq_false]
      intro e he heq
      have hlookup := List.lookup_eq_none_iff.mp hd e he
      rw [eq_of_beq heq] at hlookup
      simp at hlookup
    have hattr : d.withAttr "href".toList.reverse ((href.map keepable).reverse ++ [])
        = { d with attrs := d.attrs ++ [("href", href)] } := by
      have hofList : String.ofList "href".toList = "href" := String.ofList_toList
      simp only [Draft.withAttr, map_keepable_of_not_mem hz, List.append_nil, List.reverse_reverse,
        hofList, hnone]
      rfl
    obtain ⟨rest, hrest⟩ := (AtAttr.value (d := { d with attrs := d.attrs ++ [("href", href)] })
      ).exists_runFrom hmore
    refine ⟨d.attrs ++ [("href", href)] ++ rest, by simp [List.lookup_append, hd], ?_⟩
    rw [hm.runFrom_attr (by decide) Markup.isNameChar_href (hlower ▸ hvalue), hlower, hattr, hrest]
  | @later name value attrs hne hn hl hv _ ih =>
    have hreading : InValue d (name.map fun c => keepable c.toLower).reverse
        (.reading (.value d (name.map fun c => keepable c.toLower).reverse (some '"') [])) :=
      .reading []
    obtain ⟨v, hvalue⟩ := hreading.exists_runFrom hv
    have hother : (name.map fun c => keepable c.toLower) ≠ "href".toList := by
      intro he
      rw [← Function.comp_def, ← List.map_map] at he
      exact hl (eq_of_map_keepable he (by decide))
    have hlookup := withAttr_of_lookup hd (by rwa [List.reverse_reverse]) v
    obtain ⟨attrs', hhref, hrest⟩ := ih .value hlookup
    refine ⟨attrs', hhref, ?_⟩
    obtain ⟨more, hmore⟩ := exists_withAttr d (name.map fun c => keepable c.toLower).reverse v
    rw [hm.runFrom_attr hne hn hvalue, hrest, hmore]

/-- The start tag of a link is read with its target. -/
theorem exists_runFrom_linkTag {href attrs : List Char} (h : HrefText href attrs)
    (hz : '\x00' ∉ href) :
    ∃ attrs' : Attrs, attrs'.lookup "href" = some href ∧
      runFrom (.reading .text) ('<' :: "a".toList ++ attrs ++ ['>'])
        = (.reading .text, [.startTag "a" attrs']) := by
  obtain ⟨attrs', hhref, hread⟩ := exists_runFrom_hrefText h hz
    (AtAttr.name (d := ⟨false, "a".toList.reverse, []⟩)) rfl
  refine ⟨attrs', hhref, ?_⟩
  rw [List.append_assoc, runFrom_append, runFrom_startName (by decide)]
  simp only [Step.next, hread]
  simp [Step.tag, Draft.token]

end Html

end MessageLayout
