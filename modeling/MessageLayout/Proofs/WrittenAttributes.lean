import MessageLayout.Proofs.DateFragments

/-!
# Attributes that are written and read

The attributes of a link are written into its start tag and read from it. A value is escaped when
it is written and decoded once when it is read, so it comes back as it was given, whatever characters
it has: only a line end is read as a line feed, and the character U+0000 is replaced. An attribute
without a text is not written.

    HasPlainKeys pairs → runFrom m (writePairs pairs ++ ['>']) reads the pairs
                                                                        (AtAttr.runFrom_writePairs)
    HasPlainKeys pairs → parse (writtenLink pairs t) = [readLink pairs t]        (parse_writtenLink)
-/

namespace MessageLayout

open Text (escapeEntity escapeAttr)
open Html (Attrs Dom keepable unifyLineEnds)

/-- Whether a text is a key of small letters and hyphens. -/
def isPlainKey (key : String) : Bool :=
  !key.toList.isEmpty && key.toList.all fun c => c.isLower || c = '-'

/-- The keys of attributes are plain, and no two are the same. -/
structure HasPlainKeys (pairs : Attrs) : Prop where
  plain : ∀ e ∈ pairs, isPlainKey e.1 = true
  nodup : (pairs.map Prod.fst).Nodup

namespace HasPlainKeys

variable {pairs : Attrs}

theorem tail {e : String × List Char} (h : HasPlainKeys (e :: pairs)) : HasPlainKeys pairs :=
  ⟨fun p hp => h.plain p (List.mem_cons_of_mem _ hp), (List.nodup_cons.mp h.nodup).2⟩

theorem map (h : HasPlainKeys pairs) (f : List Char → List Char) :
    HasPlainKeys (pairs.map fun e => (e.1, f e.2)) where
  plain e he := by
    obtain ⟨p, hp, rfl⟩ := List.mem_map.mp he
    exact h.plain p hp
  nodup := by
    rw [List.map_map]
    exact h.nodup

end HasPlainKeys

theorem ne_nil_of_isPlainKey {key : String} (h : isPlainKey key = true) : key.toList ≠ [] := by
  rw [isPlainKey, Bool.and_eq_true] at h
  simpa using h.1

/-- A character of a key stands in a tag as it is and is read as it stands there. -/
theorem isNameChar_of_mem {key : String} (h : isPlainKey key = true) {c : Char}
    (hc : c ∈ key.toList) : Markup.isNameChar c = true ∧ keepable c.toLower = c := by
  have hletters : ∀ n < 123, 97 ≤ n → Markup.isNameChar (Char.ofNat n) = true ∧
      keepable (Char.ofNat n).toLower = Char.ofNat n := by decide
  rw [isPlainKey, Bool.and_eq_true] at h
  have hc : c.isLower = true ∨ c = '-' := by simpa using List.all_eq_true.mp h.2 c hc
  rcases hc with hc | rfl
  · have hbounds : 97 ≤ c.toNat ∧ c.toNat ≤ 122 := by
      simpa [Char.isLower, UInt32.le_iff_toNat_le] using hc
    have hletter := hletters c.toNat (by omega) hbounds.1
    rwa [Char.ofNat_toNat] at hletter
  · decide

theorem map_keepable_toLower_of_isPlainKey {key : String} (h : isPlainKey key = true) :
    (key.toList.map fun c => keepable c.toLower) = key.toList :=
  (List.map_congr_left fun _ hc => (isNameChar_of_mem h hc).2).trans (List.map_id _)

namespace Markup

/-- The attributes that have a text, with their texts. -/
def presentTexts (entries : List (String × AttrValue)) : Attrs :=
  entries.filterMap fun e => e.2.attrText?.map (e.1, ·)

/-- The text of attributes with the given values. -/
def writePairs (pairs : Attrs) : List Char :=
  pairs.flatMap fun e => ' ' :: e.1.toList ++ '=' :: '"' :: escapeAttr e.2 ++ ['"']

theorem writePairs_cons (e : String × List Char) (pairs : Attrs) :
    writePairs (e :: pairs)
      = ' ' :: e.1.toList ++ '=' :: '"' :: escapeAttr e.2 ++ '"' :: writePairs pairs := by
  simp [writePairs]

theorem writeAttrs_eq_writePairs (entries : List (String × AttrValue)) :
    writeAttrs ⟨entries⟩ = writePairs (presentTexts entries) := by
  induction entries with
  | nil => rfl
  | cons e entries ih =>
    obtain ⟨key, value⟩ := e
    have hequal : "=\"".toList = ['=', '"'] := rfl
    simp only [writeAttrs, List.flatMap_cons] at ih ⊢
    rw [ih]
    cases ht : value.attrText? with
    | none => simp [presentTexts, ht]
    | some text => simp [presentTexts, writePairs, ht, hequal]

/-- A link with the given attributes around a text. -/
def writtenLink (pairs : Attrs) (t : List Char) : List Char :=
  enclose "a" (writePairs pairs) (escapeEntity t)

end Markup

namespace Html

open Markup (writePairs writtenLink)

variable {pairs : Attrs}

/-! ## Reading -/

/-- The attributes of a tag are read one by one. -/
theorem AtAttr.runFrom_writePairs {d : Draft} {m : Mode} (hm : AtAttr d m) (h : HasPlainKeys pairs)
    (hd : ∀ e ∈ pairs, ∀ p ∈ d.attrs, p.1 ≠ e.1) :
    runFrom m (writePairs pairs ++ ['>'])
      = .tag { d with attrs := d.attrs ++ pairs.map fun e => (e.1, e.2.map keepable) } := by
  induction pairs generalizing d m with
  | nil => 
    rw [List.map_nil, List.append_nil]
    cases hm <;> simp [writePairs, runFrom, Mode.step, betweenAttrs, isSpace, Step.tag]
  | cons e pairs ih =>
    have hkey := h.plain e List.mem_cons_self
    have hnew : (d.attrs.any fun p => p.1 == e.1) = false := by
      rw [List.any_eq_false]
      intro p hp heq
      exact hd e List.mem_cons_self p hp (eq_of_beq heq)
    have hrest : ∀ e' ∈ pairs, ∀ p ∈ d.attrs ++ [(e.1, e.2.map keepable)], p.1 ≠ e'.1 := by
      intro e' he' p hp
      rcases List.mem_append.mp hp with hp | hp
      · exact hd e' (List.mem_cons_of_mem _ he') p hp
      · obtain rfl := List.mem_singleton.mp hp
        intro heq
        exact (List.nodup_cons.mp h.nodup).1 (heq ▸ List.mem_map_of_mem he')
    rw [Markup.writePairs_cons, hm.runFrom_escapeAttr e.1 (ne_nil_of_isPlainKey hkey)
      (fun c hc => (isNameChar_of_mem hkey hc).1) (map_keepable_toLower_of_isPlainKey hkey) hnew,
      ih .value h.tail hrest, List.map_cons, List.append_assoc, List.singleton_append]

theorem runFrom_linkTag (h : HasPlainKeys pairs) :
    runFrom (.reading .text) ('<' :: "a".toList ++ writePairs pairs ++ ['>'])
      = (.reading .text, [.startTag "a" (pairs.map fun e => (e.1, e.2.map keepable))]) := by
  have hread := (AtAttr.name (d := ⟨false, "a".toList.reverse, []⟩)).runFrom_writePairs h
    fun _ _ _ hp => absurd hp List.not_mem_nil
  rw [List.append_assoc, runFrom_append, runFrom_startName (by decide)]
  simp only [Step.next, hread]
  simp [Step.tag, Draft.token]

/-! ## Line ends -/

theorem unifyLineEnds_escapeAttr (s : List Char) :
    unifyLineEnds (escapeAttr s) = escapeAttr (unifyLineEnds s) := by
  refine unifyLineEnds_flatMap rfl rfl (fun c hr hn => ?_) s
  split
  · decide
  · refine ⟨Text.entity_ne_nil c, ?_, ?_⟩
    · rw [Text.mem_entity (by decide)]
      exact Ne.symm hr
    · rw [Text.mem_entity (by decide)]
      exact Ne.symm hn

theorem unifyLineEnds_writePairs (h : HasPlainKeys pairs) (s : List Char) :
    unifyLineEnds (writePairs pairs ++ '>' :: s)
      = writePairs (pairs.map fun e => (e.1, unifyLineEnds e.2)) ++ '>' :: unifyLineEnds s := by
  induction pairs with
  | nil => exact unifyLineEnds_cons (by decide) s
  | cons e pairs ih =>
    have hattr := Markup.changesValues_unifyLineEnds.attr
      (fun c hc => (isNameChar_of_mem (h.plain e List.mem_cons_self) hc).1) (escapeAttr e.2)
      (writePairs pairs ++ '>' :: s)
    have hsplit : writePairs (e :: pairs) ++ '>' :: s
        = ' ' :: e.1.toList ++ '=' :: '"' :: escapeAttr e.2
          ++ '"' :: (writePairs pairs ++ '>' :: s) := by
      simp [Markup.writePairs_cons]
    rw [hsplit, hattr, ih h.tail, unifyLineEnds_escapeAttr, List.map_cons, Markup.writePairs_cons]
    simp

theorem unifyLineEnds_writtenLink (h : HasPlainKeys pairs) (t : List Char) :
    unifyLineEnds (writtenLink pairs t)
      = writtenLink (pairs.map fun e => (e.1, unifyLineEnds e.2)) (unifyLineEnds t) := by
  have hsplit : ∀ (pairs : Attrs) (t : List Char), writtenLink pairs t
      = '<' :: 'a' :: (writePairs pairs ++ '>' :: (escapeEntity t ++ '<' :: "/a>".toList)) := by
    intro pairs t
    have hend : "</".toList ++ "a".toList ++ ['>'] = '<' :: "/a>".toList := rfl
    simp [writtenLink, Markup.enclose]
  rw [hsplit, hsplit, unifyLineEnds_cons (by decide), unifyLineEnds_cons (by decide),
    unifyLineEnds_writePairs h, unifyLineEnds_append_cons (by decide) (by decide),
    unifyLineEnds_escapeEntity]
  rfl

/-! ## The document -/

/-- The link that is read where one was written. -/
def readLink (pairs : Attrs) (t : List Char) : Dom :=
  .element "a" (pairs.map fun e => (e.1, (unifyLineEnds e.2).map keepable))
    (textNodes (readText (unifyLineEnds t)))

theorem tokens_writtenLink (h : HasPlainKeys pairs) (t : List Char) :
    tokens (writtenLink pairs t)
      = .startTag "a" (pairs.map fun e => (e.1, (unifyLineEnds e.2).map keepable))
        :: ((unifyLineEnds t).map textToken ++ [.endTag "a"]) := by
  have hmark : dropMark (writtenLink pairs t) = writtenLink pairs t := rfl
  have htag := runFrom_linkTag (h.map unifyLineEnds)
  rw [List.map_map] at htag
  refine tokens_eq_of_runFrom ?_
  rw [hmark, unifyLineEnds_writtenLink h]
  exact runFrom_enclose (by decide) (runFrom_escapeEntity_textToken _) htag

/-- A link is read as it was written. -/
theorem parse_writtenLink (h : HasPlainKeys pairs) (t : List Char) :
    parse (writtenLink pairs t) = [readLink pairs t] := by
  have hstart := Construction.settled_start
  have hlinks : ∀ a ∈ Construction.start.entered.active, a.name ≠ "a" :=
    fun _ ha => absurd ha List.not_mem_nil
  have hname : "a" ≠ "p" := by decide
  have htext : Builds true ((unifyLineEnds t).map textToken) []
      (textNodes (readText (unifyLineEnds t))) := builds_textNodes _
  have hlink := hstart.link hlinks (htext.foldl_token (hstart.openStyle hname
    (pairs.map fun e => (e.1, (unifyLineEnds e.2).map keepable))) rfl)
  rw [reverse_textNodes] at hlink
  show parse (writtenLink pairs t) = [readLink pairs t].reverse
  refine parse_eq_of_growsTo (by decide) (tokens_writtenLink h t) ?_
  rw [List.foldl_cons, Construction.token_startTag hstart.not_behind (by decide), hstart.entered_eq,
    List.foldl_append, List.foldl_cons, List.foldl_nil]
  exact hlink

end Html

namespace Markup

/-! ## Attributes of a link -/

theorem hasPlainKeys_presentTexts {attrs : Attributes}
    (hkeys : ∀ key ∈ attrs.names, isPlainKey key = true) (hnodup : attrs.names.Nodup) :
    HasPlainKeys (presentTexts attrs.entries) := by
  obtain ⟨entries⟩ := attrs
  have hsub : ((presentTexts entries).map Prod.fst).Sublist (entries.map Prod.fst) := by
    clear hkeys hnodup
    induction entries with
    | nil => exact .slnil
    | cons e entries ih =>
      cases ht : e.2.attrText? with
      | none => simpa [presentTexts, ht] using ih.trans (List.sublist_cons_self _ _)
      | some text => simpa [presentTexts, ht] using ih.cons_cons e.1
  exact ⟨fun e he => hkeys e.1 (hsub.subset (List.mem_map_of_mem he)), hnodup.sublist hsub⟩

/-- Where the keys are distinct, a key that has a text has that of its value. -/
theorem lookup_presentTexts {entries : List (String × AttrValue)}
    (hnodup : (entries.map Prod.fst).Nodup) (key : String) :
    (presentTexts entries).lookup key = (entries.lookup key).bind AttrValue.attrText? := by
  induction entries with
  | nil => rfl
  | cons e entries ih =>
    obtain ⟨k, value⟩ := e
    obtain ⟨hnew, hnodup⟩ := List.nodup_cons.mp hnodup
    have ih := ih hnodup
    by_cases hk : key = k
    · subst hk
      have hrest : entries.lookup key = none := by
        rw [List.lookup_eq_none_iff]
        intro p hp
        rw [bne_iff_ne]
        intro heq
        exact hnew (List.mem_map.mpr ⟨p, hp, heq.symm⟩)
      rw [hrest] at ih
      cases ht : value.attrText? with
      | none => simpa [presentTexts, ht] using ih
      | some text => simp [presentTexts, ht]
    · have hne : (key == k) = false := beq_eq_false_iff_ne.mpr hk
      rw [List.lookup_cons, hne]
      cases ht : value.attrText? with
      | none => simpa [presentTexts, ht] using ih
      | some text => simpa [presentTexts, ht, List.lookup_cons, hne] using ih

theorem lookup_map (f : List Char → List Char) (pairs : Attrs) (key : String) :
    (pairs.map fun e => (e.1, f e.2)).lookup key = (pairs.lookup key).map f := by
  induction pairs with
  | nil => rfl
  | cons e pairs ih =>
    rw [List.map_cons, List.lookup_cons, List.lookup_cons, ih]
    cases key == e.1 <;> rfl

/-- A link outside of links and dates is written around its text or the label of a mention. -/
theorem exists_renderTag_link (attrs : Attributes) (t : List Char) {ancestry : Ancestry}
    (hplace : ancestry.isDescendantOf ["a", "time"] = false) :
    ∃ t', renderTag "a" attrs (escapeEntity t) ancestry
      = .ok (writtenLink (presentTexts attrs.entries) t') := by
  have hlabel : ∃ t', linkContent attrs (escapeEntity t) = escapeEntity t' := by
    simp only [linkContent]
    split
    · exact ⟨emptyMentionLabel, rfl⟩
    · exact ⟨t, rfl⟩
  obtain ⟨t', ht'⟩ := hlabel
  refine ⟨t', ?_⟩
  have hkind : Inline.ofName? "a" = some .link := rfl
  have hhidden : ancestry.isDescendantOf Inline.link.hiddenWithin = false := hplace
  simp only [renderTag, hkind, hhidden, Inline.write, ht', writtenLink, ← writeAttrs_eq_writePairs]
  simp

/-- The attributes of a link come back from the document that the written link is read into: each
with its text, and those without a text not at all. -/
theorem exists_link_with_attributes (attrs : Attributes)
    (hkeys : ∀ key ∈ attrs.names, isPlainKey key = true) (hnodup : attrs.names.Nodup)
    (t : List Char) {ancestry : Ancestry}
    (hplace : ancestry.isDescendantOf ["a", "time"] = false) :
    ∃ html link, renderTag "a" attrs (escapeEntity t) ancestry = .ok html ∧
      Html.parse html = [link] ∧ link.name? = some "a" ∧
      ∀ key,
        (∀ text, attrText? attrs key = some text → '\x00' ∉ text → '\r' ∉ text →
          link.attr? key = some text) ∧
        (attrText? attrs key = none → link.attr? key = none) := by
  obtain ⟨t', hwritten⟩ := exists_renderTag_link attrs t hplace
  have hread := Html.parse_writtenLink (hasPlainKeys_presentTexts hkeys hnodup) t'
  refine ⟨_, _, hwritten, hread, rfl, fun key => ?_⟩
  have hattr : (Html.readLink (presentTexts attrs.entries) t').attr? key
      = (attrText? attrs key).map fun text => (unifyLineEnds text).map keepable := by
    show List.lookup key _ = _
    rw [lookup_map fun text => (unifyLineEnds text).map keepable, lookup_presentTexts hnodup]
    rfl
  rw [hattr]
  constructor
  · intro text htext hnull hreturn
    rw [htext, Option.map_some, Html.unifyLineEnds_of_not_mem hreturn,
      Html.map_keepable_of_not_mem hnull]
  · intro hnone
    rw [hnone, Option.map_none]

/-- A link in bold text whose target has quotation marks, an entity of an entity, a bracket and a
line feed; and with an empty value, a truth value and values without a text. -/
theorem exists_link_with_attributes_quoted :
    let href := "?q=\"&amp;lt;\">\n\u00e9"
    let attrs : Attributes := ⟨[("href", .json (.str href)), ("title", .json (.str "")),
      ("data-new", .json (.bool true)), ("rel", .absent), ("lang", .json .null), ("-", .list [])]⟩
    let ancestry : Ancestry := ⟨["b"]⟩
    (∀ key ∈ attrs.names, isPlainKey key = true) ∧ attrs.names.Nodup ∧
      ancestry.isDescendantOf ["a", "time"] = false ∧
      ∃ html link, renderTag "a" attrs (escapeEntity "A&B".toList) ancestry = .ok html ∧
        Html.parse html = [link] ∧ link.name? = some "a" ∧ link.attr? "href" = some href.toList ∧
        link.attr? "title" = some [] ∧ link.attr? "data-new" = some "true".toList ∧
        ["rel", "lang", "-", "id"].all fun key => (link.attr? key).isNone := by
  intro href attrs ancestry
  have hkeys : ∀ key ∈ attrs.names, isPlainKey key = true := by decide
  have hnodup : attrs.names.Nodup := by decide
  have hplace : ancestry.isDescendantOf ["a", "time"] = false := by decide
  obtain ⟨html, link, hwritten, hread, hname, hattr⟩ :=
    exists_link_with_attributes attrs hkeys hnodup "A&B".toList hplace
  refine ⟨hkeys, hnodup, hplace, html, link, hwritten, hread, hname,
    (hattr "href").1 _ rfl (by decide) (by decide), (hattr "title").1 _ rfl (by decide) (by decide),
    (hattr "data-new").1 _ rfl (by decide) (by decide), ?_⟩
  rw [List.all_eq_true]
  intro key hkey
  have hnone : ∀ key ∈ ["rel", "lang", "-", "id"], (attrText? attrs key).isNone = true := by decide
  rw [(hattr key).2 (Option.isNone_iff_eq_none.mp (hnone key hkey))]
  rfl

end Markup

end MessageLayout
