import MessageLayout.Proofs.BuiltElements
import MessageLayout.Proofs.CodeInPlace
import MessageLayout.Proofs.LinkLines
import MessageLayout.Proofs.StyledDates

/-!
# Elements of dated text

The tokens of dated text nest, and those of each date build its format. So every date of the document
is simple, and every date of the mrkdwn has one bar and no bracket, on one line.

    DatedText true false html → EveryOf HasSimpleDates (parse html)       (everyOf_hasSimpleDates_parse)
    renderMrkdwn options content = .ok out → HoldsDate out w → w has one bar and no bracket, on one line
                                                                               (renderMrkdwn_dates)
-/

namespace MessageLayout

open Mrkdwn (bareNames isFormat areFormat isPartChar SimpleDate HasSimpleDates)

namespace Html

open Markup (DatedText DateText FormatText EntityText ValueText valueEntity valueReserved)

variable {blocks : Bool}

/-! ## Reading values -/

/-- Text without bars on one line is read from such a value. -/
theorem exists_runFrom_entityText {value : List Char} (he : EntityText value) (hq : '"' ∉ value)
    (hb : ∀ x ∈ Markup.partEnds, x ∉ value) :
    ∃ w : List Char, ('|' ∉ w ∧ '\n' ∉ w) ∧ ∀ d name v,
      runFrom (.reading (.value d name (some '"') v)) (value ++ ['"'])
        = .next (.afterValue (d.withAttr name (w.reverse ++ v))) := by
  induction he with
  | nil =>
    refine ⟨[], by simp, fun d name v => ?_⟩
    simp [runFrom, Mode.step, Place.step, valueChar, Step.next]
  | @char c s hc _ ih =>
    have hpart : ∀ x ∈ Markup.partEnds, x ≠ c ∧ x ∉ s := fun x hx => by simpa using hb x hx
    simp only [List.mem_cons, not_or] at hq
    obtain ⟨w, ⟨hbar, hline⟩, hread⟩ := ih hq.2 fun x hx => (hpart x hx).2
    have hkept : ∀ x ∈ Markup.partEnds, x ≠ keepable c := by
      intro x hx
      unfold keepable
      split
      · rintro rfl
        exact absurd hx (by decide)
      · exact (hpart x hx).1
    refine ⟨keepable c :: w, ⟨?_, ?_⟩, fun d name v => ?_⟩
    · simpa [hbar] using hkept '|' (by decide)
    · simpa [hline] using hkept '\n' (by decide)
    · have hstep : (Mode.reading (.value d name (some '"') v)).step c
          = .next (.reading (.value d name (some '"') (keepable c :: v))) := by
        show valueChar d name (some '"') v c = _
        rw [valueChar_quoted hc, if_neg (Ne.symm hq.1)]
      have hrest := hread d name (keepable c :: v)
      simp only [Step.next] at hrest
      simp [runFrom, hstep, Step.next, hrest]
  | @entity c s hc _ ih =>
    obtain ⟨hqc, hqs⟩ := not_or.mp (mt List.mem_append.mpr hq)
    obtain ⟨w, ⟨hbar, hline⟩, hread⟩ := ih hqs fun x hx hm => hb x hx (List.mem_append_right _ hm)
    have hkept : keepable c = c ∧ c ≠ '|' ∧ c ≠ '\n' := by
      simp only [valueReserved, List.mem_cons, List.not_mem_nil, or_false] at hc
      rcases hc with rfl | rfl | rfl | rfl <;> decide
    refine ⟨c :: w, ⟨?_, ?_⟩, fun d name v => ?_⟩
    · simpa [hbar] using hkept.2.1.symm
    · simpa [hline] using hkept.2.2.symm
    · have hchar : runFrom (.reading (.value d name (some '"') v)) (valueEntity c) = _ :=
        runFrom_valueChar d name v
      have hrest := hread d name (c :: v)
      simp only [Step.next] at hrest
      rw [List.append_assoc, runFrom_append, hchar, hkept.1]
      simp [Step.next, hrest]

/-- The attributes of a date as they are read: both are text without bars on one line. -/
def SimpleAttrs (attrs : Attrs) : Prop :=
  ∃ stamp fallback, attrs = [("datetime", stamp), ("data-fallback", fallback)] ∧
    (∀ c ∈ stamp, isPartChar c = true) ∧ '|' ∉ fallback ∧ '\n' ∉ fallback

theorem exists_runFrom_dateText {attrs : List Char} (h : DateText attrs) :
    ∃ attrs', SimpleAttrs attrs' ∧
      runFrom (.tagName ⟨false, "time".toList.reverse, []⟩) (attrs ++ ['>'])
        = .tag ⟨false, "time".toList.reverse, attrs'⟩ := by
  obtain ⟨stamp, value, hstamp, hvalue, rfl⟩ := h
  obtain ⟨w, hw, hread⟩ := exists_runFrom_entityText hvalue.entities hvalue.quote
    hvalue.ends
  have hplain : ∀ c ∈ stamp, c ≠ '"' ∧ c ≠ '&' := fun c hc =>
    ⟨(hstamp c hc).2.1, fun e => absurd (hstamp c hc).1 (by rw [e]; decide)⟩
  refine ⟨[("datetime", stamp.map keepable), ("data-fallback", w)],
    ⟨_, _, rfl, fun c hc => ?_, hw⟩, ?_⟩
  · obtain ⟨x, hx, rfl⟩ := List.mem_map.mp hc
    obtain ⟨hf, -, hlt, hgt⟩ := hstamp x hx
    unfold keepable
    split
    · decide
    · exact Markup.isPartChar_of_firm hf hlt hgt
  · have hfirst := (AtAttr.name (d := ⟨false, "time".toList.reverse, []⟩)).runFrom_read
      "datetime" (by decide) (Text.forall_mem_of_all (by decide)) (by decide) rfl
      (runFrom_value hplain _ _ [])
      (' ' :: "data-fallback".toList ++ '=' :: '"' :: value ++ ['"'])
    have hsecond := (AtAttr.value (d := ⟨false, "time".toList.reverse,
        [("datetime", stamp.map keepable)]⟩)).runFrom_read
      "data-fallback" (by decide) (Text.forall_mem_of_all (by decide)) (by decide) rfl
      (hread _ _ []) []
    exact (hfirst.trans hsecond).trans rfl

theorem exists_runFrom_dateTag {attrs : List Char} (h : DateText attrs) :
    ∃ attrs', SimpleAttrs attrs' ∧
      runFrom (.reading .text) ('<' :: "time".toList ++ attrs ++ ['>'])
        = (.reading .text, [.startTag "time" attrs']) := by
  obtain ⟨attrs', hs, hread⟩ := exists_runFrom_dateText h
  refine ⟨attrs', hs, ?_⟩
  rw [List.append_assoc, runFrom_append, runFrom_startName (by decide)]
  simp only [Step.next, hread]
  rfl

/-! ## Reading formats -/

theorem areFormat_iff {ds : List Dom} : areFormat ds = true ↔ ∀ d ∈ ds, isFormat d = true := by
  induction ds with
  | nil => simp [areFormat]
  | cons d ds ih => simp [areFormat, ih]

theorem forall_isFormat_addChar {done : List Dom} (h : ∀ d ∈ done, isFormat d = true) {x : Char}
    (hx : x ≠ '|') : ∀ d ∈ addChar done x, isFormat d = true := by
  unfold addChar
  split
  next t ds =>
    obtain ⟨ht, hds⟩ := List.forall_mem_cons.mp h
    refine List.forall_mem_cons.mpr ⟨?_, hds⟩
    simp only [isFormat, decide_eq_true_eq] at ht ⊢
    simp [ht, Ne.symm hx]
  · exact List.forall_mem_cons.mpr ⟨by simp [isFormat, Ne.symm hx], h⟩

theorem opensPlainly_of_mem_bareNames {name : String} (hn : name ∈ bareNames) :
    OpensPlainly false name ∧ name ≠ "pre" := by
  simp only [bareNames, List.mem_cons, List.not_mem_nil, or_false] at hn
  unfold OpensPlainly
  rcases hn with rfl | rfl <;> decide

/-- Tokens that build a format behind what is finished. -/
def BuildsFormat (ts : List Token) : Prop :=
  ∀ done, (∀ d ∈ done, isFormat d = true) →
    ∃ done', (∀ d ∈ done', isFormat d = true) ∧ Builds false ts done done'

/-- A format without bars is read as one. -/
theorem FormatText.exists_runFrom {s : List Char} (h : FormatText s) (hb : '|' ∉ s) :
    ∃ ts, runFrom (.reading .text) s = (.reading .text, ts) ∧ BuildsFormat ts := by
  induction h with
  | nil => exact ⟨[], rfl, fun done h => ⟨done, h, .nil done⟩⟩
  | @char c s hc ha _ ih =>
    simp only [List.mem_cons, not_or] at hb
    obtain ⟨ts, hr, hts⟩ := ih hb.2
    by_cases hz : c.toNat = 0
    · refine ⟨.null :: ts, by simp [runFrom, Mode.step, Place.step, textChar, hc, ha, hz, hr],
        fun done h => ?_⟩
      obtain ⟨done', h', hbuilds⟩ := hts done h
      exact ⟨done', h', .null hbuilds⟩
    · refine ⟨.char c :: ts, by simp [runFrom, Mode.step, Place.step, textChar, hc, ha, hz, hr],
        fun done h => ?_⟩
      obtain ⟨done', h', hbuilds⟩ := hts _ (forall_isFormat_addChar h (Ne.symm hb.1))
      exact ⟨done', h', .char hbuilds⟩
  | @entity c s hc _ ih =>
    obtain ⟨ts, hr, hts⟩ := ih fun hm => hb (List.mem_append_right _ hm)
    have hchar : c.toNat ≠ 0 ∧ c ≠ '|' := by
      simp only [List.mem_cons, List.not_mem_nil, or_false] at hc
      rcases hc with rfl | rfl | rfl <;> decide
    refine ⟨.char c :: ts, ?_, fun done h => ?_⟩
    · rw [runFrom_append, runFrom_entity hchar.1, hr]
      rfl
    · obtain ⟨done', h', hbuilds⟩ := hts _ (forall_isFormat_addChar h hchar.2)
      exact ⟨done', h', .char hbuilds⟩
  | @element name content s hn _ _ ihc ih =>
    have hcontent : '|' ∉ content := fun hm => hb (by simp [Markup.enclose, hm])
    obtain ⟨us, hrc, hus⟩ := ihc hcontent
    obtain ⟨ts, hr, hts⟩ := ih fun hm => hb (List.mem_append_right _ hm)
    have hwritten := (Markup.mem_writtenNames_of_mem_bareNames hn).1
    obtain ⟨hopens, hpre⟩ := opensPlainly_of_mem_bareNames hn
    have htag : runFrom (.reading .text) ('<' :: name.toList ++ [] ++ ['>'])
        = (.reading .text, [.startTag name []]) := by simpa using runFrom_plainTag hwritten
    have hread := runFrom_enclose hwritten hrc htag
    refine ⟨.startTag name [] :: us ++ .endTag name :: ts, ?_, fun done h => ?_⟩
    · rw [runFrom_append, hread, hr]
      simp
    · obtain ⟨inner, hinner, hbuilds⟩ := hus [] (List.forall_mem_nil _)
      have helement : isFormat (.element name [] inner.reverse) = true := by
        simp only [isFormat, Bool.and_eq_true, List.contains_iff_mem]
        exact ⟨hn, areFormat_iff.mpr fun d hd => hinner d (List.mem_reverse.mp hd)⟩
      obtain ⟨done', h', hrest⟩ := hts _ (List.forall_mem_cons.mpr ⟨helement, h⟩)
      exact ⟨done', h', .element hopens (fun e => absurd e hpre) hbuilds hrest⟩

/-! ## Tokens -/

/-- Nested tokens of which those of each date build a format. -/
inductive DatedTokens (blocks : Bool) : Bool → List Token → Prop
  | nil {inLink : Bool} : DatedTokens blocks inLink []
  | char {inLink : Bool} {ts : List Token} (x : Char) :
      DatedTokens blocks inLink ts → DatedTokens blocks inLink (.char x :: ts)
  | null {inLink : Bool} {ts : List Token} :
      DatedTokens blocks inLink ts → DatedTokens blocks inLink (.null :: ts)
  | lineBreak {inLink : Bool} {ts : List Token} :
      DatedTokens blocks inLink ts → DatedTokens blocks inLink (.startTag "br" [] :: ts)
  | element {inLink : Bool} {name : String} {attrs : Attrs} {content ts : List Token} :
      ElementTag blocks inLink name attrs → name ≠ "time" →
        DatedTokens blocks (inLink || name == "a") content → DatedTokens blocks inLink ts →
          DatedTokens blocks inLink (.startTag name attrs :: content ++ .endTag name :: ts)
  | date {inLink : Bool} {attrs : Attrs} {content ts : List Token} :
      ElementTag blocks inLink "time" attrs → SimpleAttrs attrs → Nested blocks inLink content →
        BuildsFormat content → DatedTokens blocks inLink ts →
          DatedTokens blocks inLink (.startTag "time" attrs :: content ++ .endTag "time" :: ts)

theorem DatedTokens.nested {inLink : Bool} {ts : List Token} (h : DatedTokens blocks inLink ts) :
    Nested blocks inLink ts := by
  induction h with
  | nil => exact .nil
  | char x _ ih => exact .char x ih
  | null _ ih => exact .null ih
  | lineBreak _ ih => exact .lineBreak ih
  | element he _ _ _ ihc ih => exact .element he ihc ih
  | date he _ hc _ _ ih => exact .element he (by simpa using hc) ih

/-- The tokens of dated text. -/
theorem DatedText.exists_runFrom {inLink : Bool} {s : List Char} (h : DatedText blocks inLink s) :
    ∃ ts, runFrom (.reading .text) s = (.reading .text, ts) ∧ DatedTokens blocks inLink ts := by
  induction h with
  | nil => exact ⟨[], rfl, .nil⟩
  | @char _ c s hc ha _ ih =>
    obtain ⟨ts, hr, hn⟩ := ih
    by_cases hz : c.toNat = 0
    · exact ⟨.null :: ts, by simp [runFrom, Mode.step, Place.step, textChar, hc, ha, hz, hr], .null hn⟩
    · exact ⟨.char c :: ts, by simp [runFrom, Mode.step, Place.step, textChar, hc, ha, hz, hr],
        .char c hn⟩
  | @entity _ c s hc _ ih =>
    obtain ⟨ts, hr, hn⟩ := ih
    have hz : c.toNat ≠ 0 := by
      simp only [List.mem_cons, List.not_mem_nil, or_false] at hc
      rcases hc with rfl | rfl | rfl <;> decide
    refine ⟨.char c :: ts, ?_, .char c hn⟩
    rw [runFrom_append, runFrom_entity hz, hr]
    rfl
  | lineBreak _ ih =>
    obtain ⟨ts, hr, hn⟩ := ih
    have hb : runFrom (.reading .text) Markup.lineBreak = (.reading .text, [.startTag "br" []]) := rfl
    refine ⟨_, ?_, .lineBreak hn⟩
    rw [runFrom_append, hb, hr]
    rfl
  | @element _ name attrs content s ht hd _ _ ihc ih =>
    obtain ⟨us, hrc, hnc⟩ := ihc
    obtain ⟨ts, hr, hn⟩ := ih
    obtain ⟨attrs', he, hread⟩ := exists_runFrom_enclose ht hrc
    refine ⟨_, ?_, .element he hd hnc hn⟩
    rw [runFrom_append, hread, hr]
    simp
  | @date inLink attrs content s hd hf hb _ ih =>
    obtain ⟨ts, hr, hn⟩ := ih
    obtain ⟨us, hrc, hus⟩ := FormatText.exists_runFrom hf hb
    have hbalanced : Markup.Balanced blocks inLink content := hf.balanced
    obtain ⟨us', hrc', hnested⟩ := Balanced.exists_runFrom hbalanced
    obtain rfl : us = us' := (Prod.mk.inj (hrc.symm.trans hrc')).2
    obtain ⟨attrs', hs, htag⟩ := exists_runFrom_dateTag hd
    have hread := runFrom_enclose (by decide) hrc htag
    have he : ElementTag blocks inLink "time" attrs' := by
      obtain ⟨stamp, fallback, rfl, hstamp, -⟩ := hs
      refine ⟨by decide, fun hb => absurd hb (by decide), fun hr => absurd hr (by decide),
        fun e => absurd e (by decide), fun _ stamp' hl => ?_⟩
      obtain rfl : stamp = stamp' := by simpa using hl
      exact ⟨fun hm => absurd (hstamp _ hm) (by decide), fun hm => absurd (hstamp _ hm) (by decide)⟩
    refine ⟨.startTag "time" attrs' :: us ++ .endTag "time" :: ts, ?_, .date he hs hnested hus hn⟩
    rw [runFrom_append, hread, hr]
    simp

/-! ## Elements -/

open Construction (Tidy Follows Settled)

/-- A tag of an element other than a date. -/
def NotDate (name : String) (_ : Attrs) : Prop :=
  name ≠ "time"

theorem covers_hasSimpleDates : Covers NotDate (fun _ => True) (Dom.Every HasSimpleDates) :=
  covers_every (fun _ hp _ e => absurd e hp) fun hp e => absurd e hp

mutual

theorem every_hasSimpleDates_of_isFormat : (d : Dom) → isFormat d = true → d.Every HasSimpleDates
  | .text _, _ => trivial
  | .comment, _ => trivial
  | .element name attrs children, h => by
    simp only [isFormat, Bool.and_eq_true, List.contains_iff_mem] at h
    refine ⟨fun e => ?_, everyOf_hasSimpleDates_of_areFormat children h.2⟩
    exact absurd e (Markup.mem_writtenNames_of_mem_bareNames h.1).2.2.2

/-- A format holds no dates. -/
theorem everyOf_hasSimpleDates_of_areFormat :
    (ds : List Dom) → areFormat ds = true → Dom.EveryOf HasSimpleDates ds
  | [], _ => trivial
  | d :: ds, h => by
    simp only [areFormat, Bool.and_eq_true] at h
    exact ⟨every_hasSimpleDates_of_isFormat d h.1, everyOf_hasSimpleDates_of_areFormat ds h.2⟩

end

theorem SimpleAttrs.simpleDate {attrs : Attrs} (h : SimpleAttrs attrs) {children : List Dom}
    (hc : areFormat children = true) : SimpleDate attrs children := by
  obtain ⟨stamp, fallback, rfl, hstamp, hfallback⟩ := h
  refine ⟨fun s hl => ?_, fun s hl => ?_, hc⟩
  · obtain rfl : stamp = s := by simpa using hl
    exact hstamp
  · obtain rfl : fallback = s := by simpa [List.lookup_cons] using hl
    exact hfallback

/-- A construction that nested tokens may go on from. -/
structure Ready (inLink : Bool) (c : Construction) : Prop where
  tidy : c.Tidy
  phase : c.phase ≠ .behind
  link : inLink = false → ages "a" c.active = []

namespace Ready

variable {inLink : Bool} {c c' : Construction}

theorem start : Ready false .start :=
  ⟨Construction.tidy_start, by decide, fun _ => rfl⟩

theorem follows (h : Ready inLink c) (hf : c'.Tidy ∧ Follows c c') : Ready inLink c' :=
  ⟨hf.1, hf.2.ne_behind h.phase, fun hl => hf.2.ages_link (h.link hl)⟩

theorem foldl_token (h : Ready inLink c) {ts : List Token} (hts : Nested blocks inLink ts) :
    Ready inLink (ts.foldl Construction.token c) :=
  h.follows (hts.follows h.tidy h.phase h.link)

/-- Behind the start tag of an element its content may follow. -/
theorem startTag (h : Ready inLink c) {name : String} {attrs : Attrs}
    (he : ElementTag blocks inLink name attrs) :
    Ready (inLink || name == "a") (c.token (.startTag name attrs)) := by
  have hcases := he.startTag_cases h.phase h.link
  have hentered : Ready inLink c.entered :=
    h.follows ⟨h.tidy.mode .within false, Construction.follows_entered c⟩
  have hwithin : c.entered.phase = .within := rfl
  generalize c.entered = e at hcases hentered hwithin
  obtain ⟨hresumed, hshown, hresume⟩ := hentered.tidy.resumeStyles
  have hphase : e.resumeStyles.phase ≠ .behind := hresume.ne_behind hentered.phase
  rcases hcases with ⟨hr, hstart⟩ | ⟨ho, hstart⟩ | ⟨hr, hne, hstart⟩
  · have hb := hentered.tidy.startTag_block hr attrs
    rw [hstart]
    refine ⟨hb.tidy, hb.phase ▸ hentered.phase, fun hl => ?_⟩
    rw [hb.active]
    exact hentered.link (Bool.or_eq_false_iff.mp hl).1
  · have hod := ho.resumed hentered.tidy
    rw [hstart]
    refine ⟨hod.tidy hresumed hshown, hphase, fun hl => ?_⟩
    rw [Bool.or_eq_false_iff, beq_eq_false_iff_ne] at hl
    rw [hod.ages_link hresumed hl.2]
    exact hresume.ages_link (hentered.link hl.1)
  · rw [hstart]
    refine ⟨hresumed.openElement hne attrs, hphase, fun hl => ?_⟩
    exact hresume.ages_link (hentered.link (Bool.or_eq_false_iff.mp hl).1)

/-- Once the styles in force are shown again, what text is read builds goes where it stands. -/
theorem settled (h : Ready inLink c) : (c.entered.resumeStyles).Settled false := by
  obtain ⟨ht, hshown, hf⟩ := (h.tidy.mode .within false).resumeStyles
  have hskips : c.entered.resumeStyles.skipsNewline = false := by
    obtain ⟨fs, active, nextId, -, he⟩ := Construction.exists_resumeStyles c.entered
    rw [he]
    rfl
  exact ⟨hf.within rfl, hskips, hshown, ht.linked.active, fun hb => absurd hb Bool.false_ne_true⟩

end Ready

/-- A tag that is no date leaves every date simple. -/
theorem Construction.Sound.token_of_brings {c : Construction}
    (h : c.Sound NotDate (Dom.Every HasSimpleDates)) {t : Token}
    (ht : Construction.Brings NotDate t) : (c.token t).Sound NotDate (Dom.Every HasSimpleDates) :=
  (Construction.reaches_token c ht).preserves
    (fun _ _ => Construction.Sound.move covers_hasSimpleDates) h

/-- A date whose tokens build a format is simple. -/
theorem Construction.Sound.date {inLink : Bool} {c : Construction}
    (h : c.Sound NotDate (Dom.Every HasSimpleDates)) (hc : Ready inLink c) {attrs : Attrs}
    {content : List Token} (hs : SimpleAttrs attrs) (hbuilds : BuildsFormat content) :
    ((content.foldl Construction.token (c.token (.startTag "time" attrs))).token
      (.endTag "time")).Sound NotDate (Dom.Every HasSimpleDates) := by
  have hrole : roleOf "time" = .ordinary := by decide
  have hsettled := hc.settled
  have hentered : c.entered.Sound NotDate (Dom.Every HasSimpleDates) := ⟨h.spine, h.active⟩
  have hsound := (Construction.reaches_resumeStyles (P := NotDate) c.entered).preserves
    (fun _ _ => Construction.Sound.move covers_hasSimpleDates) hentered
  have hstart : c.token (.startTag "time" attrs)
      = c.entered.resumeStyles.startTag "time" attrs := by
    rw [Construction.token_startTag hc.phase (by decide)]
    simp only [Construction.startTag, hrole, hsettled.shown.resumeStyles_eq]
  rw [hstart]
  generalize c.entered.resumeStyles = e at hsettled hsound
  obtain ⟨inner, hinner, hbuilt⟩ := hbuilds [] (List.forall_mem_nil _)
  have hopened : (e.openElement "time" attrs).Settled false :=
    hsettled.openElement (by decide) attrs
  have hgrows := hbuilt.foldl_token hopened rfl
  obtain ⟨active, n, hsub, -, hdone⟩ := hsettled.ordinary hrole hgrows
  rw [hdone]
  have hformat : areFormat inner.reverse = true :=
    areFormat_iff.mpr fun d hd => hinner d (List.mem_reverse.mp hd)
  have hdate : (Dom.element "time" attrs inner.reverse).Every HasSimpleDates :=
    ⟨fun _ => hs.simpleDate hformat, everyOf_hasSimpleDates_of_areFormat _ hformat⟩
  exact ⟨hsound.spine.withHere (List.forall_mem_cons.mpr ⟨hdate, hsound.spine.here⟩),
    fun a ha => hsound.active a (hsub.subset ha)⟩

/-- Dated tokens make simple dates. -/
theorem DatedTokens.sound {inLink : Bool} {ts : List Token} (h : DatedTokens blocks inLink ts)
    {c : Construction} (hc : Ready inLink c) (hs : c.Sound NotDate (Dom.Every HasSimpleDates)) :
    (ts.foldl Construction.token c).Sound NotDate (Dom.Every HasSimpleDates) := by
  induction h generalizing c with
  | nil => exact hs
  | char x _ ih =>
    exact ih (hc.foldl_token (.char x (.nil : Nested blocks _ _))) (hs.token_of_brings trivial)
  | null _ ih =>
    exact ih (hc.foldl_token (.null (.nil : Nested blocks _ _))) (hs.token_of_brings trivial)
  | lineBreak _ ih =>
    exact ih (hc.foldl_token (.lineBreak (.nil : Nested blocks _ _)))
      (hs.token_of_brings (t := .startTag "br" []) (by decide : "br" ≠ "time"))
  | @element inLink name attrs content ts he hd hcontent _ ihc ih =>
    have hready := hc.foldl_token (.element he hcontent.nested .nil)
    have hopened := hs.token_of_brings (t := .startTag name attrs) hd
    have hclosed := (ihc (hc.startTag he) hopened).token_of_brings (t := .endTag name) hd
    rw [List.cons_append, List.foldl_cons, List.foldl_append, List.foldl_cons] at hready ⊢
    exact ih hready hclosed
  | @date inLink attrs content ts he hattrs hnested hbuilds _ ih =>
    have hready := hc.foldl_token (.element he (by simpa using hnested) .nil)
    have hdate := hs.date hc hattrs hbuilds
    rw [List.cons_append, List.foldl_cons, List.foldl_append, List.foldl_cons] at hready ⊢
    exact ih hready hdate

/-- Every date of the document of dated text is simple. -/
theorem everyOf_hasSimpleDates_parse {html : List Char} (h : DatedText true false html) :
    Dom.EveryOf HasSimpleDates (parse html) := by
  obtain ⟨ts, hr, hts⟩ := DatedText.exists_runFrom (h.dropMark.alike (alike_unifyLineEnds _))
  have hsound := hts.sound Ready.start Construction.sound_start
  rw [parse, tokens_eq_of_runFrom hr]
  exact Dom.everyOf_iff.mpr (hsound.spine.toDoms covers_hasSimpleDates)

end Html

/-! ## Both stages -/

open Mrkdwn (HoldsDate)

/-- Where no element of a date ends a line, nor the text that it falls back on, every date of the
mrkdwn has one bar and no bracket, on one line. -/
theorem renderMrkdwn_dates (options : FormatOptions) {content : Content}
    (hinline : childrenAreInline true content.normalize = true)
    (hsimple : childrenDatesAreSimple content.normalize = true) :
    (∃ text, renderMrkdwn options content = .error (.invalidDatetime text)) ∨
      ∃ out, renderMrkdwn options content = .ok out ∧
        ∀ w, HoldsDate out.toList w → w.count '|' = 1 ∧ '<' ∉ w ∧ '\n' ∉ w := by
  rcases exists_renderFragment (Render.writes_dated_renderText rfl _ hinline hsimple) with
    ⟨text, -, hfail⟩ | ⟨html, out, -, hout, he, hdated⟩
  · exact .inl ⟨text, hfail⟩
  · refine .inr ⟨out, hout, fun w hw => ?_⟩
    rw [he] at hw
    exact Mrkdwn.oneBar_of_holdsDate options (Html.everyOf_hasSimpleDates_parse hdated) hw

/-- Strong text with a date whose strings hold bars. -/
theorem renderMrkdwn_dates_bars :
    let date : Child := .node ⟨.tag "time",
      ⟨[("datetime", .json (.str "2019-03-10")), ("fallback", .json (.str "x|y"))]⟩,
      [.text "a|", .node ⟨.tag "small", ⟨[]⟩, [.text "b"], none⟩], none⟩
    let content : Content := .ofChild (.node ⟨.tag "b", ⟨[]⟩, [date], none⟩)
    childrenAreInline true content.normalize = true ∧
      childrenDatesAreSimple content.normalize = true ∧
        ∃ out, renderMrkdwn {} content = .ok out ∧
          HoldsDate out.toList "1552176000^a\u01c0b|x\u01c0y".toList ∧
            ∀ w, HoldsDate out.toList w → w.count '|' = 1 ∧ '<' ∉ w ∧ '\n' ∉ w := by
  intro date content
  have hinline : childrenAreInline true content.normalize = true := by decide
  have hsimple : childrenDatesAreSimple content.normalize = true := by decide
  have hok : renderMrkdwn {} content
      = .ok "*<!date^1552176000^a\u01c0b|x\u01c0y>*" :=
    eq_ok_of_toOption (by decide +kernel)
  refine ⟨hinline, hsimple, _, hok, ⟨?_, ['*'], ['*'], by decide⟩, ?_⟩
  · exact Text.Matched.of_brackets_eq (t := []) (by decide) .nil
  · rcases renderMrkdwn_dates {} hinline hsimple with ⟨text, hfail⟩ | ⟨out, hout, hdates⟩
    · rw [hok] at hfail
      cases hfail
    · obtain rfl := Except.ok.inj (hok.symm.trans hout)
      exact hdates

/-- A line break in a date, and a date in a date. -/
theorem renderMrkdwn_date_broken :
    let date (fallback : String) (children : List Child) : Child := .node ⟨.tag "time",
      ⟨[("datetime", .json (.str "2019-03-10")), ("fallback", .json (.str fallback))]⟩, children, none⟩
    renderMrkdwn {} (.ofChild (date "x" [.text "a", .node ⟨.tag "br", ⟨[]⟩, [], none⟩, .text "b"]))
        = .ok "<!date^1552176000^a\nb|x>" ∧
      HoldsDate "<!date^1552176000^a\nb|x>".toList "1552176000^a\nb|x".toList ∧
        renderMrkdwn {} (.ofChild (date "x" [date "y" [.text "b"]]))
          = .ok "<!date^1552176000^<!date^1552176000^b|y>|x>" := by
  refine ⟨eq_ok_of_toOption (by decide +kernel), ⟨?_, [], [], by decide⟩,
    eq_ok_of_toOption (by decide +kernel)⟩
  exact Text.Matched.of_brackets_eq (t := []) (by decide) .nil

end MessageLayout
