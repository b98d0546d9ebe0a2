import MessageLayout.Proofs.NestedTokens
import MessageLayout.Proofs.SpareLetters

/-!
# Letters that a fragment lacks

The reader of a fragment takes every character from it, save for those that references stand for. A
reference by name stands for no letter, and stage one writes none by number, so a letter that the
fragment lacks is not in the document either.

    Lacks x s → Alike s t → Lacks x t                                      (Lacks.alike)
    Lacks x s → the tokens of s lack x                                     (Lacks.tokens)
    IsSpare x → Lacks x html → x ∉ ofHtml options html                     (not_mem_ofHtml)
-/

namespace MessageLayout

namespace Html

open Markup (Alike lookalikes)
open Mrkdwn (AttrsLack)

variable {x c : Char} {s t : List Char}

/-! ## Fragments -/

/-- A text without the letter, also as a reference by number: behind each `&` is a small letter. -/
def Lacks (x : Char) : List Char → Prop
  | [] => True
  | c :: s => c ≠ x ∧ (c = '&' → ∃ d t, s = d :: t ∧ d.isLower = true) ∧ Lacks x s

namespace Lacks

theorem append (h : Lacks x s) (h' : Lacks x t) : Lacks x (s ++ t) := by
  induction s with
  | nil => exact h'
  | cons c s ih =>
    obtain ⟨hc, hamp, hs⟩ := h
    refine ⟨hc, fun e => ?_, ih hs⟩
    obtain ⟨d, s', rfl, hd⟩ := hamp e
    exact ⟨d, s' ++ t, rfl, hd⟩

theorem of_forall (hs : ∀ c ∈ s, c ≠ x ∧ c ≠ '&') : Lacks x s := by
  induction s with
  | nil => trivial
  | cons c s ih =>
    obtain ⟨hc, hs⟩ := List.forall_mem_cons.mp hs
    exact ⟨hc.1, fun e => absurd e hc.2, ih hs⟩

/-- What a harmless change makes of a text lacks a spare letter that the text lacks. -/
theorem alike (hx : IsSpare x) (h : Lacks x s) (ha : Alike s t) : Lacks x t := by
  have hlook : ∀ {c d}, (c, d) ∈ lookalikes → d ≠ x ∧ d ≠ '&' := fun hd => by
    have hall : ∀ p ∈ lookalikes, p.2 ∉ spareLetters ∧ p.2 ≠ '&' := by decide
    exact ⟨fun e => (hall _ hd).1 (e ▸ hx), (hall _ hd).2⟩
  induction ha with
  | nil => exact h
  | @char c s t ha ih =>
    refine ⟨h.1, fun e => ?_, ih h.2.2⟩
    obtain ⟨d, s', rfl, hd⟩ := h.2.1 e
    have hfirm : Markup.Firm d := fun hm => by
      have hall : ∀ d ∈ "*_~\x60|\r\n&".toList, d.isLower = false :=
        Text.forall_mem_of_all (by decide)
      rw [hall d hm] at hd
      cases hd
    obtain ⟨t', rfl, -⟩ := ha.exists_cons hfirm
    exact ⟨d, t', rfl, hd⟩
  | swap hd _ ih => exact ⟨(hlook hd).1, fun e => absurd e (hlook hd).2, ih h.2.2⟩
  | lineEnd _ ih =>
    exact ⟨(hx.ne (by decide)).symm, fun e => absurd e (by decide), ih h.2.2.2.2⟩
  | hyphen _ ih => exact ⟨(hx.ne (by decide)).symm, fun e => absurd e (by decide), ih h⟩

theorem dropMark (h : Lacks x s) : Lacks x (Html.dropMark s) := by
  unfold Html.dropMark
  split
  · exact h.2.2
  · exact h

end Lacks

/-! ## Tokens -/

/-- A token without the letter in text or in the value of an attribute. -/
def Token.Lacks (x : Char) : Token → Prop :=
  Construction.BringsOf (fun name attrs => AttrsLack x name attrs []) (· ≠ x)

def Draft.Lacks (x : Char) (d : Draft) : Prop :=
  ∀ a ∈ d.attrs, x ∉ a.2

def Place.Lacks (x : Char) : Place → Prop
  | .text => True
  | .value d _ _ v => d.Lacks x ∧ x ∉ v

/-- A mode that has read no such letter, and no reference by number. -/
def Mode.Lacks (x : Char) : Mode → Prop
  | .reading place => place.Lacks x
  | .reference place seen => place.Lacks x ∧ x ∉ seen ∧ seen.reverse.head? ≠ some '#'
  | .tagName d | .beforeName d | .attrName d _ | .afterName d _ | .beforeValue d _
  | .afterValue d | .selfClosing d => d.Lacks x
  | .tagOpen | .endTagOpen | .declaration _ | .doctype | .comment _ | .bogus => True

/-- Whether a reference has just begun. -/
def Mode.isFresh : Mode → Bool
  | .reference _ [] => true
  | _ => false

/-- A step on the character `c` that brings in no such letter. -/
structure Step.Lacks (x c : Char) (r : Step) : Prop where
  mode : r.1.Lacks x
  fresh : r.1.isFresh = true → c = '&'
  tokens : ∀ t ∈ r.2, t.Lacks x

theorem Draft.Lacks.withAttr {d : Draft} (h : d.Lacks x) (name : List Char) {value : List Char}
    (hv : x ∉ value) : (d.withAttr name value).Lacks x := by
  simp only [Draft.withAttr]
  split
  · exact h
  · intro a ha
    rcases List.mem_append.mp ha with ha | ha
    · exact h a ha
    · rw [List.mem_singleton.mp ha]
      simpa using hv

namespace Step.Lacks

theorem of_settled {r : Step} (hm : r.1.Lacks x) (hf : r.1.isFresh = false)
    (ht : ∀ t ∈ r.2, t.Lacks x) : Step.Lacks x c r :=
  ⟨hm, fun h => absurd (hf.symm.trans h) Bool.false_ne_true, ht⟩

theorem after {r : Step} (h : Step.Lacks x c r) {ts : List Token} (ht : ∀ t ∈ ts, t.Lacks x) :
    Step.Lacks x c (r.1, ts ++ r.2) :=
  ⟨h.mode, h.fresh, List.forall_mem_append.mpr ⟨ht, h.tokens⟩⟩

theorem next {m : Mode} (hm : m.Lacks x) (hf : m.isFresh = false) : Step.Lacks x c (.next m) :=
  of_settled hm hf (List.forall_mem_nil _)

theorem reference {p : Place} (hp : p.Lacks x) (hamp : c = '&') :
    Step.Lacks x c (.next (.reference p [])) :=
  ⟨⟨hp, List.not_mem_nil, by simp⟩, fun _ => hamp, List.forall_mem_nil _⟩

theorem comment : Step.Lacks x c .comment :=
  of_settled trivial rfl (List.forall_mem_singleton.mpr trivial)

theorem tag {d : Draft} (hd : d.Lacks x) : Step.Lacks x c (.tag d) := by
  refine of_settled trivial rfl (List.forall_mem_singleton.mpr ?_)
  simp only [Draft.token]
  split
  · exact List.forall_mem_nil _
  · exact hd

theorem textChar (hc : c ≠ x) : Step.Lacks x c (textChar c) := by
  simp only [Html.textChar]
  split
  · exact next trivial rfl
  · split
    next hamp => exact reference trivial hamp
    · split
      · exact of_settled trivial rfl (List.forall_mem_singleton.mpr trivial)
      · exact of_settled trivial rfl (List.forall_mem_singleton.mpr hc)

theorem betweenAttrs {d : Draft} (hd : d.Lacks x) : Step.Lacks x c (betweenAttrs d c) := by
  simp only [Html.betweenAttrs]
  split
  · exact next hd rfl
  · split
    · exact next hd rfl
    · split
      · exact tag hd
      · exact next hd rfl

theorem valueChar (hx : IsSpare x) (hc : c ≠ x) {d : Draft} (hd : d.Lacks x) (name : List Char)
    (quote : Option Char) {value : List Char} (hv : x ∉ value) :
    Step.Lacks x c (valueChar d name quote value c) := by
  have hkept : x ∉ keepable c :: value := by
    refine List.not_mem_cons_of_ne_of_not_mem ?_ hv
    unfold keepable
    split
    · exact hx.ne (by decide)
    · exact hc.symm
  simp only [Html.valueChar]
  split
  next hamp => exact reference ⟨hd, hv⟩ hamp
  · split
    · split
      · exact next (hd.withAttr name hv) rfl
      · exact next ⟨hd, hkept⟩ rfl
    · split
      · exact next (hd.withAttr name hv) rfl
      · split
        · exact tag (hd.withAttr name hv)
        · exact next ⟨hd, hkept⟩ rfl

theorem place (hx : IsSpare x) (hc : c ≠ x) {p : Place} (hp : p.Lacks x) :
    Step.Lacks x c (p.step c) := by
  cases p with
  | text => exact textChar hc
  | value d name quote value => exact valueChar hx hc hp.1 name quote hp.2

theorem commentEnd (towards : CommentEnd) : Step.Lacks x c (towards.step c) := by
  have hnext : ∀ towards, Step.Lacks x c (.next (.comment towards)) := fun _ => next trivial rfl
  cases towards <;> simp only [CommentEnd.step] <;>
    repeat' first
      | exact hnext _
      | exact comment
      | split

theorem declarationChar (seen : List Char) : Step.Lacks x c (declarationChar seen c) := by
  simp only [Html.declarationChar]
  split
  · exact next trivial rfl
  · split
    · exact next trivial rfl
    · split
      · exact next trivial rfl
      · split
        · exact comment
        · exact next trivial rfl

end Step.Lacks

/-! ### References -/

/-- A reference by name brings in no spare letter. -/
theorem Reference.not_mem_read (hx : IsSpare x) {seen : List Char} (hs : x ∉ seen)
    (hname : seen.head? ≠ some '#') (inAttribute : Bool) (next : Option Char) :
    x ∉ (Reference.read inAttribute seen next).chars := by
  have hall : ∀ p ∈ Reference.names, p.2 ∉ spareLetters := by decide
  have hnames : ∀ {name c}, (name, c) ∈ Reference.names → x ≠ c := fun hm e => hall _ hm (e ▸ hx)
  have hliteral : x ∉ '&' :: seen :=
    List.not_mem_cons_of_ne_of_not_mem (hx.ne (by decide)) hs
  have hloose : x ∉ (Reference.read.loose inAttribute seen next ⟨'&' :: seen, false, false⟩).chars := by
    simp only [Reference.read.loose]
    split
    · exact hliteral
    next c rest hc =>
      split
      · exact hliteral
      · obtain ⟨⟨name, d⟩, hm, hd⟩ := List.exists_of_findSome?_eq_some hc
        obtain ⟨rest', hprefix, hd⟩ := Option.map_eq_some_iff.mp hd
        obtain ⟨rfl, rfl⟩ := Prod.mk.inj hd
        refine List.not_mem_cons_of_ne_of_not_mem (hnames (List.mem_cons_of_mem _ hm)) fun hr => hs ?_
        rw [← List.isPrefixOf?_eq_some_iff_append_eq.mp hprefix]
        exact List.mem_append_right _ hr
  unfold Reference.read
  split
  · exact absurd rfl hname
  · split
    next c hc =>
      split
      · obtain ⟨before, after, hm, -⟩ := List.lookup_eq_some_iff.mp hc
        have hmem : (seen, c) ∈ Reference.names := by
          rw [hm]
          simp
        exact fun h => hnames hmem (List.mem_singleton.mp h)
      · exact hloose
    · exact hloose

theorem Place.Lacks.putReading {p : Place} (hp : p.Lacks x) {r : Reference.Reading}
    (hr : x ∉ r.chars) : ∃ p' : Place, (p.putReading r).1 = .reading p' ∧ p'.Lacks x ∧
      ∀ t ∈ (p.putReading r).2, t.Lacks x := by
  cases p with
  | text =>
    have hchars : ∀ t ∈ r.chars.map Token.char, t.Lacks x := by
      intro t ht
      obtain ⟨c, hc, rfl⟩ := List.mem_map.mp ht
      exact fun e : c = x => hr (e ▸ hc)
    refine ⟨.text, rfl, trivial, ?_⟩
    simp only [Place.putReading, Place.put]
    split
    · exact List.forall_mem_cons.mpr ⟨trivial, hchars⟩
    · exact hchars
  | value d name quote v =>
    refine ⟨.value d name quote (r.chars.reverse ++ v), rfl, ⟨hp.1, ?_⟩, ?_⟩
    · exact List.not_mem_append (fun hm => hr (List.mem_reverse.mp hm)) hp.2
    · simp [Place.putReading, Place.put, Place.isValue, Step.next]

/-! ### Runs -/

/-- What is read on in a reference, and what it stands for once it ends. -/
theorem Mode.Lacks.step_reference (hx : IsSpare x) (hc : c ≠ x) {p : Place} {seen : List Char}
    (hm : (Mode.reference p seen).Lacks x) (hnumber : seen = [] → c ≠ '#') :
    Step.Lacks x c ((Mode.reference p seen).step c) := by
  obtain ⟨hp, hs, hname⟩ := hm
  simp only [Mode.step]
  split
  · refine .next ⟨hp, List.not_mem_cons_of_ne_of_not_mem hc.symm hs, ?_⟩ rfl
    cases seen with
    | nil => simpa using hnumber rfl
    | cons d seen => simpa [List.head?_append] using hname
  · have hr : x ∉ (Reference.read p.isValue seen.reverse (some c)).chars :=
      Reference.not_mem_read hx (fun h => hs (List.mem_reverse.mp h)) hname _ _
    obtain ⟨p', hp', hlacks, htokens⟩ := hp.putReading hr
    have hstep : Step.Lacks x c (p'.step c) := .place hx hc hlacks
    rw [hp']
    split
    · exact .of_settled hlacks rfl htokens
    · exact hstep.after htokens

/-- A character other than the letter brings in no such letter, if it starts no number. -/
theorem Mode.Lacks.step (hx : IsSpare x) (hc : c ≠ x) {m : Mode} (hm : m.Lacks x)
    (hf : m.isFresh = true → c ≠ '#') : Step.Lacks x c (m.step c) := by
  have hempty : x ∉ ([] : List Char) := List.not_mem_nil
  cases m with
  | reading p => exact .place hx hc hm
  | reference p seen =>
    refine step_reference hx hc hm fun e => hf ?_
    rw [e]
    rfl
  | tagOpen =>
    have htext := Step.Lacks.textChar (x := x) hc
    have hopen : Token.Lacks x (.char '<') := (hx.ne (by decide)).symm
    simp only [Mode.step]
    split
    · exact .next (List.forall_mem_nil _) rfl
    · split
      · exact .next trivial rfl
      · split
        · exact .next trivial rfl
        · split
          · exact .next trivial rfl
          · exact htext.after (List.forall_mem_singleton.mpr hopen)
  | endTagOpen =>
    simp only [Mode.step]
    split
    · exact .next (List.forall_mem_nil _) rfl
    · split
      · exact .of_settled trivial rfl (List.forall_mem_singleton.mpr trivial)
      · exact .next trivial rfl
  | tagName d =>
    simp only [Mode.step]
    split
    · exact .next hm rfl
    · split
      · exact .next hm rfl
      · split
        · exact .tag hm
        · exact .next hm rfl
  | beforeName d => exact .betweenAttrs hm
  | attrName d name =>
    simp only [Mode.step]
    split
    · exact .next hm rfl
    · split
      · exact .next (hm.withAttr name hempty) rfl
      · split
        · exact .next hm rfl
        · split
          · exact .tag (hm.withAttr name hempty)
          · exact .next hm rfl
  | afterName d name =>
    simp only [Mode.step]
    split
    · exact .next hm rfl
    · split
      · exact .next hm rfl
      · exact .betweenAttrs (hm.withAttr name hempty)
  | beforeValue d name =>
    simp only [Mode.step]
    split
    · exact .next hm rfl
    · split
      · exact .next ⟨hm, hempty⟩ rfl
      · split
        · exact .tag (hm.withAttr name hempty)
        · exact .valueChar hx hc hm name none hempty
  | afterValue d => exact .betweenAttrs hm
  | selfClosing d =>
    simp only [Mode.step]
    split
    · exact .tag hm
    · exact .betweenAttrs hm
  | declaration seen => exact .declarationChar seen
  | doctype =>
    simp only [Mode.step]
    split
    · exact .of_settled trivial rfl (List.forall_mem_singleton.mpr trivial)
    · exact .next trivial rfl
  | comment towards => exact .commentEnd towards
  | bogus =>
    simp only [Mode.step]
    split
    · exact .comment
    · exact .next trivial rfl

theorem Mode.Lacks.finish (hx : IsSpare x) {m : Mode} (hm : m.Lacks x) :
    ∀ t ∈ m.finish, t.Lacks x := by
  have hopen : Token.Lacks x (.char '<') := (hx.ne (by decide)).symm
  have hslash : Token.Lacks x (.char '/') := (hx.ne (by decide)).symm
  unfold Mode.finish
  split
  next seen =>
    have hr : x ∉ (Reference.read false seen.reverse none).chars :=
      Reference.not_mem_read hx (fun h => hm.2.1 (List.mem_reverse.mp h)) hm.2.2 _ _
    obtain ⟨-, -, -, htokens⟩ := hm.1.putReading hr
    exact htokens
  · exact List.forall_mem_singleton.mpr hopen
  · exact List.forall_mem_cons.mpr ⟨hopen, List.forall_mem_singleton.mpr hslash⟩
  · exact List.forall_mem_singleton.mpr trivial
  · exact List.forall_mem_singleton.mpr trivial
  · exact List.forall_mem_singleton.mpr trivial
  · exact List.forall_mem_singleton.mpr trivial
  · exact List.forall_mem_nil _

/-- The tokens of a text lack a spare letter that the text lacks. -/
theorem Lacks.tokensFrom (hx : IsSpare x) (h : Lacks x s) {m : Mode} (hm : m.Lacks x)
    (hf : m.isFresh = true → ∃ d t, s = d :: t ∧ d.isLower = true) :
    ∀ t ∈ tokensFrom m s, t.Lacks x := by
  induction s generalizing m with
  | nil => exact hm.finish hx
  | cons c s ih =>
    obtain ⟨hc, hamp, hs⟩ := h
    have hstep := hm.step hx hc fun hfresh => by
      obtain ⟨d, t, he, hd⟩ := hf hfresh
      obtain ⟨rfl, -⟩ := List.cons.inj he
      rintro rfl
      exact absurd hd (by decide)
    intro t ht
    rcases List.mem_append.mp ht with ht | ht
    · exact hstep.tokens t ht
    · exact ih hs hstep.mode (fun hfresh => hamp (hstep.fresh hfresh)) t ht

/-! ## The tree of a fragment -/

theorem Lacks.tokens (hx : IsSpare x) (h : Lacks x s) : ∀ t ∈ tokens s, t.Lacks x :=
  (h.dropMark.alike hx (alike_unifyLineEnds _)).tokensFrom hx trivial fun hf => absurd hf Bool.false_ne_true

/-- Nodes without the letter are built of tags and characters without it. -/
theorem covers_lacking (x : Char) :
    Covers (fun name attrs => AttrsLack x name attrs []) (· ≠ x)
      (fun d => d.Every (AttrsLack x) ∧ x ∉ d.textContent) where
  comment := ⟨trivial, List.not_mem_nil⟩
  char hc := ⟨trivial, fun hm => hc (List.mem_singleton.mp hm).symm⟩
  concat h hc := ⟨trivial, fun hm =>
    (List.mem_append.mp hm).elim h.2 fun hm => hc (List.mem_singleton.mp hm).symm⟩
  element {_ _ children} _ hp hc := by
    refine ⟨⟨hp, Dom.everyOf_iff.mpr fun d hd => (hc d hd).1⟩, ?_⟩
    rw [Dom.textContent_element]
    intro hm
    obtain ⟨d, hd, hm⟩ := Dom.mem_textOf.mp hm
    exact (hc d hd).2 hm
  leaf hp := ⟨⟨hp, trivial⟩, List.not_mem_nil⟩

end Html

/-- A spare letter is in the mrkdwn of a fragment only if the fragment holds it, or a reference by
number. -/
theorem Mrkdwn.not_mem_ofHtml {x : Char} (hx : IsSpare x) (options : FormatOptions)
    {html : List Char} (h : Html.Lacks x html) : x ∉ Mrkdwn.ofHtml options html := by
  have hnodes := Html.forall_mem_parse (Html.covers_lacking x) (h.tokens hx)
  refine not_mem_ofDoms hx options (fun hm => ?_)
    (Html.Dom.everyOf_iff.mpr fun d hd => (hnodes d hd).1)
  obtain ⟨d, hd, hm⟩ := Html.Dom.mem_textOf.mp hm
  exact (hnodes d hd).2 hm

end MessageLayout
