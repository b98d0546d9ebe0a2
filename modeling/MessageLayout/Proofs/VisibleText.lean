import MessageLayout.Proofs.NestedTokens

/-!
# Visible content of links

The content of a link shows something of its own if a line break or a character that is no blank is
in it, in whatever elements save a code block. The guards leave it so, and so does the reader of the
text.

    Visible s → Alike s t → Visible t                                    (Visible.alike)
    Visible s → the tokens of s show something                           (Visible.exists_runFrom)
-/

namespace MessageLayout

namespace Markup

/-- The content of a link with something in it that is no blank, in no code block. -/
inductive Visible : List Char → Prop
  | char {c : Char} {s t : List Char} :
      Text.isBlank c = false → c.toNat ≠ 0 → Balanced true true s → Balanced true true t →
        Visible (s ++ (Text.entity c ++ t))
  | lineBreak {s t : List Char} :
      Balanced true true s → Balanced true true t → Visible (s ++ (Markup.lineBreak ++ t))
  | element {name : String} {attrs content s t : List Char} :
      TagText true true name attrs → name ≠ "pre" → Visible content → Balanced true true s →
        Balanced true true t → Visible (s ++ (enclose name attrs content ++ t))

namespace Visible

variable {s t : List Char}

theorem balanced_append (hs : Balanced true true s) (h : Visible t) : Visible (s ++ t) := by
  cases h with
  | char hc hz hu ht =>
    rw [← List.append_assoc]
    exact char hc hz (hs.append hu) ht
  | lineBreak hu ht =>
    rw [← List.append_assoc]
    exact lineBreak (hs.append hu) ht
  | element htag hn hc hu ht =>
    rw [← List.append_assoc]
    exact element htag hn hc (hs.append hu) ht

theorem append_balanced (h : Visible s) (ht : Balanced true true t) : Visible (s ++ t) := by
  cases h with
  | char hc hz hu hs =>
    rw [List.append_assoc, List.append_assoc]
    exact char hc hz hu (hs.append ht)
  | lineBreak hu hs =>
    rw [List.append_assoc, List.append_assoc]
    exact lineBreak hu (hs.append ht)
  | element htag hn hc hu hs =>
    rw [List.append_assoc, List.append_assoc]
    exact element htag hn hc hu (hs.append ht)

theorem enclosed {name : String} {attrs : List Char} (ht : TagText true true name attrs)
    (hn : name ≠ "pre") (h : Visible s) : Visible (Markup.enclose name attrs s) := by
  have he : Visible ([] ++ (Markup.enclose name attrs s ++ [])) := element ht hn h .nil .nil
  simpa using he

/-- Escaped text with a character that is no blank. -/
theorem of_escapeEntity {c : Char} (hc : c ∈ s) (hb : Text.isBlank c = false) (hz : c.toNat ≠ 0) :
    Visible (Text.escapeEntity s) := by
  obtain ⟨u, t, rfl⟩ := List.append_of_mem hc
  rw [Text.escapeEntity_append, Text.escapeEntity_cons]
  exact char hb hz (.of_escapeEntity u) (.of_escapeEntity t)

theorem of_mem_lookalikes {c d : Char} (h : (c, d) ∈ lookalikes) (hc : Text.isBlank c = false) :
    Text.isBlank d = false ∧ d.toNat ≠ 0 ∧ Text.entity d = [d] := by
  simp only [lookalikes, List.mem_cons, Prod.mk.injEq, List.not_mem_nil, or_false] at h
  rcases h with ⟨rfl, rfl⟩ | ⟨rfl, rfl⟩ | ⟨rfl, rfl⟩ | ⟨rfl, rfl⟩ | ⟨rfl, rfl⟩ | ⟨rfl, rfl⟩
  all_goals first | exact absurd hc (by decide) | decide

theorem balanced_hyphens (n : Nat) : Balanced true true (List.replicate n '\u00ad') :=
  .of_plain fun d hd => by
    rw [List.eq_of_mem_replicate hd]
    decide

/-- A character that is no blank stays one, or comes to be one that looks alike. -/
theorem alike_char {c : Char} (hb : Text.isBlank c = false) (hz : c.toNat ≠ 0)
    (hs : Balanced true true s) (h : Alike (Text.entity c ++ s) t) : Visible t := by
  by_cases hc : c ∈ ['&', '<', '>']
  · obtain ⟨w, hw, hfirm⟩ := exists_entity hc
    rw [hw] at h
    obtain ⟨n, t₁, rfl, h₁⟩ := h.exists_ampersand
    obtain ⟨t', rfl, h'⟩ := h₁.exists_append hfirm
    rw [← List.cons_append, ← hw]
    exact char hb hz (balanced_hyphens n) (hs.alike h')
  · simp only [List.mem_cons, List.not_mem_nil, or_false, not_or] at hc
    have he : Text.entity c = [c] := by simp [Text.entity, hc]
    have hvisible : ∀ {d : Char} {t : List Char}, Text.isBlank d = false → d.toNat ≠ 0 →
        Text.entity d = [d] → Alike s t → Visible (d :: t) := by
      intro d t hb hz he h
      have hv : Visible ([] ++ (Text.entity d ++ t)) := char hb hz .nil (hs.alike h)
      rwa [he] at hv
    rw [he] at h
    generalize hx : [c] ++ s = x at h
    cases h with
    | nil => cases hx
    | char d h =>
      obtain ⟨rfl, rfl⟩ := List.cons.inj hx
      exact hvisible hb hz he h
    | swap hd h =>
      obtain ⟨rfl, rfl⟩ := List.cons.inj hx
      obtain ⟨hb', hz', he'⟩ := of_mem_lookalikes hd hb
      exact hvisible hb' hz' he' h
    | lineEnd _ =>
      obtain ⟨rfl, -⟩ := List.cons.inj hx
      exact absurd hb (by decide)
    | hyphen _ => exact absurd (List.cons.inj hx).1 hc.1

theorem head?_entity_append {c : Char} (hb : Text.isBlank c = false) (s : List Char) :
    (Text.entity c ++ s).head? ≠ some '\n' := by
  unfold Text.entity
  split
  · simp
  · split
    · simp
    · split
      · simp
      · rintro h
        obtain rfl : c = '\n' := by simpa using h
        exact absurd hb (by decide)

/-- A harmless change leaves something to show. -/
theorem alike (h : Visible s) (ha : Alike s t) : Visible t := by
  induction h generalizing t with
  | char hb hz hu hs =>
    obtain ⟨u', t₁, rfl, hu', h₁⟩ := ha.exists_split (head?_entity_append hb _)
    exact .balanced_append (hu.alike hu') (alike_char hb hz hs h₁)
  | lineBreak hu hs =>
    obtain ⟨u', t₁, rfl, hu', h₁⟩ := ha.exists_split (by simp [Markup.lineBreak])
    obtain ⟨t', rfl, h'⟩ := h₁.exists_append (Text.forall_mem_of_all (by decide))
    exact lineBreak (hu.alike hu') (hs.alike h')
  | element ht hn _ hu hs ih =>
    obtain ⟨u', t₁, rfl, hu', h₁⟩ := ha.exists_split (by simp [enclose])
    obtain ⟨attrs', content', s', rfl, ht', hc, hs'⟩ := ht.alike_enclose h₁
    exact element ht' hn (ih hc) (hu.alike hu') (hs.alike hs')

end Visible

end Markup

namespace Html

open Markup (Visible)

/-- Tokens in a link of which one shows something, in no code block. -/
inductive Showing : List Token → Prop
  | char {x : Char} {ts us : List Token} :
      Text.isBlank x = false → Nested true true ts → Nested true true us →
        Showing (ts ++ .char x :: us)
  | lineBreak {ts us : List Token} :
      Nested true true ts → Nested true true us → Showing (ts ++ .startTag "br" [] :: us)
  | element {name : String} {attrs : Attrs} {content ts us : List Token} :
      ElementTag true true name attrs → name ≠ "pre" → Showing content → Nested true true ts →
        Nested true true us →
          Showing (ts ++ (.startTag name attrs :: content ++ .endTag name :: us))

theorem Showing.nested {ts : List Token} (h : Showing ts) : Nested true true ts := by
  induction h with
  | char _ ht hu => exact ht.append (.char _ hu)
  | lineBreak ht hu => exact ht.append (.lineBreak hu)
  | element he _ _ ht hu ih => exact ht.append (.element he ih hu)

theorem Visible.exists_runFrom {s : List Char} (h : Visible s) :
    ∃ ts, runFrom (.reading .text) s = (.reading .text, ts) ∧ Showing ts := by
  induction h with
  | @char c s t hb hz hs ht =>
    obtain ⟨ts, hr, hn⟩ := Balanced.exists_runFrom hs
    obtain ⟨us, hr', hn'⟩ := Balanced.exists_runFrom ht
    refine ⟨_, ?_, .char hb hn hn'⟩
    rw [runFrom_append, hr, runFrom_append, runFrom_entity hz, hr']
    rfl
  | lineBreak hs ht =>
    obtain ⟨ts, hr, hn⟩ := Balanced.exists_runFrom hs
    obtain ⟨us, hr', hn'⟩ := Balanced.exists_runFrom ht
    have hb : runFrom (.reading .text) Markup.lineBreak
        = (.reading .text, [.startTag "br" []]) := rfl
    refine ⟨_, ?_, .lineBreak hn hn'⟩
    rw [runFrom_append, hr, runFrom_append, hb, hr']
    rfl
  | @element name attrs content s t htag hname _ hs ht ih =>
    obtain ⟨ts, hr, hn⟩ := Balanced.exists_runFrom hs
    obtain ⟨us, hr', hn'⟩ := Balanced.exists_runFrom ht
    obtain ⟨cs, hrc, hc⟩ := ih
    obtain ⟨attrs', he, hread⟩ := exists_runFrom_enclose htag hrc
    refine ⟨_, ?_, .element he hname hc hn hn'⟩
    rw [runFrom_append, hr, runFrom_append, hread, hr']
    simp

end Html

end MessageLayout
