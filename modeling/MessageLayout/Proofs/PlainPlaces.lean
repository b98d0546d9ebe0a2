import MessageLayout.Proofs.KeptBlock
import MessageLayout.Proofs.NestedElements

/-!
# Places in plain elements

The start tags of plain elements, with nested tokens between them, lead to a place: no link is open
there, and no element that would hide what is put into it.

    OpenedTokens b names ts → Placed c → Placed (ts.foldl token c)       (OpenedTokens.placed)
-/

namespace MessageLayout.Html

open Construction (Tidy Follows)
open Markup (Opened)

/-- A construction at a place in plain elements. -/
structure Placed (c : Construction) : Prop where
  tidy : c.Tidy
  phase : c.phase ≠ .behind
  link : ages "a" c.active = []
  blocks : ∀ p ∈ c.boundaries, p.2 ∈ Markup.placeNames

namespace Placed

variable {c : Construction}

theorem start : Placed .start :=
  ⟨Construction.tidy_start, by decide, rfl, fun _ h => absurd h List.not_mem_nil⟩

theorem follows (h : Placed c) {c' : Construction} (ht : c'.Tidy) (hf : Follows c c') : Placed c' :=
  ⟨ht, hf.ne_behind h.phase, hf.ages_link h.link, fun p hp => h.blocks p (hf.boundaries.subset hp)⟩

/-- No element around a place hides what is in it. -/
theorem not_hiding (h : Placed c) : ∀ p ∈ c.spine.tags, p.2 ∉ hidingNames := by
  intro p hp hh
  have hblock : isBoundary p.2 = true → p.2 ∈ Markup.placeNames := fun hb =>
    h.blocks p (List.mem_filter.mpr ⟨hp, hb⟩)
  simp only [hidingNames, List.mem_cons, List.not_mem_nil, or_false] at hh
  rcases hh with he | he | he
  · obtain ⟨a, ha, hid⟩ := h.tidy.links p hp he
    have hname := h.tidy.linked.names a ha p hp hid.symm
    exact ages_eq_nil_iff.mp h.link a ha (hname.symm.trans he)
  · rw [he] at hblock
    exact absurd (hblock (by decide)) (by decide)
  · rw [he] at hblock
    exact absurd (hblock (by decide)) (by decide)

/-- At a place no link stands in the way of one. -/
theorem opens_link (h : Placed c) (attrs : Attrs) : c.Opens "a" attrs :=
  ⟨⟨.inr rfl, fun ha => absurd rfl ha⟩, fun _ => h.link⟩

theorem entered (h : Placed c) : Placed c.entered :=
  h.follows (h.tidy.mode .within false) (Construction.follows_entered c)

/-- The start tag of a plain element leads to a place again. -/
theorem startTag (h : Placed c) {name : String} (hn : name ∈ Markup.placeNames) {attrs : Attrs}
    (he : ElementTag true false name attrs) : Placed (c.token (.startTag name attrs)) := by
  have hcases := he.startTag_cases h.phase fun _ => h.link
  have hentered := h.entered
  generalize c.entered = e at hcases hentered
  obtain ⟨hresumed, hshown, hresume⟩ := hentered.tidy.resumeStyles
  have hplaced := hentered.follows hresumed hresume
  have hne : name ≠ "a" := by
    rintro rfl
    exact absurd hn (by decide)
  rcases hcases with ⟨hr, hstart⟩ | ⟨ho, hstart⟩ | ⟨hr, -, hstart⟩
  · have hb := hentered.tidy.startTag_block hr attrs
    rw [hstart]
    refine ⟨hb.tidy, hb.phase ▸ hentered.phase, hb.active ▸ hentered.link, fun p hp => ?_⟩
    obtain ⟨hp, hblock⟩ := List.mem_filter.mp hp
    rcases hb.mem_tags hp with rfl | hp
    · exact hn
    · exact hentered.blocks p (List.mem_filter.mpr ⟨hp, hblock⟩)
  · have hod := ho.resumed hentered.tidy
    rw [hstart]
    refine ⟨hod.tidy hresumed hshown, hplaced.phase, (hod.ages_link hresumed hne).trans hplaced.link, ?_⟩
    exact fun p hp =>
      hplaced.blocks p (Construction.boundaries_openElement e.resumeStyles ho.tag.inline attrs ▸ hp)
  · have hinline := isBoundary_of_roleOf (.inr hr)
    rw [hstart]
    refine ⟨hresumed.openElement hne attrs, hplaced.phase, hplaced.link, fun p hp => ?_⟩
    exact hplaced.blocks p (Construction.boundaries_openElement e.resumeStyles hinline attrs ▸ hp)

end Placed

/-- The tokens before a place lead to it. -/
theorem OpenedTokens.placed {blocks : Bool} {names : List String} {ts : List Token}
    (h : OpenedTokens blocks names ts) {c : Construction} (hc : Placed c) :
    Placed (ts.foldl Construction.token c) := by
  induction h generalizing c with
  | here h =>
    obtain ⟨ht, hf⟩ := h.follows hc.tidy hc.phase fun _ => hc.link
    exact hc.follows ht hf
  | passed _ ih => exact ih hc
  | within h hn he _ ih =>
    obtain ⟨ht, hf⟩ := h.follows hc.tidy hc.phase fun _ => hc.link
    rw [List.foldl_append]
    exact ih ((hc.follows ht hf).startTag hn he)

variable {blocks : Bool} {names : List String}

theorem placed_tokensBefore {before : List Char} (hb : Opened blocks names before) :
    Placed ((tokensBefore before).foldl Construction.token .start) :=
  (openedTokens_tokensBefore hb).placed .start

end MessageLayout.Html
