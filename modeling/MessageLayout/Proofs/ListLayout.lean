import Mathlib.Algebra.Group.Int.Defs
import Mathlib.Algebra.Group.Nat.Defs
import Mathlib.Data.List.Infix
import MessageLayout.Proofs.CodeFences
import MessageLayout.Proofs.PlainText

/-!
# The layout of lists

A list whose items hold a text each, and below it at most one further list, is laid out line by line:
a line for each text behind its marker, and below it the lines of the nested list, moved to the right
by the width of the marker. `Outline.lines` says so by recursion on the list, whatever its depth. The
text of a list never begins or ends with space or a line feed, so the rules around it (items, joins,
trimming) neither add lines nor drop any.

    layNodes … (content of the list) = unlines l.lines                  (layNodes_doms)
    ofDoms d [l.dom] = unlines l.lines                                  (ofDoms_outline)
-/

namespace MessageLayout

namespace Text

theorem unlines_append {ls ms : List (List Char)} (hl : ls ≠ []) (hm : ms ≠ []) :
    unlines (ls ++ ms) = unlines ls ++ '\n' :: unlines ms := by
  induction ls with
  | nil => exact absurd rfl hl
  | cons l ls ih =>
    cases ls with
    | nil => rw [List.singleton_append, unlines_cons l hm, unlines_singleton]
    | cons l' ls =>
      rw [List.cons_append, unlines_cons l (by simp), ih (by simp), unlines_cons l (by simp),
        List.append_assoc, List.cons_append]

theorem not_mem_unlines {c : Char} (hc : c ≠ '\n') {ls : List (List Char)} (h : ∀ l ∈ ls, c ∉ l) :
    c ∉ unlines ls := by
  induction ls with
  | nil => exact List.not_mem_nil
  | cons l ls ih =>
    obtain ⟨hl, hls⟩ := List.forall_mem_cons.mp h
    cases ls with
    | nil => rwa [unlines_singleton]
    | cons m ms =>
      rw [unlines_cons l (by simp), List.mem_append, List.mem_cons, not_or, not_or]
      exact ⟨hl, hc, ih hls⟩

/-- Lines without line feeds are the lines of the text that they are joined to. -/
theorem lines_unlines {ls : List (List Char)} (hne : ls ≠ []) (hls : ∀ l ∈ ls, '\n' ∉ l) :
    lines (unlines ls) = ls := by
  induction ls with
  | nil => exact absurd rfl hne
  | cons l ls ih =>
    obtain ⟨hl, hls⟩ := List.forall_mem_cons.mp hls
    cases ls with
    | nil => rw [unlines_singleton, lines_of_not_mem hl]
    | cons m ms =>
      rw [unlines_cons l (by simp), lines_append, lines_of_not_mem hl, ih (by simp) hls]
      rfl

theorem trimWhile_of_forall {p : Char → Bool} {s : List Char} (hs : ∀ c ∈ s, p c = false) :
    trimWhile p s = s := by
  cases s with
  | nil => rfl
  | cons c t =>
    obtain he | ⟨u, d, he⟩ := List.eq_nil_or_concat (c :: t)
    · cases he
    · rw [List.concat_eq_append] at he
      exact trimWhile_of_ends rfl (hs c List.mem_cons_self) he (hs d (by simp [he]))

end Text

namespace Mrkdwn

open Html
open Text (escapeEntity lines unlines)

/-! ## Outlines -/

/-- How the items of a list are told apart. -/
inductive Numbering where
  /-- By bullets. -/
  | bullets
  /-- By numbers, from the given one on or else from one on. -/
  | numbers (start? : Option Int)

namespace Numbering

/-- The name of the element. -/
def name : Numbering → String
  | bullets => "ul"
  | numbers _ => "ol"

/-- The number of an item by its index; beyond the greatest integer of 64 bits all numbers are it. -/
def number (start? : Option Int) (index : Nat) : Int :=
  min (start?.getD 1 + index) (2 ^ 63 - 1)

/-- What stands before the text of an item. -/
def marker (index : Nat) : Numbering → List Char
  | bullets => "\u2022 ".toList
  | numbers start? => Text.ofInt (number start? index) ++ ". ".toList

/-- What stands before the lines below the text of an item. -/
def indent (index : Nat) : Numbering → List Char
  | bullets => "\u2007 ".toList
  | numbers start? =>
    List.replicate (Text.ofInt (number start? index)).length '\u2007' ++ "  ".toList

/-- A text writes an integer: in decimal digits behind a sign or none, between any blanks. -/
def Writes (text : List Char) (n : Int) : Prop :=
  ∃ before sign digits behind, text = before ++ (sign ++ digits) ++ behind ∧
    (∀ c ∈ before ++ behind, Text.isBlank c = true) ∧
      digits ≠ [] ∧ (∀ c ∈ digits, c.isDigit = true) ∧
        (sign ∈ [[], ['+']] ∧ n = Nat.ofDigitChars 10 digits 0 ∨
          sign = ['-'] ∧ n = -Nat.ofDigitChars 10 digits 0)

/-- The attributes of a list give its start, an integer of 64 bits, or none. -/
def GivenBy (attrs : Attrs) : Numbering → Prop
  | bullets => True
  | numbers none => attrs.lookup "start" = none
  | numbers (some n) => -2 ^ 63 ≤ n ∧ n ≤ 2 ^ 63 - 1 ∧
      ∃ text, attrs.lookup "start" = some text ∧ Writes text n

end Numbering

mutual

/-- A list. -/
inductive Outline where
  | list (numbering : Numbering) (attrs : Attrs) (items : Items)

/-- The items of a list. -/
inductive Items where
  | nil
  /-- An item that holds a text, and the items behind it. -/
  | item (attrs : Attrs) (content : List Char) (rest : Items)
  /-- An item that holds a text and a list below it, and the items behind it. -/
  | nesting (attrs : Attrs) (content : List Char) (sub : Outline) (rest : Items)

end

/-- How many items there are. -/
def Items.length : Items → Nat
  | .nil => 0
  | .item _ _ rest | .nesting _ _ _ rest => rest.length + 1

mutual

/-- The element of a list. -/
def Outline.dom : Outline → Dom
  | .list numbering attrs items => .element numbering.name attrs items.doms

/-- The elements of items. -/
def Items.doms : Items → List Dom
  | .nil => []
  | .item attrs content rest => .element "li" attrs [.text content] :: rest.doms
  | .nesting attrs content sub rest =>
    .element "li" attrs [.text content, sub.dom] :: rest.doms

end

mutual

/-- The lines of a list. -/
def Outline.lines : Outline → List (List Char)
  | .list numbering _ items => items.lines numbering 0

/-- The lines of the items from an index on. -/
def Items.lines (numbering : Numbering) (index : Nat) : Items → List (List Char)
  | .nil => []
  | .item _ content rest =>
    (numbering.marker index ++ escapeEntity content) :: rest.lines numbering (index + 1)
  | .nesting _ content sub rest =>
    (numbering.marker index ++ escapeEntity content)
      :: sub.lines.map (numbering.indent index ++ ·) ++ rest.lines numbering (index + 1)

end

/-- A text that is not empty and has no blanks but single spaces within. -/
structure ItemText (s : List Char) : Prop where
  ne_nil : s ≠ []
  blank : ∀ c ∈ s, Text.isBlank c = true → c = ' '
  first : s.head? ≠ some ' '
  last : s.getLast? ≠ some ' '
  single : ¬[' ', ' '] <:+: s

instance (s : List Char) : Decidable (ItemText s) :=
  have : Decidable (∀ c ∈ s, Text.isBlank c = true → c = ' ') := List.decidableBAll _ s
  decidable_of_iff (s ≠ [] ∧ (∀ c ∈ s, Text.isBlank c = true → c = ' ') ∧ s.head? ≠ some ' ' ∧
      s.getLast? ≠ some ' ' ∧ ¬[' ', ' '] <:+: s)
    ⟨fun ⟨h₁, h₂, h₃, h₄, h₅⟩ => ⟨h₁, h₂, h₃, h₄, h₅⟩,
      fun h => ⟨h.ne_nil, h.blank, h.first, h.last, h.single⟩⟩

mutual

/-- Every list in the outline has items, whose texts are texts of items, and a proper start. The
index of an item is an integer of 64 bits. -/
def Outline.Proper : Outline → Prop
  | .list numbering attrs items =>
    numbering.GivenBy attrs ∧ items ≠ .nil ∧ items.length ≤ 2 ^ 63 ∧ items.Proper

/-- The texts of items are texts of items, and the lists below them are proper. -/
def Items.Proper : Items → Prop
  | .nil => True
  | .item _ content rest => ItemText content ∧ rest.Proper
  | .nesting _ content sub rest => ItemText content ∧ sub.Proper ∧ rest.Proper

end

/-! ## Numbers -/

theorem readNat?_of_sign {c : Char} (hc : c.isDigit = false) (s : List Char) :
    Text.readNat? (c :: s) = none := by
  simp [Text.readNat?, hc]

theorem readInt?_ofInt (n : Int) : Text.readInt? (Text.ofInt n) = some n := by
  cases n with
  | negSucc n =>
    rw [Text.ofInt, Text.readInt?, Text.readNat?_ofNat]
    rfl
  | ofNat n =>
    have hread := Text.readNat?_ofNat n
    rw [Text.ofInt]
    generalize Text.ofNat n = s at hread ⊢
    fun_cases Text.readInt? s with
    | case1 s =>
      rw [readNat?_of_sign (by decide)] at hread
      cases hread
    | case2 s =>
      rw [readNat?_of_sign (by decide)] at hread
      cases hread
    | case3 _ _ _ =>
      rw [hread]
      rfl

theorem isBlank_of_mem_ofInt {n : Int} {c : Char} (hc : c ∈ Text.ofInt n) :
    Text.isBlank c = false := by
  cases n with
  | ofNat n => exact (digit_of_mem_ofNat hc).2.1
  | negSucc n =>
    rcases List.mem_cons.mp hc with rfl | hc
    · rfl
    · exact (digit_of_mem_ofNat hc).2.1

/-- Digits are read to their value, and behind a sign to this or its negative. -/
theorem readInt?_of_digits {digits : List Char} (hne : digits ≠ [])
    (hdigits : ∀ c ∈ digits, c.isDigit = true) :
    let value : Int := Nat.ofDigitChars 10 digits 0
    Text.readInt? digits = some value ∧ Text.readInt? ('+' :: digits) = some value ∧
      Text.readInt? ('-' :: digits) = some (-value) := by
  have hall : digits.all Char.isDigit = true := List.all_eq_true.mpr hdigits
  have hread : Text.readNat? digits = some (Nat.ofDigitChars 10 digits 0) := by
    rw [Text.readNat?, if_pos (by simp [hne, hall])]
    rfl
  refine ⟨?_, by rw [Text.readInt?, hread]; rfl, by rw [Text.readInt?, hread]; rfl⟩
  rw [Text.readInt?.eq_3, hread]
  · rfl
  · rintro t rfl
    exact absurd (hdigits '-' List.mem_cons_self) (by decide)
  · rintro t rfl
    exact absurd (hdigits '+' List.mem_cons_self) (by decide)

/-- The start of a list is the integer that its text writes, if that is one of 64 bits. -/
theorem Numbering.Writes.readInt64? {text : List Char} {n : Int} (h : Writes text n)
    (hmin : -2 ^ 63 ≤ n) (hmax : n ≤ 2 ^ 63 - 1) : Text.readInt64? (Text.trim text) = some n := by
  obtain ⟨before, sign, digits, behind, rfl, hblank, hne, hdigits, hvalue⟩ := h
  obtain ⟨hbefore, hbehind⟩ := List.forall_mem_append.mp hblank
  obtain ⟨hplain, hplus, hminus⟩ := readInt?_of_digits hne hdigits
  have hsign : ∀ c ∈ sign, Text.isBlank c = false := by
    rcases hvalue with ⟨hs, -⟩ | ⟨rfl, -⟩
    · simp only [List.mem_cons, List.not_mem_nil, or_false] at hs
      rcases hs with rfl | rfl <;> exact Text.forall_mem_of_all (by decide)
    · exact Text.forall_mem_of_all (by decide)
  have htrim : Text.trim (before ++ (sign ++ digits) ++ behind) = sign ++ digits := by
    refine (Text.trimWhile_append_append hbefore hbehind _).trans (Text.trimWhile_of_forall ?_)
    refine List.forall_mem_append.mpr ⟨hsign, fun c hc => ?_⟩
    exact Text.isBlank_of_isAlphanum (by simp [Char.isAlphanum, hdigits c hc])
  have hread : Text.readInt? (sign ++ digits) = some n := by
    rcases hvalue with ⟨hs, rfl⟩ | ⟨rfl, rfl⟩
    · simp only [List.mem_cons, List.not_mem_nil, or_false] at hs
      rcases hs with rfl | rfl
      · exact hplain
      · exact hplus
    · exact hminus
  have hrange : Text.minInt64 ≤ n ∧ n ≤ Text.maxInt64 := ⟨hmin, hmax⟩
  rw [Text.readInt64?, htrim, hread]
  simp [hrange]

/-- An item has the number that its list gives it, as long as its index is an integer of 64 bits. -/
theorem itemNumber_eq_number {start? : Option Int} {index : Nat} (hi : index < 2 ^ 63)
    (hstart : ∀ n, start? = some n → -2 ^ 63 ≤ n ∧ n ≤ 2 ^ 63 - 1) :
    itemNumber start? index = Numbering.number start? index := by
  have hwrap : Text.wrapInt64 index = index := by
    have hpos : (0 : Int) ≤ index := Int.natCast_nonneg index
    exact Int.bmod_eq_of_le (by omega) (by omega)
  simp only [itemNumber, hwrap, Text.clampInt64, Text.minInt64, Text.maxInt64, Numbering.number]
  cases start? with
  | none =>
    simp only [Option.getD_none]
    omega
  | some n =>
    have := hstart n rfl
    simp only [Option.getD_some]
    omega

/-- The marker and the indent of an item of a list are those of its place. -/
theorem Numbering.marker_item {numbering : Numbering} {attrs : Attrs} (hn : numbering.GivenBy attrs)
    {index : Nat} (hi : index < 2 ^ 63) (place : Place) (hparent : place.parent = numbering.name)
    (hattrs : place.parentAttrs = attrs) (hindex : place.elementsBefore = index) :
    place.item.marker.text = numbering.marker index ∧
      place.item.marker.indent = numbering.indent index := by
  cases numbering with
  | bullets =>
    have hordered : place.item.ordered = false := by simp [Place.item, hparent, name]
    simp only [ItemPosition.marker, hordered]
    exact ⟨rfl, rfl⟩
  | numbers start? =>
    have hordered : place.item.ordered = true := by simp [Place.item, hparent, name]
    have hread : place.item.start? = start? ∧
        ∀ n, start? = some n → -2 ^ 63 ≤ n ∧ n ≤ 2 ^ 63 - 1 := by
      cases start? with
      | none =>
        have hlookup : attrs.lookup "start" = none := hn
        exact ⟨by simp [Place.item, hattrs, hlookup], nofun⟩
      | some n =>
        obtain ⟨hmin, hmax, text, hlookup, hwrites⟩ := hn
        refine ⟨by simpa [Place.item, hattrs, hlookup] using hwrites.readInt64? hmin hmax, ?_⟩
        rintro m hm
        obtain rfl := Option.some.inj hm
        exact ⟨hmin, hmax⟩
    have hnumber : itemNumber place.item.start? place.item.index = number start? index := by
      rw [hread.1, show place.item.index = index from hindex]
      exact itemNumber_eq_number hi hread.2
    simp only [ItemPosition.marker, hordered, hnumber]
    exact ⟨rfl, rfl⟩

/-! ## Lines -/

/-- A text that is not empty, with no space at its start and no blank at its end. -/
structure Snug (s : List Char) : Prop where
  first : ∃ c t, s = c :: t ∧ isSpace c = false
  last : ∃ t c, s = t ++ [c] ∧ Text.isBlank c = false

/-- A line of a list holds no line feed and no bracket that could open a mark. -/
structure IsLine (l : List Char) : Prop extends Snug l where
  plain : ∀ c ∈ l, c ≠ '\n' ∧ c ≠ '<'

theorem Snug.trimWhile {s : List Char} (h : Snug s) {p : Char → Bool}
    (hp : ∀ c, p c = true → isSpace c = true) : Text.trimWhile p s = s := by
  obtain ⟨c, t, hc, hspace⟩ := h.first
  obtain ⟨u, d, hd, hblank⟩ := h.last
  refine Text.trimWhile_of_ends hc ?_ hd ?_
  · exact Bool.eq_false_iff.mpr fun hpc => Bool.eq_false_iff.mp hspace (hp c hpc)
  · exact Bool.eq_false_iff.mpr fun hpd =>
      Bool.eq_false_iff.mp hblank (isBlank_of_isSpace (hp d hpd))

/-- Lines without space at their ends make such a text. -/
theorem Snug.unlines {ls : List (List Char)} (hne : ls ≠ []) (hls : ∀ l ∈ ls, Snug l) :
    Snug (unlines ls) := by
  refine ⟨?_, ?_⟩
  · obtain ⟨l, ls, rfl⟩ := List.exists_cons_of_ne_nil hne
    obtain ⟨c, t, rfl, hc⟩ := (hls _ List.mem_cons_self).first
    cases ls with
    | nil => exact ⟨c, t, Text.unlines_singleton _, hc⟩
    | cons m ms => exact ⟨c, t ++ '\n' :: Text.unlines (m :: ms), Text.unlines_cons _ (by simp), hc⟩
  · obtain rfl | ⟨ls, l, rfl⟩ := List.eq_nil_or_concat ls
    · exact absurd rfl hne
    rw [List.concat_eq_append] at hls ⊢
    obtain ⟨t, c, rfl, hc⟩ := (hls l (by simp)).last
    cases ls with
    | nil => exact ⟨t, c, Text.unlines_singleton _, hc⟩
    | cons m ms =>
      refine ⟨Text.unlines (m :: ms) ++ '\n' :: t, c, ?_, hc⟩
      rw [Text.unlines_append (by simp) (by simp), Text.unlines_singleton, List.append_assoc,
        List.cons_append]

theorem IsLine.prepend {l w : List Char} (h : IsLine l) (hplain : ∀ c ∈ w, c ≠ '\n' ∧ c ≠ '<')
    (hfirst : ∃ c s, w = c :: s ∧ isSpace c = false) : IsLine (w ++ l) := by
  obtain ⟨c, s, rfl, hc⟩ := hfirst
  obtain ⟨t, d, rfl, hd⟩ := h.last
  exact ⟨⟨⟨c, s ++ (t ++ [d]), rfl, hc⟩, ⟨c :: s ++ t, d, (List.append_assoc _ _ _).symm, hd⟩⟩,
    List.forall_mem_append.mpr ⟨hplain, h.plain⟩⟩

/-- A character of a decimal integer is none that the layout looks for. -/
theorem of_mem_ofInt {n : Int} {c : Char} (hc : c ∈ Text.ofInt n) : c ≠ '\n' ∧ c ≠ '<' := by
  obtain ⟨hframing, hn⟩ := isMargin_ofInt n c hc
  exact ⟨hn, (ne_bracket_of_isFraming hframing).1⟩

theorem exists_cons_ofInt (n : Int) : ∃ c s, Text.ofInt n = c :: s ∧ isSpace c = false := by
  have hspace : ∀ c ∈ Text.ofInt n, isSpace c = false := by
    intro c hc
    refine Bool.eq_false_iff.mpr fun hs => ?_
    exact absurd (isBlank_of_isSpace hs) (Bool.eq_false_iff.mp (isBlank_of_mem_ofInt hc))
  cases he : Text.ofInt n with
  | nil =>
    have := readInt?_ofInt n
    rw [he] at this
    cases this
  | cons c s => exact ⟨c, s, rfl, hspace c (by simp [he])⟩

namespace Numbering

theorem plain_marker (numbering : Numbering) (index : Nat) :
    ∀ c ∈ numbering.marker index, c ≠ '\n' ∧ c ≠ '<' := by
  cases numbering with
  | bullets =>
    show ∀ c ∈ "\u2022 ".toList, c ≠ '\n' ∧ c ≠ '<'
    exact Text.forall_mem_of_all (by decide)
  | numbers start? =>
    have hdot : ∀ c ∈ ". ".toList, c ≠ '\n' ∧ c ≠ '<' := Text.forall_mem_of_all (by decide)
    exact List.forall_mem_append.mpr ⟨fun _ hc => of_mem_ofInt hc, hdot⟩

theorem plain_indent (numbering : Numbering) (index : Nat) :
    ∀ c ∈ numbering.indent index, c ≠ '\n' ∧ c ≠ '<' := by
  cases numbering with
  | bullets =>
    show ∀ c ∈ "\u2007 ".toList, c ≠ '\n' ∧ c ≠ '<'
    exact Text.forall_mem_of_all (by decide)
  | numbers start? =>
    have hspaces : ∀ c ∈ "  ".toList, c ≠ '\n' ∧ c ≠ '<' := Text.forall_mem_of_all (by decide)
    refine List.forall_mem_append.mpr ⟨fun c hc => ?_, hspaces⟩
    rw [List.eq_of_mem_replicate hc]
    decide

theorem first_marker (numbering : Numbering) (index : Nat) :
    ∃ c s, numbering.marker index = c :: s ∧ isSpace c = false := by
  cases numbering with
  | bullets => exact ⟨'\u2022', [' '], rfl, rfl⟩
  | numbers start? =>
    obtain ⟨c, s, he, hc⟩ := exists_cons_ofInt (number start? index)
    exact ⟨c, s ++ ". ".toList, by simp [marker, he], hc⟩

theorem first_indent (numbering : Numbering) (index : Nat) :
    ∃ c s, numbering.indent index = c :: s ∧ isSpace c = false := by
  cases numbering with
  | bullets => exact ⟨'\u2007', [' '], rfl, rfl⟩
  | numbers start? =>
    obtain ⟨c, s, he, -⟩ := exists_cons_ofInt (number start? index)
    refine ⟨'\u2007', List.replicate s.length '\u2007' ++ "  ".toList, ?_, rfl⟩
    simp [indent, he, List.replicate_succ]

end Numbering

/-- Text whose only space is single spaces has no run to squeeze. -/
theorem squeezeFrom_of_single {s : List Char} (hs : ∀ c ∈ s, isSpace c = true → c = ' ')
    (hsingle : ¬[' ', ' '] <:+: s) {inRun : Bool} (hrun : inRun = true → s.head? ≠ some ' ') :
    Text.squeezeFrom isSpace ' ' inRun s = s := by
  induction s generalizing inRun with
  | nil => rfl
  | cons c s ih =>
    obtain ⟨hc, hs⟩ := List.forall_mem_cons.mp hs
    have ih := fun inRun => @ih hs (fun h => hsingle (h.trans (List.suffix_cons c s).isInfix)) inRun
    simp only [Text.squeezeFrom]
    split
    next h =>
      obtain rfl := hc h
      have hnext : s.head? ≠ some ' ' := by
        intro hhead
        obtain ⟨t, rfl⟩ := List.head?_eq_some_iff.mp hhead
        exact hsingle ⟨[], t, rfl⟩
      have hinRun : inRun = false := Bool.eq_false_iff.mpr fun h => hrun h rfl
      rw [ih true fun _ => hnext, hinRun]
      rfl
    · rw [ih false fun h => absurd h Bool.false_ne_true]

namespace ItemText

variable {s : List Char}

theorem isBlank_of_isSpace_eq_false {c : Char} (hb : Text.isBlank c = true → c = ' ')
    (hc : c ≠ ' ') : Text.isBlank c = false :=
  Bool.eq_false_iff.mpr fun h => hc (hb h)

theorem exists_cons (h : ItemText s) : ∃ c t, s = c :: t ∧ Text.isBlank c = false := by
  obtain ⟨c, t, rfl⟩ := List.exists_cons_of_ne_nil h.ne_nil
  exact ⟨c, t, rfl, isBlank_of_isSpace_eq_false (h.blank c List.mem_cons_self)
    fun hc => h.first (congrArg some hc)⟩

theorem exists_concat (h : ItemText s) : ∃ t c, s = t ++ [c] ∧ Text.isBlank c = false := by
  obtain rfl | ⟨t, c, rfl⟩ := List.eq_nil_or_concat s
  · exact absurd rfl h.ne_nil
  · rw [List.concat_eq_append] at h ⊢
    refine ⟨t, c, rfl, isBlank_of_isSpace_eq_false (h.blank c (by simp)) ?_⟩
    rintro rfl
    exact h.last (by simp)

/-- The text of an item is laid out as it is, escaped. -/
theorem layText (h : ItemText s) (trims : Bool) : Mrkdwn.layText trims s = escapeEntity s := by
  have hsqueeze : Text.squeeze isSpace ' ' s = s :=
    squeezeFrom_of_single (fun c hc hs => h.blank c hc (isBlank_of_isSpace hs)) h.single
      fun h => absurd h Bool.false_ne_true
  obtain ⟨c, t, rfl, hc⟩ := h.exists_cons
  have hspace : isSpace c = false :=
    Bool.eq_false_iff.mpr fun hs => absurd (isBlank_of_isSpace hs) (Bool.eq_false_iff.mp hc)
  rw [layText_of_head hspace, hsqueeze]

theorem isLine (h : ItemText s) : IsLine (escapeEntity s) := by
  refine ⟨⟨?_, ?_⟩, fun c hc => ⟨?_, ?_⟩⟩
  · obtain ⟨c, t, rfl, hc⟩ := h.exists_cons
    rw [Text.escapeEntity_cons]
    cases he : Text.entity c with
    | nil => exact absurd he (Text.entity_ne_nil c)
    | cons d u =>
      refine ⟨d, u ++ escapeEntity t, rfl, Bool.eq_false_iff.mpr fun hd => ?_⟩
      have hne : d ∉ "&ampltg;<>".toList := fun hm =>
        absurd (Text.forall_mem_of_all (p := fun d => isSpace d = false) (by decide) d hm)
          (by simp [hd])
      have hdc : d = c := (Text.mem_entity hne).mp (by simp [he])
      rw [← hdc, isBlank_of_isSpace hd] at hc
      cases hc
  · obtain ⟨t, c, rfl, hc⟩ := h.exists_concat
    obtain ⟨w, d, hw, hd⟩ := Text.entity_eq_concat hc
    refine ⟨escapeEntity t ++ w, d, ?_, hd⟩
    rw [Text.escapeEntity_append, Text.escapeEntity_cons, Text.escapeEntity_nil, List.append_nil,
      hw, List.append_assoc]
  · rintro rfl
    rw [Text.mem_escapeEntity (by decide)] at hc
    exact absurd (h.blank _ hc rfl) (by decide)
  · rintro rfl
    exact Text.lt_not_mem_escapeEntity _ hc

/-- An element that begins with the text of an item has something to show. -/
theorem isBlank_eq_false (h : ItemText s) (name : String) (attrs : Attrs) {ds : List Dom}
    {rest : List Char} (hds : Dom.textOf ds = s ++ rest) :
    (Dom.element name attrs ds).isBlank = false := by
  obtain ⟨c, t, rfl, hc⟩ := h.exists_cons
  simp [Dom.isBlank, hds, Text.isAllBlank, hc]

end ItemText

mutual

theorem Outline.isLine : (l : Outline) → l.Proper → l.lines ≠ [] ∧ ∀ s ∈ l.lines, IsLine s
  | .list numbering attrs items, ⟨_, hne, _, hitems⟩ => by
    refine ⟨?_, items.isLine numbering 0 hitems⟩
    cases items with
    | nil => exact absurd rfl hne
    | item attrs content rest => simp [Outline.lines, Items.lines]
    | nesting attrs content sub rest => simp [Outline.lines, Items.lines]

theorem Items.isLine (numbering : Numbering) (index : Nat) :
    (items : Items) → items.Proper → ∀ s ∈ items.lines numbering index, IsLine s
  | .nil, _ => fun _ h => absurd h List.not_mem_nil
  | .item _ content rest, ⟨hcontent, hrest⟩ => by
    rw [Items.lines]
    exact List.forall_mem_cons.mpr
      ⟨hcontent.isLine.prepend (numbering.plain_marker index) (numbering.first_marker index),
        rest.isLine numbering (index + 1) hrest⟩
  | .nesting _ content sub rest, ⟨hcontent, hsub, hrest⟩ => by
    rw [Items.lines]
    refine List.forall_mem_append.mpr ⟨List.forall_mem_cons.mpr
      ⟨hcontent.isLine.prepend (numbering.plain_marker index) (numbering.first_marker index),
        fun s hs => ?_⟩, rest.isLine numbering (index + 1) hrest⟩
    obtain ⟨l, hl, rfl⟩ := List.mem_map.mp hs
    exact ((sub.isLine hsub).2 l hl).prepend (numbering.plain_indent index)
      (numbering.first_indent index)

end

/-! ## Layout -/

/-- A text that items may follow: it is empty or ends in one line feed. -/
def Ready (s : List Char) : Prop :=
  s = [] ∨ ∃ t c, s = t ++ [c, '\n'] ∧ c ≠ '\n'

theorem Ready.afterSpace {s : List Char} (h : Ready s) : Mrkdwn.afterSpace s true = true := by
  rcases h with rfl | ⟨t, c, rfl, -⟩
  · rfl
  · simp [Mrkdwn.afterSpace]

/-- An item is put behind such a text as it is. -/
theorem Ready.join {s u : List Char} (h : Ready s) (hu : Snug u) (v : List Char) :
    Mrkdwn.join s (u ++ v) = s ++ (u ++ v) := by
  obtain ⟨c, w, rfl, hc⟩ := hu.first
  have hn : c ≠ '\n' := by
    rintro rfl
    exact absurd hc (by decide)
  rcases h with rfl | ⟨t, d, rfl, hd⟩
  · simp [join_nil_left, leadingNewlines, hn]
  · simp [Mrkdwn.join, leadingNewlines, trailingNewlines, Text.takeEndWhile, Text.trimEndWhile, hn, hd]

theorem isSpace_of_eq_newline (c : Char) (h : decide (c = '\n') = true) : isSpace c = true := by
  rw [of_decide_eq_true h]
  decide

theorem isSpace_of_eq_space (c : Char) (h : decide (c = ' ') = true) : isSpace c = true := by
  rw [of_decide_eq_true h]
  decide

theorem getLast?_ne_newline {s : List Char} (h : Snug s) : s.getLast? ≠ some '\n' := by
  obtain ⟨t, c, rfl, hc⟩ := h.last
  rintro he
  obtain rfl : c = '\n' := by simpa using he
  exact absurd hc (by decide)

/-- The lines of an item stand behind its marker and its indents. -/
theorem listItem_unlines {l : List Char} {ls : List (List Char)} (h : ∀ s ∈ l :: ls, IsLine s)
    (p : ItemPosition) :
    listItem (unlines (l :: ls)) p
      = unlines ((p.marker.text ++ l) :: ls.map (p.marker.indent ++ ·))
        ++ if p.hasNext then ['\n'] else [] := by
  have hsnug : Snug (unlines (l :: ls)) := .unlines (by simp) fun s hs => (h s hs).toSnug
  have hlines : lines (unlines (l :: ls)) = l :: ls :=
    Text.lines_unlines (by simp) fun s hs hn => ((h s hs).plain _ hn).1 rfl
  have hjoin : ∀ m : List Char, m ++ (['\n'] ++ p.marker.indent).intercalate (l :: ls)
      = unlines ((m ++ l) :: ls.map (p.marker.indent ++ ·)) := by
    clear h hsnug hlines
    induction ls generalizing l with
    | nil => simp [List.intercalate]
    | cons k ls ih =>
      intro m
      rw [List.map_cons, Text.unlines_cons _ (by simp), ← ih]
      simp [List.intercalate, List.intersperse]
  simp only [listItem, hsnug.trimWhile isSpace_of_eq_newline, hlines, hjoin, getLast?_ne_newline hsnug,
    beq_iff_eq, Bool.or_eq_true, false_or]

theorem trimStartIf_snug {s : List Char} (h : Snug s) (trims : Bool) (t : List Char) :
    trimStartIf trims (s ++ t) = s ++ t := by
  obtain ⟨c, u, rfl, hc⟩ := h.first
  have hne : c ≠ ' ' := by
    rintro rfl
    exact absurd hc (by decide)
  cases trims <;> simp [trimStartIf, hne]

/-- A block that is neither blank nor a code block is laid out around its content. -/
theorem layNode_block (d : Delimiters) (trims : Bool) (place : Place) (F : Fences) {name : String}
    {attrs : Attrs} {children : List Dom} (hname : isBlockName name = true) (hpre : name ≠ "pre")
    (hblank : (Dom.element name attrs children).isBlank = false) :
    layNode d trims place F (.element name attrs children)
      = let inner := layNodes d name attrs true 0 ⟨[], F⟩ children
        ⟨trimStartIf trims (layBlock name place (Text.trimWhile (· = ' ') inner.text)), inner.fences⟩ := by
  simp only [layNode, hblank, Bool.and_false, Bool.false_eq_true, if_false, fencedCode?_of_ne hpre,
    hname, layAround, if_true]

/-- An item: its lines behind marker and indents, and a line feed if anything follows. -/
theorem layNode_item (d : Delimiters) (place : Place) {F : Fences} {attrs : Attrs}
    {children : List Dom} {l : List Char} {ls : List (List Char)}
    (hblank : (Dom.element "li" attrs children).isBlank = false)
    (hinner : layNodes d "li" attrs true 0 ⟨[], F⟩ children = ⟨unlines (l :: ls), F⟩)
    (hlines : ∀ s ∈ l :: ls, IsLine s)
    (hmarker : Snug (unlines ((place.item.marker.text ++ l) :: ls.map (place.item.marker.indent ++ ·)))) :
    layNode d true place F (.element "li" attrs children)
      = ⟨unlines ((place.item.marker.text ++ l) :: ls.map (place.item.marker.indent ++ ·))
          ++ if place.hasNext then ['\n'] else [], F⟩ := by
  have hsnug : Snug (unlines (l :: ls)) := .unlines (by simp) fun s hs => (hlines s hs).toSnug
  rw [layNode_block d true place F rfl (by decide) hblank]
  simp only [hinner, hsnug.trimWhile isSpace_of_eq_space, layBlock, listItem_unlines hlines,
    trimStartIf_snug hmarker]
  rfl

theorem Items.lines_ne_nil (numbering : Numbering) (index : Nat) {items : Items} (h : items ≠ .nil) :
    items.lines numbering index ≠ [] := by
  cases items with
  | nil => exact absurd rfl h
  | item attrs content rest => simp [Items.lines]
  | nesting attrs content sub rest => simp [Items.lines]

/-- An item is put behind those before it, and so are those behind it. -/
theorem layNodes_item (d : Delimiters) {numbering : Numbering} {attrs : Attrs}
    (hn : numbering.GivenBy attrs) {F : Fences} {index : Nat} {rest : Items} {acc : List Char}
    (hindex : index + (rest.length + 1) ≤ 2 ^ 63) (hacc : Ready acc)
    (ih : ∀ acc, Ready acc → layNodes d numbering.name attrs true (index + 1) ⟨acc, F⟩ rest.doms
      = ⟨acc ++ unlines (rest.lines numbering (index + 1)), F⟩)
    {itemAttrs : Attrs} {children : List Dom} {l : List Char} {ls : List (List Char)}
    (hblank : (Dom.element "li" itemAttrs children).isBlank = false)
    (hinner : layNodes d "li" itemAttrs true 0 ⟨[], F⟩ children = ⟨unlines (l :: ls), F⟩)
    (hlines : ∀ s ∈ l :: ls, IsLine s) :
    layNodes d numbering.name attrs true index ⟨acc, F⟩ (.element "li" itemAttrs children :: rest.doms)
      = ⟨acc ++ unlines ((numbering.marker index ++ l) :: ls.map (numbering.indent index ++ ·)
          ++ rest.lines numbering (index + 1)), F⟩ := by
  obtain ⟨hl, hls⟩ := List.forall_mem_cons.mp hlines
  let place : Place := ⟨numbering.name, attrs, index, !rest.doms.isEmpty, rest.doms.any Dom.isElement⟩
  have hbound : index < 2 ^ 63 := by omega
  obtain ⟨hmarker, hindent⟩ := Numbering.marker_item hn hbound place rfl rfl rfl
  have hshown : ∀ s ∈ (numbering.marker index ++ l) :: ls.map (numbering.indent index ++ ·),
      IsLine s := by
    refine List.forall_mem_cons.mpr
      ⟨hl.prepend (numbering.plain_marker index) (numbering.first_marker index), fun s hs => ?_⟩
    obtain ⟨k, hk, rfl⟩ := List.mem_map.mp hs
    exact (hls k hk).prepend (numbering.plain_indent index) (numbering.first_indent index)
  have hsnug : Snug (unlines ((numbering.marker index ++ l) :: ls.map (numbering.indent index ++ ·))) :=
    .unlines (by simp) fun s hs => (hshown s hs).toSnug
  have hitem := layNode_item d place hblank hinner hlines (by rwa [hmarker, hindent])
  rw [hmarker, hindent] at hitem
  rw [layNodes, hacc.afterSpace, hitem, hacc.join hsnug]
  by_cases hr : rest = .nil
  · subst hr
    simp [place, Items.doms, layNodes, Items.lines]
  · have hnext : place.hasNext = true := by
      cases rest with
      | nil => exact absurd rfl hr
      | item _ _ _ => rfl
      | nesting _ _ _ _ => rfl
    obtain ⟨t, c, ht, hc⟩ := hsnug.last
    have hready : Ready (acc ++ (t ++ [c] ++ ['\n'])) := by
      refine .inr ⟨acc ++ t, c, by simp, ?_⟩
      rintro rfl
      exact absurd hc (by decide)
    rw [hnext, if_pos rfl, Text.unlines_append (by simp) (rest.lines_ne_nil numbering (index + 1) hr),
      ht]
    exact (ih _ hready).trans (by simp)

theorem Outline.isBlank_dom : {l : Outline} → l.Proper → l.dom.isBlank = false
  | .list numbering attrs .nil, h => absurd rfl h.2.1
  | .list numbering attrs (.item _ content rest), h => by
    have hcontent : ItemText content := h.2.2.2.1
    exact hcontent.isBlank_eq_false numbering.name attrs (by simp [Items.doms]; rfl)
  | .list numbering attrs (.nesting _ content sub rest), h => by
    have hcontent : ItemText content := h.2.2.2.1
    exact hcontent.isBlank_eq_false numbering.name attrs (by simp [Items.doms]; rfl)

theorem Ready.nil : Ready [] :=
  .inl rfl

theorem trimStartIf_list (trims nestedLast : Bool) (s : List Char) :
    trimStartIf trims (list s nestedLast) = list s nestedLast := by
  cases trims <;> cases nestedLast <;> rfl

/-- A list stands behind the text of its item. -/
theorem join_list {s : List Char} (h : Snug s) {t : List Char} (ht : Snug t) :
    join s (list t true) = s ++ '\n' :: t := by
  obtain ⟨u, c, rfl, hc⟩ := h.last
  obtain ⟨e, v, rfl, he⟩ := ht.first
  have hcn : c ≠ '\n' := by
    rintro rfl
    exact absurd hc (by decide)
  have hen : e ≠ '\n' := by
    rintro rfl
    exact absurd he (by decide)
  simp [join, list, leadingNewlines, trailingNewlines, Text.takeEndWhile, Text.trimEndWhile, hcn, hen]

mutual

/-- A list: its lines, with what separates a list from what is around it. -/
theorem layNode_outline (d : Delimiters) (trims : Bool) (place : Place) (F : Fences) :
    (l : Outline) → l.Proper →
      layNode d trims place F l.dom
        = ⟨list (unlines l.lines) (place.parent == "li" && !place.hasNextElement), F⟩
  | .list numbering attrs items, h => by
    obtain ⟨hne, hlines⟩ := Outline.isLine _ h
    have hsnug : Snug (unlines (items.lines numbering 0)) :=
      .unlines hne fun s hs => (hlines s hs).toSnug
    have hinner : layNodes d numbering.name attrs true 0 ⟨[], F⟩ items.doms
        = ⟨unlines (items.lines numbering 0), F⟩ := by
      have hlength := h.2.2.1
      exact layNodes_items d F h.1 items h.2.2.2 0 (by omega) .nil
    have hlay : layBlock numbering.name place (unlines (items.lines numbering 0))
        = list (unlines (items.lines numbering 0)) (place.parent == "li" && !place.hasNextElement) := by
      cases numbering <;> rfl
    rw [Outline.dom, layNode_block d trims place F (by cases numbering <;> rfl)
      (by cases numbering <;> simp [Numbering.name]) (Outline.isBlank_dom h)]
    simp only [hinner, hsnug.trimWhile isSpace_of_eq_space, hlay, trimStartIf_list]
    rfl

/-- Items are laid out behind the items before them, line by line. -/
theorem layNodes_items (d : Delimiters) (F : Fences) {numbering : Numbering} {attrs : Attrs}
    (hn : numbering.GivenBy attrs) : (items : Items) → items.Proper → ∀ (index : Nat) {acc : List Char},
      index + items.length ≤ 2 ^ 63 → Ready acc →
        layNodes d numbering.name attrs true index ⟨acc, F⟩ items.doms
          = ⟨acc ++ unlines (items.lines numbering index), F⟩
  | .nil, _, _, acc, _, _ => by simp [Items.doms, layNodes, Items.lines, unlines, List.intercalate]
  | .item a content rest, ⟨hcontent, hrest⟩, index, acc, hindex, hacc => by
    have hlength : index + (rest.length + 1) ≤ 2 ^ 63 := hindex
    have hinner : layNodes d "li" a true 0 ⟨[], F⟩ [.text content]
        = ⟨unlines [escapeEntity content], F⟩ := by
      have hline : '\n' ∉ escapeEntity content := fun hm => (hcontent.isLine.plain _ hm).1 rfl
      simp [layNodes, layNode, hcontent.layText, join_nil_of_not_mem hline]
    exact layNodes_item d hn hlength hacc
      (fun acc h => layNodes_items d F hn rest hrest (index + 1) (by omega) h)
      (hcontent.isBlank_eq_false "li" a (by simp; rfl)) hinner (by simpa using hcontent.isLine)
  | .nesting a content sub rest, ⟨hcontent, hsub, hrest⟩, index, acc, hindex, hacc => by
    have hlength : index + (rest.length + 1) ≤ 2 ^ 63 := hindex
    obtain ⟨hne, hlines⟩ := sub.isLine hsub
    have hinner : layNodes d "li" a true 0 ⟨[], F⟩ [.text content, sub.dom]
        = ⟨unlines (escapeEntity content :: sub.lines), F⟩ := by
      have hline : '\n' ∉ escapeEntity content := fun hm => (hcontent.isLine.plain _ hm).1 rfl
      have hsnug : Snug (unlines sub.lines) := .unlines hne fun s hs => (hlines s hs).toSnug
      simp only [layNodes, layNode, hcontent.layText, join_nil_of_not_mem hline,
        layNode_outline d _ _ F sub hsub, Text.unlines_cons _ hne]
      exact congrArg (Laid.mk · F) (join_list hcontent.isLine.toSnug hsnug)
    exact layNodes_item d hn hlength hacc
      (fun acc h => layNodes_items d F hn rest hrest (index + 1) (by omega) h)
      (hcontent.isBlank_eq_false "li" a (by simp; rfl)) hinner
      (List.forall_mem_cons.mpr ⟨hcontent.isLine, hlines⟩)

end

/-- A list alone in the body is its lines, whatever its depth and under all options. -/
theorem ofDoms_outline (options : FormatOptions) (l : Outline) (h : l.Proper) :
    ofDoms (delimiters options) [l.dom] = unlines l.lines := by
  obtain ⟨hne, hlines⟩ := l.isLine h
  have hsnug : Snug (unlines l.lines) := .unlines hne fun s hs => (hlines s hs).toSnug
  have hlt : '<' ∉ unlines l.lines :=
    Text.not_mem_unlines (by decide) fun s hs hm => ((hlines s hs).plain _ hm).2 rfl
  obtain ⟨c, t, hc, hspace⟩ := hsnug.first
  obtain ⟨u, e, he, hblank⟩ := hsnug.last
  simp only [isSpace, Bool.or_eq_false_iff, decide_eq_false_iff_not] at hspace
  have hbody : layBody (delimiters options) [l.dom] = ⟨paragraph (unlines l.lines), []⟩ := by
    have hlist : join [] (list (unlines l.lines) false) = paragraph (unlines l.lines) := by
      simp [join_nil_left, list, paragraph, leadingNewlines, hc, hspace.2]
    simp only [layBody, layNodes, layNode_outline _ _ _ _ l h]
    exact congrArg (Laid.mk · []) hlist
  have htrim : trimEnds (paragraph (unlines l.lines)) = unlines l.lines := by
    have hdrop : (paragraph (unlines l.lines)).dropWhile (fun c => c = '\t' || c = '\r' || c = '\n')
        = unlines l.lines ++ ['\n'] ++ ['\n'] := by
      simp [paragraph, hc, hspace]
    rw [trimEnds, hdrop, Text.trimEndWhile_concat_of_pos rfl, Text.trimEndWhile_concat_of_pos rfl,
      he, Text.trimEndWhile_concat_of_neg hblank]
  simp only [ofDoms, hbody, htrim, dropBreakMarks_of_not_mem hlt, restore_of_not_mem hlt]

/-- A numbered list that reaches the greatest number, its start written with a sign and between blanks,
over a bulleted list over a numbered one. -/
theorem ofDoms_outline_nested :
    let leaf : Outline := .list (.numbers none) [] (.item [] "d".toList .nil)
    let inner : Outline :=
      .list .bullets [] (.item [] "b".toList (.nesting [] "c <".toList leaf .nil))
    let outline : Outline := .list (.numbers (some (2 ^ 63 - 2)))
      [("start", " +09223372036854775806\n".toList)]
      (.nesting [] "a a".toList inner (.item [] "e".toList (.item [] "f".toList .nil)))
    let indent := List.replicate 19 '\u2007' ++ "  ".toList
    outline.Proper ∧ ofDoms (delimiters {}) [outline.dom] = unlines outline.lines ∧
      outline.lines = ["9223372036854775806. a a".toList, indent ++ "\u2022 b".toList,
        indent ++ "\u2022 c &lt;".toList, indent ++ "\u2007 1. d".toList,
        "9223372036854775807. e".toList, "9223372036854775807. f".toList] := by
  intro leaf inner outline indent
  have hleaf : leaf.Proper :=
    ⟨rfl, by simp, by decide, by decide, trivial⟩
  have hinner : inner.Proper :=
    ⟨trivial, by simp, by decide, by decide, by decide, hleaf, trivial⟩
  have hproper : outline.Proper := by
    refine ⟨⟨by decide, by decide, _, rfl, " ".toList, "+".toList, "09223372036854775806".toList,
      "\n".toList, rfl, Text.forall_mem_of_all (by decide), by decide,
      Text.forall_mem_of_all (by decide), .inl ⟨by decide, by decide⟩⟩, by simp, by decide, by decide,
      hinner, by decide, by decide, trivial⟩
  exact ⟨hproper, ofDoms_outline {} outline hproper, by decide⟩

end Mrkdwn

end MessageLayout
