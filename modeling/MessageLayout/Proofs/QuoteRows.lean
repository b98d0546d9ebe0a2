import MessageLayout.Proofs.DelimitedText
import MessageLayout.Proofs.ListSeparation
import MessageLayout.Proofs.QuoteParts

/-!
# Rows of quotations

Each row of a quotation stands behind a mark. A row whose own text begins with `&gt;` seems to have a
second one. `RowState` tells how far a row has come, and `run` follows a text that is laid out until a
row of it begins like a mark. Whether one does is read off the parts of the document.

    (join s t).run = (s ++ t).run                                                      (run_join)
    (ofRow row).run (layNodes d …).text = after (rowAfter? row (quotePartsOf ns))      (run_layNodes)

No line that is laid out begins with a space (`unindented_layNodes`), so where the run has met a mark
there is a line that begins with it.
-/

namespace MessageLayout.Mrkdwn

open Html

/-! ## Rows -/

/-- How far a row has come. -/
inductive RowState where
  /-- It has shown nothing but spaces. -/
  | start
  /-- It began with an ampersand. -/
  | ampersand
  /-- It began with `&g`. -/
  | ampersandG
  /-- It began with `&gt`. -/
  | ampersandGt
  /-- It began with a bracket, as a break mark or a placeholder does. -/
  | bracket
  /-- It has shown something that no mark begins with. -/
  | within
  /-- A row began like a mark. -/
  | marked
  /-- A row began as none does. -/
  | stray
deriving DecidableEq, Repr

namespace RowState

/-- How far a row has come with one more character. Behind a bracket at its start a row has no
ampersand. -/
def next (a : RowState) (c : Char) : RowState :=
  match a with
  | start =>
    if c = '\n' || c = ' ' then start
    else if c = '&' then ampersand
    else if c = '<' then bracket
    else within
  | ampersand => if c = 'g' then ampersandG else if c = 'a' || c = 'l' then within else stray
  | ampersandG => if c = 't' then ampersandGt else stray
  | ampersandGt => if c = ';' then marked else stray
  | bracket => if c = '&' then stray else if c = '\n' then start else bracket
  | within => if c = '\n' then start else within
  | marked => marked
  | stray => stray

/-- How far the last row of a text comes, unless one of its rows begins like a mark. -/
def run (a : RowState) (s : List Char) : RowState :=
  s.foldl next a

/-- The state of a row by whether it has yet to show something. -/
def ofRow (row : Bool) : RowState :=
  if row then start else within

/-- The state behind some parts. -/
def after : Option Bool → RowState
  | some row => ofRow row
  | none => marked

variable {a b c : RowState} {s t l : List Char}

@[simp] theorem run_nil (a : RowState) : a.run [] = a := rfl

theorem run_cons (a : RowState) (x : Char) (s : List Char) : a.run (x :: s) = (a.next x).run s := rfl

theorem run_append (a : RowState) (s t : List Char) : a.run (s ++ t) = (a.run s).run t :=
  List.foldl_append

theorem run_marked (s : List Char) : marked.run s = marked := by
  induction s with
  | nil => rfl
  | cons x s ih => exact ih

theorem run_stray (s : List Char) : stray.run s = stray := by
  induction s with
  | nil => rfl
  | cons x s ih => exact ih

/-- What a text does to a row behind some parts, from what it does to every row. -/
theorem run_after {f : Bool → Option Bool} (h : ∀ row, (ofRow row).run s = after (f row))
    (o : Option Bool) : (after o).run s = after (o.bind f) := by
  cases o with
  | none => exact run_marked s
  | some row => exact h row

/-- What a row has shown stays shown to the end of the row. -/
theorem run_within (h : '\n' ∉ s) : within.run s = within := by
  induction s with
  | nil => rfl
  | cons x s ih =>
    simp only [List.mem_cons, not_or] at h
    have hx : within.next x = within := by simp [next, Ne.symm h.1]
    rw [run_cons, hx]
    exact ih h.2

/-- Spaces make no difference to a row between words. -/
theorem run_spaces {row : Bool} (hs : ∀ x ∈ s, x = ' ') : (ofRow row).run s = ofRow row := by
  induction s with
  | nil => rfl
  | cons x s ih =>
    obtain ⟨rfl, hrest⟩ := List.forall_mem_cons.mp hs
    have hx : (ofRow row).next ' ' = ofRow row := by cases row <;> rfl
    rw [run_cons, hx]
    exact ih hrest

theorem run_dropSpaces (row : Bool) (s : List Char) :
    (ofRow row).run (s.dropWhile (· = ' ')) = (ofRow row).run s := by
  have hs : ∀ x ∈ s.takeWhile (· = ' '), x = ' ' := fun _ => Text.eq_of_mem_takeWhile
  conv_rhs => rw [← List.takeWhile_append_dropWhile (p := (· = ' ')) (l := s)]
  rw [run_append, run_spaces hs]

theorem run_trimStartIf (trims : Bool) (row : Bool) (s : List Char) :
    (ofRow row).run (trimStartIf trims s) = (ofRow row).run s := by
  unfold trimStartIf
  split
  · exact run_dropSpaces row s
  · rfl

/-! ### Joined texts -/

theorem next_newline_newline (a : RowState) : (a.next '\n').next '\n' = a.next '\n' := by
  cases a <;> rfl

theorem run_replicate_newline (a : RowState) (n : Nat) :
    a.run (List.replicate (n + 1) '\n') = a.next '\n' := by
  induction n with
  | zero => rfl
  | succ n ih =>
    rw [List.replicate_succ', run_append, ih]
    exact next_newline_newline a

theorem run_replicate_newline_congr (a : RowState) {m n : Nat} (h : m = 0 ↔ n = 0) :
    a.run (List.replicate m '\n') = a.run (List.replicate n '\n') := by
  cases m with
  | zero => rw [h.mp rfl]
  | succ m =>
    cases n with
    | zero => exact absurd (h.mpr rfl) (Nat.succ_ne_zero m)
    | succ n => rw [run_replicate_newline, run_replicate_newline]

/-- Joining two texts merges the line feeds between them, but leaves one if there is any. -/
theorem run_join (a : RowState) (s t : List Char) : a.run (join s t) = (a.run s).run t := by
  have hs := trimEndWhile_append_trailingNewlines s
  have ht := replicate_leadingNewlines_append t
  have hn : min 2 (max (trailingNewlines s) (leadingNewlines t)) = 0 ↔
      trailingNewlines s + leadingNewlines t = 0 := by omega
  conv_rhs => rw [← hs, ← ht]
  rw [join, run_append, run_append, run_replicate_newline_congr _ hn, List.replicate_add, run_append,
    run_append, run_append]

/-! ### Lines -/

/-- A line that began neither with a space nor like a mark will not look like one. -/
theorem run_mem_of_mem (ha : a ∈ [bracket, within, stray]) (hs : '\n' ∉ s) :
    a.run s ∈ [bracket, within, stray] := by
  induction s generalizing a with
  | nil => exact ha
  | cons x s ih =>
    simp only [List.mem_cons, not_or] at hs
    refine ih ?_ hs.2
    simp only [List.mem_cons, List.not_mem_nil, or_false] at ha
    rcases ha with rfl | rfl | rfl
    · simp only [next, if_neg (Ne.symm hs.1)]
      split <;> decide
    · simp [next, Ne.symm hs.1]
    · exact List.mem_cons_of_mem _ (List.mem_cons_of_mem _ List.mem_cons_self)

theorem not_mem_of_mem (ha : a ∈ [bracket, within, stray]) : a ∉ [start, marked] := by
  simp only [List.mem_cons, List.not_mem_nil, or_false] at ha
  rcases ha with rfl | rfl | rfl <;> decide

/-- A line that is to look like a mark goes on with the next character of one. -/
theorem exists_cons_of_run {x : Char} (ha : a ∉ [start, marked])
    (hother : ∀ y, y ≠ '\n' → y ≠ x → a.next y ∈ [bracket, within, stray]) (hs : '\n' ∉ s)
    (h : a.run s ∈ [start, marked]) : ∃ t, s = x :: t := by
  cases s with
  | nil => exact absurd h ha
  | cons y t =>
    simp only [List.mem_cons, not_or] at hs
    by_cases hy : y = x
    · exact ⟨t, by rw [hy]⟩
    · rw [run_cons] at h
      exact absurd h (not_mem_of_mem (run_mem_of_mem (hother y (Ne.symm hs.1) hy) hs.2))

/-- What a line without a space in front is, by what it does to a row. -/
theorem run_line (hn : '\n' ∉ l) (hl : l.head? ≠ some ' ') :
    l = [] ∨ "&gt;".toList <+: l ∨ start.run l ∉ [start, marked] := by
  by_cases h : start.run l ∈ [start, marked]
  · cases l with
    | nil => exact .inl rfl
    | cons x l =>
      simp only [List.mem_cons, not_or] at hn
      have hspace : x ≠ ' ' := fun e => hl (congrArg some e)
      by_cases hamp : x = '&'
      · subst hamp
        obtain ⟨l, rfl⟩ := exists_cons_of_run (a := ampersand) (x := 'g') (by decide)
          (fun y _ hy => by simp only [next, if_neg hy]; split <;> decide) hn.2 h
        simp only [List.mem_cons, not_or] at hn
        obtain ⟨l, rfl⟩ := exists_cons_of_run (a := ampersandG) (x := 't') (by decide)
          (fun y _ hy => by simp only [next, if_neg hy]; decide) hn.2.2 h
        simp only [List.mem_cons, not_or] at hn
        obtain ⟨l, rfl⟩ := exists_cons_of_run (a := ampersandGt) (x := ';') (by decide)
          (fun y _ hy => by simp only [next, if_neg hy]; decide) hn.2.2.2 h
        exact .inr (.inl ⟨l, rfl⟩)
      · have hx : start.next x ∈ [bracket, within, stray] := by
          simp only [next, hspace, Ne.symm hn.1, hamp, decide_false, Bool.or_self, if_false,
            Bool.false_eq_true]
          split <;> decide
        rw [run_cons] at h
        exact absurd h (not_mem_of_mem (run_mem_of_mem hx hn.2))
  · exact .inr (.inr h)

end RowState

open RowState (ofRow after run_after)

/-! ## Texts -/

/-- Each character does to the row what its part does. -/
theorem run_entity {c : Char} (hc : isSpace c = false) (hz : c ≠ '\u0000') (row : Bool) :
    (ofRow row).run (Text.entity c) = after ((QuotePart.ofChar c).rowAfter? row) := by
  have hsplit := hc
  simp only [isSpace, Bool.or_eq_false_iff, decide_eq_false_iff_not] at hsplit
  obtain ⟨⟨⟨hspace, -⟩, -⟩, hn⟩ := hsplit
  by_cases hgt : c = '>'
  · subst hgt
    cases row <;> rfl
  have hpart : (QuotePart.ofChar c).rowAfter? row = some false := by
    simp only [QuotePart.ofChar, hn, hc, hz, hgt, decide_false, Bool.or_self, if_false,
      Bool.false_eq_true]
    split <;> rfl
  rw [hpart]
  by_cases hamp : c = '&'
  · subst hamp
    cases row <;> rfl
  by_cases hlt : c = '<'
  · subst hlt
    cases row <;> rfl
  have hnext : (ofRow row).next c = .within := by
    cases row <;> simp [ofRow, RowState.next, hn, hspace, hamp, hlt]
  rw [Text.entity_of_ne hamp hlt hgt, RowState.run_cons, hnext]
  rfl

theorem rowAfter?_of_isSpace {c : Char} (hc : isSpace c = true) (row : Bool) :
    (QuotePart.ofChar c).rowAfter? row = some row := by
  unfold QuotePart.ofChar
  split
  · rfl
  · rw [hc]
    rfl

theorem run_escapeEntity_squeezeFrom {content : List Char} (hz : '\u0000' ∉ content) (inRun row : Bool) :
    (ofRow row).run (Text.escapeEntity (Text.squeezeFrom isSpace ' ' inRun content))
      = after (rowAfter? row (content.map QuotePart.ofChar)) := by
  induction content generalizing inRun row with
  | nil => rfl
  | cons c content ih =>
    simp only [List.mem_cons, not_or] at hz
    rw [List.map_cons, rowAfter?_cons]
    simp only [Text.squeezeFrom]
    split
    next hspace =>
      have hfirst : (ofRow row).run (Text.escapeEntity (if inRun then [] else [' '])) = ofRow row := by
        refine RowState.run_spaces fun x hx => ?_
        cases inRun with
        | true => cases hx
        | false => exact List.mem_singleton.mp hx
      rw [Text.escapeEntity_append, RowState.run_append, hfirst, ih hz.2, rowAfter?_of_isSpace hspace]
      rfl
    next hspace =>
      rw [Text.escapeEntity_cons, RowState.run_append,
        run_entity (by simpa using hspace) (Ne.symm hz.1)]
      exact run_after (fun row => ih hz.2 false row) _

theorem layText_eq (trims : Bool) (content : List Char) :
    layText trims content
      = trimStartIf trims (Text.escapeEntity (Text.squeeze isSpace ' ' content)) := by
  rw [layText, trimStartIf_squeeze, ← trimStartIf_squeezeFrom]

theorem run_layText (trims : Bool) {content : List Char} (hz : '\u0000' ∉ content) (row : Bool) :
    (ofRow row).run (layText trims content) = after (rowAfter? row (textParts content)) := by
  rw [textParts, rowAfter?_filter, layText_eq, RowState.run_trimStartIf]
  exact run_escapeEntity_squeezeFrom hz false row

theorem newline_not_mem_layText (trims : Bool) (content : List Char) :
    '\n' ∉ layText trims content := by
  rw [layText, Text.mem_escapeEntity (by decide)]
  have hsqueeze := Text.not_mem_squeeze (p := isSpace) (c := ' ') (d := '\n') rfl (by decide) content
  cases trims with
  | false => exact hsqueeze
  | true => exact fun hm => hsqueeze ((List.dropWhile_suffix _).subset hm)

/-! ## Lines without a space in front -/

/-- Whether no line of a text but its first begins with a space. -/
def Unindented (s : List Char) : Prop :=
  s.IsChain fun a b => a = '\n' → b ≠ ' '

namespace Unindented

variable {s t l : List Char}

theorem nil : Unindented [] :=
  List.IsChain.nil

theorem of_not_mem (h : '\n' ∉ s ∨ ' ' ∉ s) : Unindented s := by
  refine (List.pairwise_of_forall_mem_list fun a ha b hb hn hspace => ?_).isChain
  subst hn hspace
  exact h.elim (· ha) (· hb)

theorem append (hs : Unindented s) (ht : Unindented t)
    (h : s.getLast? = some '\n' → t.head? ≠ some ' ') : Unindented (s ++ t) := by
  refine List.isChain_append.mpr ⟨hs, ht, fun x hx y hy hn hspace => ?_⟩
  subst hn hspace
  exact h hx hy

theorem left (h : Unindented (s ++ t)) : Unindented s :=
  (List.isChain_append.mp h).1

theorem right (h : Unindented (s ++ t)) : Unindented t :=
  (List.isChain_append.mp h).2.1

theorem dropWhile (p : Char → Bool) (h : Unindented s) : Unindented (s.dropWhile p) :=
  right (s := s.takeWhile p) (by rwa [List.takeWhile_append_dropWhile])

theorem trimEndWhile (p : Char → Bool) (h : Unindented s) : Unindented (Text.trimEndWhile p s) :=
  left (t := Text.takeEndWhile p s) (by rwa [Text.trimEndWhile_append_takeEndWhile])

theorem trimWhile (p : Char → Bool) (h : Unindented s) : Unindented (Text.trimWhile p s) :=
  (h.dropWhile p).trimEndWhile p

theorem trimStartIf (trims : Bool) (h : Unindented s) :
    Unindented (Mrkdwn.trimStartIf trims s) ∧
      (trims = true → (Mrkdwn.trimStartIf trims s).head? ≠ some ' ') := by
  unfold Mrkdwn.trimStartIf
  split
  · exact ⟨h.dropWhile _, fun _ => head?_dropWhile_ne ' ' s⟩
  next htrims => exact ⟨h, fun e => absurd e htrims⟩

/-- Behind line feeds at the start of a text there is no space. -/
theorem head?_dropWhile_newline (h : Unindented s) (hfirst : s.head? ≠ some ' ') :
    (s.dropWhile (· = '\n')).head? ≠ some ' ' := by
  induction s with
  | nil => exact hfirst
  | cons c s ih =>
    by_cases hc : c = '\n'
    · subst hc
      obtain ⟨hnext, hs⟩ := List.isChain_cons.mp h
      exact ih hs fun hhead => hnext _ hhead rfl rfl
    · rwa [List.dropWhile_cons_of_neg (by simpa using hc)]

theorem join (hs : Unindented s) (ht : Unindented t)
    (h : s.getLast? = some '\n' → t.head? ≠ some ' ') : Unindented (Mrkdwn.join s t) := by
  have hfeeds : ∀ n, Unindented (List.replicate n '\n') := fun n =>
    List.isChain_replicate_of_rel n (by decide)
  unfold Mrkdwn.join
  by_cases hend : s.getLast? = some '\n' ∨ t.head? ≠ some ' '
  · have hhead : t.head? ≠ some ' ' := hend.elim h id
    refine ((hs.trimEndWhile _).append (hfeeds _) fun _ => ?_).append (ht.dropWhile _) fun _ =>
      ht.head?_dropWhile_newline hhead
    cases min 2 (max (trailingNewlines s) (leadingNewlines t)) with
    | zero => exact nofun
    | succ n => simp [List.replicate_succ]
  · -- a text that begins with a space has no line feed before it
    simp only [not_or, not_not] at hend
    obtain ⟨hlast, hhead⟩ := hend
    have hfirst : t.head? ≠ some '\n' := by
      rw [hhead]
      decide
    rw [trailingNewlines_eq_zero.mpr hlast, leadingNewlines_eq_zero.mpr hfirst,
      trimEndWhile_of_getLast?_ne hlast, dropWhile_of_head?_ne hfirst, Nat.max_self, Nat.min_zero,
      List.replicate_zero, List.append_nil]
    exact hs.append ht h

/-- No line begins with a space where the text does not. -/
theorem head?_ne_of_mem_lines (h : Unindented s) (hfirst : s.head? ≠ some ' ') :
    ∀ l ∈ Text.lines s, l.head? ≠ some ' ' := by
  induction hn : s.length using Nat.strong_induction_on generalizing s with
  | _ n ih =>
    by_cases hline : '\n' ∈ s
    · obtain ⟨l, t, rfl, hl⟩ := List.eq_append_cons_of_mem hline
      obtain ⟨hnext, ht⟩ := List.isChain_cons.mp h.right
      rw [Text.lines_append, Text.lines_of_not_mem hl]
      refine List.forall_mem_append.mpr ⟨List.forall_mem_singleton.mpr fun hhead => ?_, ?_⟩
      · exact hfirst (by rw [List.head?_append, hhead]; rfl)
      · exact ih t.length (by simp [← hn]; omega) ht (fun hhead => hnext _ hhead rfl rfl) rfl
    · rw [Text.lines_of_not_mem hline]
      exact List.forall_mem_singleton.mpr hfirst

end Unindented

/-! ## Styles -/

/-- A delimiter, which no row begins like a mark with. -/
def IsDelimiter (delimiter : List Char) : Prop :=
  delimiter ≠ [] ∧ ∀ c ∈ delimiter, c ∈ zeroWidthSpace :: delimiterChars

theorem IsDelimiter.run {delimiter s : List Char} (h : IsDelimiter delimiter) (hs : '\n' ∉ s)
    (row : Bool) : (ofRow row).run (delimiter ++ s) = .within := by
  obtain ⟨c, delimiter, rfl⟩ := List.exists_cons_of_ne_nil h.1
  have hchars : ∀ x ∈ zeroWidthSpace :: delimiterChars, x ≠ '\n' ∧
      RowState.next .start x = .within ∧ RowState.next .within x = .within :=
    Text.forall_mem_of_all (by decide)
  obtain ⟨-, hstart, hwithin⟩ := hchars c (h.2 c List.mem_cons_self)
  have hnext : (ofRow row).next c = .within := by
    cases row
    · exact hwithin
    · exact hstart
  have hline : '\n' ∉ delimiter ++ s := by
    rw [List.mem_append, not_or]
    exact ⟨fun hm => (hchars _ (h.2 _ (List.mem_cons_of_mem _ hm))).1 rfl, hs⟩
  rw [List.cons_append, RowState.run_cons, hnext]
  exact RowState.run_within hline

namespace RowState

/-- A state behind a text in delimiters, told by the one behind the text. They differ only where it is
open what the row begins with, since then it has begun with a delimiter. -/
def Wraps (a b : RowState) : Prop :=
  b = stray ∨ a = b ∨ a = within ∧ b ∉ [start, marked]

variable {a b : RowState} {t : List Char}

theorem Wraps.next_newline (h : Wraps a b) :
    b.next '\n' = stray ∨ a.next '\n' = b.next '\n' ∧ (b.next '\n' = start ∨ b.next '\n' = marked) := by
  rcases h with rfl | rfl | ⟨rfl, hb⟩
  · exact .inl rfl
  · cases a <;> simp [next]
  · cases b <;> simp_all [next]

theorem run_spaces_mem (ha : a ∈ [ampersand, ampersandG, ampersandGt, bracket, stray])
    (ht : ∀ x ∈ t, x = ' ') : a.run t ∈ [ampersand, ampersandG, ampersandGt, bracket, stray] := by
  induction t generalizing a with
  | nil => exact ha
  | cons x t ih =>
    obtain ⟨rfl, hrest⟩ := List.forall_mem_cons.mp ht
    refine ih ?_ hrest
    simp only [List.mem_cons, List.not_mem_nil, or_false] at ha
    rcases ha with rfl | rfl | rfl | rfl | rfl <;> simp [next]

theorem after_not_mem (o : Option Bool) :
    after o ∉ [ampersand, ampersandG, ampersandGt, bracket, stray] := by
  rcases o with _ | _ | _ <;> decide

/-- Spaces neither settle what a row begins with nor unsettle it. -/
theorem run_spaces_eq_after (ht : ∀ x ∈ t, x = ' ') {o : Option Bool} :
    a.run t = after o ↔ a = after o := by
  constructor
  · intro h
    by_cases hopen : a ∈ [ampersand, ampersandG, ampersandGt, bracket, stray]
    · exact absurd (h ▸ run_spaces_mem hopen ht) (after_not_mem o)
    · have hsettled : a = after (some true) ∨ a = after (some false) ∨ a = after none := by
        cases a <;> simp_all [after, ofRow]
      rcases hsettled with rfl | rfl | rfl
      · rw [← h]
        exact (run_spaces ht).symm
      · rw [← h]
        exact (run_spaces ht).symm
      · rw [← h]
        exact (run_marked t).symm
  · rintro rfl
    cases o with
    | none => exact run_marked t
    | some row => exact run_spaces ht

theorem Wraps.eq_after {o : Option Bool} (h : Wraps a (after o)) : a = after o := by
  rcases h with h | h | ⟨rfl, h⟩
  · exact absurd (by rw [h]; decide) (after_not_mem o)
  · exact h
  · rcases o with _ | _ | _
    · exact absurd (by decide) h
    · rfl
    · exact absurd (by decide) h

/-- A rule that wraps each line wraps a text. -/
theorem wraps_unlines_map {f : List Char → List Char} {ls : List (List Char)}
    (hf : ∀ l ∈ ls, ∀ row, Wraps ((ofRow row).run (f l)) ((ofRow row).run l)) (row : Bool) :
    Wraps ((ofRow row).run (Text.unlines (ls.map f))) ((ofRow row).run (Text.unlines ls)) := by
  induction ls generalizing row with
  | nil => exact .inr (.inl rfl)
  | cons l ls ih =>
    obtain ⟨hl, hls⟩ := List.forall_mem_cons.mp hf
    cases ls with
    | nil =>
      rw [List.map_singleton, Text.unlines_singleton, Text.unlines_singleton]
      exact hl row
    | cons m ms =>
      rw [List.map_cons, Text.unlines_cons _ (by simp), Text.unlines_cons l (by simp), run_append,
        run_append, run_cons, run_cons]
      rcases (hl row).next_newline with hstray | ⟨heq, hstart | hmarked⟩
      · rw [hstray, run_stray]
        exact .inl rfl
      · rw [heq, hstart]
        exact ih hls true
      · rw [heq, hmarked, run_marked, run_marked]
        exact .inr (.inl rfl)

end RowState

open RowState (Wraps)

variable {l : List Char}

theorem splitQuoteMark_cases (l : List Char) :
    "&gt;".toList <+: l ∧ "&gt;".toList <+: (splitQuoteMark l).1 ∨
      ¬"&gt;".toList <+: l ∧ splitQuoteMark l = ([], l) := by
  fun_cases splitQuoteMark l with
  | case1 s => exact .inl ⟨⟨' ' :: s, rfl⟩, ⟨[' '], rfl⟩⟩
  | case2 s => exact .inl ⟨⟨s, rfl⟩, ⟨[], rfl⟩⟩
  | case3 s _ h =>
    refine .inr ⟨?_, rfl⟩
    rintro ⟨t, ht⟩
    exact h t ht.symm

theorem run_of_starts (h : "&gt;".toList <+: l) : RowState.start.run l = .marked := by
  obtain ⟨t, rfl⟩ := h
  exact RowState.run_marked t

/-- A line without a space in front is wrapped behind the mark that it begins with, if any. -/
theorem wraps_wrapLine {delimiter : List Char} (hd : IsDelimiter delimiter) (wrapsFences : Bool)
    (hn : '\n' ∉ l) (hl : l.head? ≠ some ' ') (row : Bool) :
    Wraps ((ofRow row).run (wrapLine delimiter wrapsFences l)) ((ofRow row).run l) := by
  rw [wrapLine_eq]
  split
  next rest hrest =>
    obtain rfl := wrappedText?_eq_some hrest
    have hsplit := splitQuoteMark_append l
    have hdelimiter : '\n' ∉ delimiter := fun hm =>
      not_mem_of_mem_delimiterChars (hd.2 _ hm) (by simp)
    cases row with
    | false =>
      have hwithin := RowState.run_within hn
      rw [← hsplit, List.mem_append, not_or] at hn
      refine .inr (.inl (Eq.trans (RowState.run_within ?_) hwithin.symm))
      simp [hn, hdelimiter]
    | true =>
      rcases splitQuoteMark_cases l with ⟨hline, hquote⟩ | ⟨hline, hquote⟩
      · refine .inr (.inl (Eq.trans (run_of_starts ?_) (run_of_starts hline).symm))
        simp only [List.append_assoc]
        exact hquote.trans (List.prefix_append _ _)
      · rw [hquote, List.nil_append, List.append_assoc, hd.run (by simp [hn, hdelimiter])]
        refine .inr (.inr ⟨rfl, ?_⟩)
        rcases RowState.run_line hn hl with rfl | hmark | hne
        · have hblank := wrapLine_nil delimiter wrapsFences
          rw [wrapLine_eq, hrest] at hblank
          simp [hd.1] at hblank
        · exact absurd hmark hline
        · exact hne
  · exact .inr (.inl rfl)

variable {d : Delimiters}

theorem rowNames_subset_styleNames : rowNames ⊆ styleNames := by
  decide

theorem wraps_layInline (hd : Delimiting d) {name : String} (hn : name ∈ rowNames) (attrs : Attrs)
    {s : List Char} (hs : Unindented s) (hfirst : s.head? ≠ some ' ') (row : Bool) :
    Wraps ((ofRow row).run (layInline d name attrs s)) ((ofRow row).run s) := by
  rw [layInline_of_mem_styleNames d (rowNames_subset_styleNames hn)]
  cases h : styleDelimiter? d name with
  | none => exact .inr (.inl rfl)
  | some p =>
    have hline : ∀ l ∈ Text.lines s, ∀ row,
        Wraps ((ofRow row).run (wrapLine p.1 p.2 l)) ((ofRow row).run l) :=
      fun l hl => wraps_wrapLine (hd.styleDelimiter? h) p.2 (newline_not_mem_of_mem_lines hl)
        (hs.head?_ne_of_mem_lines hfirst l hl)
    have hlines := RowState.wraps_unlines_map hline row
    rwa [Text.unlines_lines] at hlines

/-- A style, or no look at all, leaves what a text does to a row. -/
theorem run_layAround (hd : Delimiting d) {name : String} (hn : name ∈ rowNames) (attrs : Attrs)
    (place : Mrkdwn.Place) {s : List Char} (hs : Unindented s) {row : Bool} {o : Option Bool}
    (h : (ofRow row).run s = after o) :
    (ofRow row).run (layAround d name attrs place s) = after o := by
  have hstyle := rowNames_subset_styleNames hn
  have hfirst : ∀ x ∈ s.takeWhile (· = ' '), x = ' ' := fun _ => Text.eq_of_mem_takeWhile
  have hlast : ∀ x ∈ Text.takeEndWhile (· = ' ') s, x = ' ' := fun _ => Text.eq_of_mem_takeEndWhile
  rw [layAround_of_mem hstyle, RowState.run_append, RowState.run_append, RowState.run_spaces hfirst]
  rcases Text.trimWhile_cases (· = ' ') s with ⟨hall, htrim⟩ | hcut
  · rw [RowState.run_spaces fun x hx => of_decide_eq_true (hall x hx)] at h
    rw [htrim, layInline_nil d hstyle, RowState.run_nil, RowState.run_spaces hlast, h]
  · have hwraps := wraps_layInline hd hn attrs (hs.trimWhile _) (ends_trimSpaces s).1 row
    rw [← hcut, RowState.run_append, RowState.run_append, RowState.run_spaces hfirst,
      RowState.run_spaces_eq_after hlast] at h
    rw [RowState.run_spaces_eq_after hlast]
    exact (h ▸ hwraps).eq_after

theorem unindented_layAround (hd : Delimiting d) {name : String} (hn : name ∈ rowNames)
    (attrs : Attrs) (place : Mrkdwn.Place) {content : List Char} (h : Unindented content) :
    Unindented (layAround d name attrs place content) := by
  have hstyle := rowNames_subset_styleNames hn
  have hput : ∀ c ∈ zeroWidthSpace :: delimiterChars, ∀ a : Char,
      (a = '\n' → c ≠ ' ') ∧ (c = '\n' → a ≠ ' ') := by
    intro c hc a
    have hne := not_mem_of_mem_delimiterChars hc
    simp only [List.mem_cons, not_or] at hne
    exact ⟨fun _ => hne.1, fun e => absurd e hne.2.1⟩
  rcases Text.trimWhile_cases (· = ' ') content with ⟨hall, htrim⟩ | hcut
  · have hspaces : ∀ c ∈ content.takeWhile (· = ' ') ++ Text.takeEndWhile (· = ' ') content, c = ' ' :=
      List.forall_mem_append.mpr
        ⟨fun _ => Text.eq_of_mem_takeWhile, fun _ => Text.eq_of_mem_takeEndWhile⟩
    rw [layAround_of_mem hstyle, htrim, layInline_nil d hstyle, List.append_nil]
    exact .of_not_mem (.inl fun hm => absurd (hspaces _ hm) (by decide))
  · exact (withDelimiters_layAround hd hstyle attrs place hcut).isChain hput h

/-! ## Layout -/

theorem run_bracket {s : List Char} (h : ∀ c ∈ s, c ≠ '&' ∧ c ≠ '\n') :
    RowState.bracket.run s = .bracket := by
  induction s with
  | nil => rfl
  | cons c s ih =>
    obtain ⟨⟨hamp, hn⟩, hs⟩ := List.forall_mem_cons.mp h
    have hc : RowState.bracket.next c = .bracket := by simp [RowState.next, hamp, hn]
    rw [RowState.run_cons, hc]
    exact ih hs

/-- A bracket with a line feed behind it, without an ampersand between, ends a row. -/
theorem run_bracket_newline {s : List Char} (h : ∀ c ∈ s, c ≠ '&' ∧ c ≠ '\n') (row : Bool) :
    (ofRow row).run ('<' :: s ++ ['\n']) = .start := by
  rw [RowState.run_append]
  cases row with
  | true =>
    show (RowState.bracket.run s).run ['\n'] = _
    rw [run_bracket h]
    rfl
  | false =>
    have hs : '\n' ∉ '<' :: s := by
      rw [List.mem_cons, not_or]
      exact ⟨by decide, fun hm => (h _ hm).2 rfl⟩
    rw [show ofRow false = .within from rfl, RowState.run_within hs]
    rfl

theorem run_breakMark (row : Bool) : (ofRow row).run (breakMark ++ ['\n']) = .start :=
  run_bracket_newline (s := "br />".toList) (Text.forall_mem_of_all (by decide)) row

/-- A placeholder is a bracket without ampersands, spaces and line feeds on a line of its own. -/
theorem exists_placeholder (n : Nat) (singleLine : Bool) :
    ∃ s, placeholder n singleLine = '\n' :: ('<' :: s ++ ['\n']) ∧
      ∀ c ∈ s, c ≠ '&' ∧ c ≠ '\n' ∧ c ≠ ' ' := by
  refine ⟨"<pre:".toList ++ Text.ofNat n ++ (if singleLine then ['s'] else []) ++ ['>', '>'], rfl, ?_⟩
  have hnumber : ∀ c ∈ Text.ofNat n, c ≠ '&' ∧ c ≠ '\n' ∧ c ≠ ' ' := fun c hc =>
    ⟨fun e => absurd (digit_of_mem_ofNat (e ▸ hc)).1 (by decide), (digit_of_mem_ofNat hc).2.2.2,
      fun e => absurd (digit_of_mem_ofNat (e ▸ hc)).1 (by decide)⟩
  have hsingle : ∀ c ∈ (if singleLine then ['s'] else []), c ≠ '&' ∧ c ≠ '\n' ∧ c ≠ ' ' := by
    cases singleLine <;> exact Text.forall_mem_of_all (by decide)
  simp only [List.forall_mem_append]
  exact ⟨⟨⟨Text.forall_mem_of_all (by decide), hnumber⟩, hsingle⟩, Text.forall_mem_of_all (by decide)⟩

theorem run_placeholder (row : Bool) (n : Nat) (singleLine : Bool) :
    (ofRow row).run (placeholder n singleLine) = .start := by
  obtain ⟨s, hs, hchars⟩ := exists_placeholder n singleLine
  have hfirst : (ofRow row).next '\n' = ofRow true := by cases row <;> rfl
  rw [hs, RowState.run_cons, hfirst]
  exact run_bracket_newline (fun c hc => ⟨(hchars c hc).1, (hchars c hc).2.1⟩) true

theorem unindented_placeholder (n : Nat) (singleLine : Bool) :
    Unindented (placeholder n singleLine) := by
  obtain ⟨s, hs, hchars⟩ := exists_placeholder n singleLine
  rw [hs]
  refine .of_not_mem (.inr ?_)
  simp only [List.mem_cons, List.mem_append, List.not_mem_nil, or_false, not_or]
  exact ⟨by decide, ⟨by decide, fun hm => (hchars _ hm).2.2 rfl⟩, by decide⟩

theorem unindented_layBlank (name : String) (children : List Dom) :
    Unindented (layBlank name children) := by
  unfold layBlank
  split
  · exact .of_not_mem (.inr (by decide))
  · split <;> exact .of_not_mem (.inl (by decide))

/-- An element that shows nothing ends the row if it is a code block, and else leaves a space at most. -/
theorem run_layBlank {name : String} {attrs : Attrs} {children : List Dom}
    (h : isQuotable (.element name attrs children) = true) (hbr : name ≠ "br")
    (hb : (Dom.element name attrs children).isBlank = true) (row : Bool) :
    (ofRow row).run (layBlank name children)
      = after (rowAfter? row (quoteParts (.element name attrs children))) := by
  rcases (isQuotable_element h).1 with ⟨rfl, -⟩ | hname | ⟨code, rfl, hcode⟩
  · exact absurd rfl hbr
  · have hblock := (ne_of_mem_rowNames hname).2.2.1
    rw [quoteParts_of_mem_rowNames hname, if_pos hb]
    simp only [layBlank, hblock, Bool.false_eq_true, if_false]
    refine RowState.run_spaces fun x hx => ?_
    split at hx
    · cases hx
    · exact List.mem_singleton.mp hx
  · rw [quoteParts_of_fencedCode? hcode]
    cases row <;> rfl

mutual

theorem unindented_layNode (hd : Delimiting d) (trims : Bool) (place : Mrkdwn.Place) (F : Fences) :
    (n : Dom) → isQuotable n = true →
      Unindented (layNode d trims place F n).text ∧
        (trims = true → (layNode d trims place F n).text.head? ≠ some ' ')
  | .text content, _ => by
    simp only [layNode, layText_eq]
    exact (Unindented.of_not_mem (.inl (newline_not_mem_layText false content))).trimStartIf trims
  | .comment, _ => by
    simp only [layNode]
    exact ⟨.nil, nofun⟩
  | .element name attrs children, h => by
    obtain ⟨hname, hc⟩ := isQuotable_element h
    simp only [layNode]
    split
    · exact (unindented_layBlank name children).trimStartIf trims
    · rcases hname with ⟨rfl, rfl⟩ | hname | ⟨code, rfl, hcode⟩
      · have hcode : fencedCode? "br" [] = none := rfl
        have hmark : Unindented (breakMark ++ ['\n']) :=
          (Unindented.of_not_mem (.inl (by decide))).append (.of_not_mem (.inr (by decide)))
            fun _ => by decide
        simp only [hcode]
        exact hmark.trimStartIf trims
      · have hinner := unindented_layNodes hd name attrs (isBlockName name) 0 ⟨[], F⟩ .nil children hc
        simp only [fencedCode?_of_ne (ne_of_mem_rowNames hname).2.1 children]
        exact (unindented_layAround hd hname attrs place hinner).trimStartIf trims
      · simp only [hcode]
        exact ⟨unindented_placeholder _ _, fun _ => by rw [placeholder]; exact nofun⟩

/-- No line of a quotation that is laid out begins with a space, but for the first. -/
theorem unindented_layNodes (hd : Delimiting d) (parent : String) (parentAttrs : Attrs) (isBlock : Bool)
    (elementsBefore : Nat) (laid : Laid) (hl : Unindented laid.text) :
    (ns : List Dom) → areQuotable ns = true →
      Unindented (layNodes d parent parentAttrs isBlock elementsBefore laid ns).text
  | [], _ => by
    simpa only [layNodes] using hl
  | n :: ns, h => by
    simp only [areQuotable, Bool.and_eq_true] at h
    simp only [layNodes]
    obtain ⟨hnode, hhead⟩ := unindented_layNode hd (afterSpace laid.text isBlock)
      ⟨parent, parentAttrs, elementsBefore, !ns.isEmpty, ns.any Dom.isElement⟩ laid.fences n h.1
    refine unindented_layNodes hd parent parentAttrs isBlock _ ⟨_, _⟩ (hl.join hnode fun hlast => ?_) ns h.2
    exact hhead (by simp [afterSpace, hlast])

end

mutual

theorem run_layNode (hd : Delimiting d) (trims : Bool) (place : Mrkdwn.Place) (F : Fences) (row : Bool) :
    (n : Dom) → isQuotable n = true →
      (ofRow row).run (layNode d trims place F n).text = after (rowAfter? row (quoteParts n))
  | .text content, h => by
    simp only [layNode]
    exact run_layText trims (of_decide_eq_true h) row
  | .comment, _ => rfl
  | .element name attrs children, h => by
    obtain ⟨hname, hc⟩ := isQuotable_element h
    simp only [layNode]
    split
    next hblank =>
      rw [Bool.and_eq_true, Bool.not_eq_true'] at hblank
      have hbr : name ≠ "br" := by
        rintro rfl
        cases hblank.1
      rw [RowState.run_trimStartIf, run_layBlank h hbr hblank.2]
    next hblank =>
      rcases hname with ⟨rfl, rfl⟩ | hname | ⟨code, rfl, hcode⟩
      · have hcode : fencedCode? "br" [] = none := rfl
        simp only [hcode]
        rw [RowState.run_trimStartIf]
        exact run_breakMark row
      · obtain ⟨-, hpre, -, hshows⟩ := ne_of_mem_rowNames hname
        rw [hshows, Bool.not_false, Bool.true_and] at hblank
        simp only [fencedCode?_of_ne hpre children]
        rw [RowState.run_trimStartIf, quoteParts_of_mem_rowNames hname, if_neg hblank]
        exact run_layAround hd hname attrs place
          (unindented_layNodes hd name attrs (isBlockName name) 0 ⟨[], F⟩ .nil children hc)
          (run_layNodes hd name attrs (isBlockName name) 0 ⟨[], F⟩ (o := some row) rfl children hc)
      · rw [quoteParts_of_fencedCode? hcode]
        simp only [hcode]
        exact run_placeholder row _ _

/-- What nodes do to a row is what their parts do. -/
theorem run_layNodes (hd : Delimiting d) (parent : String) (parentAttrs : Attrs) (isBlock : Bool)
    (elementsBefore : Nat) (laid : Laid) {a : RowState} {o : Option Bool} (hl : a.run laid.text = after o) :
    (ns : List Dom) → areQuotable ns = true →
      a.run (layNodes d parent parentAttrs isBlock elementsBefore laid ns).text
        = after (o.bind (rowAfter? · (quotePartsOf ns)))
  | [], _ => by
    simpa [layNodes, quotePartsOf] using hl
  | n :: ns, h => by
    simp only [areQuotable, Bool.and_eq_true] at h
    simp only [layNodes]
    have hnode : a.run (join laid.text (layNode d (afterSpace laid.text isBlock)
        ⟨parent, parentAttrs, elementsBefore, !ns.isEmpty, ns.any Dom.isElement⟩ laid.fences n).text)
        = after (o.bind (rowAfter? · (quoteParts n))) := by
      rw [RowState.run_join, hl]
      exact run_after (fun row => run_layNode hd _ _ laid.fences row n h.1) o
    rw [run_layNodes hd parent parentAttrs isBlock _ _ hnode ns h.2]
    simp only [quotePartsOf, rowAfter?_append, Option.bind_assoc]

end

end MessageLayout.Mrkdwn
