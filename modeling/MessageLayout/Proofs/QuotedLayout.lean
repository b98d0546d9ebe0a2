import MessageLayout.Proofs.LinkLines
import MessageLayout.Proofs.QuoteRows

/-!
# Layout of quotations

A quotation is laid out on rows, each behind a mark. Code comes back last, so a code block stands on
the row of its placeholder, however many lines it has. If the last row is blank its mark loses its
space.

    ofDoms d [.element "blockquote" attrs ns] = unlines rows ∧ QuotationRows (codeBlocksOf _ ns) rows ∧
      ((∀ row ∈ rows, ¬IsDoublyQuoted row) ↔ (rowAfter? true (quotePartsOf ns)).isSome)
                                                                             (ofDoms_blockquote)
-/

namespace MessageLayout.Mrkdwn

open Html
open RowState (ofRow)

/-! ## Breaks and code in rows -/

theorem dropBreakMarks_append_newline (s t : List Char) :
    dropBreakMarks (s ++ '\n' :: t) = dropBreakMarks s ++ '\n' :: dropBreakMarks t := by
  fun_induction dropBreakMarks s with
  | case1 => exact dropBreakMarks_cons (by decide) t
  | case2 s ih => exact (dropBreakMarks_breakMark_append (s ++ '\n' :: t)).trans ih
  | case3 c s h ih =>
    have hcons : dropBreakMarks (c :: (s ++ '\n' :: t)) = c :: dropBreakMarks (s ++ '\n' :: t) := by
      refine dropBreakMarks.eq_3 c _ fun u hc hu => ?_
      have hu' : s ++ '\n' :: t = "br />".toList ++ u := hu
      rcases List.append_eq_append_iff.mp hu' with ⟨w, hw, hwt⟩ | ⟨w, hw, -⟩
      · cases w with
        | nil => exact h [] hc (by simpa using hw.symm)
        | cons x w =>
          obtain ⟨rfl, -⟩ := List.cons.inj hwt
          have hm : '\n' ∈ "br />".toList := by
            rw [hw]
            simp
          exact absurd hm (by decide)
      · exact h w hc hw
    rw [List.cons_append, hcons, ih, List.cons_append]

theorem newline_not_mem_placeholder {p : Placeholder} (hp : p.WellFormed) : '\n' ∉ p.text := by
  have hdigits : '\n' ∉ p.digits := fun hm => absurd (hp.2 _ hm) (by decide)
  have hsingle : '\n' ∉ (if p.singleLine then ['s'] else []) := by split <;> decide
  simp [Placeholder.text, Placeholder.opening, hdigits, hsingle]

/-- No placeholder stands on two lines. -/
theorem pieces_append_newline (s t : List Char) :
    pieces (s ++ '\n' :: t) = pieces s ++ .char '\n' :: pieces t := by
  fun_induction pieces s with
  | case1 => exact pieces_cons (read?_cons_of_ne (by decide) t)
  | case2 c s p rest h _ ih =>
    have hread : Placeholder.read? (c :: s ++ '\n' :: t) = some (p, rest ++ '\n' :: t) := by
      rw [Placeholder.eq_append_of_read? h, List.append_assoc]
      exact Placeholder.read?_text_append (Placeholder.wellFormed_of_read? h) _
    rw [pieces_of_read? hread, ih, List.cons_append]
  | case3 c s h ih =>
    have hread : Placeholder.read? (c :: (s ++ '\n' :: t)) = none := by
      cases hr : Placeholder.read? (c :: (s ++ '\n' :: t)) with
      | none => rfl
      | some r =>
        obtain ⟨p, rest⟩ := r
        have hp := Placeholder.wellFormed_of_read? hr
        have heq : (c :: s) ++ '\n' :: t = p.text ++ rest := Placeholder.eq_append_of_read? hr
        rcases List.append_eq_append_iff.mp heq with ⟨w, hw, hwt⟩ | ⟨w, hw, -⟩
        · cases w with
          | nil =>
            rw [List.append_nil] at hw
            have hself := Placeholder.read?_text_append hp []
            rw [List.append_nil, hw, h] at hself
            cases hself
          | cons x w =>
            obtain ⟨rfl, -⟩ := List.cons.inj hwt
            refine absurd ?_ (newline_not_mem_placeholder hp)
            rw [hw]
            simp
        · rw [hw, Placeholder.read?_text_append hp] at h
          cases h
    rw [List.cons_append, pieces_cons hread, ih, List.cons_append]

theorem restore_append_newline (F : Fences) (s t : List Char) :
    restore F (s ++ '\n' :: t) = restore F s ++ '\n' :: restore F t := by
  rw [restore, pieces_append_newline, List.flatMap_append, List.flatMap_cons]
  rfl

/-- Break marks and placeholders are replaced line by line. -/
theorem restore_dropBreakMarks_unlines (F : Fences) (ls : List (List Char)) :
    restore F (dropBreakMarks (Text.unlines ls))
      = Text.unlines (ls.map fun l => restore F (dropBreakMarks l)) := by
  induction ls with
  | nil => exact restore_nil F
  | cons l ls ih =>
    cases ls with
    | nil => rw [List.map_singleton, Text.unlines_singleton, Text.unlines_singleton]
    | cons m ms =>
      rw [Text.unlines_cons l (List.cons_ne_nil m ms), dropBreakMarks_append_newline,
        restore_append_newline, ih, ← Text.unlines_cons _ (by simp)]
      rfl

/-! ## Rows of a quotation -/

/-- A text on one row, with whole code blocks in it. -/
inductive RowText : List CodeBlock → List Char → Prop
  | nil : RowText [] []
  | char {blocks : List CodeBlock} {c : Char} {s : List Char} :
      c ≠ '\n' → RowText blocks s → RowText blocks (c :: s)
  | code {blocks : List CodeBlock} {s : List Char} (b : CodeBlock) :
      RowText blocks s → RowText (b :: blocks) (b.text ++ s)

/-- The rows of a quotation that holds some code blocks: each stands behind a mark. If the last one is
blank nothing stands behind its mark, not even the space. -/
inductive QuotationRows : List CodeBlock → List (List Char) → Prop
  | last {blocks : List CodeBlock} {s : List Char} :
      RowText blocks s → QuotationRows blocks [quoteMark ++ s]
  | blankLast : QuotationRows [] ["&gt;".toList]
  | cons {blocks more : List CodeBlock} {s : List Char} {rows : List (List Char)} :
      RowText blocks s → QuotationRows more rows →
        QuotationRows (blocks ++ more) ((quoteMark ++ s) :: rows)

/-- Whether a row seems to have two marks. -/
def IsDoublyQuoted (row : List Char) : Prop :=
  quoteMark ++ "&gt;".toList <+: row

section Rows

variable {F : Fences} {ms : List Mark} {blocks : List CodeBlock} {l : List Char}

/-- A line with placeholders becomes a row with their code. -/
theorem rowText_of_marked (h : Marked ms l) (hl : '\n' ∉ l)
    (hms : ms.map (Mark.restored F) = blocks.map CodeBlock.text) :
    RowText blocks (restore F (dropBreakMarks l)) := by
  have hdrop : '\n' ∉ dropBreakMarks l := fun hm => hl ((dropBreakMarks_sublist l).subset hm)
  have hmarked := h.dropBreakMarks
  generalize dropBreakMarks l = s at hdrop hmarked
  clear h hl
  induction hmarked generalizing blocks with
  | nil =>
    obtain rfl := List.map_eq_nil_iff.mp hms.symm
    rw [restore_nil]
    exact .nil
  | char hc _ ih =>
    simp only [List.mem_cons, not_or] at hdrop
    rw [restore_cons (read?_cons_of_ne hc _)]
    exact .char (Ne.symm hdrop.1) (ih hms hdrop.2)
  | opening hc _ _ ih =>
    simp only [List.mem_cons, not_or] at hdrop ih
    rw [restore_cons (Marked.read?_eq_none hc _)]
    exact .char (by decide) (ih hms hdrop.2)
  | mark m _ ih =>
    rw [List.map_cons, eq_comm, List.map_eq_cons_iff] at hms
    obtain ⟨b, blocks, rfl, hb, hrest⟩ := hms
    rw [Marked.restore_mark, ← hb]
    exact .code b (ih hrest.symm fun hm => hdrop (List.mem_append_right _ hm))

theorem head?_restore_ne {s : List Char} (h : '&' ∉ s) : (restore F s).head? ≠ some '&' := by
  cases s with
  | nil =>
    rw [restore_nil]
    exact nofun
  | cons c s =>
    cases hr : Placeholder.read? (c :: s) with
    | none =>
      rw [restore_cons hr]
      simp only [List.mem_cons, not_or] at h
      simpa using Ne.symm h.1
    | some r =>
      obtain ⟨p, rest⟩ := r
      have hpiece : ∃ x w, (Piece.mark p).restore F = x :: w ∧ x ≠ '&' := by
        simp only [Piece.restore]
        split
        · simp only [fenced]
          split <;> exact ⟨'\x60', _, rfl, by decide⟩
        · exact ⟨'<', _, rfl, by decide⟩
      obtain ⟨x, w, hx, hne⟩ := hpiece
      rw [restore, pieces_of_read? hr, List.flatMap_cons, hx]
      simpa using hne

theorem ampersand_not_mem_of_run {s : List Char} (hs : '\n' ∉ s)
    (h : RowState.bracket.run s ≠ .stray) : '&' ∉ s := by
  induction s with
  | nil => exact List.not_mem_nil
  | cons c s ih =>
    simp only [List.mem_cons, not_or] at hs ⊢
    have hc : '&' ≠ c := by
      rintro rfl
      exact h (RowState.run_stray s)
    have hnext : RowState.bracket.next c = .bracket := by
      simp [RowState.next, hc.symm, Ne.symm hs.1]
    rw [RowState.run_cons, hnext] at h
    exact ⟨hc, ih hs.2 h⟩

/-- What a row begins with its line begins with, unless a bracket comes first. -/
theorem prefix_or_bracket_of_prefix_restore {w : List Char}
    (h : w <+: restore F (dropBreakMarks l)) :
    w <+: l ∨ ∃ n < w.length, w.take n ++ ['<'] <+: l := by
  induction w generalizing l with
  | nil => exact .inl (List.nil_prefix)
  | cons x w ih =>
    cases l with
    | nil =>
      rw [dropBreakMarks, restore_nil] at h
      exact absurd (List.prefix_nil.mp h) (List.cons_ne_nil x w)
    | cons c l =>
      by_cases hc : c = '<'
      · subst hc
        exact .inr ⟨0, Nat.succ_pos _, l, rfl⟩
      · rw [dropBreakMarks_cons hc, restore_cons (read?_cons_of_ne hc _)] at h
        obtain ⟨rfl, hw⟩ := List.cons_prefix_cons.mp h
        rcases ih hw with hline | ⟨n, hn, hbracket⟩
        · exact .inl (List.cons_prefix_cons.mpr ⟨rfl, hline⟩)
        · exact .inr ⟨n + 1, Nat.succ_lt_succ hn, List.cons_prefix_cons.mpr ⟨rfl, hbracket⟩⟩

/-- A row that does not begin like a mark is not doubly quoted. -/
theorem not_isDoublyQuoted (hl : '\n' ∉ l) (h : RowState.start.run l ∉ [.marked, .stray]) :
    ¬IsDoublyQuoted (quoteMark ++ restore F (dropBreakMarks l)) := by
  rw [IsDoublyQuoted, List.prefix_append_right_inj]
  intro hmark
  rcases prefix_or_bracket_of_prefix_restore hmark with hline | ⟨n, hn, t, rfl⟩
  · exact h (by simp [run_of_starts hline])
  · -- behind a part of a mark a bracket is stray, and behind a bracket there is no ampersand
    have hpart : ∀ n < "&gt;".toList.length, n = 0 ∨
        RowState.start.run ("&gt;".toList.take n ++ ['<']) = .stray := by
      decide
    rcases hpart n hn with rfl | hstray
    · have hrest : RowState.bracket.run t ≠ .stray := fun e =>
        h (List.mem_cons_of_mem _ (List.mem_singleton.mpr e))
      have hamp : '&' ∉ '<' :: t := by
        rw [List.mem_cons, not_or]
        exact ⟨by decide, ampersand_not_mem_of_run (fun hm => hl (List.mem_cons_of_mem _ hm)) hrest⟩
      obtain ⟨u, hu⟩ := hmark
      have hhead := head?_restore_ne (F := F) fun hm => hamp ((dropBreakMarks_sublist _).subset hm)
      exact hhead (congrArg List.head? hu).symm
    · rw [RowState.run_append, hstray, RowState.run_stray] at h
      exact h (by decide)

/-! ## Lines and rows -/

/-- The rows of a quotation with the given lines before breaks and code are replaced. The blanks at
its end are trimmed. -/
def quotedRows : List (List Char) → List (List Char)
  | [] => []
  | [l] => [Text.trimEndWhile Text.isBlank (quoteMark ++ l)]
  | l :: ls => (quoteMark ++ l) :: quotedRows ls

theorem quotedRows_cons (l : List Char) {ls : List (List Char)} (h : ls ≠ []) :
    quotedRows (l :: ls) = (quoteMark ++ l) :: quotedRows ls := by
  cases ls with
  | nil => exact absurd rfl h
  | cons m ms => rfl

theorem quotedRows_ne_nil {ls : List (List Char)} (h : ls ≠ []) : quotedRows ls ≠ [] := by
  cases ls with
  | nil => exact absurd rfl h
  | cons l ls => cases ls <;> exact List.cons_ne_nil _ _

theorem trimEndWhile_ne_nil {s : List Char} {c : Char} (hc : c ∈ s) (hb : Text.isBlank c = false) :
    Text.trimEndWhile Text.isBlank s ≠ [] := by
  intro h
  have hs := Text.trimEndWhile_append_takeEndWhile Text.isBlank s
  rw [h, List.nil_append] at hs
  rw [← hs] at hc
  rw [Text.of_mem_takeEndWhile hc] at hb
  cases hb

theorem exists_unlines_quoted {ls : List (List Char)} (hne : ls ≠ []) :
    ∃ t, Text.unlines (ls.map (quoteMark ++ ·)) = '&' :: t := by
  obtain ⟨l, ls, rfl⟩ := List.exists_cons_of_ne_nil hne
  cases ls with
  | nil => exact ⟨_, Text.unlines_singleton _⟩
  | cons m ms => exact ⟨_, Text.unlines_cons _ (List.cons_ne_nil _ _)⟩

theorem trimEndWhile_unlines {ls : List (List Char)} (hne : ls ≠ []) :
    Text.trimEndWhile Text.isBlank (Text.unlines (ls.map (quoteMark ++ ·)))
      = Text.unlines (quotedRows ls) := by
  induction ls with
  | nil => exact absurd rfl hne
  | cons l ls ih =>
    cases ls with
    | nil => rw [List.map_singleton, Text.unlines_singleton, quotedRows, Text.unlines_singleton]
    | cons m ms =>
      have hm : m :: ms ≠ [] := List.cons_ne_nil m ms
      obtain ⟨t, ht⟩ := exists_unlines_quoted hm
      have hmark : '&' ∈ Text.unlines ((m :: ms).map (quoteMark ++ ·)) := ht ▸ List.mem_cons_self
      have htrim := trimEndWhile_ne_nil (List.mem_cons_of_mem '\n' hmark) (by decide)
      have hnewline := trimEndWhile_append_of_ne_nil (trimEndWhile_ne_nil hmark (by decide)) ['\n']
      rw [List.map_cons, Text.unlines_cons _ (by simp), trimEndWhile_append_of_ne_nil htrim,
        quotedRows_cons l hm, Text.unlines_cons _ (quotedRows_ne_nil hm), ← ih hm]
      exact congrArg _ hnewline

theorem restore_dropBreakMarks_quoteMark_append (F : Fences) (s : List Char) :
    restore F (dropBreakMarks (quoteMark ++ s)) = quoteMark ++ restore F (dropBreakMarks s) := by
  rw [dropBreakMarks_append_of_not_mem (by decide), restore_append_of_not_mem (by decide)]

/-- The lines of a quotation come to its rows. -/
theorem quotationRows_of_lines {mss : List (List Mark)} {ls : List (List Char)}
    (h : List.Forall₂ Marked mss ls) (hne : ls ≠ []) (hls : ∀ l ∈ ls, '\n' ∉ l)
    (hms : mss.flatten.map (Mark.restored F) = blocks.map CodeBlock.text) :
    QuotationRows blocks ((quotedRows ls).map fun l => restore F (dropBreakMarks l)) := by
  have hmark := restore_dropBreakMarks_quoteMark_append F
  induction h generalizing blocks with
  | nil => exact absurd rfl hne
  | @cons ms l mss ls hl hrest ih =>
    obtain ⟨hn, hls⟩ := List.forall_mem_cons.mp hls
    rw [List.flatten_cons, List.map_append, eq_comm, List.map_eq_append_iff] at hms
    obtain ⟨blocks, more, rfl, hblocks, hmore⟩ := hms
    cases hrest with
    | nil =>
      obtain rfl := List.map_eq_nil_iff.mp hmore
      rw [List.append_nil, quotedRows, List.map_singleton]
      by_cases hblank : Text.trimEndWhile Text.isBlank l = []
      · have hall : ∀ c ∈ l, Text.isBlank c = true := by
          have hcut := Text.trimEndWhile_append_takeEndWhile Text.isBlank l
          rw [hblank, List.nil_append] at hcut
          exact fun c hc => Text.of_mem_takeEndWhile (hcut ▸ hc)
        obtain rfl := hl.eq_nil_of_isBlank hall
        obtain rfl := List.map_eq_nil_iff.mp hblocks
        have hbare : restore F (dropBreakMarks "&gt;".toList) = "&gt;".toList := by
          rw [dropBreakMarks_of_not_mem (by decide), restore_of_not_mem (by decide)]
        rw [Text.trimEndWhile_append_of_forall hall]
        show QuotationRows [] [restore F (dropBreakMarks "&gt;".toList)]
        rw [hbare]
        exact .blankLast
      · rw [trimEndWhile_append_of_ne_nil hblank, hmark]
        refine .last (rowText_of_marked (Marked.isReading.trimEndWhile (fun _ hb => hb) hl) (fun hm => ?_) hblocks.symm)
        have hcut := Text.trimEndWhile_append_takeEndWhile Text.isBlank l
        exact hn (hcut ▸ List.mem_append_left _ hm)
    | @cons ms' m mss' ms'' hm hmss =>
      rw [quotedRows_cons l (List.cons_ne_nil _ _), List.map_cons, hmark]
      exact .cons (rowText_of_marked hl hn hblocks.symm) (ih (List.cons_ne_nil _ _) hls hmore.symm)

/-- A row is a line behind the mark, without the blanks at its end if it is the last. -/
theorem eq_of_mem_quotedRows {ls : List (List Char)} {row : List Char} (h : row ∈ quotedRows ls) :
    row = "&gt;".toList ∨ ∃ s, row = quoteMark ++ s ∧ ∃ l ∈ ls, s <+: l := by
  induction ls with
  | nil => cases h
  | cons l ls ih =>
    cases ls with
    | nil =>
      obtain rfl := List.mem_singleton.mp h
      by_cases hblank : Text.trimEndWhile Text.isBlank l = []
      · refine .inl ?_
        have hcut := Text.trimEndWhile_append_takeEndWhile Text.isBlank l
        rw [hblank, List.nil_append] at hcut
        exact Text.trimEndWhile_append_of_forall fun c hc => Text.of_mem_takeEndWhile (hcut ▸ hc)
      · exact .inr ⟨_, trimEndWhile_append_of_ne_nil hblank _, l, List.mem_cons_self,
          ⟨_, Text.trimEndWhile_append_takeEndWhile Text.isBlank l⟩⟩
    | cons m ms =>
      rw [quotedRows_cons l (List.cons_ne_nil m ms)] at h
      rcases List.mem_cons.mp h with rfl | h
      · exact .inr ⟨l, rfl, l, List.mem_cons_self, List.prefix_refl l⟩
      · exact (ih h).imp_right fun ⟨s, hs, l', hl', hp⟩ => ⟨s, hs, l', List.mem_cons_of_mem _ hl', hp⟩

theorem not_isDoublyQuoted_quotedRows {ls : List (List Char)} (hls : ∀ l ∈ ls, '\n' ∉ l)
    (h : ∀ l ∈ ls, RowState.start.run l ∉ [.marked, .stray]) :
    ∀ row ∈ (quotedRows ls).map fun l => restore F (dropBreakMarks l), ¬IsDoublyQuoted row := by
  intro row hrow
  obtain ⟨l, hl, rfl⟩ := List.mem_map.mp hrow
  rcases eq_of_mem_quotedRows hl with rfl | ⟨s, rfl, l, hl, t, rfl⟩
  · rw [dropBreakMarks_of_not_mem (by decide), restore_of_not_mem (by decide)]
    unfold IsDoublyQuoted
    decide
  · rw [restore_dropBreakMarks_quoteMark_append]
    refine not_isDoublyQuoted (fun hm => hls _ hl (List.mem_append_left t hm)) fun hs => h _ hl ?_
    rw [RowState.run_append]
    simp only [List.mem_cons, List.not_mem_nil, or_false] at hs ⊢
    rcases hs with hs | hs
    · exact .inl (by rw [hs, RowState.run_marked])
    · exact .inr (by rw [hs, RowState.run_stray])

/-- A line that begins like a mark comes to a row that seems to have two. -/
theorem exists_isDoublyQuoted {ls : List (List Char)} (hl : l ∈ ls) (h : "&gt;".toList <+: l) :
    ∃ row ∈ (quotedRows ls).map fun l => restore F (dropBreakMarks l), IsDoublyQuoted row := by
  obtain ⟨t, rfl⟩ := h
  have hrow : ∃ u, quoteMark ++ ("&gt;".toList ++ u) ∈ quotedRows ls := by
    induction ls with
    | nil => cases hl
    | cons m ms ih =>
      cases ms with
      | nil =>
        obtain rfl := List.mem_singleton.mp hl
        have hlast : (quoteMark ++ "&gt;".toList).getLast? = some ';' := rfl
        refine ⟨Text.trimEndWhile Text.isBlank t, List.mem_singleton.mpr ?_⟩
        rw [← List.append_assoc, ← List.append_assoc, trimEndWhile_append_of_getLast? hlast (by decide)]
      | cons n ns =>
        rw [quotedRows_cons m (List.cons_ne_nil n ns)]
        rcases List.mem_cons.mp hl with rfl | hl
        · exact ⟨t, List.mem_cons_self⟩
        · obtain ⟨u, hu⟩ := ih hl
          exact ⟨u, List.mem_cons_of_mem _ hu⟩
  obtain ⟨u, hu⟩ := hrow
  refine ⟨_, List.mem_map.mpr ⟨_, hu, rfl⟩, ?_⟩
  rw [restore_dropBreakMarks_quoteMark_append, dropBreakMarks_append_of_not_mem (by decide),
    restore_append_of_not_mem (by decide), IsDoublyQuoted, List.prefix_append_right_inj]
  exact List.prefix_append _ _

end Rows

/-- Where the run has met a mark there is a line that begins with one, and where it has met none there
is no such line. -/
theorem run_unlines {ls : List (List Char)} :
    (RowState.start.run (Text.unlines ls) = .marked → ∃ l ∈ ls, RowState.start.run l = .marked) ∧
      (RowState.start.run (Text.unlines ls) ∉ [.marked, .stray] →
        ∀ l ∈ ls, RowState.start.run l ∉ [.marked, .stray]) := by
  induction ls with
  | nil => exact ⟨nofun, fun _ _ hl => absurd hl List.not_mem_nil⟩
  | cons l ls ih =>
    cases ls with
    | nil =>
      rw [Text.unlines_singleton]
      exact ⟨fun h => ⟨l, List.mem_cons_self, h⟩, fun h => List.forall_mem_singleton.mpr h⟩
    | cons m ms =>
      rw [Text.unlines_cons l (List.cons_ne_nil m ms), RowState.run_append, RowState.run_cons]
      have hnext : ∀ a : RowState, a.next '\n' = .start ∧ a ∉ [.marked, .stray] ∨
          a.next '\n' = .stray ∧ a ≠ .marked ∨ a.next '\n' = .marked ∧ a = .marked := by
        rintro (_ | _ | _ | _ | _ | _ | _ | _) <;> decide
      rcases hnext (RowState.start.run l) with ⟨h, hl⟩ | ⟨h, hl⟩ | ⟨h, hl⟩
      · rw [h]
        exact ⟨fun hm => (ih.1 hm).imp fun _ hx => ⟨List.mem_cons_of_mem _ hx.1, hx.2⟩,
          fun hm => List.forall_mem_cons.mpr ⟨hl, ih.2 hm⟩⟩
      · rw [h, RowState.run_stray]
        exact ⟨nofun, fun hm => absurd (by decide) hm⟩
      · rw [h, RowState.run_marked]
        exact ⟨fun _ => ⟨l, List.mem_cons_self, hl⟩, fun hm => absurd (by decide) hm⟩

theorem run_dropNewlines (s : List Char) :
    RowState.start.run (s.dropWhile (· = '\n')) = RowState.start.run s := by
  induction s with
  | nil => rfl
  | cons c s ih =>
    by_cases hc : c = '\n'
    · subst hc
      exact ih
    · rw [List.dropWhile_cons_of_neg (by simpa using hc)]

/-- Line feeds leave whether a row began like a mark. -/
theorem of_run_newlines {a : RowState} {n : Nat} {o : Option Bool}
    (h : a.run (List.replicate n '\n') = .after o) :
    (o = none → a = .marked) ∧ (o ≠ none → a ∉ [.marked, .stray]) := by
  have hsettled : a = .after o ∨ a.next '\n' = .after o := by
    cases n with
    | zero => exact .inl h
    | succ n => exact .inr (RowState.run_replicate_newline a n ▸ h)
  have hafter : ∀ o : Option Bool, (o = none → RowState.after o = .marked) ∧
      (o ≠ none → RowState.after o ∉ [.marked, .stray]) := by
    rintro (_ | _ | _) <;> decide
  rcases hsettled with rfl | h
  · exact hafter o
  · revert h
    cases a <;> rcases o with _ | _ | _ <;> decide

/-- Without the spaces and the line feeds at both ends a text has a row that begins like a mark if and
only if it has one with them. -/
theorem run_trim {s : List Char} {o : Option Bool} (h : RowState.start.run s = .after o) :
    let trimmed := Text.trimWhile (· = '\n') (Text.trimWhile (· = ' ') s)
    (o = none → RowState.start.run trimmed = .marked) ∧
      (o ≠ none → RowState.start.run trimmed ∉ [.marked, .stray]) := by
  have hspaces : RowState.start.run (Text.trimWhile (· = ' ') s) = .after o := by
    have hfirst : RowState.start.run (s.dropWhile (· = ' ')) = RowState.start.run s :=
      RowState.run_dropSpaces true s
    rw [← hfirst, ← Text.trimEndWhile_append_takeEndWhile (· = ' ') (s.dropWhile (· = ' ')),
      RowState.run_append] at h
    exact (RowState.run_spaces_eq_after fun _ => Text.eq_of_mem_takeEndWhile).mp h
  generalize Text.trimWhile (· = ' ') s = t at hspaces
  rw [← run_dropNewlines, ← trimEndWhile_append_trailingNewlines (t.dropWhile (· = '\n')),
    RowState.run_append] at hspaces
  exact of_run_newlines hspaces

/-- A text whose lines have no space in front is quoted on rows of one mark if and only if none of its
rows begins like a mark. -/
theorem forall_not_isDoublyQuoted_iff (F : Fences) {s : List Char} {o : Option Bool}
    (hs : Unindented s) (h : RowState.start.run s = .after o) :
    let ls := Text.lines (Text.trimWhile (· = '\n') (Text.trimWhile (· = ' ') s))
    (∀ row ∈ (quotedRows ls).map fun l => restore F (dropBreakMarks l), ¬IsDoublyQuoted row) ↔
      o.isSome = true := by
  obtain ⟨hnone, hsome⟩ := run_trim h
  have hfirst := (ends_trimSpaces s).1
  have htrim := hs.trimWhile (· = ' ')
  generalize Text.trimWhile (· = ' ') s = t at hnone hsome hfirst htrim
  have hnewline : ∀ l ∈ Text.lines (Text.trimWhile (· = '\n') t), '\n' ∉ l :=
    fun _ => newline_not_mem_of_mem_lines
  rw [← Text.unlines_lines (Text.trimWhile (· = '\n') t)] at hnone hsome
  cases o with
  | some row =>
    exact iff_of_true (not_isDoublyQuoted_quotedRows hnewline (run_unlines.2 (hsome nofun))) rfl
  | none =>
    refine iff_of_false (fun hall => ?_) nofun
    obtain ⟨l, hl, hmark⟩ := run_unlines.1 (hnone rfl)
    have hspace := (htrim.trimWhile (· = '\n')).head?_ne_of_mem_lines
      (head?_trimEndWhile_ne (htrim.head?_dropWhile_newline hfirst)) l hl
    rcases RowState.run_line (hnewline l hl) hspace with rfl | hline | hne
    · cases hmark
    · obtain ⟨row, hrow, hdouble⟩ := exists_isDoublyQuoted (F := F) hl hline
      exact hall row hrow hdouble
    · exact hne (by simp [hmark])

/-! ## Layout -/

theorem trimEnds_paragraph {s t : List Char} {c : Char} (hs : s = c :: t)
    (hc : Text.isBlank c = false) :
    trimEnds (join [] (paragraph s)) = Text.trimEndWhile Text.isBlank s := by
  have hmem : c ∈ s := hs ▸ List.mem_cons_self
  have hblank : ∀ {x : Char}, Text.isBlank x = true → c ≠ x := by
    rintro x hx rfl
    rw [hx] at hc
    cases hc
  have hn : c ≠ '\n' := hblank (by decide)
  have hdropped : ∀ u, (s ++ u).dropWhile (fun x => x = '\t' || x = '\r' || x = '\n') = s ++ u := by
    intro u
    have ht : c ≠ '\t' := hblank (by decide)
    have hr : c ≠ '\r' := hblank (by decide)
    rw [hs]
    simp [hn, ht, hr]
  have hjoin : join [] (paragraph s) = '\n' :: '\n' :: (s ++ ['\n', '\n']) := by
    rw [join_nil_left, hs]
    simp [paragraph, leadingNewlines, hn]
  have hfeeds : ∀ x ∈ ['\n', '\n'], Text.isBlank x = true := Text.forall_mem_of_all (by decide)
  rw [hjoin]
  show Text.trimEndWhile _ ((s ++ ['\n', '\n']).dropWhile _) = _
  rw [hdropped, Text.trimEndWhile_append_of_forall hfeeds]

/-- A quotation of texts, line breaks, inline elements and code blocks is laid out on rows behind
marks. No row has two marks if and only if no row of it begins with a mark of its own. -/
theorem ofDoms_blockquote (options : FormatOptions) (attrs : Attrs) {ns : List Dom}
    (hq : areQuotable ns = true) (hv : Dom.HasVisible ns) :
    ∃ rows, ofDoms (delimiters options) [.element "blockquote" attrs ns] = Text.unlines rows ∧
      QuotationRows (codeBlocksOf "blockquote" ns) rows ∧
        ((∀ row ∈ rows, ¬IsDoublyQuoted row) ↔ (rowAfter? true (quotePartsOf ns)).isSome = true) := by
  have hevery := everyOf_of_areQuotable ns hq
  have hhidden : Dom.EveryOf EmptyIfHidden ns := Dom.EveryOf.mono (fun _ _ _ h _ => h.1) ns hevery hevery
  have hdates : Dom.EveryOf PlainDate ns :=
    Dom.EveryOf.mono (fun _ _ _ h _ e => absurd e h.2) ns hevery hevery
  obtain ⟨hfences, hmarked⟩ := marked_layNodes (delimiting_delimiters options) "blockquote" attrs true 0 []
    ⟨[], []⟩ .nil ns hdates
  have hrun : RowState.start.run
      (layNodes (delimiters options) "blockquote" attrs true 0 ⟨[], []⟩ ns).text
        = .after (rowAfter? true (quotePartsOf ns)) :=
    run_layNodes (delimiting_delimiters options) "blockquote" attrs true 0 ⟨[], []⟩ (o := some true) rfl ns hq
  have hlaid := unindented_layNodes (delimiting_delimiters options) "blockquote" attrs true 0 ⟨[], []⟩
    .nil ns hq
  rw [List.nil_append, List.length_nil, marksOf_eq "blockquote" 0 ns hhidden] at hmarked
  have hbody : layBody (delimiters options) [.element "blockquote" attrs ns]
      = ⟨join [] (blockquote (Text.trimWhile (· = ' ')
          (layNodes (delimiters options) "blockquote" attrs true 0 ⟨[], []⟩ ns).text)),
        (layNodes (delimiters options) "blockquote" attrs true 0 ⟨[], []⟩ ns).fences⟩ := by
    have hblank : (Dom.element "blockquote" attrs ns).isBlank = false :=
      Dom.isBlank_element_eq_false.mpr hv
    have hcode : fencedCode? "blockquote" ns = none := fencedCode?_of_ne (by decide) ns
    have hblock : isBlockName "blockquote" = true := rfl
    simp only [layBody, layNodes, layNode, hblank, hcode, hblock, Bool.and_false, Bool.false_eq_true,
      if_false]
    rfl
  simp only [ofDoms, hbody]
  generalize layNodes (delimiters options) "blockquote" attrs true 0 ⟨[], []⟩ ns = laid
    at hfences hmarked hrun hlaid
  have htrimmed := Marked.isReading.trimWhile Text.isBlank_of_eq_newline
    (Marked.isReading.trimWhile Text.isBlank_of_eq_space hmarked)
  obtain ⟨mss, hmss, hlines⟩ := htrimmed.lines
  have hrestored := restored_numbered (codeBlocksOf "blockquote" ns)
  have hne := Text.lines_ne_nil (Text.trimWhile (· = '\n') (Text.trimWhile (· = ' ') laid.text))
  have hnewline : ∀ l ∈ Text.lines (Text.trimWhile (· = '\n') (Text.trimWhile (· = ' ') laid.text)),
      '\n' ∉ l := fun l => newline_not_mem_of_mem_lines
  rw [hmss] at hrestored
  refine ⟨_, ?_, quotationRows_of_lines hlines hne hnewline hrestored,
    forall_not_isDoublyQuoted_iff _ hlaid hrun⟩
  obtain ⟨t, ht⟩ := exists_unlines_quoted hne
  rw [← restore_dropBreakMarks_unlines, ← trimEndWhile_unlines hne, hfences, List.nil_append,
    blockquote, trimEnds_paragraph ht (by decide)]
  rfl

end MessageLayout.Mrkdwn
