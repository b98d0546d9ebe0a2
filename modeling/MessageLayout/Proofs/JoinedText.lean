import MessageLayout.Proofs.ListSeparation

/-!
# Texts that are joined

Where two texts are joined, the line feeds of both are merged into at most two. It does not matter
in which order neighbours are joined: a text of line feeds alone is merged into both its seams, and
any other text keeps its seams apart. So the children of an element, which are joined one after the
other from the left, may be put together in groups of any kind first.

    join (join s t) u = join s (join t u)                               (join_assoc)
    g.pieces.foldl join output = join output g.text                     (Grouping.foldl_join)
    any grouping of the children's texts is laid out as the children are (join_grouped)
-/

namespace MessageLayout.Mrkdwn

open Html

/-! ## Seams -/

theorem leadingNewlines_replicate_append {s : List Char} (h : s.head? ≠ some '\n') (n : Nat) :
    leadingNewlines (List.replicate n '\n' ++ s) = n := by
  induction n with
  | zero => exact leadingNewlines_eq_zero.mpr h
  | succ n ih =>
    unfold leadingNewlines at ih ⊢
    rw [List.replicate_succ, List.cons_append, List.takeWhile_cons_of_pos (by rfl),
      List.length_cons, ih]

theorem dropWhile_replicate_append {s : List Char} (h : s.head? ≠ some '\n') (n : Nat) :
    (List.replicate n '\n' ++ s).dropWhile (· = '\n') = s := by
  induction n with
  | zero => exact dropWhile_of_head?_ne h
  | succ n ih => simpa [List.replicate_succ] using ih

/-- The line feeds on both sides of a seam are merged. -/
theorem join_seam {s t : List Char} (hs : s.getLast? ≠ some '\n') (ht : t.head? ≠ some '\n')
    (m n : Nat) :
    join (s ++ List.replicate m '\n') (List.replicate n '\n' ++ t)
      = s ++ List.replicate (min 2 (max m n)) '\n' ++ t := by
  rw [join, trimEndWhile_append_replicate hs, trailingNewlines_append_replicate hs,
    leadingNewlines_replicate_append ht, dropWhile_replicate_append ht]

/-- A text is made of line feeds alone, or it has a middle that neither begins nor ends with one. -/
theorem newlines_or_middle (s : List Char) :
    (∃ n, s = List.replicate n '\n') ∨
      ∃ m w n, s = List.replicate m '\n' ++ w ++ List.replicate n '\n' ∧
        w ≠ [] ∧ w.head? ≠ some '\n' ∧ w.getLast? ≠ some '\n' := by
  have hs := replicate_leadingNewlines_append s
  have hhead := head?_dropWhile_ne '\n' s
  generalize leadingNewlines s = m, s.dropWhile (· = '\n') = t at hs hhead
  have ht := trimEndWhile_append_trailingNewlines t
  have hlast := getLast?_trimEndWhile '\n' t
  generalize Text.trimEndWhile (· = '\n') t = w, trailingNewlines t = n at ht hlast
  subst ht hs
  by_cases hw : w = []
  · subst hw
    exact .inl ⟨m + n, by simp [List.replicate_append_replicate]⟩
  · refine .inr ⟨m, w, n, by simp, hw, ?_, hlast⟩
    rwa [List.head?_append_of_ne_nil _ hw] at hhead

/-- Three texts may be joined from the left or from the right. -/
theorem join_assoc (s t u : List Char) : join (join s t) u = join s (join t u) := by
  -- only the ends at the two seams count
  have hs := trimEndWhile_append_trailingNewlines s
  have hu := replicate_leadingNewlines_append u
  have hlast := getLast?_trimEndWhile '\n' s
  have hhead := head?_dropWhile_ne '\n' u
  generalize Text.trimEndWhile (· = '\n') s = a, trailingNewlines s = k at hs hlast
  generalize u.dropWhile (· = '\n') = b, leadingNewlines u = l at hu hhead
  subst hs hu
  rcases newlines_or_middle t with ⟨n, rfl⟩ | ⟨m, w, n, rfl, hw, hwhead, hwlast⟩
  · -- the line feeds of all three texts meet
    have hleft := join_seam hlast (t := []) (by simp) k n
    have hright := join_seam (s := []) (by simp) hhead n l
    simp only [List.append_nil] at hleft
    simp only [List.nil_append] at hright
    rw [hleft, hright, join_seam hlast hhead, join_seam hlast hhead]
    congr 3
    omega
  · have hmiddle : (w ++ List.replicate n '\n').head? ≠ some '\n' := by
      rwa [List.head?_append_of_ne_nil _ hw]
    have hmiddle' : ∀ v, (v ++ w).getLast? ≠ some '\n' := by
      intro v
      rwa [List.getLast?_append_of_ne_nil _ hw]
    have hleft := join_seam hlast hmiddle k m
    have hright := join_seam (hmiddle' (List.replicate m '\n')) hhead n l
    have hleft' := join_seam (hmiddle' (a ++ List.replicate (min 2 (max k m)) '\n')) hhead n l
    have hright' := join_seam hlast (t := w ++ (List.replicate (min 2 (max n l)) '\n' ++ b))
      (by rwa [List.head?_append_of_ne_nil _ hw]) k m
    simp only [List.append_assoc] at hleft hright hleft' hright' ⊢
    rw [hleft, hright, hleft', hright']

/-! ## Groups -/

/-- A way to put neighbouring texts together before they are joined to the others. -/
inductive Grouping where
  /-- One text. -/
  | piece (text : List Char)
  /-- What two neighbouring groups come to. -/
  | both (left right : Grouping)

namespace Grouping

/-- The texts of a grouping from left to right. -/
def pieces : Grouping → List (List Char)
  | piece s => [s]
  | both left right => left.pieces ++ right.pieces

/-- The text that a grouping comes to. -/
def text : Grouping → List Char
  | piece s => s
  | both left right => join left.text right.text

/-- Joining texts one after the other behind what stands before them is joining what they come to in
groups. -/
theorem foldl_join (g : Grouping) (output : List Char) :
    g.pieces.foldl join output = join output g.text := by
  induction g generalizing output with
  | piece s => rfl
  | both left right ihLeft ihRight =>
    rw [pieces, text, List.foldl_append, ihLeft, ihRight, join_assoc]

end Grouping

/-! ## Children of an element -/

/-- The texts of nodes as they are laid out one after the other behind `laid`. -/
def laidTexts (d : Delimiters) (parent : String) (parentAttrs : Attrs) (isBlock : Bool)
    (elementsBefore : Nat) (laid : Laid) : List Dom → List (List Char)
  | [] => []
  | n :: ns =>
    let place : Place := ⟨parent, parentAttrs, elementsBefore, !ns.isEmpty, ns.any Dom.isElement⟩
    let next := layNode d (afterSpace laid.text isBlock) place laid.fences n
    next.text :: laidTexts d parent parentAttrs isBlock
      (if n.isElement then elementsBefore + 1 else elementsBefore)
      ⟨join laid.text next.text, next.fences⟩ ns

theorem foldl_join_laidTexts (d : Delimiters) (parent : String) (parentAttrs : Attrs)
    (isBlock : Bool) (elementsBefore : Nat) (laid : Laid) (ns : List Dom) :
    (laidTexts d parent parentAttrs isBlock elementsBefore laid ns).foldl join laid.text
      = (layNodes d parent parentAttrs isBlock elementsBefore laid ns).text := by
  induction ns generalizing elementsBefore laid with
  | nil => rfl
  | cons n ns ih =>
    rw [laidTexts, layNodes, List.foldl_cons]
    exact ih _ ⟨join laid.text _, _⟩

/-- Texts are joined in any order, and so the children of an element come to the same text however
their texts are grouped. -/
theorem join_grouped :
    (∀ s t u, join (join s t) u = join s (join t u)) ∧
      ∀ (d : Delimiters) (parent : String) (parentAttrs : Attrs) (isBlock : Bool)
        (elementsBefore : Nat) (laid : Laid) (ns : List Dom) (g : Grouping),
        g.pieces = laidTexts d parent parentAttrs isBlock elementsBefore laid ns →
          (layNodes d parent parentAttrs isBlock elementsBefore laid ns).text
            = join laid.text g.text := by
  refine ⟨join_assoc, ?_⟩
  intro d parent parentAttrs isBlock elementsBefore laid ns g hg
  rw [← foldl_join_laidTexts, ← hg, g.foldl_join]

/-- A text, an empty line and a paragraph, of which the last two are put together first. -/
theorem join_grouped_paragraph :
    let ns : List Dom := [.text "a".toList, .element "br" [] [], .element "p" [] [.text "b".toList]]
    let g : Grouping := .both (.piece "a".toList)
      (.both (.piece "<br />\n".toList) (.piece "\n\nb\n\n".toList))
    g.pieces = laidTexts (delimiters {}) "body" [] true 0 ⟨[], []⟩ ns ∧
      (layBody (delimiters {}) ns).text = join [] g.text := by
  intro ns g
  have hg : g.pieces = laidTexts (delimiters {}) "body" [] true 0 ⟨[], []⟩ ns := by decide +kernel
  exact ⟨hg, join_grouped.2 _ _ _ _ _ _ ns g hg⟩

end MessageLayout.Mrkdwn
