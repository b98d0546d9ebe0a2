/-!
# Lines of a text

`lines` cuts a text at its line feeds and `unlines` joins the pieces again; a text has one line
more than it has line feeds. `squeeze` writes each run of characters of a class as one character.

Main statements: `unlines_lines` (cutting and joining loses nothing) and `lines_append`.
-/

namespace MessageLayout.Text

/-- The pieces of a text between its line feeds. -/
def lines : List Char → List (List Char)
  | [] => [[]]
  | '\n' :: s => [] :: lines s
  | c :: s =>
    match lines s with
    | [] => [[c]]
    | l :: ls => (c :: l) :: ls

def unlines (ls : List (List Char)) : List Char :=
  ['\n'].intercalate ls

/-- The text with each longest run of characters of class `p` written as the one character `c`.
The flag tells whether the text before ended inside such a run. -/
def squeezeFrom (p : Char → Bool) (c : Char) : Bool → List Char → List Char
  | _, [] => []
  | inRun, x :: s =>
    if p x then (if inRun then [] else [c]) ++ squeezeFrom p c true s
    else x :: squeezeFrom p c false s

def squeeze (p : Char → Bool) (c : Char) (s : List Char) : List Char :=
  squeezeFrom p c false s

theorem lines_ne_nil (s : List Char) : lines s ≠ [] := by
  fun_cases lines s <;> simp_all

/-- A character that ends no line stands at the start of the first line. -/
theorem lines_cons {c : Char} (hc : c ≠ '\n') {s l : List Char} {ls : List (List Char)}
    (h : lines s = l :: ls) : lines (c :: s) = (c :: l) :: ls := by
  rw [lines.eq_3 _ _ hc, h]

theorem lines_append_of_not_mem {w : List Char} (hw : '\n' ∉ w) {s l : List Char}
    {ls : List (List Char)} (h : lines s = l :: ls) : lines (w ++ s) = (w ++ l) :: ls := by
  induction w with
  | nil => exact h
  | cons c w ih =>
    simp only [List.mem_cons, not_or] at hw
    exact lines_cons (Ne.symm hw.1) (ih hw.2)

theorem lines_of_not_mem {s : List Char} (h : '\n' ∉ s) : lines s = [s] := by
  simpa using lines_append_of_not_mem (s := []) h rfl

@[simp] theorem unlines_singleton (l : List Char) : unlines [l] = l := by
  simp [unlines, List.intercalate]

theorem unlines_cons (l : List Char) {ls : List (List Char)} (h : ls ≠ []) :
    unlines (l :: ls) = l ++ '\n' :: unlines ls := by
  cases ls with
  | nil => contradiction
  | cons m ms => simp [unlines, List.intercalate]

@[simp] theorem unlines_lines (s : List Char) : unlines (lines s) = s := by
  fun_induction lines s with
  | case1 => simp
  | case2 s ih => rw [unlines_cons _ (lines_ne_nil s), ih]; rfl
  | case3 c s _ h _ => exact absurd h (lines_ne_nil s)
  | case4 c s _ l ls h ih =>
    cases ls with
    | nil => simp_all
    | cons m ms =>
      rw [unlines_cons _ (by simp)]
      rw [h, unlines_cons _ (by simp)] at ih
      simpa using ih

/-- A class of characters is gone once its runs are written as a character outside of it. -/
theorem not_mem_squeeze {p : Char → Bool} {c d : Char} (hd : p d = true) (hne : d ≠ c)
    (s : List Char) : d ∉ squeeze p c s := by
  suffices h : ∀ inRun, d ∉ squeezeFrom p c inRun s from h false
  induction s with
  | nil => simp [squeezeFrom]
  | cons x s ih =>
    intro inRun
    simp only [squeezeFrom]
    split
    · cases inRun <;> simp [hne, ih]
    · next hx =>
      have hdx : d ≠ x := fun e => hx (e ▸ hd)
      simp [hdx, ih]

/-- Writing runs as one character brings in no other character. -/
theorem mem_of_mem_squeeze {p : Char → Bool} {c d : Char} {s : List Char} (h : d ∈ squeeze p c s) :
    d = c ∨ d ∈ s := by
  suffices hs : ∀ inRun, d ∈ squeezeFrom p c inRun s → d = c ∨ d ∈ s from hs false h
  clear h
  induction s with
  | nil => exact fun _ h => absurd h List.not_mem_nil
  | cons x s ih =>
    intro inRun h
    simp only [squeezeFrom] at h
    split at h
    · cases inRun
      · rcases List.mem_cons.mp h with rfl | h
        · exact .inl rfl
        · exact (ih true h).imp_right (List.mem_cons_of_mem _)
      · exact (ih true h).imp_right (List.mem_cons_of_mem _)
    · rcases List.mem_cons.mp h with rfl | h
      · exact .inr List.mem_cons_self
      · exact (ih false h).imp_right (List.mem_cons_of_mem _)

/-- A text joined of two by a line feed has the lines of both. -/
theorem lines_append (s t : List Char) : lines (s ++ '\n' :: t) = lines s ++ lines t := by
  fun_induction lines s with
  | case1 => simp [lines]
  | case2 s ih => simp [lines, ih]
  | case3 c s _ h _ => exact absurd h (lines_ne_nil s)
  | case4 c s hc l ls h ih =>
    rw [List.cons_append, lines.eq_3 _ _ hc, ih, h]
    simp

end MessageLayout.Text
