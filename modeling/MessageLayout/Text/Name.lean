/-!
# Names between marks

A name is a nonempty run of characters of a class, closed by a mark. `scanName?` reads one at the
start of a text.
-/

namespace MessageLayout.Text

/-- The name of characters of class `p` that a text starts with, if the mark `close` follows it, and
the text behind the mark. -/
def scanName? (p : Char → Bool) (close : Char) (s : List Char) : Option (List Char × List Char) :=
  let name := s.takeWhile p
  match s.dropWhile p with
  | c :: rest => if c = close && !name.isEmpty then some (name, rest) else none
  | [] => none

theorem eq_append_of_scanName? {p : Char → Bool} {close : Char} {s name rest : List Char}
    (h : scanName? p close s = some (name, rest)) : s = name ++ close :: rest := by
  simp only [scanName?] at h
  split at h
  next c r hr =>
    split at h
    next hc =>
      have hd := List.takeWhile_append_dropWhile (p := p) (l := s)
      simp only [Option.some.injEq, Prod.mk.injEq] at h
      simp only [Bool.and_eq_true, decide_eq_true_eq] at hc
      rw [hr, h.1, h.2, hc.1] at hd
      exact hd.symm
    · contradiction
  · contradiction

theorem length_lt_of_scanName? {p : Char → Bool} {close : Char} {s name rest : List Char}
    (h : scanName? p close s = some (name, rest)) : rest.length < s.length := by
  rw [eq_append_of_scanName? h]
  simp
  omega

end MessageLayout.Text
