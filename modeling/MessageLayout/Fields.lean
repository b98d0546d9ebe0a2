/-!
# Fields

A table of named values in the order in which the names were first given. Giving a name again
replaces its value and leaves its place.

Main statements: `get?_insert_self` and `get?_insert_of_ne` (the last value given for a name is the
one found), `names_insert` (names keep their order) and `nodup_names_ofList`.
-/

namespace MessageLayout

/-- Named values in insertion order. -/
structure Fields (α : Type) where
  entries : List (String × α)

namespace Fields

variable {α : Type}

instance : EmptyCollection (Fields α) := ⟨⟨[]⟩⟩

instance : Inhabited (Fields α) := ⟨∅⟩

def size (f : Fields α) : Nat :=
  f.entries.length

def isEmpty (f : Fields α) : Bool :=
  f.entries.isEmpty

def names (f : Fields α) : List String :=
  f.entries.map (·.1)

def get? (f : Fields α) (name : String) : Option α :=
  f.entries.lookup name

/-- The entries with a new value for a name: in its place, or at the end if the name is new. -/
def insertEntry (name : String) (value : α) : List (String × α) → List (String × α)
  | [] => [(name, value)]
  | (n, v) :: es => if n = name then (n, value) :: es else (n, v) :: insertEntry name value es

def insert (f : Fields α) (name : String) (value : α) : Fields α :=
  ⟨insertEntry name value f.entries⟩

/-- The fields given by a list of settings, applied in order. -/
def ofList (l : List (String × α)) : Fields α :=
  l.foldl (fun f e => f.insert e.1 e.2) ∅

/-! ## Lemmas -/

theorem lookup_insertEntry_self (name : String) (value : α) (es : List (String × α)) :
    (insertEntry name value es).lookup name = some value := by
  induction es with
  | nil => simp [insertEntry]
  | cons e es ih =>
    obtain ⟨n, v⟩ := e
    by_cases h : n = name
    · simp [insertEntry, h]
    · simp [insertEntry, h, List.lookup_cons, beq_eq_false_iff_ne.2 (Ne.symm h), ih]

theorem lookup_insertEntry_of_ne {name other : String} (h : other ≠ name) (value : α)
    (es : List (String × α)) :
    (insertEntry name value es).lookup other = es.lookup other := by
  induction es with
  | nil => simp [insertEntry, h]
  | cons e es ih =>
    obtain ⟨n, v⟩ := e
    by_cases hn : n = name
    · subst hn; simp [insertEntry, List.lookup_cons, beq_eq_false_iff_ne.2 h]
    · simp [insertEntry, hn, List.lookup_cons, ih]

@[simp, grind =] theorem get?_insert_self (f : Fields α) (name : String) (value : α) :
    (f.insert name value).get? name = some value :=
  lookup_insertEntry_self name value f.entries

@[grind =] theorem get?_insert_of_ne (f : Fields α) {name other : String} (h : other ≠ name)
    (value : α) : (f.insert name value).get? other = f.get? other :=
  lookup_insertEntry_of_ne h value f.entries

theorem map_fst_insertEntry (name : String) (value : α) (es : List (String × α)) :
    (insertEntry name value es).map (·.1)
      = if name ∈ es.map (·.1) then es.map (·.1) else es.map (·.1) ++ [name] := by
  induction es with
  | nil => simp [insertEntry]
  | cons e es ih =>
    obtain ⟨n, v⟩ := e
    by_cases h : n = name
    · simp [insertEntry, h]
    · simp only [insertEntry, h, if_false, List.map_cons, ih, List.mem_cons, Ne.symm h, false_or]
      split <;> simp

/-- A known name stays in its place and a new one comes last. -/
theorem names_insert (f : Fields α) (name : String) (value : α) :
    (f.insert name value).names
      = if name ∈ f.names then f.names else f.names ++ [name] :=
  map_fst_insertEntry name value f.entries

theorem nodup_names_insert {f : Fields α} (h : f.names.Nodup) (name : String) (value : α) :
    (f.insert name value).names.Nodup := by
  rw [names_insert]
  split
  · exact h
  · next hn =>
    rw [List.nodup_append]
    exact ⟨h, by simp, fun a ha b hb => by
      rw [List.mem_singleton.1 hb]; exact fun e => hn (e ▸ ha)⟩

/-- Settings one by one give every name one place. -/
theorem nodup_names_ofList (l : List (String × α)) : (ofList l).names.Nodup := by
  have go : ∀ (l : List (String × α)) (f : Fields α), f.names.Nodup →
      (l.foldl (fun f e => f.insert e.1 e.2) f).names.Nodup := by
    intro l
    induction l with
    | nil => exact fun f h => h
    | cons e l ih => exact fun f h => ih _ (nodup_names_insert h e.1 e.2)
  exact go l ∅ List.nodup_nil

end Fields

end MessageLayout
