import MessageLayout.Node.Children

/-!
# Lists of children

Content may be put into lists of any depth, with gaps anywhere. `Regrouped` relates contents that
differ in that alone, and these are the contents with the same children. A fragment is one child of
its own; spliced, it gives way to what is reached through it. `Child.reached?` follows a path of
places down through fragments, so the paths to what is left, in lexicographic order, are its order
in the document.

    Regrouped x y ↔ x.normalize = y.normalize                                     (regrouped_iff)
    xs.foldl child n holds the children of n and then those of xs              (Node.foldl_child)
    (path, d) ∈ e.places ↔ path leads from e to d, and d is no fragment        (Child.mem_places)
    x.only = .ok n ↔ x.normalize = [.node n]                                     (only_eq_ok_iff)
-/

namespace MessageLayout

namespace Content

/-! ## Groups and gaps -/

theorem normalizeAll_append (xs ys : List Content) :
    normalizeAll (xs ++ ys) = normalizeAll xs ++ normalizeAll ys := by
  induction xs with
  | nil => rfl
  | cons x xs ih => simp only [List.cons_append, normalizeAll, ih, List.append_assoc]

/-- The same items, put into other lists or with gaps between them. -/
inductive Regrouped : Content → Content → Prop
  | refl (x : Content) : Regrouped x x
  | symm {x y : Content} : Regrouped x y → Regrouped y x
  | trans {x y z : Content} : Regrouped x y → Regrouped y z → Regrouped x z
  /-- An item may be in a list of its own. -/
  | alone (x : Content) : Regrouped x (.list [x])
  /-- Neighbours in a list may be in a list of their own. -/
  | group (before items after : List Content) :
      Regrouped (.list (before ++ (items ++ after))) (.list (before ++ .list items :: after))
  /-- There may be a gap anywhere in a list. -/
  | gap (before after : List Content) :
      Regrouped (.list (before ++ after)) (.list (before ++ .empty :: after))
  /-- An item of a list may be regrouped in its place. -/
  | within (before after : List Content) {x y : Content} : Regrouped x y →
      Regrouped (.list (before ++ x :: after)) (.list (before ++ y :: after))

theorem Regrouped.normalize_eq {x y : Content} (h : Regrouped x y) : x.normalize = y.normalize := by
  induction h with
  | refl => rfl
  | symm _ ih => exact ih.symm
  | trans _ _ ih₁ ih₂ => exact ih₁.trans ih₂
  | alone x => simp only [normalize, normalizeAll, List.append_nil]
  | group before items after => simp only [normalize, normalizeAll_append, normalizeAll]
  | gap before after =>
    simp only [normalize, normalizeAll_append, normalizeAll, List.nil_append]
  | within before after _ ih => simp only [normalize, normalizeAll_append, normalizeAll, ih]

mutual

/-- Every content is a grouping of its children. -/
theorem regrouped_ofChildren_normalize : (x : Content) → Regrouped x (ofChildren x.normalize)
  | .node n => .alone (.node n)
  | .text s => .alone (.text s)
  | .list items => regrouped_ofChildren_normalizeAll [] items
  | .empty => (Regrouped.alone .empty).trans (Regrouped.gap [] []).symm

/-- The children of contents may stand in their place. -/
theorem regrouped_ofChildren_normalizeAll (before : List Content) : (items : List Content) →
    Regrouped (.list (before ++ items)) (.list (before ++ (normalizeAll items).map ofChild))
  | [] => .refl _
  | x :: xs => by
    have hx := Regrouped.within before xs (regrouped_ofChildren_normalize x)
    have hopen := Regrouped.group before (x.normalize.map ofChild) xs
    have hxs := regrouped_ofChildren_normalizeAll (before ++ x.normalize.map ofChild) xs
    rw [List.append_assoc, List.append_assoc, ← List.map_append] at hxs
    exact (hx.trans hopen.symm).trans hxs

end

/-- Contents have the same children exactly if they differ in groups and gaps alone. -/
theorem regrouped_iff {x y : Content} : Regrouped x y ↔ x.normalize = y.normalize := by
  refine ⟨Regrouped.normalize_eq, fun h => ?_⟩
  have hy := (regrouped_ofChildren_normalize y).symm
  rw [← h] at hy
  exact (regrouped_ofChildren_normalize x).trans hy

end Content

/-- Children given in several steps stand behind each other. -/
theorem Node.foldl_child (n : Node) (xs : List Content) :
    xs.foldl Node.child n = { n with children := n.children ++ xs.flatMap Content.normalize } := by
  induction xs generalizing n with
  | nil =>
    obtain ⟨kind, attributes, children, hook⟩ := n
    rw [List.foldl_nil, List.flatMap_nil, List.append_nil]
  | cons x xs ih => rw [List.foldl_cons, ih, Node.child, List.flatMap_cons, List.append_assoc]

/-! ## Fragments -/

/-- Whether a child only groups its children. -/
def Child.isFragment : Child → Bool
  | .node n => n.isFragment
  | .text _ => false

/-- The child at the end of a path of places, if only fragments are passed through on the way. -/
def Child.reached? : List Nat → Child → Option Child
  | [], d => some d
  | i :: path, .node n => if n.isFragment then n.children[i]?.bind (reached? path) else none
  | _ :: _, .text _ => none

mutual

/-- What is left of a child when fragments are opened, with the paths that lead there. -/
def Child.places : Child → List (List Nat × Child)
  | .node ⟨kind, attributes, children, hook⟩ =>
    if (⟨kind, attributes, children, hook⟩ : Node).isFragment then placesFrom 0 children
    else [([], .node ⟨kind, attributes, children, hook⟩)]
  | .text s => [([], .text s)]

/-- What is left of children, of which the first has the given place. -/
def placesFrom (i : Nat) : List Child → List (List Nat × Child)
  | [] => []
  | d :: ds => d.places.map (fun e => (i :: e.1, e.2)) ++ placesFrom (i + 1) ds

end

mutual

theorem Child.map_snd_places : (d : Child) → d.places.map (·.2) = d.spliced
  | .node ⟨kind, attributes, children, hook⟩ => by
    rw [Child.places, Child.spliced]
    split
    · exact map_snd_placesFrom 0 children
    · rfl
  | .text s => rfl

theorem map_snd_placesFrom (i : Nat) :
    (ds : List Child) → (placesFrom i ds).map (·.2) = splicedAll ds
  | [] => rfl
  | d :: ds => by
    rw [placesFrom, splicedAll, List.map_append, List.map_map, ← Child.map_snd_places d,
      map_snd_placesFrom (i + 1) ds]
    rfl

end

theorem mem_placesFrom {i : Nat} {ds : List Child} {path : List Nat} {d : Child} :
    (path, d) ∈ placesFrom i ds
      ↔ ∃ j rest e, path = (i + j) :: rest ∧ ds[j]? = some e ∧ (rest, d) ∈ e.places := by
  induction ds generalizing i with
  | nil => simp [placesFrom]
  | cons e ds ih =>
    rw [placesFrom, List.mem_append, List.mem_map, ih]
    constructor
    · rintro (⟨⟨rest, d⟩, hmem, heq⟩ | ⟨j, rest, e', rfl, hj, hmem⟩)
      · obtain ⟨rfl, rfl⟩ := Prod.mk.inj heq
        exact ⟨0, rest, e, rfl, rfl, hmem⟩
      · exact ⟨j + 1, rest, e', by rw [Nat.add_right_comm, Nat.add_assoc], hj, hmem⟩
    · rintro ⟨_ | j, rest, e', rfl, hj, hmem⟩
      · obtain rfl := Option.some.inj hj
        exact .inl ⟨(rest, d), hmem, rfl⟩
      · exact .inr ⟨j, rest, e', by rw [Nat.add_right_comm, Nat.add_assoc], hj, hmem⟩

namespace Child

theorem places_of_isFragment {n : Node} (h : n.isFragment = true) :
    (node n).places = placesFrom 0 n.children := by
  obtain ⟨kind, attributes, children, hook⟩ := n
  rw [places, if_pos h]

theorem places_of_not_isFragment {d : Child} (h : d.isFragment = false) :
    d.places = [([], d)] := by
  match d, h with
  | node ⟨kind, attributes, children, hook⟩, h => rw [places]; exact if_neg (Bool.eq_false_iff.mp h)
  | text s, _ => rw [places]

theorem exists_node_of_isFragment {d : Child} (h : d.isFragment = true) :
    ∃ n, d = node n ∧ n.isFragment = true := by
  match d, h with
  | node n, h => exact ⟨n, rfl, h⟩

/-- What is left of a child is what paths through fragments lead to. -/
theorem mem_places {path : List Nat} {e d : Child} :
    (path, d) ∈ e.places ↔ e.reached? path = some d ∧ d.isFragment = false := by
  induction path generalizing e with
  | nil =>
    cases he : e.isFragment with
    | true =>
      obtain ⟨n, rfl, hn⟩ := exists_node_of_isFragment he
      rw [places_of_isFragment hn, mem_placesFrom, reached?]
      constructor
      · rintro ⟨j, rest, e, hpath, -⟩
        cases hpath
      · rintro ⟨h, hd⟩
        rw [← Option.some.inj h, he] at hd
        cases hd
    | false =>
      rw [places_of_not_isFragment he, List.mem_singleton, reached?]
      constructor
      · intro h
        obtain ⟨-, rfl⟩ := Prod.mk.inj h
        exact ⟨rfl, he⟩
      · rintro ⟨h, -⟩
        rw [Option.some.inj h]
  | cons i path ih =>
    cases he : e.isFragment with
    | true =>
      obtain ⟨n, rfl, hn⟩ := exists_node_of_isFragment he
      rw [places_of_isFragment hn, mem_placesFrom, reached?, if_pos hn, Option.bind_eq_some_iff]
      constructor
      · rintro ⟨j, rest, e, hpath, hj, hmem⟩
        rw [Nat.zero_add] at hpath
        obtain ⟨rfl, rfl⟩ := List.cons.inj hpath
        obtain ⟨hreached, hd⟩ := ih.mp hmem
        exact ⟨⟨e, hj, hreached⟩, hd⟩
      · rintro ⟨⟨e, hj, hreached⟩, hd⟩
        exact ⟨i, path, e, by rw [Nat.zero_add], hj, ih.mpr ⟨hreached, hd⟩⟩
    | false =>
      have hreached : e.reached? (i :: path) = none := by
        match e, he with
        | node n, he => rw [reached?]; exact if_neg (Bool.eq_false_iff.mp he)
        | text s, _ => rw [reached?]
      rw [places_of_not_isFragment he, List.mem_singleton, hreached]
      simp

end Child

/-! ## Order in the document -/

theorem head?_of_mem_placesFrom {i : Nat} {ds : List Child} {path : List Nat} {d : Child}
    (h : (path, d) ∈ placesFrom i ds) : ∃ j rest, path = j :: rest ∧ i ≤ j := by
  obtain ⟨j, rest, e, rfl, -⟩ := mem_placesFrom.mp h
  exact ⟨i + j, rest, rfl, Nat.le_add_right i j⟩

mutual

/-- The paths to what is left ascend. -/
theorem Child.pairwise_places : (d : Child) → d.places.Pairwise fun a b => a.1 < b.1
  | .node ⟨kind, attributes, children, hook⟩ => by
    rw [Child.places]
    split
    · exact pairwise_placesFrom 0 children
    · exact List.pairwise_singleton _ _
  | .text s => List.pairwise_singleton _ _

theorem pairwise_placesFrom (i : Nat) :
    (ds : List Child) → (placesFrom i ds).Pairwise fun a b => a.1 < b.1
  | [] => .nil
  | d :: ds => by
    rw [placesFrom, List.pairwise_append, List.pairwise_map]
    refine ⟨(Child.pairwise_places d).imp fun h => List.cons_lt_cons_iff.mpr (.inr ⟨rfl, h⟩),
      pairwise_placesFrom (i + 1) ds, ?_⟩
    rintro a ha ⟨path, e⟩ hb
    obtain ⟨b, -, rfl⟩ := List.mem_map.mp ha
    obtain ⟨j, rest, rfl, hj⟩ := head?_of_mem_placesFrom hb
    exact List.cons_lt_cons_iff.mpr (.inl hj)

end

namespace Content

theorem spliced_eq (x : Content) : x.spliced = (Child.node (.array x)).spliced := by
  rw [Node.array, Node.new, Child.spliced]
  rfl

theorem isFragment_of_mem_spliced {x : Content} {d : Child} (h : d ∈ x.spliced) :
    d.isFragment = false := by
  rw [spliced_eq, ← Child.map_snd_places] at h
  obtain ⟨⟨path, d⟩, hmem, rfl⟩ := List.mem_map.mp h
  exact (Child.mem_places.mp hmem).2

/-- Children without fragments among them stay as they are. -/
theorem splicedAll_of_forall {ds : List Child} (h : ∀ d ∈ ds, d.isFragment = false) :
    splicedAll ds = ds := by
  induction ds with
  | nil => rfl
  | cons d ds ih =>
    obtain ⟨hd, hds⟩ := List.forall_mem_cons.mp h
    rw [splicedAll, ← Child.map_snd_places, Child.places_of_not_isFragment hd, ih hds]
    rfl

theorem spliced_ofChildren_spliced (x : Content) : (ofChildren x.spliced).spliced = x.spliced := by
  rw [spliced, normalize_ofChildren]
  exact splicedAll_of_forall fun d => isFragment_of_mem_spliced

/-! ## Single nodes -/

theorem only_eq_ok_iff {x : Content} {n : Node} : x.only = .ok n ↔ x.normalize = [.node n] := by
  unfold only
  split
  · next m h => rw [h]; simp
  · next h => exact ⟨nofun, fun hn => absurd hn (h n)⟩

theorem only_eq_error_iff {x : Content} {e : RenderError} :
    x.only = .error e
      ↔ (∀ n, x.normalize ≠ [.node n]) ∧ e = .notSingleNode x.normalize.length := by
  unfold only
  split
  · next m h => exact ⟨nofun, fun hn => absurd h (hn.1 m)⟩
  · next h =>
    constructor
    · exact fun he => ⟨h, (Except.error.inj he).symm⟩
    · rintro ⟨-, rfl⟩
      rfl

/-- Flattening content loses its groups and gaps and nothing else, in one step or in several. Where
fragments are opened, just what is reached through them is left, in the order of the document. There
is a single node exactly if it is the only child. -/
theorem normalize_spliced_only (x : Content) :
    (∀ y, Regrouped x y ↔ y.normalize = x.normalize) ∧
      (ofChildren x.normalize).normalize = x.normalize ∧
      (∀ (n : Node) (xs : List Content), xs.foldl Node.child n
        = { n with children := n.children ++ xs.flatMap normalize }) ∧
      (∀ d ∈ x.spliced, d.isFragment = false) ∧
      (∃ places : List (List Nat × Child), places.map (·.2) = x.spliced ∧
        places.Pairwise (fun a b => a.1 < b.1) ∧
        ∀ path d, (path, d) ∈ places
          ↔ (Child.node (.array x)).reached? path = some d ∧ d.isFragment = false) ∧
      (ofChildren x.spliced).spliced = x.spliced ∧
      (∀ n, x.only = .ok n ↔ x.normalize = [.node n]) ∧
      ∀ e, x.only = .error e
        ↔ (∀ n, x.normalize ≠ [.node n]) ∧ e = .notSingleNode x.normalize.length := by
  refine ⟨fun y => regrouped_iff.trans eq_comm, normalize_ofChildren x.normalize, Node.foldl_child,
    fun d => isFragment_of_mem_spliced, ?_, spliced_ofChildren_spliced x, fun n => only_eq_ok_iff,
    fun e => only_eq_error_iff⟩
  exact ⟨(Child.node (.array x)).places, (Child.map_snd_places _).trans (spliced_eq x).symm,
    Child.pairwise_places _, fun path d => Child.mem_places⟩

/-- A list within a list is opened, and a list with a check stays whole. -/
theorem normalize_spliced_only_nested :
    let d : Child := .node ((Node.array (.text "d")).withHook .contextElements)
    let x : Content := .list [.text "a", .empty,
      .node (.array (.list [.text "b", .list [.node (.array (.text "c"))], ofChild d]))]
    x.spliced = [.text "a", .text "b", .text "c", d] ∧ d ∈ x.spliced ∧ d.isFragment = false ∧
      x.only = .error (.notSingleNode 2) := by
  intro d x
  have hspliced : x.spliced = [.text "a", .text "b", .text "c", d] := rfl
  have hmem : d ∈ x.spliced := by simp [hspliced]
  obtain ⟨-, -, -, hwhole, -, -, -, herror⟩ := normalize_spliced_only x
  exact ⟨hspliced, hmem, hwhole d hmem, (herror _).mpr ⟨nofun, rfl⟩⟩

end Content

end MessageLayout
