import StackVm.Files.Path
import StackVm.Proofs.Source.Words

/-! # Names of a path

Following a path means following its names from the place where it starts.  The parent of a
path has all names but the last, apart from names `.` that lead nowhere; it is written as
the path is, up to that name, so going from parent to parent comes to an end.
-/

namespace StackVm

namespace Text

variable {isMark : Char → Bool} {c : Char} {cs : List Char}

theorem pieces_ne_nil (isMark : Char → Bool) (cs : List Char) : pieces isMark cs ≠ [] := by
  cases cs with
  | nil => simp
  | cons c cs =>
      by_cases hc : isMark c = true
      · simp [pieces_mark cs hc]
      · rw [pieces_cons cs (Bool.not_eq_true _ ▸ hc)]
        split <;> simp

/-- A mark separates the pieces before it from those after it. -/
theorem pieces_append_mark (hc : isMark c = true) (xs ys : List Char) :
    pieces isMark (xs ++ c :: ys) = pieces isMark xs ++ pieces isMark ys := by
  induction xs with
  | nil => exact pieces_mark ys hc
  | cons x xs ih =>
      rw [List.cons_append]
      by_cases hx : isMark x = true
      · rw [pieces_mark _ hx, pieces_mark _ hx, ih, List.cons_append]
      · have hx : isMark x = false := Bool.not_eq_true _ ▸ hx
        rw [pieces_cons _ hx, pieces_cons _ hx, ih]
        cases hxs : pieces isMark xs with
        | nil => exact absurd hxs (pieces_ne_nil isMark xs)
        | cons piece others => rfl

theorem forall_mem_pieces (isMark : Char → Bool) (cs : List Char) :
    ∀ piece ∈ pieces isMark cs, ∀ c ∈ piece, c ∈ cs ∧ isMark c = false := by
  induction cs with
  | nil => simp
  | cons c cs ih =>
      have hkeep : ∀ piece ∈ pieces isMark cs, ∀ d ∈ piece, d ∈ c :: cs ∧ isMark d = false :=
        fun piece hpiece d hd => ⟨List.mem_cons_of_mem c (ih piece hpiece d hd).1,
          (ih piece hpiece d hd).2⟩
      by_cases hc : isMark c = true
      · rw [pieces_mark cs hc, List.forall_mem_cons]
        exact ⟨List.forall_mem_nil _, hkeep⟩
      · have hc : isMark c = false := Bool.not_eq_true _ ▸ hc
        rw [pieces_cons cs hc]
        cases hcs : pieces isMark cs with
        | nil => exact absurd hcs (pieces_ne_nil isMark cs)
        | cons piece others =>
            rw [hcs, List.forall_mem_cons] at hkeep
            exact List.forall_mem_cons.2
              ⟨List.forall_mem_cons.2 ⟨⟨List.mem_cons_self, hc⟩, hkeep.1⟩, hkeep.2⟩

end Text

/-! ## Pieces between slashes -/

variable {cs : List Char} {pieces others : List (List Char)}

theorem slashPieces_ne_nil (cs : List Char) : slashPieces cs ≠ [] :=
  Text.pieces_ne_nil _ cs

theorem slashPieces_slash (rest : List Char) :
    slashPieces ('/' :: rest) = [] :: slashPieces rest :=
  Text.pieces_mark rest rfl

theorem slashPieces_append_slash (xs ys : List Char) :
    slashPieces (xs ++ '/' :: ys) = slashPieces xs ++ slashPieces ys :=
  Text.pieces_append_mark rfl xs ys

theorem slashPieces_of_not_mem (h : '/' ∉ cs) : slashPieces cs = [cs] := by
  have hcs : ∀ c ∈ cs, (c == '/') = false := by
    intro c hc
    rw [beq_eq_false_iff_ne]
    rintro rfl
    exact h hc
  have hpieces := Text.pieces_append hcs (Text.pieces_nil (· == '/'))
  rwa [List.append_nil] at hpieces

theorem not_mem_of_mem_slashPieces {piece : List Char} (h : piece ∈ slashPieces cs) :
    '/' ∉ piece := by
  intro hslash
  exact absurd (Text.forall_mem_pieces (· == '/') cs piece h '/' hslash).2 (by decide)

theorem mem_of_mem_slashPieces {piece : List Char} {c : Char} (h : piece ∈ slashPieces cs)
    (hc : c ∈ piece) : c ∈ cs :=
  (Text.forall_mem_pieces (· == '/') cs piece h c hc).1

theorem joinPieces_cons (piece : List Char) (h : pieces ≠ []) :
    joinPieces (piece :: pieces) = piece ++ '/' :: joinPieces pieces := by
  cases pieces with
  | nil => exact absurd rfl h
  | cons next rest =>
      rw [joinPieces, List.intercalate_cons_cons, List.append_assoc, List.singleton_append]
      rfl

theorem slashPieces_joinPieces (hne : pieces ≠ []) (h : ∀ piece ∈ pieces, '/' ∉ piece) :
    slashPieces (joinPieces pieces) = pieces := by
  induction pieces with
  | nil => exact absurd rfl hne
  | cons piece rest ih =>
      rw [List.forall_mem_cons] at h
      by_cases hrest : rest = []
      · subst hrest
        have hone : joinPieces [piece] = piece := by simp [joinPieces]
        rw [hone, slashPieces_of_not_mem h.1]
      · rw [joinPieces_cons piece hrest, slashPieces_append_slash, ih hrest h.2,
          slashPieces_of_not_mem h.1]
        rfl

theorem joinPieces_slashPieces (cs : List Char) : joinPieces (slashPieces cs) = cs := by
  induction cs with
  | nil => rfl
  | cons c cs ih =>
      by_cases hc : c = '/'
      · subst hc
        rw [slashPieces_slash, joinPieces_cons _ (slashPieces_ne_nil cs), ih]
        rfl
      · have hpieces : slashPieces (c :: cs) = _ :=
          Text.pieces_cons cs (beq_eq_false_iff_ne.2 hc)
        change joinPieces (Text.pieces (· == '/') cs) = cs at ih
        rw [hpieces]
        cases hcs : Text.pieces (· == '/') cs with
        | nil => exact absurd hcs (Text.pieces_ne_nil _ cs)
        | cons piece rest =>
            rw [hcs] at ih
            rw [← ih]
            cases rest with
            | nil => simp [joinPieces]
            | cons next rest => simp [joinPieces_cons]

theorem joinPieces_append (hpieces : pieces ≠ []) (hothers : others ≠ []) :
    joinPieces (pieces ++ others) = joinPieces pieces ++ '/' :: joinPieces others := by
  induction pieces with
  | nil => exact absurd rfl hpieces
  | cons piece rest ih =>
      by_cases hrest : rest = []
      · subst hrest
        rw [List.singleton_append, joinPieces_cons piece hothers]
        simp [joinPieces]
      · rw [List.cons_append, joinPieces_cons piece (by simp [hrest]), ih hrest,
          joinPieces_cons piece hrest, List.append_assoc, List.cons_append]

theorem isPrefix_joinPieces (h : pieces <+: others) : joinPieces pieces <+: joinPieces others := by
  obtain ⟨rest, rfl⟩ := h
  by_cases hrest : rest = []
  · simp [hrest]
  · by_cases hpieces : pieces = []
    · subst hpieces
      exact List.nil_prefix
    · rw [joinPieces_append hpieces hrest]
      exact List.prefix_append _ _

/-! ## Names -/

/-- The names among pieces: those that are not empty. -/
def namesIn (pieces : List (List Char)) : List String :=
  (pieces.filter (· != [])).map String.ofList

@[simp] theorem namesIn_nil : namesIn [] = [] := rfl

@[simp] theorem namesIn_append (xs ys : List (List Char)) :
    namesIn (xs ++ ys) = namesIn xs ++ namesIn ys := by
  simp [namesIn]

@[simp] theorem namesIn_nil_cons (pieces : List (List Char)) :
    namesIn ([] :: pieces) = namesIn pieces := by
  simp [namesIn]

theorem namesIn_cons {piece : List Char} (h : piece ≠ []) (pieces : List (List Char)) :
    namesIn (piece :: pieces) = String.ofList piece :: namesIn pieces := by
  simp [namesIn, h]

theorem namesIn_slashPieces_joinPieces (h : ∀ piece ∈ pieces, '/' ∉ piece) :
    namesIn (slashPieces (joinPieces pieces)) = namesIn pieces := by
  by_cases hne : pieces = []
  · subst hne
    rfl
  · rw [slashPieces_joinPieces hne h]

namespace Path

/-- The names that following a path takes, one after the other. -/
def names (path : Path) : List String :=
  namesIn (slashPieces path.text.toList)

variable {path parent : Path}

/-! ## Starts -/

/-- The ways in which a path may start. -/
theorem parts_cases (path : Path) :
    (∃ rest, path.text.toList = '/' :: rest ∧ path.parts = (['/'], slashPieces rest)) ∨
      (path.text.toList = ['.'] ∧ path.parts = (['.'], [])) ∨
      (∃ rest, path.text.toList = '.' :: '/' :: rest ∧
        path.parts = (['.'], [] :: slashPieces rest)) ∨
      (path.text.toList.head? ≠ some '/' ∧ path.parts = ([], slashPieces path.text.toList)) := by
  unfold parts
  split
  · next rest htext => exact .inl ⟨rest, htext, rfl⟩
  · next htext => exact .inr (.inl ⟨htext, rfl⟩)
  · next rest htext => exact .inr (.inr (.inl ⟨rest, htext, by rw [slashPieces_slash]⟩))
  · next hslash _ _ =>
      refine .inr (.inr (.inr ⟨?_, rfl⟩))
      intro hhead
      obtain ⟨rest, hrest⟩ := List.head?_eq_some_iff.1 hhead
      exact hslash rest hrest

theorem ofParts_parts (path : Path) : ofParts path.parts.1 path.parts.2 = path := by
  have htext : path.parts.1 ++ joinPieces path.parts.2 = path.text.toList := by
    rcases path.parts_cases with ⟨rest, htext, hparts⟩ | ⟨htext, hparts⟩ | ⟨rest, htext, hparts⟩ |
      ⟨-, hparts⟩
    · rw [hparts, htext, joinPieces_slashPieces]
      rfl
    · rw [hparts, htext]
      rfl
    · rw [hparts, htext, joinPieces_cons [] (slashPieces_ne_nil rest), joinPieces_slashPieces]
      rfl
    · rw [hparts, joinPieces_slashPieces]
      rfl
  rw [ofParts, htext, String.ofList_toList]

def startNames (start : List Char) : List String :=
  if start = ['.'] then ["."] else []

/-- A path that starts as another does and has some of its pieces. -/
theorem names_ofParts (path : Path) (h : pieces <+: path.parts.2) :
    (ofParts path.parts.1 pieces).names = startNames path.parts.1 ++ namesIn pieces ∧
      (ofParts path.parts.1 pieces).isAbsolute = path.isAbsolute := by
  have hslash : ∀ {rest}, pieces <+: slashPieces rest → ∀ piece ∈ pieces, '/' ∉ piece :=
    fun hrest piece hmem => not_mem_of_mem_slashPieces (hrest.mem hmem)
  simp only [names, isAbsolute, ofParts, String.toList_ofList]
  rcases path.parts_cases with ⟨rest, htext, hparts⟩ | ⟨htext, hparts⟩ | ⟨rest, htext, hparts⟩ |
    ⟨hhead, hparts⟩
  · rw [hparts] at h ⊢
    rw [List.singleton_append, slashPieces_slash, namesIn_nil_cons,
      namesIn_slashPieces_joinPieces (hslash h), htext]
    exact ⟨rfl, rfl⟩
  · rw [hparts] at h ⊢
    rw [List.prefix_nil.1 h, htext]
    exact ⟨rfl, rfl⟩
  · rw [hparts] at h ⊢
    rw [htext]
    rcases List.prefix_cons_iff.1 h with rfl | ⟨named, rfl, hnamed⟩
    · exact ⟨rfl, rfl⟩
    · by_cases hne : named = []
      · subst hne
        exact ⟨rfl, rfl⟩
      · rw [joinPieces_cons [] hne, List.nil_append, slashPieces_append_slash, namesIn_append,
          namesIn_slashPieces_joinPieces fun piece hmem =>
            not_mem_of_mem_slashPieces (hnamed.mem hmem), namesIn_nil_cons]
        exact ⟨rfl, rfl⟩
  · rw [hparts] at h ⊢
    rw [List.nil_append, namesIn_slashPieces_joinPieces (hslash h)]
    refine ⟨rfl, ?_⟩
    have hshort := isPrefix_joinPieces h
    rw [joinPieces_slashPieces] at hshort
    cases hjoin : joinPieces pieces with
    | nil => simpa using hhead
    | cons c rest =>
        rw [hjoin] at hshort
        obtain ⟨more, hmore⟩ := hshort
        rw [← hmore]
        rfl

theorem names_eq (path : Path) : path.names = startNames path.parts.1 ++ namesIn path.parts.2 := by
  have hnames := (path.names_ofParts List.prefix_rfl).1
  rwa [ofParts_parts] at hnames

/-! ## Parents -/

theorem exists_dropIdle (pieces : List (List Char)) :
    ∃ idle, pieces = dropIdle pieces ++ idle ∧ ∀ piece ∈ idle, isIdle piece = true := by
  refine ⟨(pieces.reverse.takeWhile isIdle).reverse, ?_, ?_⟩
  · rw [dropIdle, ← List.reverse_append, List.takeWhile_append_dropWhile, List.reverse_reverse]
  · simp only [List.mem_reverse]
    exact List.all_eq_true.1 List.all_takeWhile

theorem isPrefix_dropIdle (pieces : List (List Char)) : dropIdle pieces <+: pieces := by
  obtain ⟨idle, hidle, -⟩ := exists_dropIdle pieces
  exact ⟨idle, hidle.symm⟩

theorem dropIdle_eq_self {last : List Char} (hlast : pieces.getLast? = some last)
    (h : isIdle last = false) : dropIdle pieces = pieces := by
  obtain ⟨front, rfl⟩ := List.getLast?_eq_some_iff.1 hlast
  rw [dropIdle, List.reverse_concat, List.dropWhile_cons_of_neg (by simp [h]),
    ← List.reverse_concat, List.reverse_reverse]

theorem isIdle_getLast?_dropIdle (pieces : List (List Char)) :
    ∀ piece ∈ (dropIdle pieces).getLast?, isIdle piece = false := by
  intro piece hpiece
  rw [dropIdle, List.getLast?_reverse] at hpiece
  have hstop := List.head?_dropWhile_not isIdle pieces.reverse
  rw [Option.mem_def.1 hpiece] at hstop
  exact hstop

theorem eq_dot_of_mem_namesIn {name : String} (h : ∀ piece ∈ pieces, isIdle piece = true)
    (hname : name ∈ namesIn pieces) : name = "." := by
  simp only [namesIn, List.mem_map, List.mem_filter] at hname
  obtain ⟨piece, ⟨hmem, hne⟩, rfl⟩ := hname
  have hidle := h piece hmem
  simp only [isIdle, Bool.or_eq_true, beq_iff_eq] at hidle
  rcases hidle with rfl | rfl
  · simp at hne
  · rfl

/-- Names that lead nowhere. -/
def AreDots (names : List String) : Prop :=
  ∀ name ∈ names, name = "."

theorem areDots_dropped (pieces : List (List Char)) :
    ∃ dots, AreDots dots ∧ namesIn pieces = namesIn (dropIdle pieces) ++ dots := by
  obtain ⟨idle, hpieces, hidle⟩ := exists_dropIdle pieces
  refine ⟨namesIn idle, fun name => eq_dot_of_mem_namesIn hidle, ?_⟩
  rw [← namesIn_append, ← hpieces]

/-- How a path is made from its parent. -/
structure IsParent (parent path : Path) : Prop where
  names : ∃ dots last idle, AreDots dots ∧ AreDots idle ∧
    path.names = parent.names ++ dots ++ last :: idle
  isAbsolute : parent.isAbsolute = path.isAbsolute
  text : parent.text.toList <+: path.text.toList

theorem isParent_of_parent? (h : path.parent? = some parent) : IsParent parent path := by
  unfold parent? at h
  simp only at h
  obtain ⟨idle, hidle, hnames⟩ := areDots_dropped path.parts.2
  have hpath := path.names_eq
  split at h
  · next hnone =>
      split at h
      · next hstart =>
          cases h
          rw [hnone, namesIn_nil, List.nil_append] at hnames
          refine ⟨⟨[], ".", idle, List.forall_mem_nil _, hidle, ?_⟩, ?_, List.nil_prefix⟩
          · rw [hpath, hnames, hstart]
            rfl
          · have habsolute := (path.names_ofParts List.nil_prefix).2
            rw [hstart] at habsolute
            exact habsolute
      · cases h
  · next hne =>
      cases h
      obtain ⟨dots, hdots, hfront⟩ := areDots_dropped (dropIdle path.parts.2).dropLast
      have hshort : dropIdle (dropIdle path.parts.2).dropLast <+: path.parts.2 :=
        ((isPrefix_dropIdle _).trans (List.dropLast_prefix _)).trans (isPrefix_dropIdle _)
      obtain ⟨hparent, habsolute⟩ := path.names_ofParts hshort
      have hlast : (dropIdle path.parts.2).getLast hne ≠ [] := by
        intro hnil
        have hidle := isIdle_getLast?_dropIdle path.parts.2 []
          (by rw [List.getLast?_eq_some_getLast hne, hnil]; rfl)
        cases hidle
      refine ⟨⟨dots, String.ofList ((dropIdle path.parts.2).getLast hne), idle, hdots, hidle, ?_⟩,
        habsolute, ?_⟩
      · calc
          path.names = startNames path.parts.1 ++
              (namesIn ((dropIdle path.parts.2).dropLast ++ [(dropIdle path.parts.2).getLast hne]) ++
                idle) := by rw [List.dropLast_concat_getLast, hpath, hnames]
          _ = _ := by
            rw [namesIn_append, namesIn_cons hlast, hfront, hparent]
            simp
      · have htext := congrArg (fun other : Path => other.text.toList) path.ofParts_parts
        simp only [ofParts, String.toList_ofList] at htext ⊢
        rw [← htext]
        exact (List.prefix_append_right_inj _).2 (isPrefix_joinPieces hshort)

theorem IsParent.length_lt (h : IsParent parent path) : parent.text.length < path.text.length := by
  refine Nat.lt_of_le_of_ne h.text.length_le ?_
  intro hlength
  have htext : parent = path := by
    have hlist := h.text.eq_of_length hlength
    rw [String.toList_inj] at hlist
    cases parent
    cases path
    cases hlist
    rfl
  obtain ⟨dots, last, idle, -, -, hnames⟩ := h.names
  have hcount := congrArg List.length hnames
  rw [htext] at hcount
  simp at hcount

theorem IsParent.utf8ByteSize_lt (h : IsParent parent path) :
    parent.text.utf8ByteSize < path.text.utf8ByteSize := by
  obtain ⟨rest, hrest⟩ := h.text
  have hlength := h.length_lt
  rw [← String.length_toList, ← String.length_toList, ← hrest, List.length_append] at hlength
  rw [← Text.byteLength_toList, ← Text.byteLength_toList, ← hrest, Text.byteLength_append]
  cases rest with
  | nil => simp at hlength
  | cons c rest =>
      have hpos := c.utf8Size_pos
      rw [Text.byteLength_cons]
      omega

theorem IsParent.isPrefix_names (h : IsParent parent path) : parent.names <+: path.names := by
  obtain ⟨dots, last, idle, -, -, hnames⟩ := h.names
  exact ⟨dots ++ last :: idle, by rw [hnames, List.append_assoc]⟩

theorem areDots_of_top (h : path.parent? = none) : AreDots path.names := by
  unfold parent? at h
  simp only at h
  obtain ⟨dots, hdots, hnames⟩ := areDots_dropped path.parts.2
  split at h
  · next hnone =>
      have hstart : path.parts.1 ≠ ['.'] := by
        intro hdot
        rw [if_pos hdot] at h
        cases h
      rw [path.names_eq, startNames, if_neg hstart, hnames, hnone]
      exact hdots
  · cases h

/-! ## Ancestors -/

/-- What holds of paths without a parent, and of a path if of its parent, holds of every path. -/
theorem parentInduction {motive : Path → Prop} (top : ∀ path, path.parent? = none → motive path)
    (step : ∀ path parent, path.parent? = some parent → motive parent → motive path)
    (path : Path) : motive path := by
  induction hlength : path.text.length using Nat.strongRecOn generalizing path with
  | ind length ih =>
      subst hlength
      cases hparent : path.parent? with
      | none => exact top path hparent
      | some parent =>
          have hlt := (isParent_of_parent? hparent).length_lt
          exact step path parent hparent (ih _ hlt parent rfl)

theorem ancestorsWithin_eq {fuel more : Nat} (path : Path) (hfuel : path.text.length < fuel)
    (hmore : path.text.length < more) : ancestorsWithin fuel path = ancestorsWithin more path := by
  induction fuel generalizing path more with
  | zero => cases hfuel
  | succ fuel ih =>
      cases more with
      | zero => cases hmore
      | succ more =>
          rw [ancestorsWithin, ancestorsWithin]
          cases hparent : path.parent? with
          | none => rfl
          | some parent =>
              have hlt := (isParent_of_parent? hparent).length_lt
              have hrest : ancestorsWithin fuel parent = ancestorsWithin more parent :=
                ih parent (by omega) (by omega)
              simp only [hrest]

theorem ancestors_of_top (h : path.parent? = none) : path.ancestors = [path] := by
  rw [ancestors, ancestorsWithin, h]

theorem ancestors_of_parent (h : path.parent? = some parent) :
    path.ancestors = path :: parent.ancestors := by
  have hlt := (isParent_of_parent? h).length_lt
  rw [ancestors, ancestorsWithin, h]
  simp only
  rw [ancestors, ancestorsWithin_eq parent hlt (Nat.lt_succ_self _)]

/-! ## Joining -/

/-- What an entry of a directory may be called. -/
structure IsFileName (name : String) : Prop where
  ne_empty : name ≠ ""
  slash : '/' ∉ name.toList
  nul : '\x00' ∉ name.toList
  ne_dot : name ≠ "."
  ne_parent : name ≠ ".."

instance (name : String) : Decidable (IsFileName name) :=
  decidable_of_iff
    (name ≠ "" ∧ '/' ∉ name.toList ∧ '\x00' ∉ name.toList ∧ name ≠ "." ∧ name ≠ "..")
    ⟨fun h => ⟨h.1, h.2.1, h.2.2.1, h.2.2.2.1, h.2.2.2.2⟩,
      fun h => ⟨h.ne_empty, h.slash, h.nul, h.ne_dot, h.ne_parent⟩⟩

theorem IsFileName.not_isAbsolute {name : String} (h : IsFileName name) :
    (⟨name⟩ : Path).isAbsolute = false := by
  rw [isAbsolute, beq_eq_false_iff_ne]
  intro hhead
  exact h.slash (List.mem_of_mem_head? hhead)

/-- A name stands after a slash, unless it stands alone. -/
theorem join_cases {name : String} (hname : IsFileName name) (path : Path) :
    path.text.toList = [] ∧ (path.join ⟨name⟩).text.toList = name.toList ∨
      path.text.toList ≠ [] ∧ ∃ front,
        (path.join ⟨name⟩).text.toList = front ++ '/' :: name.toList ∧
          (path.text.toList = front ∨ path.text.toList = front ++ ['/']) := by
  unfold join
  rw [hname.not_isAbsolute, Bool.false_or]
  split
  · next hempty =>
      rw [String.isEmpty_iff] at hempty
      exact .inl ⟨by rw [hempty]; rfl, rfl⟩
  · next hempty =>
      have hne : path.text.toList ≠ [] := by simpa [String.isEmpty_iff] using hempty
      refine .inr ⟨hne, ?_⟩
      split
      · next hslash =>
          obtain ⟨front, hfront⟩ := List.getLast?_eq_some_iff.1 (beq_iff_eq.1 hslash)
          exact ⟨front, by simp [String.toList_append, hfront], .inr hfront⟩
      · exact ⟨path.text.toList, by simp [String.toList_append], .inl rfl⟩

theorem mem_text_join {name : String} {c : Char} (hname : IsFileName name)
    (h : c ∈ (path.join ⟨name⟩).text.toList) :
    c ∈ path.text.toList ∨ c = '/' ∨ c ∈ name.toList := by
  rcases path.join_cases hname with ⟨-, hjoin⟩ | ⟨-, front, hjoin, hpath | hpath⟩
  · exact .inr (.inr (hjoin ▸ h))
  all_goals
    rw [hjoin, List.mem_append, List.mem_cons] at h
    rw [hpath]
    grind

theorem text_join_ne_empty {name : String} (hname : IsFileName name) (path : Path) :
    (path.join ⟨name⟩).text ≠ "" := by
  intro hempty
  rcases path.join_cases hname with ⟨-, hjoin⟩ | ⟨-, front, hjoin, -⟩
  · rw [hempty] at hjoin
    exact hname.ne_empty (String.toList_inj.1 hjoin.symm)
  · simp [hempty] at hjoin

/-- Joining adds the name and at most a slash. -/
theorem utf8ByteSize_join {name : String} (hname : IsFileName name) (path : Path) :
    path.text.utf8ByteSize + name.utf8ByteSize ≤ (path.join ⟨name⟩).text.utf8ByteSize ∧
      (path.join ⟨name⟩).text.utf8ByteSize ≤ path.text.utf8ByteSize + 1 + name.utf8ByteSize := by
  have hslash : '/'.utf8Size = 1 := by decide
  simp only [← Text.byteLength_toList]
  rcases path.join_cases hname with ⟨hpath, hjoin⟩ | ⟨-, front, hjoin, hpath | hpath⟩
  · rw [hjoin, hpath, Text.byteLength_nil]
    omega
  all_goals
    simp only [hjoin, hpath, Text.byteLength_append, Text.byteLength_cons, Text.byteLength_nil]
    omega

theorem names_join {name : String} (hname : IsFileName name) (path : Path) :
    (path.join ⟨name⟩).names = path.names ++ [name] := by
  have hne : name.toList ≠ [] := by simpa using hname.ne_empty
  have hone : namesIn (slashPieces name.toList) = [name] := by
    rw [slashPieces_of_not_mem hname.slash, namesIn_cons hne, String.ofList_toList, namesIn_nil]
  unfold names
  rcases path.join_cases hname with ⟨hpath, hjoin⟩ | ⟨-, front, hjoin, hpath | hpath⟩
  · rw [hjoin, hpath, hone]
    rfl
  · rw [hjoin, hpath, slashPieces_append_slash, namesIn_append, hone]
  · have hend : namesIn (slashPieces []) = [] := rfl
    rw [hjoin, hpath, slashPieces_append_slash, slashPieces_append_slash, namesIn_append,
      namesIn_append, hone, hend, List.append_nil]

theorem isAbsolute_join {name : String} (hname : IsFileName name) (path : Path) :
    (path.join ⟨name⟩).isAbsolute = path.isAbsolute := by
  unfold isAbsolute
  rcases path.join_cases hname with ⟨hpath, hjoin⟩ | ⟨hne, front, hjoin, hpath⟩
  · rw [hjoin, hpath]
    exact hname.not_isAbsolute
  · cases front with
    | nil =>
        rcases hpath with hpath | hpath
        · exact absurd hpath hne
        · rw [hjoin, hpath]
          rfl
    | cons c front =>
        rcases hpath with hpath | hpath <;>
          · rw [hjoin, hpath]
            rfl

theorem not_endsInSlash_join {name : String} (hname : IsFileName name) (path : Path) :
    (path.join ⟨name⟩).endsInSlash = false := by
  have hne : name.toList ≠ [] := by simpa using hname.ne_empty
  have hlast : (path.join ⟨name⟩).text.toList.getLast? = some (name.toList.getLast hne) := by
    rcases path.join_cases hname with ⟨-, hjoin⟩ | ⟨-, front, hjoin, -⟩
    · rw [hjoin, List.getLast?_eq_some_getLast hne]
    · rw [hjoin, List.getLast?_append, List.getLast?_cons_of_ne_nil hne,
        List.getLast?_eq_some_getLast hne, Option.some_or]
  rw [endsInSlash, hlast, beq_eq_false_iff_ne]
  intro hslash
  exact hname.slash (Option.some.inj hslash ▸ List.getLast_mem hne)

/-- The last piece of a path does not depend on how the path starts. -/
theorem getLast?_parts (h : path.text ≠ ".") :
    path.parts.2.getLast? = (slashPieces path.text.toList).getLast? := by
  rcases path.parts_cases with ⟨rest, htext, hparts⟩ | ⟨htext, -⟩ | ⟨rest, htext, hparts⟩ |
    ⟨-, hparts⟩
  · rw [hparts, htext, slashPieces_slash, List.getLast?_cons_of_ne_nil (slashPieces_ne_nil rest)]
  · exact absurd (String.toList_inj.1 htext) h
  · have hdot : slashPieces ('.' :: '/' :: rest) = ['.'] :: slashPieces rest :=
      slashPieces_append_slash ['.'] rest
    rw [hparts, htext, hdot, List.getLast?_cons_of_ne_nil (slashPieces_ne_nil rest),
      List.getLast?_cons_of_ne_nil (slashPieces_ne_nil rest)]
  · rw [hparts]

theorem fileName?_join {name : String} (hname : IsFileName name) (path : Path) :
    (path.join ⟨name⟩).fileName? = some name.toList := by
  have hpieces := slashPieces_of_not_mem hname.slash
  have hlast : (slashPieces (path.join ⟨name⟩).text.toList).getLast? = some name.toList := by
    rcases path.join_cases hname with ⟨-, hjoin⟩ | ⟨-, front, hjoin, -⟩
    · rw [hjoin, hpieces, List.getLast?_singleton]
    · rw [hjoin, slashPieces_append_slash, hpieces, List.getLast?_concat]
  have hdot : (path.join ⟨name⟩).text ≠ "." := by
    intro htext
    rw [htext] at hlast
    exact hname.ne_dot (String.toList_inj.1 (Option.some.inj hlast).symm)
  rw [← getLast?_parts hdot] at hlast
  have hlist : ∀ {text : String}, name ≠ text → name.toList ≠ text.toList :=
    fun hne h => hne (String.toList_inj.1 h)
  have hidle : isIdle name.toList = false := by
    rw [isIdle, Bool.or_eq_false_iff, beq_eq_false_iff_ne, beq_eq_false_iff_ne]
    exact ⟨hlist hname.ne_empty, hlist hname.ne_dot⟩
  rw [fileName?, dropIdle_eq_self hlast hidle, hlast]
  exact if_neg (hlist hname.ne_parent)

/-! ## Extensions -/

/-- The extension of a name is what comes after its last dot, if something comes before that. -/
theorem splitName_append {stem extension : List Char} (hstem : stem ≠ [])
    (hextension : '.' ∉ extension) :
    splitName (stem ++ '.' :: extension) = (stem, some extension) := by
  have hpass : ∀ c ∈ extension.reverse, (c != '.') = true :=
    Asm.ne_mark_of_mem (by simpa using hextension)
  have hreverse : (stem ++ '.' :: extension).reverse =
      extension.reverse ++ '.' :: stem.reverse := by simp
  unfold splitName
  rw [hreverse, List.dropWhile_append_of_pos hpass, List.takeWhile_append_of_pos hpass,
    List.dropWhile_cons_of_neg (by decide), List.takeWhile_cons_of_neg (by decide)]
  split
  · next h => cases h
  · next h => exact absurd (List.reverse_eq_nil_iff.1 (List.cons.inj h).2) hstem
  · next h =>
      cases h
      simp

theorem eq_append_of_splitName {name extension : List Char}
    (h : (splitName name).2 = some extension) :
    (splitName name).1 ≠ [] ∧ name = (splitName name).1 ++ '.' :: extension := by
  have hwhole := @List.takeWhile_append_dropWhile _ (· != '.') name.reverse
  have hstop := List.head?_dropWhile_not (· != '.') name.reverse
  unfold splitName at h ⊢
  split at h
  · cases h
  · cases h
  · next dot stem hne hdrop =>
      cases h
      rw [hdrop] at hwhole hstop
      obtain rfl : dot = '.' := by simpa using hstop
      refine ⟨fun hnil => hne (List.reverse_eq_nil_iff.1 hnil), ?_⟩
      calc name = name.reverse.reverse := (List.reverse_reverse name).symm
        _ = (name.reverse.takeWhile (· != '.') ++ '.' :: stem).reverse := by rw [hwhole]
        _ = stem.reverse ++ '.' :: (name.reverse.takeWhile (· != '.')).reverse := by simp

end Path

end StackVm
