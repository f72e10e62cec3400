import StackVm.Files.FileTree
import StackVm.Proofs.Asm.Reading
import StackVm.Proofs.Files.Path

/-! # Following paths

A path is followed name by name.  Each name stays where it is, goes up, or goes down into an
entry that is there, and only a directory can be left; so a path that leads to a directory
passes through directories only.
-/

namespace StackVm

namespace FileTree

variable {tree : FileTree} {place next last found : List String} {name : String} {path : Path}
  {entry : Entry}

/-- How one name leads from a directory to the next place. -/
inductive Follows (tree : FileTree) (place : List String) (name : String) : List String → Prop where
  | stay (hdot : name = ".") : tree.Follows place name place
  | up (hparent : name = "..") : tree.Follows place name place.dropLast
  | down (hdot : name ≠ ".") (hparent : name ≠ "..") (hshort : isTooLong name = false)
      (hthere : (tree.entry? (place ++ [name])).isSome) : tree.Follows place name (place ++ [name])

theorem follow_eq_ok_iff :
    tree.follow place name = .ok next ↔ tree.hasDirectory place ∧ tree.Follows place name next := by
  unfold follow
  constructor
  · intro h
    split at h
    · cases h
    · next hdirectory =>
        refine ⟨by simpa using hdirectory, ?_⟩
        split at h
        · next hdot =>
            cases h
            exact .stay hdot
        · next hdot =>
            split at h
            · next hparent =>
                cases h
                exact .up hparent
            · next hparent =>
                split at h
                · cases h
                · next hshort =>
                    split at h
                    · next hthere =>
                        cases h
                        exact .down hdot hparent (by simpa using hshort) hthere
                    · cases h
  · rintro ⟨hdirectory, h⟩
    rw [hdirectory]
    cases h with
    | stay hdot => simp [hdot]
    | up hparent => simp [hparent]
    | down hdot hparent hshort hthere => simp [hdot, hparent, hshort, hthere]

theorem followAll_append_eq_ok_iff {xs ys : List String} :
    tree.followAll place (xs ++ ys) = .ok last ↔
      ∃ middle, tree.followAll place xs = .ok middle ∧ tree.followAll middle ys = .ok last := by
  induction xs generalizing place with
  | nil =>
      constructor
      · exact fun h => ⟨place, rfl, h⟩
      · rintro ⟨middle, ⟨⟩, h⟩
        exact h
  | cons name rest ih =>
      rw [List.cons_append, followAll, followAll]
      simp only [bind_eq_ok_iff, ih]
      constructor
      · rintro ⟨next, hnext, middle, hmiddle, hlast⟩
        exact ⟨middle, ⟨next, hnext, hmiddle⟩, hlast⟩
      · rintro ⟨middle, ⟨next, hnext, hmiddle⟩, hlast⟩
        exact ⟨next, hnext, middle, hmiddle, hlast⟩

theorem followAll_cons_eq_ok_iff {names : List String} :
    tree.followAll place (name :: names) = .ok last ↔
      ∃ next, tree.hasDirectory place ∧ tree.Follows place name next ∧
        tree.followAll next names = .ok last := by
  rw [followAll, bind_eq_ok_iff]
  simp only [follow_eq_ok_iff, and_assoc]

theorem eq_of_followAll_dots {dots : List String} (hdots : Path.AreDots dots)
    (h : tree.followAll place dots = .ok last) : last = place := by
  induction dots with
  | nil =>
      cases h
      rfl
  | cons name rest ih =>
      obtain ⟨rfl, hrest⟩ := List.forall_mem_cons.1 hdots
      obtain ⟨next, -, hnext, hlast⟩ := followAll_cons_eq_ok_iff.1 h
      cases hnext with
      | stay => exact ih hrest hlast
      | up hparent => exact absurd hparent (by decide)
      | down hdot => exact absurd rfl hdot

/-- Where a name leads from a directory, if what it names is there. -/
def goOn (place : List String) (name : String) : List String :=
  if name = "." then place else if name = ".." then place.dropLast else place ++ [name]

/-- Where names lead from a directory, if everything that they name is there. -/
def destination (place names : List String) : List String :=
  names.foldl goOn place

theorem destination_append (place xs ys : List String) :
    destination place (xs ++ ys) = destination (destination place xs) ys :=
  List.foldl_append

theorem Follows.eq_goOn (h : tree.Follows place name next) : next = goOn place name := by
  unfold goOn
  cases h with
  | stay hdot => rw [if_pos hdot]
  | up hparent => rw [if_neg (by rw [hparent]; decide), if_pos hparent]
  | down hdot hparent => rw [if_neg hdot, if_neg hparent]

theorem eq_destination_of_followAll {names : List String}
    (h : tree.followAll place names = .ok last) : last = destination place names := by
  induction names generalizing place with
  | nil => exact (Except.ok.inj h).symm
  | cons name rest ih =>
      obtain ⟨next, -, hnext, hlast⟩ := followAll_cons_eq_ok_iff.1 h
      rw [ih hlast, hnext.eq_goOn]
      rfl

theorem destination_dots {dots : List String} (hdots : Path.AreDots dots) (place : List String) :
    destination place dots = place := by
  induction dots with
  | nil => rfl
  | cons name rest ih =>
      obtain ⟨rfl, hrest⟩ := List.forall_mem_cons.1 hdots
      exact ih hrest

theorem isPrefix_destination {names : List String} (h : ".." ∉ names) (place : List String) :
    place <+: destination place names := by
  induction names generalizing place with
  | nil => exact List.prefix_rfl
  | cons name rest ih =>
      rw [List.mem_cons, not_or] at h
      refine List.IsPrefix.trans ?_ (ih h.2 (goOn place name))
      rw [goOn, if_neg (Ne.symm h.1)]
      split
      · exact List.prefix_rfl
      · exact List.prefix_append place [name]

/-! ## Paths to directories -/

/-- A path whose names lead to a directory; the empty path leads to the working directory. -/
structure Leads (tree : FileTree) (path : Path) (place : List String) : Prop where
  nul : '\x00' ∉ path.text.toList
  follows : tree.followAll (tree.startOf path) path.names = .ok place
  directory : tree.hasDirectory place = true

theorem namesOf_eq_ok_iff {names : List String} :
    namesOf path = .ok names ↔
      '\x00' ∉ path.text.toList ∧ path.text ≠ "" ∧ path.text.utf8ByteSize ≤ maxPath ∧
        names = path.names := by
  unfold namesOf
  split
  · next h => simp_all
  · next hnul =>
      split
      · next h => simp_all
      · next hempty =>
          split
          · next h =>
              constructor
              · intro h
                cases h
              · rintro ⟨-, -, hle, -⟩
                omega
          · next hshort =>
              constructor
              · intro h
                cases h
                exact ⟨by simpa using hnul, by simpa using hempty, by omega, rfl⟩
              · rintro ⟨-, -, -, rfl⟩
                rfl

theorem resolve_eq_ok_iff :
    tree.resolve path = .ok (place, entry) ↔
      '\x00' ∉ path.text.toList ∧ path.text ≠ "" ∧ path.text.utf8ByteSize ≤ maxPath ∧
        tree.followAll (tree.startOf path) path.names = .ok place ∧
        tree.entry? place = some entry ∧
        (path.endsInSlash = true → entry.isDirectory = true) := by
  unfold resolve
  simp only [bind_eq_ok_iff, namesOf_eq_ok_iff]
  constructor
  · rintro ⟨names, ⟨hnul, hne, hshort, rfl⟩, middle, hfollows, hmatch⟩
    split at hmatch
    · cases hmatch
    · next other hentry =>
        split at hmatch
        · cases hmatch
        · next hslash =>
            cases hmatch
            exact ⟨hnul, hne, hshort, hfollows, hentry, by simpa using hslash⟩
  · rintro ⟨hnul, hne, hshort, hfollows, hentry, hslash⟩
    refine ⟨path.names, ⟨hnul, hne, hshort, rfl⟩, place, hfollows, ?_⟩
    rw [hentry]
    exact if_neg (by simpa using hslash)

theorem read_eq_ok_iff {text : String} :
    tree.read path = .ok text ↔ ∃ place content, tree.resolve path = .ok (place, .file content) ∧
      String.fromUTF8? content = some text := by
  rw [read, bind_eq_ok_iff]
  constructor
  · rintro ⟨⟨place, entry⟩, hresolve, h⟩
    cases entry with
    | directory => cases h
    | file content =>
        refine ⟨place, content, hresolve, ?_⟩
        dsimp only at h
        split at h
        · next hvalid =>
            cases h
            exact hvalid
        · cases h
  · rintro ⟨place, content, hresolve, htext⟩
    refine ⟨_, hresolve, ?_⟩
    simp only [htext]

theorem leads_of_resolve (h : tree.resolve path = .ok (place, .directory)) :
    tree.Leads path place := by
  obtain ⟨hnul, -, -, hfollows, hentry, -⟩ := resolve_eq_ok_iff.1 h
  exact ⟨hnul, hfollows, by rw [hasDirectory, hentry]; rfl⟩

theorem Leads.unique {other : List String} (h : tree.Leads path place)
    (hother : tree.Leads path other) : other = place :=
  Except.ok.inj (hother.follows.symm.trans h.follows)

theorem startOf_congr {other : Path} (h : other.isAbsolute = path.isAbsolute) :
    tree.startOf other = tree.startOf path := by
  rw [startOf, startOf, h]

/-- The parent of a path leads to the directory from which the path's last name goes on. -/
theorem Leads.parent {parent : Path} (h : tree.Leads path place)
    (hparent : path.parent? = some parent) :
    ∃ above, tree.Leads parent above ∧ ∃ name, tree.Follows above name place := by
  obtain ⟨⟨dots, last, idle, hdots, hidle, hnames⟩, habsolute, htext⟩ :=
    Path.isParent_of_parent? hparent
  have hfollows := h.follows
  rw [hnames, List.append_assoc, followAll_append_eq_ok_iff] at hfollows
  obtain ⟨above, habove, hfollows⟩ := hfollows
  obtain ⟨middle, hmiddle, hfollows⟩ := followAll_append_eq_ok_iff.1 hfollows
  cases eq_of_followAll_dots hdots hmiddle
  obtain ⟨next, hdirectory, hnext, hfollows⟩ := followAll_cons_eq_ok_iff.1 hfollows
  cases eq_of_followAll_dots hidle hfollows
  refine ⟨above, ⟨fun hmem => h.nul (htext.mem hmem), ?_, hdirectory⟩, last, hnext⟩
  rw [startOf_congr habsolute, habove]

theorem Leads.eq_destination (h : tree.Leads path place) :
    place = destination (tree.startOf path) path.names :=
  eq_destination_of_followAll h.follows

/-! ## Larger trees -/

/-- A tree that has all entries of another. -/
structure Extends (tree larger : FileTree) : Prop where
  entries : ∀ names entry, tree.entry? names = some entry → larger.entry? names = some entry
  workingDirectory : larger.workingDirectory = tree.workingDirectory

section

variable {larger : FileTree} (h : tree.Extends larger)
include h

theorem Extends.hasDirectory (hdirectory : tree.hasDirectory place = true) :
    larger.hasDirectory place = true := by
  unfold FileTree.hasDirectory at hdirectory ⊢
  cases hentry : tree.entry? place with
  | none =>
      rw [hentry] at hdirectory
      cases hdirectory
  | some entry => rwa [h.entries place entry hentry, ← hentry]

theorem Extends.follows (hfollows : tree.Follows place name next) :
    larger.Follows place name next := by
  cases hfollows with
  | stay hdot => exact .stay hdot
  | up hparent => exact .up hparent
  | down hdot hparent hshort hthere =>
      obtain ⟨entry, hentry⟩ := Option.isSome_iff_exists.1 hthere
      exact .down hdot hparent hshort (by rw [h.entries _ entry hentry]; rfl)

theorem Extends.followAll {names : List String} (hfollows : tree.followAll place names = .ok last) :
    larger.followAll place names = .ok last := by
  induction names generalizing place with
  | nil => exact hfollows
  | cons name rest ih =>
      obtain ⟨next, hdirectory, hnext, hlast⟩ := followAll_cons_eq_ok_iff.1 hfollows
      exact followAll_cons_eq_ok_iff.2
        ⟨next, h.hasDirectory hdirectory, h.follows hnext, ih hlast⟩

theorem Extends.startOf (path : Path) : larger.startOf path = tree.startOf path := by
  rw [FileTree.startOf, FileTree.startOf, h.workingDirectory]

theorem Extends.leads (hleads : tree.Leads path place) : larger.Leads path place :=
  ⟨hleads.nul, by rw [h.startOf]; exact h.followAll hleads.follows, h.hasDirectory hleads.directory⟩

end

theorem entry?_insert_of_new {names : List String} (hne : names ≠ [])
    (hnew : tree.entry? names = none) (other : List String) :
    FileTree.entry? (tree.insert names entry) other =
      if other = names then some entry else tree.entry? other := by
  unfold entry? at hnew ⊢
  rw [if_neg hne] at hnew
  by_cases hother : other = []
  · subst hother
    rw [if_neg (Ne.symm hne)]
    rfl
  · rw [if_neg hother, if_neg hother, insert, hnew]
    change (tree.entries ++ [(names, entry)]).lookup other = _
    rw [List.lookup_append]
    by_cases hsame : other = names
    · subst hsame
      simp [hnew]
    · simp [List.lookup_cons, beq_false_of_ne hsame, hsame]

theorem extends_insert {names : List String} (hne : names ≠ [])
    (hnew : tree.entry? names = none) : tree.Extends (tree.insert names entry) where
  entries := by
    intro other found hfound
    rw [entry?_insert_of_new hne hnew, if_neg ?_, hfound]
    rintro rfl
    rw [hnew] at hfound
    cases hfound
  workingDirectory := by
    unfold insert
    split <;> rfl

/-! ## Entries of a directory -/

/-- An entry of a directory is found under its name, if the path to it is not too long. -/
theorem resolve_join_eq_ok_iff (h : tree.Leads path place) (hname : Path.IsFileName name)
    (hlong : isTooLong name = false) :
    tree.resolve (path.join ⟨name⟩) = .ok (found, entry) ↔
      (path.join ⟨name⟩).text.utf8ByteSize ≤ maxPath ∧ found = place ++ [name] ∧
        tree.entry? (place ++ [name]) = some entry := by
  have hnul : '\x00' ∉ (path.join ⟨name⟩).text.toList := by
    intro hmem
    rcases Path.mem_text_join hname hmem with hpath | hslash | hmem
    · exact h.nul hpath
    · exact absurd hslash (by decide)
    · exact hname.nul hmem
  have hne := path.text_join_ne_empty hname
  rw [resolve_eq_ok_iff, startOf_congr (path.isAbsolute_join hname), path.names_join hname,
    path.not_endsInSlash_join hname, followAll_append_eq_ok_iff]
  constructor
  · rintro ⟨-, -, hshort, ⟨middle, hmiddle, hlast⟩, hentry, -⟩
    cases h.follows.symm.trans hmiddle
    obtain ⟨next, -, hnext, hend⟩ := followAll_cons_eq_ok_iff.1 hlast
    cases hend
    cases hnext with
    | stay hdot => exact absurd hdot hname.ne_dot
    | up hparent => exact absurd hparent hname.ne_parent
    | down => exact ⟨hshort, rfl, hentry⟩
  · rintro ⟨hshort, rfl, hentry⟩
    have hfollows : tree.Follows place name (place ++ [name]) :=
      .down hname.ne_dot hname.ne_parent hlong (by rw [hentry]; rfl)
    exact ⟨hnul, hne, hshort, ⟨place, h.follows,
      followAll_cons_eq_ok_iff.2 ⟨_, h.directory, hfollows, rfl⟩⟩, hentry, by simp⟩

end FileTree

end StackVm
