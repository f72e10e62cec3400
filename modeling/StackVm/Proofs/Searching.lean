import StackVm.Project
import StackVm.Proofs.Files.FileTree

/-! # Searching for a project file

A search goes from a path to its parent, which leaves out the last name.  Where that name goes
down, the search goes up; where it is `..`, the search goes down into the directory that the
path has just left.  So a search looks at nothing but the start and the directories above it
exactly if the first names of the path never lead anywhere else, as is the case without `..`.
-/

namespace StackVm

namespace Project

open FileTree (maxPath Follows destination)

variable {tree : FileTree} {start path parent found : Path} {place above nearer : List String}

/-- A directory with a project file, or with a directory of that name. -/
def Holds (tree : FileTree) (place : List String) : Prop :=
  (tree.entry? (place ++ [fileName.text])).isSome = true

instance (tree : FileTree) (place : List String) : Decidable (Holds tree place) :=
  inferInstanceAs (Decidable (_ = true))

/-- A directory's path that leaves room for the name of a project file. -/
def HasRoom (path : Path) : Prop :=
  (path.join fileName).text.utf8ByteSize ≤ maxPath

instance (path : Path) : Decidable (HasRoom path) :=
  inferInstanceAs (Decidable (_ ≤ _))

/-- Whether a search sees the project file of a directory that it has come to. -/
def Sees (tree : FileTree) (path : Path) (place : List String) : Prop :=
  HasRoom path ∧ Holds tree place

theorem isFileName_fileName : Path.IsFileName fileName.text := by
  decide

theorem resolve_join_fileName_iff {names : List String} {entry : Entry}
    (h : tree.Leads path place) :
    tree.resolve (path.join fileName) = .ok (names, entry) ↔
      HasRoom path ∧ names = place ++ [fileName.text] ∧
        tree.entry? (place ++ [fileName.text]) = some entry :=
  FileTree.resolve_join_eq_ok_iff h isFileName_fileName (by decide)

def isThereIn (tree : FileTree) (path : Path) : Bool :=
  (tree.kind path).isOk

theorem isThereIn_eq_true_iff :
    isThereIn tree path = true ↔ ∃ found, tree.resolve path = .ok found := by
  rw [isThereIn, FileTree.kind]
  cases tree.resolve path with
  | error fault =>
      constructor
      · intro h
        cases h
      · rintro ⟨found, ⟨⟩⟩
  | ok found => exact ⟨fun _ => ⟨found, rfl⟩, fun _ => rfl⟩

theorem isThereIn_join_iff (h : tree.Leads path place) :
    isThereIn tree (path.join fileName) = true ↔ Sees tree path place := by
  rw [isThereIn_eq_true_iff]
  constructor
  · rintro ⟨⟨names, entry⟩, hfound⟩
    obtain ⟨hroom, -, hentry⟩ := (resolve_join_fileName_iff h).1 hfound
    exact ⟨hroom, by rw [Holds, hentry]; rfl⟩
  · rintro ⟨hroom, hholds⟩
    obtain ⟨entry, hentry⟩ := Option.isSome_iff_exists.1 hholds
    exact ⟨(_, entry), (resolve_join_fileName_iff h).2 ⟨hroom, rfl, hentry⟩⟩

/-! ## What a search finds -/

/-- What a search finds in a file tree. -/
def found? (tree : FileTree) (start : Path) : Option Path :=
  ((find start : StateM FileTree (Option Path)).run tree).1

theorem found?_eq (tree : FileTree) (start : Path) :
    found? tree start = (candidates start).find? (isThereIn tree) := by
  have hrun : ∀ list : List Path,
      (list.findM? FileSystem.isThere : StateM FileTree (Option Path)).run tree =
        (list.find? (isThereIn tree), tree) := by
    intro list
    induction list with
    | nil => rfl
    | cons path rest ih =>
        have hthere : (FileSystem.isThere path : StateM FileTree Bool).run tree =
          (isThereIn tree path, tree) := rfl
        rw [List.findM?, StateT.run_bind, hthere]
        cases hpath : isThereIn tree path with
        | true =>
            rw [List.find?_cons_of_pos hpath]
            rfl
        | false =>
            rw [List.find?_cons_of_neg (by simp [hpath]), ← ih]
            rfl
  rw [found?, find, hrun]

theorem found?_of_sees (h : tree.Leads path place) (hsees : Sees tree path place) :
    found? tree path = some (path.join fileName) := by
  have hthere := (isThereIn_join_iff h).2 hsees
  rw [found?_eq, candidates]
  cases hparent : path.parent? with
  | none => rw [Path.ancestors_of_top hparent, List.map_cons, List.find?_cons_of_pos hthere]
  | some parent =>
      rw [Path.ancestors_of_parent hparent, List.map_cons, List.find?_cons_of_pos hthere]

theorem found?_of_parent (h : tree.Leads path place) (hsees : ¬ Sees tree path place)
    (hparent : path.parent? = some parent) : found? tree path = found? tree parent := by
  rw [found?_eq, found?_eq, candidates, candidates, Path.ancestors_of_parent hparent, List.map_cons,
    List.find?_cons_of_neg fun hthere => hsees ((isThereIn_join_iff h).1 hthere)]

theorem found?_of_top (h : tree.Leads path place) (hsees : ¬ Sees tree path place)
    (hparent : path.parent? = none) : found? tree path = none := by
  rw [found?_eq, candidates, Path.ancestors_of_top hparent, List.map_cons,
    List.find?_cons_of_neg fun hthere => hsees ((isThereIn_join_iff h).1 hthere)]
  rfl

/-- A search comes to a path, and to the directory where it leads, without having seen a file. -/
inductive Reaches (tree : FileTree) (start : Path) : Path → List String → Prop where
  | start {place : List String} (h : tree.Leads start place) : Reaches tree start start place
  | parent {path parent : Path} {place above : List String} (h : Reaches tree start path place)
      (hsees : ¬ Sees tree path place) (hparent : path.parent? = some parent)
      (habove : tree.Leads parent above) : Reaches tree start parent above

theorem Reaches.leads (h : Reaches tree start path place) : tree.Leads path place := by
  cases h with
  | start h => exact h
  | parent _ _ _ habove => exact habove

theorem Reaches.found?_eq (h : Reaches tree start path place) :
    found? tree start = found? tree path := by
  induction h with
  | start => rfl
  | parent h hsees hparent _ ih => rw [ih, found?_of_parent h.leads hsees hparent]

theorem found?_eq_some_iff (h : tree.Leads start place) :
    found? tree start = some found ↔
      ∃ path above, Reaches tree start path above ∧ Sees tree path above ∧
        found = path.join fileName := by
  constructor
  · have hfrom : ∀ path place, Reaches tree start path place → found? tree path = some found →
        ∃ path above, Reaches tree start path above ∧ Sees tree path above ∧
          found = path.join fileName := by
      intro path
      induction path using Path.parentInduction with
      | top path hparent =>
          intro place hreaches hfound
          by_cases hsees : Sees tree path place
          · rw [found?_of_sees hreaches.leads hsees] at hfound
            exact ⟨path, place, hreaches, hsees, (Option.some.inj hfound).symm⟩
          · rw [found?_of_top hreaches.leads hsees hparent] at hfound
            cases hfound
      | step path parent hparent ih =>
          intro place hreaches hfound
          by_cases hsees : Sees tree path place
          · rw [found?_of_sees hreaches.leads hsees] at hfound
            exact ⟨path, place, hreaches, hsees, (Option.some.inj hfound).symm⟩
          · obtain ⟨above, habove, -⟩ := hreaches.leads.parent hparent
            rw [found?_of_parent hreaches.leads hsees hparent] at hfound
            exact ih above (.parent hreaches hsees hparent habove) hfound
    exact hfrom start place (.start h)
  · rintro ⟨path, above, hreaches, hsees, rfl⟩
    rw [hreaches.found?_eq, found?_of_sees hreaches.leads hsees]

/-! ## Where a search goes -/

/--
The first names of a path are names of its parent, or lead to where the parent or the path itself
does.
-/
theorem destination_of_isParent {first : List String} (h : Path.IsParent parent path)
    (hfirst : first <+: path.names) (place : List String) :
    first <+: parent.names ∨ destination place first = destination place parent.names ∨
      destination place first = destination place path.names := by
  obtain ⟨dots, last, idle, hdots, hidle, hnames⟩ := h.names
  rw [hnames] at hfirst ⊢
  have hparent : destination place (parent.names ++ dots) = destination place parent.names := by
    rw [FileTree.destination_append, FileTree.destination_dots hdots]
  have hpath : ∀ {tail}, Path.AreDots tail →
      destination place (parent.names ++ dots ++ last :: tail) =
        FileTree.goOn (destination place (parent.names ++ dots)) last := by
    intro tail htail
    rw [FileTree.destination_append]
    exact FileTree.destination_dots htail _
  rcases List.prefix_or_prefix_of_prefix hfirst (List.prefix_append (parent.names ++ dots) _) with
    hshort | ⟨rest, rfl⟩
  · rcases List.prefix_or_prefix_of_prefix hshort (List.prefix_append parent.names _) with
      hshort | ⟨front, rfl⟩
    · exact .inl hshort
    · have hfront := (List.prefix_append_right_inj _).1 hshort
      refine .inr (.inl ?_)
      rw [FileTree.destination_append,
        FileTree.destination_dots fun name hname => hdots name (hfront.mem hname)]
  · rcases List.prefix_cons_iff.1 ((List.prefix_append_right_inj _).1 hfirst) with
      rfl | ⟨tail, rfl, htail⟩
    · exact .inr (.inl (by rw [List.append_nil, hparent]))
    · exact .inr (.inr ((hpath fun name hname => hidle name (htail.mem hname)).trans
        (hpath hidle).symm))

/-- A step from a directory to the place that a name leads to passes by no directory in between. -/
theorem isPrefix_of_follows {name : String} (h : tree.Follows above name place)
    (hnearer : nearer <+: place) (hne : nearer ≠ place) : nearer <+: above := by
  cases h with
  | stay => exact hnearer
  | up => exact hnearer.trans (List.dropLast_prefix above)
  | down =>
      rcases List.prefix_concat_iff.1 hnearer with heq | hnearer
      · exact absurd heq hne
      · exact hnearer

/-- A search comes to every directory between its start and the directory where it is. -/
theorem Reaches.passes (h : Reaches tree start path above) (hstart : tree.Leads start place)
    (hnearer : nearer <+: place) :
    (∃ longer, Reaches tree start longer nearer ∧ ¬ Sees tree longer nearer) ∨ nearer <+: above := by
  induction h with
  | start h =>
      cases hstart.unique h
      exact .inr hnearer
  | @parent path parent middle above h hsees hparent habove ih =>
      rcases ih with hpassed | hmiddle
      · exact .inl hpassed
      · by_cases heq : nearer = middle
        · exact .inl ⟨path, heq ▸ h, heq ▸ hsees⟩
        · obtain ⟨other, hother, name, hfollows⟩ := h.leads.parent hparent
          cases hother.unique habove
          exact .inr (isPrefix_of_follows hfollows hmiddle heq)

theorem hasRoom_of_isParent (h : Path.IsParent parent path) (hroom : HasRoom path) :
    HasRoom parent := by
  have hpath := (path.utf8ByteSize_join isFileName_fileName).1
  have hparent := (parent.utf8ByteSize_join isFileName_fileName).2
  have hlt := h.utf8ByteSize_lt
  change (path.join fileName).text.utf8ByteSize ≤ maxPath at hroom
  change (parent.join fileName).text.utf8ByteSize ≤ maxPath
  change _ ≤ (path.join fileName).text.utf8ByteSize at hpath
  change (parent.join fileName).text.utf8ByteSize ≤ _ at hparent
  omega

theorem Reaches.hasRoom (h : Reaches tree start path above) (hroom : HasRoom start) :
    HasRoom path := by
  induction h with
  | start => exact hroom
  | parent _ _ hparent _ ih => exact hasRoom_of_isParent (Path.isParent_of_parent? hparent) ih

theorem Reaches.isPrefix_names (h : Reaches tree start path above) :
    path.names <+: start.names ∧ tree.startOf path = tree.startOf start := by
  induction h with
  | start => exact ⟨List.prefix_rfl, rfl⟩
  | parent _ _ hparent _ ih =>
      have hisParent := Path.isParent_of_parent? hparent
      exact ⟨hisParent.isPrefix_names.trans ih.1,
        (FileTree.startOf_congr hisParent.isAbsolute).trans ih.2⟩

theorem Reaches.eq_destination (h : Reaches tree start path above) :
    above = destination (tree.startOf start) path.names := by
  rw [← h.isPrefix_names.2]
  exact h.leads.eq_destination

/-- A search that sees no file comes to every directory where the start's first names lead. -/
theorem reaches_destination (h : tree.Leads start place) {first : List String}
    (hfirst : first <+: start.names) :
    ∃ path above, Reaches tree start path above ∧
      (Sees tree path above ∨ above = destination (tree.startOf start) first) := by
  have hfrom : ∀ path above, Reaches tree start path above → first <+: path.names →
      ∃ path above, Reaches tree start path above ∧
        (Sees tree path above ∨ above = destination (tree.startOf start) first) := by
    intro path
    induction path using Path.parentInduction with
    | top path hparent =>
        intro above hreaches hfirst
        have hdots := Path.areDots_of_top hparent
        refine ⟨path, above, hreaches, .inr ?_⟩
        rw [hreaches.eq_destination, FileTree.destination_dots hdots,
          FileTree.destination_dots fun name hname => hdots name (hfirst.mem hname)]
    | step path parent hparent ih =>
        intro above hreaches hfirst
        by_cases hsees : Sees tree path above
        · exact ⟨path, above, hreaches, .inl hsees⟩
        · obtain ⟨higher, hhigher, -⟩ := hreaches.leads.parent hparent
          have hnext := Reaches.parent hreaches hsees hparent hhigher
          rcases destination_of_isParent (Path.isParent_of_parent? hparent) hfirst
            (tree.startOf start) with hshort | hsame | hsame
          · exact ih higher hnext hshort
          · exact ⟨parent, higher, hnext, .inr (hnext.eq_destination.trans hsame.symm)⟩
          · exact ⟨path, above, hreaches, .inr (hreaches.eq_destination.trans hsame.symm)⟩
  exact hfrom start place (.start h) hfirst

/-- Names of which the first few never lead anywhere but to where all of them lead, or above. -/
def Ascends (place names : List String) : Prop :=
  ∀ count ≤ names.length, destination place (names.take count) <+: destination place names

instance (place names : List String) : Decidable (Ascends place names) :=
  inferInstanceAs (Decidable (∀ count ≤ names.length, _))

theorem ascends_of_not_mem {names : List String} (h : ".." ∉ names) (place : List String) :
    Ascends place names := by
  intro count _
  have hrest : ".." ∉ names.drop count := fun hmem => h (List.mem_of_mem_drop hmem)
  have hprefix := FileTree.isPrefix_destination hrest (destination place (names.take count))
  rwa [← FileTree.destination_append, List.take_append_drop] at hprefix

theorem Ascends.isPrefix {first names : List String} (h : Ascends place names)
    (hfirst : first <+: names) : destination place first <+: destination place names := by
  rw [List.prefix_iff_eq_take.1 hfirst]
  exact h first.length hfirst.length_le

/-- The tree with one more project file. -/
def withProject (tree : FileTree) (holder : List String) : FileTree :=
  tree.insert (holder ++ [fileName.text]) (.file ⟨#[]⟩)

theorem holds_withProject_iff {holder : List String} (h : ¬ Holds tree holder) :
    Holds (withProject tree holder) place ↔ place = holder ∨ Holds tree place := by
  have hnew : tree.entry? (holder ++ [fileName.text]) = none := by
    simpa [Holds] using h
  rw [Holds, withProject, FileTree.entry?_insert_of_new (by simp) hnew]
  by_cases hsame : place = holder
  · simp [hsame]
  · simp [hsame, Holds]

theorem extends_withProject {holder : List String} (h : ¬ Holds tree holder) :
    tree.Extends (withProject tree holder) :=
  FileTree.extends_insert (by simp) (by simpa [Holds] using h)

/-- A search finds nothing but the nearest project file in its start or above it. -/
def SearchesUpward (tree : FileTree) (start : Path) (place : List String) : Prop :=
  ∀ found, found? tree start = some found →
    ∃ holder entry, tree.resolve found = .ok (holder ++ [fileName.text], entry) ∧
      holder <+: place ∧
      ∀ nearer, holder <+: nearer → nearer <+: place → nearer ≠ holder → ¬ Holds tree nearer

/-- The directory of a project file that a search has found. -/
theorem resolve_found {holder : List String} {entry : Entry} (h : Reaches tree start path above)
    (hfound : tree.resolve (path.join fileName) = .ok (holder ++ [fileName.text], entry)) :
    holder = above := by
  obtain ⟨-, hnames, -⟩ := (resolve_join_fileName_iff h.leads).1 hfound
  exact List.append_cancel_right hnames

/-- What it takes for a search to be upward, from the directories that it comes to. -/
theorem searchesUpward_iff (hstart : tree.Leads start place) :
    SearchesUpward tree start place ↔
      ∀ path above, Reaches tree start path above → Sees tree path above →
        above <+: place ∧
          ∀ longer nearer, Reaches tree start longer nearer → ¬ HasRoom longer →
            above <+: nearer → nearer <+: place → nearer ≠ above → ¬ Holds tree nearer := by
  constructor
  · intro hupward path above hreaches hsees
    obtain ⟨holder, entry, hfound, hholder, hnearest⟩ := hupward (path.join fileName)
      ((found?_eq_some_iff hstart).2 ⟨path, above, hreaches, hsees, rfl⟩)
    cases resolve_found hreaches hfound
    exact ⟨hholder, fun _ nearer _ _ => hnearest nearer⟩
  · intro hends found hfound
    obtain ⟨path, above, hreaches, hsees, rfl⟩ := (found?_eq_some_iff hstart).1 hfound
    obtain ⟨habove, hroom⟩ := hends path above hreaches hsees
    obtain ⟨entry, hentry⟩ := Option.isSome_iff_exists.1 hsees.2
    refine ⟨above, entry, (resolve_join_fileName_iff hreaches.leads).2 ⟨hsees.1, rfl, hentry⟩,
      habove, ?_⟩
    intro nearer hfar hnear hne hholds
    rcases hreaches.passes hstart hnear with ⟨longer, hlonger, hunseen⟩ | hback
    · exact hroom longer nearer hlonger (fun hlong => hunseen ⟨hlong, hholds⟩) hfar hnear hne hholds
    · exact hne (hback.eq_of_length (Nat.le_antisymm hback.length_le hfar.length_le))

theorem searchesUpward_of_ascends (hstart : tree.Leads start place) (hroom : HasRoom start)
    (hascends : Ascends (tree.startOf start) start.names) : SearchesUpward tree start place := by
  refine (searchesUpward_iff hstart).2 ?_
  intro path above hreaches _
  refine ⟨?_, ?_⟩
  · rw [hreaches.eq_destination, hstart.eq_destination]
    exact hascends.isPrefix hreaches.isPrefix_names.1
  · intro longer nearer hlonger hlong
    exact absurd (hlonger.hasRoom hroom) hlong

/-- A project file to which the first few names of the start lead is found if there is no other. -/
theorem isPrefix_of_searchesUpward {first : List String} (hstart : tree.Leads start place)
    (hroom : HasRoom start) (hnone : ∀ directory, ¬ Holds tree directory)
    (hfirst : first <+: start.names)
    (hupward : SearchesUpward (withProject tree (destination (tree.startOf start) first)) start
      place) :
    destination (tree.startOf start) first <+: place := by
  have hextends := extends_withProject (hnone (destination (tree.startOf start) first))
  have hlarger := hextends.leads hstart
  obtain ⟨path, above, hreaches, hseen⟩ := reaches_destination hlarger hfirst
  rw [hextends.startOf] at hseen
  have hholder : above = destination (tree.startOf start) first := by
    rcases hseen with hsees | hsame
    · rcases (holds_withProject_iff (hnone _)).1 hsees.2 with hsame | hother
      · exact hsame
      · exact absurd hother (hnone above)
    · exact hsame
  subst hholder
  have hsees : Sees (withProject tree (destination (tree.startOf start) first)) path
      (destination (tree.startOf start) first) :=
    ⟨hreaches.hasRoom hroom, (holds_withProject_iff (hnone _)).2 (.inl rfl)⟩
  exact ((searchesUpward_iff hlarger).1 hupward path _ hreaches hsees).1

/--
A search finds nothing but the nearest project file in its start or above it, if and only if it
ends in one of these directories and has not passed by a nearer project file because the path to it
was too long.  If the start leaves room for the name of the file, it is enough that its first few
names never lead anywhere but to the start or above it, as they do without `..`.  This is also
necessary if the search is to be upward wherever the only project file of a tree is put.
-/
theorem find_upward_iff (hstart : tree.Leads start place) :
    (SearchesUpward tree start place ↔
      ∀ path above, Reaches tree start path above → Sees tree path above →
        above <+: place ∧
          ∀ longer nearer, Reaches tree start longer nearer → ¬ HasRoom longer →
            above <+: nearer → nearer <+: place → nearer ≠ above → ¬ Holds tree nearer) ∧
      (".." ∉ start.names → HasRoom start → SearchesUpward tree start place) ∧
      (Ascends (tree.startOf start) start.names → HasRoom start →
        SearchesUpward tree start place) ∧
      ((∀ directory, ¬ Holds tree directory) → HasRoom start →
        ((∀ holder, tree.hasDirectory holder = true →
            SearchesUpward (withProject tree holder) start place) ↔
          Ascends (tree.startOf start) start.names)) := by
  refine ⟨searchesUpward_iff hstart, ?_, ?_, ?_⟩
  · intro hnames hroom
    exact searchesUpward_of_ascends hstart hroom (ascends_of_not_mem hnames _)
  · intro hascends hroom
    exact searchesUpward_of_ascends hstart hroom hascends
  · intro hnone hroom
    constructor
    · intro hupward count _
      have hfirst := List.take_prefix count start.names
      have hdirectory : tree.hasDirectory (destination (tree.startOf start)
          (start.names.take count)) = true := by
        obtain ⟨path, above, hreaches, hsees | hsame⟩ := reaches_destination hstart hfirst
        · exact absurd hsees.2 (hnone above)
        · exact hsame ▸ hreaches.leads.directory
      rw [← hstart.eq_destination]
      exact isPrefix_of_searchesUpward hstart hroom hnone hfirst (hupward _ hdirectory)
    · intro hascends holder _
      have hextends := extends_withProject (hnone holder)
      refine searchesUpward_of_ascends (hextends.leads hstart) hroom ?_
      rwa [hextends.startOf]

namespace Sample

/-- A project file in a directory below the working directory. -/
def library : FileTree where
  entries := [(["work"], .directory), (["work", "lib"], .directory),
    (["work", "lib", "vmlower.toml"], .file ⟨#[]⟩)]
  workingDirectory := ["work"]

theorem leads_outside : library.Leads ⟨"lib/.."⟩ ["work"] :=
  ⟨by decide, toOption_eq_some_iff.1 (by decide +kernel), by decide⟩

theorem leads_inside : library.Leads ⟨"lib"⟩ ["work", "lib"] :=
  ⟨by decide, toOption_eq_some_iff.1 (by decide +kernel), by decide⟩

theorem leads_again : library.Leads ⟨"lib/../lib"⟩ ["work", "lib"] :=
  ⟨by decide, toOption_eq_some_iff.1 (by decide +kernel), by decide⟩

/--
From `lib/..` the search goes down into `lib`; from `lib` it finds the file there, and so it does
from `lib/../lib`, of which no first names lead elsewhere.
-/
theorem searches_library :
    ¬ SearchesUpward library ⟨"lib/.."⟩ ["work"] ∧
      SearchesUpward library ⟨"lib"⟩ ["work", "lib"] ∧
      SearchesUpward library ⟨"lib/../lib"⟩ ["work", "lib"] := by
  have hreaches : Reaches library ⟨"lib/.."⟩ ⟨"lib"⟩ ["work", "lib"] :=
    .parent (.start leads_outside) (fun hsees => absurd hsees.2 (by decide)) (by decide +kernel)
      leads_inside
  refine ⟨?_, ?_, ?_⟩
  · intro hupward
    have hends := (find_upward_iff leads_outside).1.1 hupward ⟨"lib"⟩ ["work", "lib"] hreaches
      ⟨by decide +kernel, by decide⟩
    exact absurd hends.1 (by decide)
  · exact (find_upward_iff leads_inside).2.1 (by decide +kernel) (by decide +kernel)
  · exact (find_upward_iff leads_again).2.2.1 (by decide +kernel) (by decide +kernel)

end Sample

end Project

end StackVm
