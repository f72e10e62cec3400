import StackVm.Proofs.Asm.Resolution
import StackVm.Proofs.Files.FileTree

/-! # Entries of file trees

In a well-formed tree every entry is recorded once, and under a name that an entry can have.
Making directories and writing files keep a tree well-formed.  The order in which the entries
are recorded decides in which order a directory is listed, and nothing else.
-/

namespace StackVm

namespace FileTree

variable {tree other : FileTree} {place names : List String} {name : String} {path : Path}
  {entry : Entry}

/-! ## Well-formed trees -/

/-- A name that an entry can have. -/
structure IsEntryName (name : String) : Prop extends Path.IsFileName name where
  short : isTooLong name = false

instance (name : String) : Decidable (IsEntryName name) :=
  decidable_of_iff (Path.IsFileName name ∧ isTooLong name = false)
    ⟨fun h => ⟨h.1, h.2⟩, fun h => ⟨h.toIsFileName, h.short⟩⟩

/-- Every entry is recorded once, and under a name that an entry can have. -/
structure WellFormed (tree : FileTree) : Prop where
  nodup : (tree.entries.map Prod.fst).Nodup
  named : ∀ names ∈ tree.entries.map Prod.fst, ∃ place name,
    names = place ++ [name] ∧ IsEntryName name

theorem wellFormed_fresh (h : IsEntryName name) : (fresh name).WellFormed where
  nodup := List.pairwise_singleton _ _
  named := List.forall_mem_singleton.2 ⟨[], name, rfl, h⟩

theorem WellFormed.insert (h : tree.WellFormed) (hname : IsEntryName name) (place : List String)
    (entry : Entry) : (tree.insert (place ++ [name]) entry).WellFormed := by
  unfold FileTree.insert
  split
  · have hkeys : (tree.entries.map fun old =>
        if old.1 = place ++ [name] then (place ++ [name], entry) else old).map Prod.fst =
          tree.entries.map Prod.fst := by
      rw [List.map_map]
      refine List.map_congr_left fun old _ => ?_
      rw [Function.comp_apply]
      split
      · next hold => exact hold.symm
      · rfl
    exact ⟨hkeys ▸ h.nodup, hkeys ▸ h.named⟩
  · next hnew =>
      have hkeys : (tree.entries ++ [(place ++ [name], entry)]).map Prod.fst =
          tree.entries.map Prod.fst ++ [place ++ [name]] := by simp
      have hnot : place ++ [name] ∉ tree.entries.map Prod.fst := by
        intro hmem
        obtain ⟨old, hold, hkey⟩ := List.mem_map.1 hmem
        exact hnew (List.lookup_isSome_iff.2 ⟨old, hold, by simp [hkey]⟩)
      refine ⟨?_, ?_⟩
      · rw [hkeys, List.nodup_append]
        refine ⟨h.nodup, List.pairwise_singleton _ _, ?_⟩
        intro key hkey names hnames
        rw [List.mem_singleton.1 hnames]
        rintro rfl
        exact hnot hkey
      · rw [hkeys]
        intro names hnames
        rcases List.mem_append.1 hnames with hold | hlast
        · exact h.named names hold
        · exact ⟨place, name, List.mem_singleton.1 hlast, hname⟩

/-- A new entry gets a name that a file can have. -/
theorem isFileName_of_resolveNew (h : tree.resolveNew path = .ok (place, some name)) :
    Path.IsFileName name := by
  unfold resolveNew at h
  obtain ⟨names, hnames, h⟩ := bind_eq_ok_iff.1 h
  obtain ⟨hnul, -, -, rfl⟩ := namesOf_eq_ok_iff.1 hnames
  obtain ⟨directory, -, h⟩ := bind_eq_ok_iff.1 h
  split at h
  · cases h
  · split at h
    · cases h
    · next last hlast =>
        split at h
        · cases h
        · next hdots =>
            cases h
            obtain ⟨hdot, hparent⟩ := not_or.1 hdots
            obtain ⟨piece, hpiece, rfl⟩ := List.mem_map.1 (List.mem_of_getLast? hlast)
            obtain ⟨hpiece, hne⟩ := List.mem_filter.1 hpiece
            refine ⟨?_, ?_, ?_, hdot, hparent⟩
            · simpa using hne
            · rw [String.toList_ofList]
              exact not_mem_of_mem_slashPieces hpiece
            · rw [String.toList_ofList]
              exact fun hmem => hnul (mem_of_mem_slashPieces hpiece hmem)

theorem WellFormed.makeDirectory (h : tree.WellFormed)
    (hmake : tree.makeDirectory path = .ok other) : other.WellFormed := by
  unfold FileTree.makeDirectory at hmake
  obtain ⟨⟨place, name?⟩, hnew, hmake⟩ := bind_eq_ok_iff.1 hmake
  cases name? with
  | none => cases hmake
  | some name =>
      change (if _ then _ else _) = _ at hmake
      split at hmake
      · cases hmake
      · next hshort =>
          split at hmake
          · cases hmake
          · cases hmake
            exact h.insert ⟨isFileName_of_resolveNew hnew, by simpa using hshort⟩ place .directory

theorem WellFormed.write {content : ByteArray} (h : tree.WellFormed)
    (hwrite : tree.write path content = .ok other) : other.WellFormed := by
  unfold FileTree.write at hwrite
  obtain ⟨⟨place, name?⟩, hnew, hwrite⟩ := bind_eq_ok_iff.1 hwrite
  cases name? with
  | none => cases hwrite
  | some name =>
      change (if _ then _ else _) = _ at hwrite
      split at hwrite
      · cases hwrite
      · split at hwrite
        · cases hwrite
        · next hshort =>
            cases hwrite
            exact h.insert ⟨isFileName_of_resolveNew hnew, by simpa using hshort⟩ place
              (.file content)

/-! ## Entries in another order -/

/-- The same entries, recorded in another order. -/
structure Reorders (tree other : FileTree) : Prop where
  workingDirectory : other.workingDirectory = tree.workingDirectory
  entries : other.entries.Perm tree.entries

theorem WellFormed.entry?_eq_some_iff (h : tree.WellFormed) (hne : names ≠ []) :
    tree.entry? names = some entry ↔ (names, entry) ∈ tree.entries := by
  unfold entry?
  rw [if_neg hne]
  exact Asm.lookup_eq_some_iff_mem h.nodup

namespace Reorders

variable (hother : tree.Reorders other) (h : tree.WellFormed)
include hother h

theorem wellFormed : other.WellFormed where
  nodup := (hother.entries.map Prod.fst).nodup_iff.2 h.nodup
  named := fun names hnames => h.named names ((hother.entries.map Prod.fst).mem_iff.1 hnames)

theorem entry?_eq (names : List String) : other.entry? names = tree.entry? names := by
  by_cases hne : names = []
  · unfold entry?
    rw [if_pos hne, if_pos hne]
  · refine Option.ext fun entry => ?_
    rw [(hother.wellFormed h).entry?_eq_some_iff hne, h.entry?_eq_some_iff hne]
    exact hother.entries.mem_iff

theorem follow_eq (place : List String) (name : String) :
    other.follow place name = tree.follow place name := by
  unfold follow hasDirectory
  rw [hother.entry?_eq h, hother.entry?_eq h]

theorem followAll_eq (place names : List String) :
    other.followAll place names = tree.followAll place names := by
  induction names generalizing place with
  | nil => rfl
  | cons name rest ih =>
      rw [followAll, followAll, hother.follow_eq h]
      exact bind_congr fun next => ih next

/-- A path leads to the same entry. -/
theorem resolve_eq (path : Path) : other.resolve path = tree.resolve path := by
  unfold resolve startOf
  rw [hother.workingDirectory]
  refine bind_congr fun names => ?_
  rw [hother.followAll_eq h]
  refine bind_congr fun place => ?_
  rw [hother.entry?_eq h]

theorem kind_eq (path : Path) : other.kind path = tree.kind path := by
  rw [kind, kind, hother.resolve_eq h]

theorem read_eq (path : Path) : other.read path = tree.read path := by
  rw [read, read, hother.resolve_eq h]

theorem rootedName?_eq (path : Path) : other.rootedName? path = tree.rootedName? path := by
  rw [rootedName?, rootedName?, hother.resolve_eq h]

end Reorders

/-! ## Listings -/

/-- The names of the entries that lie directly in a directory. -/
def listed (tree : FileTree) (place : List String) : List String :=
  tree.entries.filterMap fun entry => childName? place entry.1

theorem list_of_resolve (h : tree.resolve path = .ok (place, .directory)) :
    tree.list path = .ok (tree.listed place) := by
  rw [list, h]
  rfl

theorem childName?_eq_some_iff : childName? place names = some name ↔ names = place ++ [name] := by
  rw [childName?, Option.ite_none_right_eq_some]
  constructor
  · rintro ⟨rfl, hlast⟩
    obtain ⟨front, rfl⟩ := List.getLast?_eq_some_iff.1 hlast
    rw [List.dropLast_concat]
  · rintro rfl
    exact ⟨List.dropLast_concat, List.getLast?_concat⟩

theorem mem_listed_iff : name ∈ tree.listed place ↔
    ∃ entry, (place ++ [name], entry) ∈ tree.entries := by
  rw [listed, List.mem_filterMap]
  constructor
  · rintro ⟨⟨names, entry⟩, hmem, hchild⟩
    exact ⟨entry, childName?_eq_some_iff.1 hchild ▸ hmem⟩
  · rintro ⟨entry, hmem⟩
    exact ⟨_, hmem, childName?_eq_some_iff.2 rfl⟩

theorem Reorders.perm_listed (h : tree.Reorders other) (place : List String) :
    (other.listed place).Perm (tree.listed place) :=
  h.entries.filterMap _

namespace WellFormed

variable (h : tree.WellFormed)
include h

theorem mem_listed (hentry : tree.entry? (place ++ [name]) = some entry) :
    name ∈ tree.listed place :=
  mem_listed_iff.2 ⟨entry, (h.entry?_eq_some_iff (List.concat_ne_nil name place)).1 hentry⟩

theorem nodup_listed (place : List String) : (tree.listed place).Nodup := by
  refine List.pairwise_filterMap.2 ((List.pairwise_map.1 h.nodup).imp ?_)
  rintro first second hne name hfirst other hsecond rfl
  exact hne ((childName?_eq_some_iff.1 hfirst).trans (childName?_eq_some_iff.1 hsecond).symm)

theorem isEntryName_of_mem_listed (hname : name ∈ tree.listed place) : IsEntryName name := by
  obtain ⟨entry, hmem⟩ := mem_listed_iff.1 hname
  obtain ⟨front, last, heq, hlast⟩ := h.named _ (List.mem_map_of_mem hmem)
  obtain ⟨-, rfl⟩ := List.append_singleton_inj.1 heq
  exact hlast

end WellFormed

end FileTree

end StackVm
