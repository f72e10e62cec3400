import StackVm.Input
import StackVm.Proofs.Diagnosis
import StackVm.Proofs.Files.Entries
import StackVm.Proofs.Files.Order

/-! # Directories as inputs

The order in which the entries of a directory are listed has no influence on what is compiled.
The units are the source files that lie in the directory and whose paths are not too long, each
of them once, in the order of the bytes of their names.
-/

namespace StackVm

/-! ## Looking at a file tree -/

namespace FileTree

/-- Work that looks at a file tree and leaves it as it is. -/
def Looks {α : Type} (work : ExceptT Error (StateM FileTree) α)
    (result : FileTree → Except Error α) : Prop :=
  ∀ tree, work.run.run tree = (result tree, tree)

/-- A result whose failure becomes an error that names a path. -/
def naming {α : Type} (path : Path) : Except IoFault α → Except Error α
  | .ok value => .ok value
  | .error fault => .error (.io path.text fault)

variable {α β : Type} {work : ExceptT Error (StateM FileTree) α}
  {result : FileTree → Except Error α}

theorem looks_pure (value : α) : Looks (pure value) fun _ => .ok value :=
  fun _ => rfl

theorem looks_except (result : Except Error α) :
    Looks (ExceptT.mk (pure result)) fun _ => result :=
  fun _ => rfl

theorem looks_throw (error : Error) :
    Looks (throw error : ExceptT Error (StateM FileTree) α) fun _ => .error error :=
  fun _ => rfl

theorem looks_lift {use : StateM FileTree α} {found : FileTree → α}
    (h : ∀ tree, use.run tree = (found tree, tree)) :
    Looks (liftM use) fun tree => .ok (found tree) := by
  intro tree
  have hrun : (liftM use : ExceptT Error (StateM FileTree) α).run.run tree =
    (.ok (use.run tree).1, (use.run tree).2) := rfl
  rw [hrun, h tree]

theorem Looks.bind {next : α → ExceptT Error (StateM FileTree) β}
    {nextResult : α → FileTree → Except Error β} (h : Looks work result)
    (hnext : ∀ value, Looks (next value) (nextResult value)) :
    Looks (work >>= next) fun tree => result tree >>= fun value => nextResult value tree := by
  intro tree
  rw [ExceptT.run_bind, StateT.run_bind, h tree]
  cases hresult : result tree with
  | error error =>
      simp only [hresult]
      rfl
  | ok value =>
      simp only [hresult]
      exact hnext value tree

theorem looks_mapM {f : β → ExceptT Error (StateM FileTree) α}
    {results : β → FileTree → Except Error α} (h : ∀ x, Looks (f x) (results x)) (list : List β) :
    Looks (list.mapM f) fun tree => list.mapM fun x => results x tree := by
  induction list with
  | nil => exact looks_pure []
  | cons x rest ih =>
      simp only [List.mapM_cons]
      exact (h x).bind fun value => ih.bind fun values => looks_pure (value :: values)

theorem looks_access {use : StateM FileTree (Except IoFault α)} {found : FileTree → Except IoFault α}
    (h : ∀ tree, use.run tree = (found tree, tree)) (path : Path) :
    Looks (FileSystem.access path use) fun tree => naming path (found tree) := by
  refine @Looks.bind _ _ _ _ _ (fun value _ => naming path value) (looks_lift h) ?_
  intro value
  cases value with
  | ok value => exact looks_pure value
  | error fault => exact looks_throw (.io path.text fault)

theorem run_filterM {test : β → StateM FileTree Bool} {tree : FileTree} {result : β → Bool}
    (h : ∀ x, (test x).run tree = (result x, tree)) (list : List β) :
    (list.filterM test).run tree = (list.filter result, tree) := by
  have haux : ∀ kept, (list.filterAuxM test kept).run tree =
      ((list.filter result).reverse ++ kept, tree) := by
    induction list with
    | nil => exact fun _ => rfl
    | cons x rest ih =>
        intro kept
        rw [List.filterAuxM, StateT.run_bind, h x]
        cases hx : result x with
        | true =>
            rw [List.filter_cons_of_pos hx, List.reverse_cons, List.append_assoc]
            exact ih (x :: kept)
        | false =>
            rw [List.filter_cons_of_neg (by simp [hx])]
            exact ih kept
  rw [List.filterM, StateT.run_bind, haux, List.append_nil]
  change ((list.filter result).reverse.reverse, tree) = _
  rw [List.reverse_reverse]

end FileTree

/-- The name of the file that a unit was read from. -/
def SourceFile.name (file : SourceFile) : String :=
  file.unit.name ++ "." ++ sourceExtension

namespace Input

/-! ## Inputs as functions of the tree -/

open FileTree (Looks naming)

variable {tree other : FileTree} {path : Path} {place : List String}

def isFileIn (tree : FileTree) (path : Path) : Bool :=
  match tree.kind path with
  | .ok .file => true
  | _ => false

def loadIn (tree : FileTree) (path : Path) : Except Error SourceFile := do
  let source ← naming path (tree.read path)
  return { path, unit := { name := path.fileStem?.getD "", source } }

/-- The source files among the names in a directory. -/
def sourcesIn (tree : FileTree) (directory : Path) (names : List String) : List Path :=
  (((sortNames names).map fun name => directory.join ⟨name⟩).filter isSource).filter (isFileIn tree)

/-- The input that the source files of a directory make. -/
def gatherIn (tree : FileTree) (directory : Path) (sources : List Path) : Except Error Input :=
  if sources.isEmpty then
    throw (.io directory.text .noSources)
  else do
    return { path := directory, files := ← sources.mapM (loadIn tree), isDirectory := true }

/-- The input that one source file makes. -/
def discoverFileIn (tree : FileTree) (path : Path) : Except Error Input := do
  if isSource path then
    return { path, files := [← loadIn tree path], isDirectory := false }
  else
    throw (.io path.text .notASource)

def discoverIn (tree : FileTree) (path : Path) : Except Error Input := do
  match ← naming path (tree.kind path) with
  | .file => discoverFileIn tree path
  | .other => discoverFileIn tree path
  | .directory =>
      let names ← naming path (tree.list path)
      gatherIn tree path (sourcesIn tree path names)

theorem looks_load (path : Path) : Looks (load path) fun tree => loadIn tree path :=
  (FileTree.looks_access (fun _ => rfl) path).bind fun _ => FileTree.looks_pure _

theorem run_isFile (tree : FileTree) (path : Path) :
    (FileSystem.isFile path : StateM FileTree Bool).run tree = (isFileIn tree path, tree) := by
  have hkind : (FileSystem.kind path : StateM FileTree (Except IoFault EntryKind)).run tree =
    (tree.kind path, tree) := rfl
  rw [FileSystem.isFile, StateT.run_bind, hkind, isFileIn]
  cases tree.kind path with
  | error fault => rfl
  | ok kind => cases kind <;> rfl

theorem run_sourceFiles (tree : FileTree) (directory : Path) (names : List String) :
    (sourceFiles directory names : StateM FileTree (List Path)).run tree =
      (sourcesIn tree directory names, tree) :=
  FileTree.run_filterM (run_isFile tree) _

theorem looks_discoverFile (path : Path) :
    Looks (discoverFile path) fun tree => discoverFileIn tree path := by
  unfold discoverFile discoverFileIn
  cases hsource : isSource path with
  | true => exact (looks_load path).bind fun file => FileTree.looks_pure _
  | false => exact FileTree.looks_throw _

theorem looks_discover (path : Path) : Looks (discover path) fun tree => discoverIn tree path := by
  refine (FileTree.looks_access (fun _ => rfl) path).bind fun kind => ?_
  cases kind with
  | file => exact looks_discoverFile path
  | other => exact looks_discoverFile path
  | directory =>
      refine (FileTree.looks_access (fun _ => rfl) path).bind fun names => ?_
      refine @FileTree.Looks.bind _ _ _ _ _ (fun sources tree => gatherIn tree path sources)
        (FileTree.looks_lift fun tree => run_sourceFiles tree path names) ?_
      intro sources
      unfold gatherIn
      cases hsources : sources.isEmpty with
      | true => exact FileTree.looks_throw _
      | false =>
          exact (FileTree.looks_mapM looks_load sources).bind fun files => FileTree.looks_pure _

def directoryNameIn (tree : FileTree) (input : Input) : String :=
  match input.path.fileName? with
  | some name => String.ofList name
  | none => (tree.rootedName? input.path).getD "out"

/-- Where output goes by default. -/
def outputIn (tree : FileTree) (input : Input) (extension : String) : Path :=
  if input.isDirectory then input.path.join ⟨directoryNameIn tree input ++ "." ++ extension⟩
  else input.path.withExtension extension

def compileIn (tree : FileTree) (options : Options) (input : Input) : Except Error Compilation := do
  let bootstrap := options.bootstrap.enabled input.isDirectory
  let (asm, commands) ← compileWith options bootstrap input.units
  return {
    output := outputIn tree input options.machine.outputExtension
    asm
    units := input.units.map SourceUnit.name
    bootstrap
    commands }

theorem run_directoryName (tree : FileTree) (input : Input) :
    (input.directoryName : StateM FileTree String).run tree =
      (directoryNameIn tree input, tree) := by
  unfold directoryName directoryNameIn
  cases input.path.fileName? <;> rfl

theorem run_defaultOutput (tree : FileTree) (input : Input) (extension : String) :
    (input.defaultOutput extension : StateM FileTree Path).run tree =
      (outputIn tree input extension, tree) := by
  unfold defaultOutput outputIn
  cases input.isDirectory with
  | true =>
      simp only [if_true]
      rw [StateT.run_bind, run_directoryName]
      rfl
  | false => rfl

theorem looks_compile (options : Options) (input : Input) :
    Looks (input.compile options) fun tree => compileIn tree options input := by
  refine (FileTree.looks_except _).bind fun result => ?_
  obtain ⟨asm, commands⟩ := result
  exact (FileTree.looks_lift fun tree => run_defaultOutput tree input _).bind fun output =>
    FileTree.looks_pure _

/-! ## Order of entries -/

theorem discoverIn_of_directory (h : tree.resolve path = .ok (place, .directory)) :
    discoverIn tree path = gatherIn tree path (sourcesIn tree path (tree.listed place)) := by
  rw [discoverIn, FileTree.kind, h, FileTree.list_of_resolve h]
  rfl

section

variable (hother : tree.Reorders other) (h : tree.WellFormed)
include hother h

theorem loadIn_reorders (path : Path) : loadIn other path = loadIn tree path := by
  rw [loadIn, loadIn, hother.read_eq h]

theorem sourcesIn_reorders (directory : Path) (place : List String) :
    sourcesIn other directory (other.listed place) =
      sourcesIn tree directory (tree.listed place) := by
  have hfile : isFileIn other = isFileIn tree :=
    funext fun path => by rw [isFileIn, isFileIn, hother.kind_eq h]
  rw [sourcesIn, sourcesIn, hfile, sortNames_eq_of_perm (hother.perm_listed place)]

theorem discoverIn_reorders (path : Path) : discoverIn other path = discoverIn tree path := by
  have hload : loadIn other = loadIn tree := funext (loadIn_reorders hother h)
  have hresolve := hother.resolve_eq h path
  cases hplace : tree.resolve path with
  | error fault =>
      rw [discoverIn, discoverIn, FileTree.kind, FileTree.kind, hresolve, hplace]
      rfl
  | ok found =>
      obtain ⟨place, entry⟩ := found
      cases entry with
      | file content =>
          rw [discoverIn, discoverIn, FileTree.kind, FileTree.kind, hresolve, hplace,
            discoverFileIn, discoverFileIn, hload]
          rfl
      | directory =>
          rw [discoverIn_of_directory hplace, discoverIn_of_directory (hresolve.trans hplace),
            sourcesIn_reorders hother h, gatherIn, gatherIn, hload]

theorem compileIn_reorders (options : Options) (input : Input) :
    compileIn other options input = compileIn tree options input := by
  unfold compileIn outputIn directoryNameIn
  rw [hother.rootedName?_eq h]

end

/-! ## Names of source files -/

/-- The name of a source file: a stem and the extension of source files. -/
def IsSourceName (name : String) : Prop :=
  ∃ stem, stem ≠ "" ∧ name = stem ++ "." ++ sourceExtension

theorem splitName_sourceName {stem : String} (hstem : stem ≠ "") :
    Path.splitName (stem ++ "." ++ sourceExtension).toList =
      (stem.toList, some sourceExtension.toList) := by
  have hlist : (stem ++ "." ++ sourceExtension).toList =
      stem.toList ++ '.' :: sourceExtension.toList := by simp
  rw [hlist]
  exact Path.splitName_append (by simpa using hstem) (by decide)

theorem isSource_join_iff {name : String} (hname : Path.IsFileName name) (path : Path) :
    isSource (path.join ⟨name⟩) = true ↔ IsSourceName name := by
  rw [isSource, beq_iff_eq, Path.extension?, path.fileName?_join hname]
  constructor
  · intro h
    obtain ⟨extension, hsplit, hextension⟩ := Option.map_eq_some_iff.1 h
    obtain ⟨hstem, hlist⟩ := Path.eq_append_of_splitName hsplit
    refine ⟨String.ofList (Path.splitName name.toList).1, by simpa using hstem, ?_⟩
    rw [← String.toList_inj, ← hextension]
    simpa using hlist
  · rintro ⟨stem, hstem, rfl⟩
    rw [Option.bind_some, splitName_sourceName hstem, Option.map_some, String.ofList_toList]

theorem fileStem?_join {stem : String} (hstem : stem ≠ "")
    (hname : Path.IsFileName (stem ++ "." ++ sourceExtension)) (path : Path) :
    (path.join ⟨stem ++ "." ++ sourceExtension⟩).fileStem? = some stem := by
  rw [Path.fileStem?, path.fileName?_join hname, Option.map_some, splitName_sourceName hstem,
    String.ofList_toList]

/-! ## Source files in a directory -/

/-- A source file lies directly in a directory under a name. -/
structure IsSourceIn (tree : FileTree) (place : List String) (name : String) : Prop where
  isSourceName : IsSourceName name
  isFile : ∃ content, tree.entry? (place ++ [name]) = some (.file content)

/-- The path to a name in a directory is not too long. -/
def Fits (path : Path) (name : String) : Prop :=
  (path.join ⟨name⟩).text.utf8ByteSize ≤ FileTree.maxPath

theorem IsSourceIn.mem_listed {name : String} (h : IsSourceIn tree place name)
    (htree : tree.WellFormed) : name ∈ tree.listed place := by
  obtain ⟨content, hentry⟩ := h.isFile
  exact htree.mem_listed hentry

theorem isFileIn_eq_true_iff :
    isFileIn tree path = true ↔
      ∃ place content, tree.resolve path = .ok (place, .file content) := by
  unfold isFileIn FileTree.kind
  cases tree.resolve path with
  | error fault =>
      constructor
      · intro h
        cases h
      · rintro ⟨place, content, ⟨⟩⟩
  | ok found =>
      obtain ⟨place, entry⟩ := found
      cases entry with
      | directory =>
          constructor
          · intro h
            cases h
          · rintro ⟨place, content, ⟨⟩⟩
      | file content => exact ⟨fun _ => ⟨place, content, rfl⟩, fun _ => rfl⟩

theorem loadIn_eq_ok_iff {file : SourceFile} :
    loadIn tree path = .ok file ↔
      file.path = path ∧ file.unit.name = path.fileStem?.getD "" ∧
        tree.read path = .ok file.unit.source := by
  unfold loadIn naming
  cases tree.read path with
  | error fault =>
      constructor
      · intro h
        cases h
      · rintro ⟨-, -, ⟨⟩⟩
  | ok text =>
      constructor
      · intro h
        cases h
        exact ⟨rfl, rfl, rfl⟩
      · rintro ⟨rfl, hname, ⟨⟩⟩
        rw [← hname]
        rfl

section

variable {name : String} (hplace : tree.Leads path place) (hname : FileTree.IsEntryName name)
include hplace hname

theorem isFileIn_join_iff :
    isFileIn tree (path.join ⟨name⟩) = true ↔
      Fits path name ∧ ∃ content, tree.entry? (place ++ [name]) = some (.file content) := by
  rw [isFileIn_eq_true_iff]
  simp only [FileTree.resolve_join_eq_ok_iff hplace hname.toIsFileName hname.short]
  constructor
  · rintro ⟨found, content, hfits, -, hentry⟩
    exact ⟨hfits, content, hentry⟩
  · rintro ⟨hfits, content, hentry⟩
    exact ⟨place ++ [name], content, hfits, rfl, hentry⟩

theorem read_join_eq_ok_iff {text : String} :
    tree.read (path.join ⟨name⟩) = .ok text ↔
      Fits path name ∧ ∃ content, tree.entry? (place ++ [name]) = some (.file content) ∧
        String.fromUTF8? content = some text := by
  rw [FileTree.read_eq_ok_iff]
  simp only [FileTree.resolve_join_eq_ok_iff hplace hname.toIsFileName hname.short]
  constructor
  · rintro ⟨found, content, ⟨hfits, -, hentry⟩, htext⟩
    exact ⟨hfits, content, hentry, htext⟩
  · rintro ⟨hfits, content, hentry, htext⟩
    exact ⟨place ++ [name], content, ⟨hfits, rfl, hentry⟩, htext⟩

end

/-- A file of an input was read from a directory. -/
structure ReadFrom (tree : FileTree) (path : Path) (place : List String) (file : SourceFile) :
    Prop where
  path_eq : file.path = path.join ⟨file.name⟩
  source : ∃ content, tree.entry? (place ++ [file.name]) = some (.file content) ∧
    String.fromUTF8? content = some file.unit.source

/-- A source file is loaded under its own name. -/
theorem loadIn_join_eq_ok_iff {name : String} {file : SourceFile} (hplace : tree.Leads path place)
    (hname : FileTree.IsEntryName name) (hsource : IsSourceName name) :
    loadIn tree (path.join ⟨name⟩) = .ok file ↔
      file.name = name ∧ Fits path name ∧ ReadFrom tree path place file := by
  obtain ⟨stem, hstem, rfl⟩ := hsource
  rw [loadIn_eq_ok_iff, read_join_eq_ok_iff hplace hname,
    fileStem?_join hstem hname.toIsFileName]
  constructor
  · rintro ⟨hpath, rfl, hfits, hread⟩
    exact ⟨rfl, hfits, hpath, hread⟩
  · rintro ⟨hfile, hfits, hpath, hread⟩
    obtain rfl : file.unit.name = stem := by simpa [SourceFile.name] using hfile
    exact ⟨hpath, rfl, hfits, hread⟩

/-! ## Inputs from directories -/

/-- The names of the source files among the names in a directory, in order. -/
def sourceNames (tree : FileTree) (path : Path) (names : List String) : List String :=
  ((sortNames names).filter fun name => isSource (path.join ⟨name⟩)).filter fun name =>
    isFileIn tree (path.join ⟨name⟩)

theorem sourcesIn_eq_map (tree : FileTree) (path : Path) (names : List String) :
    sourcesIn tree path names =
      (sourceNames tree path names).map fun name => path.join ⟨name⟩ := by
  rw [sourcesIn, List.filter_map, List.filter_map]
  rfl

theorem mem_sourceNames_iff {name : String} (htree : tree.WellFormed)
    (hplace : tree.Leads path place) :
    name ∈ sourceNames tree path (tree.listed place) ↔
      IsSourceIn tree place name ∧ Fits path name := by
  rw [sourceNames, List.mem_filter, List.mem_filter, (perm_sortNames _).mem_iff]
  constructor
  · rintro ⟨⟨hlisted, hsource⟩, hfile⟩
    have hname := htree.isEntryName_of_mem_listed hlisted
    obtain ⟨hfits, hentry⟩ := (isFileIn_join_iff hplace hname).1 hfile
    exact ⟨⟨(isSource_join_iff hname.toIsFileName path).1 hsource, hentry⟩, hfits⟩
  · rintro ⟨hsource, hfits⟩
    have hlisted := hsource.mem_listed htree
    have hname := htree.isEntryName_of_mem_listed hlisted
    exact ⟨⟨hlisted, (isSource_join_iff hname.toIsFileName path).2 hsource.isSourceName⟩,
      (isFileIn_join_iff hplace hname).2 ⟨hfits, hsource.isFile⟩⟩

/-- Names are in strictly increasing order of their bytes. -/
def InOrder (names : List String) : Prop :=
  names.Pairwise fun x y => Text.bytes x.toList < Text.bytes y.toList

theorem inOrder_sourceNames (htree : tree.WellFormed) (path : Path) (place : List String) :
    InOrder (sourceNames tree path (tree.listed place)) :=
  ((pairwise_bytes_sortNames (htree.nodup_listed place)).filter _).filter _

theorem InOrder.nodup {names : List String} (h : InOrder names) : names.Nodup := by
  refine h.imp ?_
  rintro x _ hlt rfl
  exact List.lt_irrefl _ hlt

/-- Names in order are determined by which names they are. -/
theorem InOrder.eq_of_mem_iff {names others : List String} (h : InOrder names)
    (hothers : InOrder others) (hmem : ∀ name, name ∈ names ↔ name ∈ others) : names = others := by
  refine List.Perm.eq_of_pairwise ?_ h hothers
    ((List.perm_ext_iff_of_nodup h.nodup hothers.nodup).2 hmem)
  intro x y _ _ hxy hyx
  exact absurd hyx (List.lt_asymm hxy)

/-- The source files in a directory whose paths are not too long, in the order of their names. -/
structure Gathers (tree : FileTree) (path : Path) (place : List String) (input : Input) :
    Prop where
  path_eq : input.path = path
  isDirectory : input.isDirectory = true
  ne_nil : input.files ≠ []
  readFrom : ∀ file ∈ input.files, ReadFrom tree path place file
  mem_iff : ∀ name, name ∈ input.files.map SourceFile.name ↔
    IsSourceIn tree place name ∧ Fits path name
  inOrder : InOrder (input.files.map SourceFile.name)

theorem gatherIn_eq_ok_iff {sources : List Path} {input : Input} :
    gatherIn tree path sources = .ok input ↔
      input.path = path ∧ input.isDirectory = true ∧ sources ≠ [] ∧
        sources.map (loadIn tree) = input.files.map .ok := by
  rw [← Asm.mapM_eq_ok_iff]
  unfold gatherIn
  cases hsources : sources.isEmpty with
  | true =>
      constructor
      · intro h
        cases h
      · rintro ⟨-, -, hne, -⟩
        exact absurd (List.isEmpty_iff.1 hsources) hne
  | false =>
      rw [if_neg (by decide), bind_eq_ok_iff]
      constructor
      · rintro ⟨files, hfiles, ⟨⟩⟩
        exact ⟨rfl, rfl, List.isEmpty_eq_false_iff.1 hsources, hfiles⟩
      · obtain ⟨inputPath, files, isDirectory⟩ := input
        rintro ⟨rfl, rfl, -, hfiles⟩
        exact ⟨files, hfiles, rfl⟩

/-- Results that name what they were made from are results of what they name. -/
theorem map_eq_map_ok_iff {ε α β : Type} {f : α → Except ε β} {g : β → α} {xs : List α}
    {ys : List β} (h : ∀ x ∈ xs, ∀ y, f x = .ok y → g y = x) :
    xs.map f = ys.map .ok ↔ xs = ys.map g ∧ ∀ y ∈ ys, f (g y) = .ok y := by
  constructor
  · intro hmap
    induction xs generalizing ys with
    | nil =>
        obtain rfl := List.map_eq_nil_iff.1 hmap.symm
        exact ⟨rfl, List.forall_mem_nil _⟩
    | cons x xs ih =>
        cases ys with
        | nil => cases hmap
        | cons y ys =>
            obtain ⟨hx, hxs⟩ := List.cons.inj hmap
            obtain ⟨hhead, htail⟩ := List.forall_mem_cons.1 h
            obtain ⟨rfl, hys⟩ := ih htail hxs
            obtain rfl := hhead y hx
            exact ⟨rfl, List.forall_mem_cons.2 ⟨hx, hys⟩⟩
  · rintro ⟨rfl, hys⟩
    rw [List.map_map]
    exact List.map_congr_left hys

theorem loadIn_sourceName_iff {name : String} {file : SourceFile} (htree : tree.WellFormed)
    (hplace : tree.Leads path place) (hname : name ∈ sourceNames tree path (tree.listed place)) :
    loadIn tree (path.join ⟨name⟩) = .ok file ↔
      file.name = name ∧ Fits path name ∧ ReadFrom tree path place file := by
  have hsource := ((mem_sourceNames_iff htree hplace).1 hname).1
  exact loadIn_join_eq_ok_iff hplace
    (htree.isEntryName_of_mem_listed (hsource.mem_listed htree)) hsource.isSourceName

/-- A directory gives the input that its source files make. -/
theorem discoverIn_eq_ok_iff {input : Input} (htree : tree.WellFormed)
    (hplace : tree.resolve path = .ok (place, .directory)) :
    discoverIn tree path = .ok input ↔ Gathers tree path place input := by
  have hleads := FileTree.leads_of_resolve hplace
  have hloads : ∀ name ∈ sourceNames tree path (tree.listed place), ∀ file,
      (loadIn tree ∘ fun name => path.join ⟨name⟩) name = .ok file → file.name = name :=
    fun name hname file h => ((loadIn_sourceName_iff htree hleads hname).1 h).1
  rw [discoverIn_of_directory hplace, sourcesIn_eq_map, gatherIn_eq_ok_iff, List.map_map,
    map_eq_map_ok_iff hloads]
  constructor
  · rintro ⟨hpath, hdirectory, hne, hnames, hfiles⟩
    refine ⟨hpath, hdirectory, ?_, ?_, ?_, ?_⟩
    · intro hnil
      rw [hnames, hnil] at hne
      exact hne rfl
    · intro file hfile
      have hname : file.name ∈ sourceNames tree path (tree.listed place) :=
        hnames ▸ List.mem_map_of_mem hfile
      exact ((loadIn_sourceName_iff htree hleads hname).1 (hfiles file hfile)).2.2
    · intro name
      rw [← hnames]
      exact mem_sourceNames_iff htree hleads
    · exact hnames ▸ inOrder_sourceNames htree path place
  · intro h
    have hnames : sourceNames tree path (tree.listed place) = input.files.map SourceFile.name :=
      (inOrder_sourceNames htree path place).eq_of_mem_iff h.inOrder fun name =>
        (mem_sourceNames_iff htree hleads).trans (h.mem_iff name).symm
    refine ⟨h.path_eq, h.isDirectory, ?_, hnames, ?_⟩
    · rw [hnames]
      simpa using h.ne_nil
    · intro file hfile
      have hname := List.mem_map_of_mem (f := SourceFile.name) hfile
      exact (loadIn_sourceName_iff htree hleads (hnames ▸ hname)).2
        ⟨rfl, ((h.mem_iff file.name).1 hname).2, h.readFrom file hfile⟩

theorem Gathers.nodup_names {input : Input} (h : Gathers tree path place input) :
    (input.units.map SourceUnit.name).Nodup := by
  rw [units, List.map_map]
  refine List.pairwise_map.2 ((List.pairwise_map.1 h.inOrder.nodup).imp ?_)
  intro file later hne heq
  apply hne
  rw [SourceFile.name, SourceFile.name]
  exact congrArg (· ++ "." ++ sourceExtension) heq

/-- The input behind a path in a tree. -/
def discovered (tree : FileTree) (path : Path) : Except Error Input :=
  ((discover path : ExceptT Error (StateM FileTree) Input).run.run tree).1

/-- The compilation of the input behind a path in a tree. -/
def compiled (tree : FileTree) (path : Path) (options : Options) : Except Error Compilation :=
  ((discover path >>= fun input => input.compile options :
    ExceptT Error (StateM FileTree) Compilation).run.run tree).1

theorem discovered_eq (tree : FileTree) (path : Path) :
    discovered tree path = discoverIn tree path := by
  rw [discovered, looks_discover]

theorem compiled_eq (tree : FileTree) (path : Path) (options : Options) :
    compiled tree path options = discoverIn tree path >>= compileIn tree options := by
  rw [compiled, (looks_discover path).bind (looks_compile options)]

/--
What a path gives does not depend on the order in which entries are listed,
and neither does its compilation.  A directory gives the source files in it
whose paths are not too long, each once and in the order of the bytes of their
names; each is found under the name of its unit.  They are all the source files
in the directory if and only if no path to one is too long.
-/
theorem discover_unordered (htree : tree.WellFormed) (path : Path) :
    (∀ other, tree.Reorders other → discovered other path = discovered tree path ∧
      ∀ options, compiled other path options = compiled tree path options) ∧
    ∀ place, tree.resolve path = .ok (place, .directory) → ∀ input,
      (discovered tree path = .ok input ↔ Gathers tree path place input) ∧
      (discovered tree path = .ok input →
        (input.units.map SourceUnit.name).Nodup ∧
        (∀ file ∈ input.files, input.file? file.unit.name = some file) ∧
        ((∀ name, IsSourceIn tree place name → name ∈ input.files.map SourceFile.name) ↔
          ∀ name, IsSourceIn tree place name → Fits path name)) := by
  constructor
  · intro other hother
    have hdiscover := discoverIn_reorders hother htree path
    refine ⟨by rw [discovered_eq, discovered_eq, hdiscover], fun options => ?_⟩
    rw [compiled_eq, compiled_eq, hdiscover, funext (compileIn_reorders hother htree options)]
  · intro place hplace input
    rw [discovered_eq, discoverIn_eq_ok_iff htree hplace]
    refine ⟨Iff.rfl, fun h => ⟨h.nodup_names, fun file hfile => ?_, ?_, ?_⟩⟩
    · exact file?_eq_some h.nodup_names hfile
    · exact fun hall name hsource => ((h.mem_iff name).1 (hall name hsource)).2
    · exact fun hfits name hsource => (h.mem_iff name).2 ⟨hsource, hfits name hsource⟩

namespace Sample

/-- Two source files among a directory with their extension and a name without a stem. -/
def crowded : FileTree :=
  ((((FileTree.fresh "w").insert ["w", "b.vm"] (.file "neg".toByteArray)).insert
    ["w", "x.vm"] .directory).insert ["w", ".vm"] (.file ⟨#[]⟩)).insert
    ["w", "a.b.vm"] (.file "not".toByteArray)

/-- The entries of a crowded tree, from the last to the first. -/
def shuffled : FileTree :=
  { crowded with entries := crowded.entries.reverse }

def crowdedInput : Input where
  path := ⟨"."⟩
  files := [⟨⟨"./a.b.vm"⟩, ⟨"a.b", "not"⟩⟩, ⟨⟨"./b.vm"⟩, ⟨"b", "neg"⟩⟩]
  isDirectory := true

theorem wellFormed_crowded : crowded.WellFormed :=
  ((((FileTree.wellFormed_fresh (by decide)).insert (by decide) ["w"] _).insert
    (by decide) ["w"] _).insert (by decide) ["w"] _).insert (by decide) ["w"] _

theorem unordered_crowded :
    crowded.WellFormed ∧ discovered shuffled ⟨"."⟩ = .ok crowdedInput ∧
      Gathers crowded ⟨"."⟩ ["w"] crowdedInput ∧
      crowdedInput.file? "a.b" = some ⟨⟨"./a.b.vm"⟩, ⟨"a.b", "not"⟩⟩ := by
  have hplace : crowded.resolve ⟨"."⟩ = .ok (["w"], .directory) :=
    FileTree.resolve_eq_ok_iff.2 ⟨by decide, by decide, by decide,
      toOption_eq_some_iff.1 (by decide +kernel), rfl, by decide⟩
  have hinput : discovered crowded ⟨"."⟩ = .ok crowdedInput :=
    toOption_eq_some_iff.1 (by decide +kernel)
  obtain ⟨horder, hinputs⟩ := discover_unordered wellFormed_crowded ⟨"."⟩
  obtain ⟨hgathers, hfound⟩ := hinputs ["w"] hplace crowdedInput
  exact ⟨wellFormed_crowded, (horder shuffled ⟨rfl, List.reverse_perm _⟩).1.trans hinput,
    hgathers.1 hinput, (hfound hinput).2.1 _ List.mem_cons_self⟩

end Sample

end Input

end StackVm
