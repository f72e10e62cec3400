import StackVm.Asm.Program

/-! # Variables are numbered by their first use

The second pass looks each symbol up in a table that grows while it goes on.  A
symbol keeps the address that it has once, so the words are the same as if all
variables had been known from the start: the free symbols of the program, without
repetitions, at consecutive addresses.
-/

namespace StackVm

namespace Asm

/-- Names at consecutive addresses. -/
def numbered (base : UInt16) : List String → List (String × UInt16)
  | [] => []
  | name :: rest => (name, base) :: numbered (base + 1) rest

theorem add_one_add_ofNat (base : UInt16) (rank : Nat) :
    base + 1 + UInt16.ofNat rank = base + UInt16.ofNat (rank + 1) := by
  rw [UInt16.ofNat_add, UInt16.add_assoc, UInt16.add_comm 1]
  rfl

@[simp] theorem map_fst_numbered (base : UInt16) (names : List String) :
    (numbered base names).map Prod.fst = names := by
  induction names generalizing base with
  | nil => rfl
  | cons name rest ih => rw [numbered, List.map_cons, ih]

theorem mem_numbered {base address : UInt16} {names : List String} {name : String} :
    (name, address) ∈ numbered base names ↔
      ∃ rank, names[rank]? = some name ∧ address = base + UInt16.ofNat rank := by
  induction names generalizing base with
  | nil => simp [numbered]
  | cons first rest ih =>
      rw [numbered, List.mem_cons, Prod.mk.injEq, ih]
      constructor
      · rintro (⟨rfl, rfl⟩ | ⟨rank, hrank, rfl⟩)
        · exact ⟨0, rfl, (UInt16.add_zero _).symm⟩
        · exact ⟨rank + 1, hrank, add_one_add_ofNat base rank⟩
      · rintro ⟨rank, hrank, rfl⟩
        cases rank with
        | zero =>
            cases hrank
            exact .inl ⟨rfl, UInt16.add_zero _⟩
        | succ rank => exact .inr ⟨rank, hrank, (add_one_add_ofNat base rank).symm⟩

theorem lookup_numbered (base : UInt16) {names : List String} {name : String}
    (h : name ∈ names) :
    ∃ rank, names[rank]? = some name ∧
      (numbered base names).lookup name = some (base + UInt16.ofNat rank) := by
  induction names generalizing base with
  | nil => cases h
  | cons first rest ih =>
      by_cases hfirst : name = first
      · subst hfirst
        refine ⟨0, rfl, ?_⟩
        rw [numbered, List.lookup_cons_self]
        exact congrArg some (UInt16.add_zero _).symm
      · obtain ⟨rank, hrank, hlookup⟩ := ih (base + 1) ((List.mem_cons.1 h).resolve_left hfirst)
        refine ⟨rank + 1, hrank, ?_⟩
        rw [numbered, List.lookup_cons, beq_false_of_ne hfirst, hlookup, add_one_add_ofNat]

namespace Symbols

/-- The variables in the order of their first use. -/
def variableNames (symbols : Symbols) : List String :=
  symbols.allocated.map Prod.fst

theorem address?_eq_lookup (symbols : Symbols) (name : String) :
    symbols.address? name = (predefined ++ symbols.own).lookup name := by
  rw [own, List.lookup_append, List.lookup_append, address?]
  cases predefined.lookup name <;> cases symbols.labels.lookup name <;> rfl

def after (symbols : Symbols) (instruction : Instruction) : Symbols :=
  match instruction.symbol? with
  | some name => (symbols.resolve name).2
  | none => symbols

variable {symbols : Symbols} {name other : String} {address : UInt16} {instruction : Instruction}

theorem resolve_of_some (h : symbols.address? name = some address) :
    symbols.resolve name = (address, symbols) := by
  rw [resolve, h]

theorem resolve_of_none (h : symbols.address? name = none) :
    symbols.resolve name =
      (symbols.nextVariable,
        { symbols with
          allocated := symbols.allocated ++ [(name, symbols.nextVariable)]
          nextVariable := symbols.nextVariable + 1 }) := by
  rw [resolve, h]

theorem address?_resolve_of_none (h : symbols.address? name = none) (other : String) :
    (symbols.resolve name).2.address? other =
      (symbols.address? other).or (if other == name then some symbols.nextVariable else none) := by
  rw [resolve_of_none h, address?_eq_lookup, address?_eq_lookup, own, own, ← List.append_assoc,
    ← List.append_assoc, List.lookup_append]
  cases hother : other == name <;> simp [List.lookup_cons, hother]

/-- A symbol has the address that it was given. -/
theorem address?_resolve_self (symbols : Symbols) (name : String) :
    (symbols.resolve name).2.address? name = some (symbols.resolve name).1 := by
  cases h : symbols.address? name with
  | some address => rw [resolve_of_some h, h]
  | none =>
      rw [address?_resolve_of_none h, h, resolve_of_none h]
      simp

/-- A symbol keeps its address. -/
theorem address?_resolve (h : symbols.address? other = some address) (name : String) :
    (symbols.resolve name).2.address? other = some address := by
  cases hname : symbols.address? name with
  | some _ => rw [resolve_of_some hname, h]
  | none => rw [address?_resolve_of_none hname, h, Option.some_or]

theorem address?_foldl_after (h : symbols.address? name = some address)
    (instructions : List Instruction) :
    (instructions.foldl after symbols).address? name = some address := by
  induction instructions generalizing symbols with
  | nil => exact h
  | cons instruction rest ih =>
      refine ih ?_
      unfold after
      cases instruction.symbol? with
      | none => exact h
      | some other => exact address?_resolve h other

/-- The symbols that instructions load and a table does not know, by first use. -/
def newNames (symbols : Symbols) (instructions : List Instruction) : List String :=
  ((instructions.filterMap Instruction.symbol?).filter
    fun name => (symbols.address? name).isNone).eraseDups

theorem newNames_of_known (h : ∀ name, instruction.symbol? = some name →
    (symbols.address? name).isSome = true) (instructions : List Instruction) :
    symbols.newNames (instruction :: instructions) = symbols.newNames instructions := by
  cases hsymbol : instruction.symbol? with
  | none => simp [newNames, hsymbol]
  | some name =>
      have hknown := h name hsymbol
      cases haddress : symbols.address? name with
      | none => simp [haddress] at hknown
      | some address => simp [newNames, hsymbol, haddress]

theorem newNames_of_new (hsymbol : instruction.symbol? = some name)
    (h : symbols.address? name = none) (instructions : List Instruction) :
    symbols.newNames (instruction :: instructions) =
      name :: (symbols.resolve name).2.newNames instructions := by
  have hfilter : (fun other => ((symbols.resolve name).2.address? other).isNone) = fun other =>
      (!other == name && (symbols.address? other).isNone) := by
    funext other
    rw [address?_resolve_of_none h]
    cases symbols.address? other <;> cases other == name <;> rfl
  simp [newNames, hsymbol, h, List.eraseDups_cons, hfilter, List.filter_filter]

theorem after_eq_self (h : ∀ name, instruction.symbol? = some name →
    (symbols.address? name).isSome = true) : symbols.after instruction = symbols := by
  unfold after
  cases hsymbol : instruction.symbol? with
  | none => rfl
  | some name =>
      obtain ⟨address, haddress⟩ := Option.isSome_iff_exists.1 (h name hsymbol)
      simp only [resolve_of_some haddress]

/-- New symbols become variables at consecutive addresses. -/
theorem foldl_after (symbols : Symbols) (instructions : List Instruction) :
    instructions.foldl after symbols =
      { symbols with
        allocated := symbols.allocated ++
          numbered symbols.nextVariable (symbols.newNames instructions)
        nextVariable :=
          symbols.nextVariable + UInt16.ofNat (symbols.newNames instructions).length } := by
  induction instructions generalizing symbols with
  | nil =>
      simp [newNames, numbered]
  | cons instruction rest ih =>
      rw [List.foldl_cons]
      by_cases hknown : ∀ name, instruction.symbol? = some name →
          (symbols.address? name).isSome = true
      · rw [after_eq_self hknown, newNames_of_known hknown, ih]
      · simp only [Classical.not_forall, Bool.not_eq_true, Option.isSome_eq_false_iff,
          Option.isNone_iff_eq_none] at hknown
        obtain ⟨name, hsymbol, hnone⟩ := hknown
        have hafter : symbols.after instruction = (symbols.resolve name).2 := by
          simp only [after, hsymbol]
        rw [hafter, ih, newNames_of_new hsymbol hnone, resolve_of_none hnone, numbered,
          List.length_cons, List.append_assoc, ← add_one_add_ofNat]
        rfl

end Symbols

/-! ## The second pass -/

theorem Instruction.word_congr {instruction : Instruction} {f g : String → UInt16}
    (h : ∀ name, instruction.symbol? = some name → f name = g name) :
    instruction.word f = instruction.word g := by
  cases instruction with
  | compute dest comp jump => rfl
  | load address =>
      cases address with
      | constant value => rfl
      | symbol name => exact h name rfl

namespace Encoding

theorem put_eq (encoding : Encoding) (instruction : Instruction) :
    encoding.put instruction =
      ⟨encoding.symbols.after instruction, encoding.words.push (instruction.word fun name =>
        ((encoding.symbols.after instruction).address? name).getD 0)⟩ := by
  unfold put Symbols.after
  cases hsymbol : instruction.symbol? with
  | none =>
      refine congrArg (fun word => Encoding.mk _ (encoding.words.push word)) ?_
      exact Instruction.word_congr fun name hname => by rw [hsymbol] at hname; cases hname
  | some name =>
      refine congrArg (fun word => Encoding.mk _ (encoding.words.push word)) ?_
      refine Instruction.word_congr fun other hother => ?_
      rw [hsymbol] at hother
      cases hother
      rw [Symbols.address?_resolve_self]
      rfl

/-- Each word is the one that the table of the whole program gives. -/
theorem foldl_put (encoding : Encoding) (instructions : List Instruction) :
    instructions.foldl put encoding =
      ⟨instructions.foldl Symbols.after encoding.symbols,
        encoding.words ++ instructions.map (Instruction.word fun name =>
          ((instructions.foldl Symbols.after encoding.symbols).address? name).getD 0)⟩ := by
  induction instructions generalizing encoding with
  | nil => simp
  | cons instruction rest ih =>
      have hword : instruction.word (fun name =>
          ((encoding.symbols.after instruction).address? name).getD 0) =
            instruction.word fun name => ((rest.foldl Symbols.after
              (encoding.symbols.after instruction)).address? name).getD 0 := by
        refine Instruction.word_congr fun name hname => ?_
        have hafter := encoding.symbols.address?_resolve_self name
        simp only [Symbols.after, hname]
        rw [Symbols.address?_foldl_after hafter, hafter]
      rw [List.foldl_cons, ih, put_eq, List.foldl_cons, List.map_cons, hword]
      exact congrArg (Encoding.mk _) (Array.ext' (by simp))

theorem foldlM_add (limit : UInt16) (encoding : Encoding) (lines : List CodeLine) :
    lines.foldlM (add limit) encoding =
      ((lines.filter fun line => !line.isLabel).mapM (CodeLine.read limit)).map
        fun instructions => instructions.foldl put encoding := by
  induction lines generalizing encoding with
  | nil => rfl
  | cons line rest ih =>
      rw [List.foldlM_cons, add]
      cases hlabel : line.isLabel with
      | true =>
          rw [List.filter_cons_of_neg (by simp [hlabel])]
          exact ih encoding
      | false =>
          rw [List.filter_cons_of_pos (by simp [hlabel]), List.mapM_cons]
          cases hread : line.read limit with
          | error fault => rfl
          | ok instruction =>
              refine (ih (encoding.put instruction)).trans ?_
              cases (rest.filter fun line => !line.isLabel).mapM (CodeLine.read limit) <;> rfl

end Encoding

/-- The symbols that instructions load and a layout does not know, by first use. -/
def variablesOf (layout : Layout) (instructions : List Instruction) : List String :=
  ((instructions.filterMap Instruction.symbol?).filter
    fun name => (layout.address? name).isNone).eraseDups

/-- The program of a layout and its instructions. -/
def link (machine : Machine) (layout : Layout) (instructions : List Instruction) : Program :=
  let symbols : Symbols :=
    { labels := layout.labels
      allocated := numbered machine.variableBase (variablesOf layout instructions)
      nextVariable := machine.variableBase +
        UInt16.ofNat (variablesOf layout instructions).length }
  { words := instructions.map (Instruction.word fun name => (symbols.address? name).getD 0)
    symbols }

theorem Symbols.newNames_eq_variablesOf (layout : Layout) (base : UInt16)
    (instructions : List Instruction) :
    (Symbols.mk layout.labels [] base).newNames instructions = variablesOf layout instructions := by
  have hknown : (Symbols.mk layout.labels [] base).address? = layout.address? := by
    funext name
    rw [Symbols.address?, Layout.address?]
    cases predefined.lookup name <;> cases layout.labels.lookup name <;> rfl
  rw [newNames, variablesOf, hknown]

/-- The second pass links the instructions of its lines. -/
theorem foldlM_add_eq_link (machine : Machine) (layout : Layout) (lines : List CodeLine) :
    lines.foldlM (Encoding.add machine.maxConstant)
        { symbols := { labels := layout.labels, nextVariable := machine.variableBase } } =
      ((lines.filter fun line => !line.isLabel).mapM (CodeLine.read machine.maxConstant)).map
        fun instructions =>
          ⟨(link machine layout instructions).symbols,
            (link machine layout instructions).words.toArray⟩ := by
  rw [Encoding.foldlM_add]
  refine congrArg (Except.map · _) (funext fun instructions => ?_)
  rw [Encoding.foldl_put, Symbols.foldl_after, Symbols.newNames_eq_variablesOf, List.nil_append,
    link]
  exact congrArg (Encoding.mk _) (Array.ext' (by simp))

theorem assemble_eq (machine : Machine) (text : String) :
    assemble machine text = do
      let layout ← Layout.addAll {} (codeLines text)
      let instructions ← ((codeLines text).filter fun line => !line.isLabel).mapM
        (CodeLine.read machine.maxConstant)
      return link machine layout instructions := by
  rw [assemble]
  simp only [foldlM_add_eq_link]
  cases Layout.addAll {} (codeLines text) with
  | error fault => rfl
  | ok layout =>
      cases ((codeLines text).filter fun line => !line.isLabel).mapM
        (CodeLine.read machine.maxConstant) <;> rfl

end Asm

end StackVm
