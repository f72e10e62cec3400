import StackVm.Proofs.Asm.Linking

/-! # Variables of an assembled program

A symbol that is neither predefined nor a label is a variable.  Variables have
consecutive addresses in the order of their first use, so two of them share an
address only if they have the same name.
-/

namespace StackVm

namespace Asm

theorem length_eraseDups_le {α : Type} [BEq α] (values : List α) :
    values.eraseDups.length ≤ values.length := by
  induction hlength : values.length using Nat.strongRecOn generalizing values with
  | ind length ih =>
      subst hlength
      cases values with
      | nil => exact Nat.le_refl _
      | cons value rest =>
          have hfilter := List.length_filter_le (fun other => !other == value) rest
          have hrest := ih _ (Nat.lt_succ_of_le hfilter) _ rfl
          rw [List.eraseDups_cons, List.length_cons, List.length_cons]
          omega

theorem mem_variablesOf {layout : Layout} {instructions : List Instruction} {name : String} :
    name ∈ variablesOf layout instructions ↔
      name ∈ instructions.filterMap Instruction.symbol? ∧ layout.address? name = none := by
  rw [variablesOf, List.mem_eraseDups, List.mem_filter, Option.isNone_iff_eq_none]

theorem length_variablesOf_le (layout : Layout) (instructions : List Instruction) :
    (variablesOf layout instructions).length ≤
      (instructions.filterMap Instruction.symbol?).length :=
  Nat.le_trans (length_eraseDups_le _) (List.length_filter_le _ _)

/-- The address of a variable tells its rank. -/
theorem Symbols.address?_of_variable {layout : Layout} {names : List String} {name : String}
    (base next : UInt16) (hmem : name ∈ names) (hnone : layout.address? name = none) :
    ∃ rank, names[rank]? = some name ∧
      (Symbols.mk layout.labels (numbered base names) next).address? name =
        some (base + UInt16.ofNat rank) := by
  obtain ⟨rank, hrank, hlookup⟩ := lookup_numbered base hmem
  refine ⟨rank, hrank, ?_⟩
  rw [Layout.address?, Option.orElse_eq_orElse, Option.orElse_eq_or, Option.or_eq_none_iff] at hnone
  simp [Symbols.address?, hnone.1, hnone.2, hlookup]

/-! ## The symbols of an assembled program -/

theorem LabelsAt.isSome_of_mem {address? : String → Option UInt16} {address : Nat} {code : Code}
    {name : String} (h : LabelsAt address? address code) (hmem : .label name ∈ code) :
    (address? name).isSome = true := by
  induction code generalizing address with
  | nil => cases hmem
  | cons line rest ih =>
      rw [List.mem_cons] at hmem
      rcases hmem with rfl | hmem
      · rw [h.1]
        rfl
      · cases line with
        | comment text => exact ih h hmem
        | label other => exact ih h.2 hmem
        | code instruction => exact ih h hmem

theorem Layout.size_le_of_addAll {layout final : Layout} {lines : List CodeLine}
    (hsize : layout.size ≤ Text.maxWord) (h : layout.addAll lines = .ok final) :
    final.size ≤ Text.maxWord := by
  refine addAll_keeps (p := fun layout => layout.size ≤ Text.maxWord) ?_ hsize h
  intro line _ layout next hle hadd
  rcases add_eq_ok_iff.1 hadd with ⟨name, -, -, rfl⟩ | ⟨-, hlt, rfl⟩
  · exact hle
  · exact hlt

namespace Assembled

variable {machine : Machine} {opening : Opening} {lines : Code} {layout : Layout}
  {program : Program} {name other : String}

/-- A name is free if the opening does not know it and no line defines it as a label. -/
theorem address?_eq_none_iff (h : Assembled machine opening lines layout program) :
    layout.address? name = none ↔
      opening.layout.address? name = none ∧
        ∀ label, .label label ∈ lines → squeezed label ≠ name := by
  have hextends := Layout.extends_of_addAll h.firstPass
  constructor
  · intro hnone
    refine ⟨?_, ?_⟩
    · cases hopening : opening.layout.address? name with
      | none => rfl
      | some address =>
          rw [hextends.kept name address hopening] at hnone
          cases hnone
    · rintro label hlabel rfl
      have hsome := hextends.labels.isSome_of_mem hlabel
      rw [hnone] at hsome
      cases hsome
  · rintro ⟨hopening, hlabels⟩
    cases hfinal : layout.address? name with
    | none => rfl
    | some address =>
        rcases hextends.known name (by rw [hfinal]; rfl) with hknown | ⟨label, hlabel, heq⟩
        · rw [hopening] at hknown
          cases hknown
        · exact absurd heq (hlabels label hlabel)

theorem variableNames_eq (h : Assembled machine opening lines layout program) :
    program.symbols.variableNames = variablesOf layout
      (opening.instructions ++ (instructions lines).map Instruction.squeezed) := by
  rw [h.linked]
  exact map_fst_numbered _ _

/-- A name that a line loads is a variable if and only if it is free. -/
theorem mem_variableNames_iff (h : Assembled machine opening lines layout program)
    (hload : Code.load name ∈ lines) :
    squeezed name ∈ program.symbols.variableNames ↔ layout.address? (squeezed name) = none := by
  rw [h.variableNames_eq, mem_variablesOf]
  refine ⟨And.right, fun hnone => ⟨?_, hnone⟩⟩
  have hinstruction : Instruction.load (.symbol name) ∈ instructions lines :=
    List.mem_filterMap.2 ⟨_, hload, rfl⟩
  rw [List.filterMap_append, List.mem_append]
  exact .inr (List.mem_filterMap.2 ⟨_, List.mem_map_of_mem hinstruction, rfl⟩)

theorem exists_rank (h : Assembled machine opening lines layout program)
    (hmem : squeezed name ∈ program.symbols.variableNames) :
    ∃ rank, program.symbols.variableNames[rank]? = some (squeezed name) ∧
      program.resolve name = machine.variableBase + UInt16.ofNat rank := by
  rw [h.variableNames_eq] at hmem ⊢
  obtain ⟨rank, hrank, haddress⟩ :=
    Symbols.address?_of_variable machine.variableBase _ hmem (mem_variablesOf.1 hmem).2
  refine ⟨rank, hrank, ?_⟩
  rw [Program.resolve, Program.address?, h.linked]
  exact congrArg (Option.getD · 0) haddress

theorem length_variableNames_le (h : Assembled machine opening lines layout program) :
    program.symbols.variableNames.length ≤ opening.instructions.length +
      ((instructions lines).filterMap Instruction.symbol?).length := by
  have hsymbol : ∀ instruction : Instruction,
      instruction.squeezed.symbol? = instruction.symbol?.map squeezed := by
    intro instruction
    cases instruction with
    | compute dest comp jump => rfl
    | load address => cases address <;> rfl
  have hsqueezed : ((instructions lines).map Instruction.squeezed).filterMap Instruction.symbol? =
      ((instructions lines).filterMap Instruction.symbol?).map squeezed := by
    rw [List.filterMap_map, List.map_filterMap]
    exact congrArg (List.filterMap · _) (funext hsymbol)
  rw [h.variableNames_eq]
  refine Nat.le_trans (length_variablesOf_le _ _) ?_
  rw [List.filterMap_append, List.length_append, hsqueezed, List.length_map]
  exact Nat.add_le_add_right (List.length_filterMap_le _ _) _

/-- Variables lie above their base, unless there are too many of them. -/
theorem base_le_resolve (h : Assembled machine opening lines layout program)
    (hlength : machine.variableBase.toNat + program.symbols.variableNames.length ≤ 65536)
    (hmem : squeezed name ∈ program.symbols.variableNames) :
    machine.variableBase ≤ program.resolve name := by
  obtain ⟨rank, hrank, hresolve⟩ := h.exists_rank hmem
  have hlt := (List.getElem?_eq_some_iff.1 hrank).1
  rw [hresolve, UInt16.le_iff_toNat_le, UInt16.toNat_add, UInt16.toNat_ofNat']
  change _ ≤ (machine.variableBase.toNat + rank % 65536) % 65536
  omega

/-- Variables have the same address if and only if they have the same name. -/
theorem resolve_eq_iff (h : Assembled machine opening lines layout program)
    (hlength : program.symbols.variableNames.length ≤ 65536)
    (hname : squeezed name ∈ program.symbols.variableNames)
    (hother : squeezed other ∈ program.symbols.variableNames) :
    program.resolve name = program.resolve other ↔ squeezed name = squeezed other := by
  constructor
  · intro heq
    obtain ⟨m, hm, hresolve⟩ := h.exists_rank hname
    obtain ⟨n, hn, hresolve'⟩ := h.exists_rank hother
    have hmlt := (List.getElem?_eq_some_iff.1 hm).1
    have hnlt := (List.getElem?_eq_some_iff.1 hn).1
    rw [hresolve, hresolve', UInt16.add_right_inj, ← UInt16.toNat_inj, UInt16.toNat_ofNat',
      UInt16.toNat_ofNat'] at heq
    have hrank : m = n := by omega
    rw [hrank, hn] at hm
    exact (Option.some.inj hm).symm
  · intro heq
    rw [Program.resolve, Program.resolve, Program.address?, Program.address?, heq]

end Assembled

end Asm

end StackVm
