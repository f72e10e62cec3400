import StackVm.Proofs.Asm.Codes
import StackVm.Proofs.Asm.Variables

/-! # Two passes, one resolution

The first pass finds the labels and the second the variables, but where a symbol
leads can be said of the whole text at once: to its predefined address, else to
the number of instructions before its definition, else to a variable, which is
numbered by its first use.
-/

namespace StackVm

namespace Asm

open Text

section

variable {codes : List (List Char)} {code : List Char} {name : String}

@[simp] theorem labelNames_cons_label (name : String) (codes : List (List Char)) :
    labelNames (labelCode name :: codes) = name :: labelNames codes :=
  List.filterMap_cons_some (labelName?_eq_some_iff.2 rfl)

@[simp] theorem instructionCodes_cons_label (name : String) (codes : List (List Char)) :
    instructionCodes (labelCode name :: codes) = instructionCodes codes :=
  List.filter_cons_of_neg (by simp [head?_labelCode])

theorem labelNames_cons_code (h : code.head? ≠ some '(') :
    labelNames (code :: codes) = labelNames codes := by
  refine List.filterMap_cons_none ?_
  cases hname : labelName? code with
  | none => rfl
  | some name =>
      rw [labelName?_eq_some_iff.1 hname] at h
      exact absurd (head?_labelCode name) h

theorem instructionCodes_cons_code (h : code.head? ≠ some '(') :
    instructionCodes (code :: codes) = code :: instructionCodes codes :=
  List.filter_cons_of_pos (by simpa using h)

theorem exists_split_cons {α : Type} {x first : α} {rest : List α} {p : List α → Prop} :
    (∃ before after, first :: rest = before ++ x :: after ∧ p before) ↔
      first = x ∧ p [] ∨ ∃ before after, rest = before ++ x :: after ∧ p (first :: before) := by
  constructor
  · rintro ⟨before, after, hsplit, hp⟩
    cases before with
    | nil =>
        cases hsplit
        exact .inl ⟨rfl, hp⟩
    | cons other before =>
        cases hsplit
        exact .inr ⟨before, after, rfl, hp⟩
  · rintro (⟨rfl, hp⟩ | ⟨before, after, rfl, hp⟩)
    · exact ⟨[], rest, rfl, hp⟩
    · exact ⟨first :: before, after, rfl, hp⟩

end

/-! ## The first pass -/

namespace Layout

variable {layout next final : Layout}

/-- What the first pass asks of codes. -/
structure Admits (layout : Layout) (codes : List (List Char)) : Prop where
  closed : ∀ code ∈ codes, code.head? = some '(' → code.getLast? = some ')'
  distinct : (labelNames codes).Nodup
  fresh : ∀ name ∈ labelNames codes, layout.address? name = none
  room : layout.size + (instructionCodes codes).length ≤ maxWord

theorem admits_cons_label {name : String} {codes : List (List Char)} {address : UInt16} :
    layout.Admits (labelCode name :: codes) ↔
      layout.address? name = none ∧
        Admits { layout with labels := (name, address) :: layout.labels } codes := by
  constructor
  · intro h
    have hdistinct := h.distinct
    have hfresh := h.fresh
    have hroom := h.room
    rw [labelNames_cons_label] at hdistinct hfresh
    rw [instructionCodes_cons_label] at hroom
    obtain ⟨hname, hdistinct⟩ := List.nodup_cons.1 hdistinct
    have hnone := hfresh name List.mem_cons_self
    refine ⟨hnone, fun code hcode => h.closed code (List.mem_cons_of_mem _ hcode), hdistinct, ?_,
      hroom⟩
    intro other hother
    have hne : other ≠ name := by
      rintro rfl
      exact hname hother
    rw [address?_cons_of_none hnone, if_neg hne]
    exact hfresh other (List.mem_cons_of_mem _ hother)
  · rintro ⟨hnone, hclosed, hdistinct, hfresh, hroom⟩
    have hother : ∀ other ∈ labelNames codes, other ≠ name ∧ layout.address? other = none := by
      intro other hmem
      have haddress := hfresh other hmem
      rw [address?_cons_of_none hnone] at haddress
      split at haddress
      · cases haddress
      · next hne => exact ⟨hne, haddress⟩
    refine ⟨?_, ?_, ?_, ?_⟩
    · exact List.forall_mem_cons.2 ⟨fun _ => getLast?_labelCode name, hclosed⟩
    · rw [labelNames_cons_label]
      exact List.nodup_cons.2 ⟨fun hmem => (hother name hmem).1 rfl, hdistinct⟩
    · rw [labelNames_cons_label]
      exact List.forall_mem_cons.2 ⟨hnone, fun other hmem => (hother other hmem).2⟩
    · rwa [instructionCodes_cons_label]

theorem admits_cons_code {code : List Char} {codes : List (List Char)}
    (hcode : code.head? ≠ some '(') :
    layout.Admits (code :: codes) ↔ Admits { layout with size := layout.size + 1 } codes := by
  have hroom : layout.size + (codes.length + 1) = layout.size + 1 + codes.length := by omega
  constructor
  · rintro ⟨hclosed, hdistinct, hfresh, hroom⟩
    rw [labelNames_cons_code hcode] at hdistinct hfresh
    rw [instructionCodes_cons_code hcode, List.length_cons] at hroom
    refine ⟨fun other hother => hclosed other (List.mem_cons_of_mem _ hother), hdistinct, hfresh,
      ?_⟩
    show layout.size + 1 + _ ≤ _
    omega
  · rintro ⟨hclosed, hdistinct, hfresh, hroom⟩
    have hle : layout.size + 1 + (instructionCodes codes).length ≤ maxWord := hroom
    refine ⟨List.forall_mem_cons.2 ⟨fun h => absurd h hcode, hclosed⟩, ?_, ?_, ?_⟩
    · rwa [labelNames_cons_code hcode]
    · rwa [labelNames_cons_code hcode]
    · rw [instructionCodes_cons_code hcode, List.length_cons]
      omega

/-- The first pass goes through if and only if it can take every code into account. -/
theorem exists_addAll_eq_ok_iff {lines : List CodeLine} (hsize : layout.size ≤ maxWord) :
    (∃ final, layout.addAll lines = .ok final) ↔ layout.Admits (lines.map CodeLine.code) := by
  induction lines generalizing layout with
  | nil => exact ⟨fun _ => ⟨by simp, by simp [labelNames], by simp [labelNames], hsize⟩,
      fun _ => ⟨layout, rfl⟩⟩
  | cons line rest ih =>
      have hstep : (∃ final, layout.addAll (line :: rest) = .ok final) ↔
          ∃ next, layout.add line = .ok next ∧ ∃ final, next.addAll rest = .ok final := by
        simp only [addAll_cons_eq_ok_iff]
        constructor
        · rintro ⟨final, next, hadd, hrest⟩
          exact ⟨next, hadd, final, hrest⟩
        · rintro ⟨next, hadd, final, hrest⟩
          exact ⟨final, next, hadd, hrest⟩
      simp only [hstep, add_eq_ok_iff, List.map_cons]
      constructor
      · rintro ⟨next, ⟨name, hcode, hnone, rfl⟩ | ⟨hcode, hlt, rfl⟩, hrest⟩
        · rw [hcode, admits_cons_label]
          refine ⟨hnone, (ih ?_).1 hrest⟩
          exact hsize
        · rw [admits_cons_code hcode]
          refine (ih ?_).1 hrest
          exact hlt
      · intro h
        by_cases hhead : line.code.head? = some '('
        · obtain ⟨name, hcode⟩ :=
            exists_labelCode hhead (h.closed line.code List.mem_cons_self hhead)
          rw [hcode, admits_cons_label] at h
          refine ⟨_, .inl ⟨name, hcode, h.1, rfl⟩, (ih ?_).2 h.2⟩
          exact hsize
        · have hroom := h.room
          rw [instructionCodes_cons_code hhead, List.length_cons] at hroom
          have hlt : layout.size < maxWord := by omega
          rw [admits_cons_code hhead] at h
          refine ⟨_, .inr ⟨hhead, hlt, rfl⟩, (ih ?_).2 h⟩
          exact hlt

/-- The first pass gives every label the number of instructions before it. -/
theorem mem_labels_of_addAll {lines : List CodeLine} (h : layout.addAll lines = .ok final)
    {name : String} {address : UInt16} :
    (name, address) ∈ final.labels ↔
      (name, address) ∈ layout.labels ∨
        ∃ before after, lines.map CodeLine.code = before ++ labelCode name :: after ∧
          address = UInt16.ofNat (layout.size + (instructionCodes before).length) := by
  induction lines generalizing layout with
  | nil =>
      cases h
      simp
  | cons line rest ih =>
      obtain ⟨next, hadd, hrest⟩ := addAll_cons_eq_ok_iff.1 h
      rw [ih hrest, List.map_cons, exists_split_cons]
      rcases add_eq_ok_iff.1 hadd with ⟨other, hcode, -, rfl⟩ | ⟨hcode, -, rfl⟩
      · have hfirst : labelCode other = labelCode name ↔ name = other := by
          rw [← labelName?_eq_some_iff, labelName?_eq_some_iff.2 rfl, Option.some.injEq, eq_comm]
        simp only [List.mem_cons, Prod.mk.injEq, hcode, hfirst, instructionCodes_cons_label,
          show instructionCodes [] = [] from rfl, List.length_nil, Nat.add_zero]
        rw [or_assoc, or_left_comm]
      · have hne : line.code ≠ labelCode name := by
          intro hname
          rw [hname] at hcode
          exact hcode (head?_labelCode name)
        have hcount : ∀ before : List (List Char),
            layout.size + 1 + (instructionCodes before).length =
              layout.size + (instructionCodes (line.code :: before)).length := by
          intro before
          rw [instructionCodes_cons_code hcode, List.length_cons]
          omega
        simp only [hne, false_and, false_or, hcount]

theorem address?_eq_none_iff {name : String} :
    layout.address? name = none ↔ name ∉ (predefined ++ layout.labels).map Prod.fst := by
  have hlookup : layout.address? name = (predefined ++ layout.labels).lookup name := by
    rw [List.lookup_append, address?]
    cases predefined.lookup name <;> rfl
  rw [hlookup, List.lookup_eq_none_iff]
  simp only [bne_iff_ne, List.mem_map, not_exists, not_and]
  exact forall_congr' fun entry => forall_congr' fun _ => ⟨fun h heq => h heq.symm,
    fun h heq => h heq.symm⟩

/-- No label has the name of another symbol. -/
theorem nodup_of_addAll {lines : List CodeLine} (h : layout.addAll lines = .ok final)
    (hnodup : ((predefined ++ layout.labels).map Prod.fst).Nodup) :
    ((predefined ++ final.labels).map Prod.fst).Nodup := by
  refine addAll_keeps (p := fun layout => ((predefined ++ layout.labels).map Prod.fst).Nodup) ?_
    hnodup h
  intro line _ layout next hnodup hadd
  rcases add_eq_ok_iff.1 hadd with ⟨name, -, hnone, rfl⟩ | ⟨-, -, rfl⟩
  · rw [address?_eq_none_iff] at hnone
    rw [List.map_append] at hnone hnodup ⊢
    exact List.perm_middle.nodup_iff.2 (List.nodup_cons.2 ⟨hnone, hnodup⟩)
  · exact hnodup

end Layout

/-! ## The second pass -/

theorem map_code_instructionLines (text : String) :
    ((codeLines text).filter fun line => !line.isLabel).map CodeLine.code =
      instructionCodes (codesOf text) := by
  have hlabel : (fun line : CodeLine => !line.isLabel) =
      (fun code : List Char => decide (code.head? ≠ some '(')) ∘ CodeLine.code := by
    funext line
    by_cases h : line.code.head? = some '(' <;> simp [CodeLine.isLabel, h]
  rw [hlabel, ← List.filter_map, map_code_codeLines]
  rfl

/-- The instructions of a text, one for each code that is not a label. -/
def Reads (limit : UInt16) (codes : List (List Char)) (instructions : List Instruction) : Prop :=
  instructions.length = codes.length ∧
    ∀ (index : Nat) (code : List Char), codes[index]? = some code →
      ∃ instruction, instructions[index]? = some instruction ∧ Says limit code instruction

theorem mapM_read_eq_ok_iff {limit : UInt16} {lines : List CodeLine}
    {instructions : List Instruction} :
    lines.mapM (CodeLine.read limit) = .ok instructions ↔
      Reads limit (lines.map CodeLine.code) instructions := by
  rw [mapM_eq_ok_iff]
  constructor
  · intro h
    refine ⟨by simpa using (congrArg List.length h).symm, ?_⟩
    intro index code hcode
    rw [List.getElem?_map] at hcode
    obtain ⟨line, hline, rfl⟩ := Option.map_eq_some_iff.1 hcode
    have hread := congrArg (·[index]?) h
    simp only [List.getElem?_map, hline, Option.map_some] at hread
    obtain ⟨instruction, hinstruction, hok⟩ := Option.map_eq_some_iff.1 hread.symm
    have hmeaning := readInstruction_eq_ok_iff.1 (CodeLine.read_eq_ok_iff.1 hok.symm)
    exact ⟨instruction, hinstruction, hmeaning⟩
  · rintro ⟨hlength, hmeaning⟩
    rw [List.length_map] at hlength
    refine List.ext_getElem? fun index => ?_
    rw [List.getElem?_map, List.getElem?_map]
    cases hline : lines[index]? with
    | none =>
        rw [List.getElem?_eq_none_iff, ← hlength, ← List.getElem?_eq_none_iff] at hline
        rw [hline]
        rfl
    | some line =>
        obtain ⟨instruction, hinstruction, hline⟩ :=
          hmeaning index line.code (by rw [List.getElem?_map, hline]; rfl)
        have hread := CodeLine.read_eq_ok_iff.2 (readInstruction_eq_ok_iff.2 hline)
        rw [hinstruction, Option.map_some, Option.map_some, hread]

theorem assemble_eq_ok_iff {machine : Machine} {text : String} {program : Program} :
    assemble machine text = .ok program ↔
      ∃ layout instructions, Layout.addAll {} (codeLines text) = .ok layout ∧
        Reads machine.maxConstant (instructionCodes (codesOf text)) instructions ∧
        program = link machine layout instructions := by
  rw [assemble_eq]
  simp only [bind_eq_ok_iff, mapM_read_eq_ok_iff, map_code_instructionLines]
  constructor
  · rintro ⟨layout, hlayout, instructions, hreads, ⟨⟩⟩
    exact ⟨layout, instructions, hlayout, hreads, rfl⟩
  · rintro ⟨layout, instructions, hlayout, hreads, rfl⟩
    exact ⟨layout, hlayout, instructions, hreads, rfl⟩

theorem exists_reads_iff {limit : UInt16} {codes : List (List Char)} :
    (∃ instructions, Reads limit codes instructions) ↔
      ∀ code ∈ codes, ∃ instruction, Says limit code instruction := by
  constructor
  · rintro ⟨instructions, -, hmeaning⟩ code hcode
    obtain ⟨index, hindex⟩ := List.mem_iff_getElem?.1 hcode
    obtain ⟨instruction, -, h⟩ := hmeaning index code hindex
    exact ⟨instruction, h⟩
  · intro h
    induction codes with
    | nil => exact ⟨[], rfl, nofun⟩
    | cons code codes ih =>
        obtain ⟨instruction, hcode⟩ := h code List.mem_cons_self
        obtain ⟨instructions, hlength, hcodes⟩ :=
          ih fun other hother => h other (List.mem_cons_of_mem _ hother)
        refine ⟨instruction :: instructions, congrArg (· + 1) hlength, ?_⟩
        intro index other hother
        cases index with
        | zero =>
            cases hother
            exact ⟨instruction, rfl, hcode⟩
        | succ index => exact hcodes index other hother

/-! ## Symbols -/

def loadedSymbol? : List Char → Option String
  | '@' :: operand => if startsWithDigit operand then none else some (String.ofList operand)
  | _ => none

/-- The uses of symbols that are neither predefined nor labels. -/
def freeSymbols (codes : List (List Char)) : List String :=
  (codes.filterMap loadedSymbol?).filter fun name =>
    name ∉ predefined.map Prod.fst ++ labelNames codes

theorem Says.symbol?_eq {limit : UInt16} {code : List Char} {instruction : Instruction}
    (h : Says limit code instruction) : instruction.symbol? = loadedSymbol? code := by
  cases h with
  | constant hdigit => simp [Instruction.symbol?, loadedSymbol?, hdigit]
  | symbol hdigit => simp [Instruction.symbol?, loadedSymbol?, hdigit]
  | compute hspells hdest hcomp =>
      have hhead := hspells.head?_ne (Dest.all_isPart_of_ofText? hdest)
        (Comp.all_isPart_of_ofText? hcomp)
      unfold loadedSymbol?
      split
      · exact absurd rfl hhead
      · rfl

theorem Reads.filterMap_symbol? {limit : UInt16} {codes : List (List Char)}
    {instructions : List Instruction} (h : Reads limit codes instructions) :
    instructions.filterMap Instruction.symbol? = codes.filterMap loadedSymbol? := by
  have hmap : instructions.map Instruction.symbol? = codes.map loadedSymbol? := by
    refine List.ext_getElem? fun index => ?_
    rw [List.getElem?_map, List.getElem?_map]
    cases hcode : codes[index]? with
    | none =>
        rw [List.getElem?_eq_none_iff, ← h.1, ← List.getElem?_eq_none_iff] at hcode
        rw [hcode]
        rfl
    | some code =>
        obtain ⟨instruction, hinstruction, hmeaning⟩ := h.2 index code hcode
        rw [hinstruction, Option.map_some, Option.map_some, hmeaning.symbol?_eq]
  have hid : ∀ {α : Type} (f : α → Option String) (xs : List α),
      xs.filterMap f = (xs.map f).filterMap id := by
    intro α f xs
    rw [List.filterMap_map]
    rfl
  rw [hid, hmap, ← hid]

theorem filterMap_loadedSymbol?_instructionCodes (codes : List (List Char)) :
    (instructionCodes codes).filterMap loadedSymbol? = codes.filterMap loadedSymbol? := by
  rw [instructionCodes, List.filterMap_filter]
  refine congrArg (List.filterMap · codes) (funext fun code => ?_)
  have hlabel : code.head? = some '(' → loadedSymbol? code = none := by
    intro hhead
    cases code with
    | nil => cases hhead
    | cons c rest =>
        cases hhead
        rfl
  by_cases hhead : code.head? = some '('
  · simp [hhead, hlabel hhead]
  · simp [hhead]

theorem lookup_eq_some_iff_mem {α β : Type} [BEq α] [LawfulBEq α] {entries : List (α × β)}
    {key : α} {value : β} (hnodup : (entries.map Prod.fst).Nodup) :
    entries.lookup key = some value ↔ (key, value) ∈ entries := by
  induction entries with
  | nil => simp
  | cons entry rest ih =>
      obtain ⟨first, firstValue⟩ := entry
      obtain ⟨hfirst, hrest⟩ := List.nodup_cons.1 hnodup
      rw [List.lookup_cons, List.mem_cons, Prod.mk.injEq]
      by_cases hkey : key = first
      · subst hkey
        have hnot : (key, value) ∉ rest := fun hmem => hfirst (List.mem_map.2 ⟨_, hmem, rfl⟩)
        simp [hnot, eq_comm]
      · simp [beq_false_of_ne hkey, hkey, ih hrest]

theorem nodup_eraseDups {α : Type} [BEq α] [LawfulBEq α] (values : List α) :
    values.eraseDups.Nodup := by
  induction hlength : values.length using Nat.strongRecOn generalizing values with
  | ind length ih =>
      subst hlength
      cases values with
      | nil => exact List.nodup_nil
      | cons value rest =>
          have hfilter := List.length_filter_le (fun other => !other == value) rest
          rw [List.eraseDups_cons, List.nodup_cons]
          exact ⟨by simp, ih _ (Nat.lt_succ_of_le hfilter) _ rfl⟩

/-- Without its repetitions, a list has a value where the different values before it end. -/
theorem getElem?_eraseDups_eq_some_iff {α : Type} [BEq α] [LawfulBEq α] {values : List α}
    {value : α} {rank : Nat} :
    values.eraseDups[rank]? = some value ↔
      ∃ before after, values = before ++ value :: after ∧ value ∉ before ∧
        rank = before.eraseDups.length := by
  have hplace : ∀ {before after : List α}, value ∉ before →
      (before ++ value :: after).eraseDups[before.eraseDups.length]? = some value := by
    intro before after hnew
    have hremove : (value :: after).removeAll before = value :: after.removeAll before := by
      simp [List.cons_removeAll, hnew]
    rw [List.eraseDups_append, hremove, List.eraseDups_cons,
      List.getElem?_append_right (Nat.le_refl _), Nat.sub_self]
    rfl
  constructor
  · intro h
    have hmem : value ∈ values := List.mem_eraseDups.1 (List.mem_of_getElem? h)
    obtain ⟨before, after, rfl, hnew⟩ := List.eq_append_cons_of_mem hmem
    refine ⟨before, after, rfl, hnew, ?_⟩
    have hlt := (List.getElem?_eq_some_iff.1 h).1
    exact (List.getElem?_inj hlt (nodup_eraseDups _)).1 (h.trans (hplace hnew).symm)
  · rintro ⟨before, after, rfl, hnew, rfl⟩
    exact hplace hnew

namespace Symbols

theorem map_fst_own (symbols : Symbols) :
    symbols.own.map Prod.fst = symbols.labels.map Prod.fst ++ symbols.variableNames := by
  rw [own, List.map_append]
  rfl

theorem listing_perm (symbols : Symbols) :
    (symbols.listing true).Perm (predefined ++ symbols.own) :=
  List.mergeSort_perm _ _

end Symbols

/-! ## Resolution, said of the whole text -/

/-- Where a symbol leads. -/
inductive Resolves (machine : Machine) (codes : List (List Char)) : String → UInt16 → Prop where
  | predefined {name : String} {address : UInt16} (hmem : (name, address) ∈ predefined) :
      Resolves machine codes name address
  | label {name : String} {address : UInt16} {before after : List (List Char)}
      (hdefined : codes = before ++ labelCode name :: after)
      (haddress : address.toNat = (instructionCodes before).length) :
      Resolves machine codes name address
  | free {name : String} {address : UInt16} {before after : List String}
      (hused : freeSymbols codes = before ++ name :: after) (hfirst : name ∉ before)
      (haddress : address.toNat = machine.variableBase.toNat + before.eraseDups.length) :
      Resolves machine codes name address

section

variable {machine : Machine} {text : String} {layout : Layout} {instructions : List Instruction}

theorem mem_labels_iff (hlayout : Layout.addAll {} (codeLines text) = .ok layout) {name : String}
    {address : UInt16} :
    (name, address) ∈ layout.labels ↔
      ∃ before after, codesOf text = before ++ labelCode name :: after ∧
        address = UInt16.ofNat (instructionCodes before).length := by
  rw [Layout.mem_labels_of_addAll hlayout, map_code_codeLines]
  simp

theorem address?_eq_none_iff_not_mem (hlayout : Layout.addAll {} (codeLines text) = .ok layout)
    {name : String} :
    layout.address? name = none ↔
      name ∉ predefined.map Prod.fst ++ labelNames (codesOf text) := by
  have hlabels : name ∈ layout.labels.map Prod.fst ↔ name ∈ labelNames (codesOf text) := by
    rw [mem_labelNames, List.mem_map]
    constructor
    · rintro ⟨⟨other, address⟩, hmem, rfl⟩
      obtain ⟨before, after, hcodes, -⟩ := (mem_labels_iff hlayout).1 hmem
      rw [hcodes]
      exact List.mem_append_right _ List.mem_cons_self
    · intro hmem
      obtain ⟨before, after, hcodes⟩ := List.append_of_mem hmem
      exact ⟨_, (mem_labels_iff hlayout).2 ⟨before, after, hcodes, rfl⟩, rfl⟩
  rw [Layout.address?_eq_none_iff, List.map_append, List.mem_append, List.mem_append, hlabels]

theorem variablesOf_eq (hlayout : Layout.addAll {} (codeLines text) = .ok layout)
    (hreads : Reads machine.maxConstant (instructionCodes (codesOf text)) instructions) :
    variablesOf layout instructions = (freeSymbols (codesOf text)).eraseDups := by
  have hfree : (fun name => (layout.address? name).isNone) = fun name =>
      decide (name ∉ predefined.map Prod.fst ++ labelNames (codesOf text)) := by
    funext name
    rw [Bool.eq_iff_iff, Option.isNone_iff_eq_none, decide_eq_true_iff,
      address?_eq_none_iff_not_mem hlayout]
  rw [variablesOf, freeSymbols, hreads.filterMap_symbol?, filterMap_loadedSymbol?_instructionCodes,
    hfree]

/-- No two symbols of a program have the same name. -/
theorem nodup_predefined_own (hlayout : Layout.addAll {} (codeLines text) = .ok layout) :
    ((predefined ++ (link machine layout instructions).symbols.own).map Prod.fst).Nodup := by
  have hlabels : ((predefined ++ layout.labels).map Prod.fst).Nodup :=
    Layout.nodup_of_addAll hlayout (by decide)
  have hnames : (link machine layout instructions).symbols.variableNames =
      variablesOf layout instructions := map_fst_numbered _ _
  rw [List.map_append, Symbols.map_fst_own, ← List.append_assoc, ← List.map_append, hnames,
    List.nodup_append]
  refine ⟨hlabels, nodup_eraseDups _, ?_⟩
  rintro name hknown other hfree rfl
  exact Layout.address?_eq_none_iff.1 (mem_variablesOf.1 hfree).2 hknown

theorem length_instructionCodes_le (hlayout : Layout.addAll {} (codeLines text) = .ok layout) :
    (instructionCodes (codesOf text)).length ≤ maxWord := by
  have hadmits := (Layout.exists_addAll_eq_ok_iff (Nat.zero_le _)).1 ⟨layout, hlayout⟩
  have hroom := hadmits.room
  rw [map_code_codeLines] at hroom
  omega

theorem mem_predefined_own_iff (hlayout : Layout.addAll {} (codeLines text) = .ok layout)
    (hreads : Reads machine.maxConstant (instructionCodes (codesOf text)) instructions)
    (hroom : machine.variableBase.toNat + (freeSymbols (codesOf text)).eraseDups.length ≤ maxWord)
    {name : String} {address : UInt16} :
    (name, address) ∈ predefined ++ (link machine layout instructions).symbols.own ↔
      Resolves machine (codesOf text) name address := by
  have hown : (link machine layout instructions).symbols.own = layout.labels ++
      numbered machine.variableBase (freeSymbols (codesOf text)).eraseDups := by
    rw [← variablesOf_eq hlayout hreads]
    rfl
  have hlabel : ∀ {before after : List (List Char)},
      codesOf text = before ++ labelCode name :: after →
      (address = UInt16.ofNat (instructionCodes before).length ↔
        address.toNat = (instructionCodes before).length) := by
    intro before after hcodes
    have hlength := length_instructionCodes_le hlayout
    rw [hcodes, instructionCodes, List.filter_append, List.length_append] at hlength
    rw [← UInt16.toNat_inj, UInt16.toNat_ofNat_of_lt']
    exact Nat.lt_succ_of_le (Nat.le_trans (Nat.le_add_right _ _) hlength)
  have hvariable : ∀ {rank : Nat}, rank ≤ (freeSymbols (codesOf text)).eraseDups.length →
      (address = machine.variableBase + UInt16.ofNat rank ↔
        address.toNat = machine.variableBase.toNat + rank) := by
    intro rank hrank
    have hsum : (machine.variableBase.toNat + rank % 2 ^ 16) % 2 ^ 16 =
        machine.variableBase.toNat + rank := by
      rw [maxWord] at hroom
      omega
    rw [← UInt16.toNat_inj, UInt16.toNat_add, UInt16.toNat_ofNat', hsum]
  rw [List.mem_append, hown, List.mem_append, mem_numbered]
  constructor
  · rintro (hmem | hmem | ⟨rank, hget, haddress⟩)
    · exact .predefined hmem
    · obtain ⟨before, after, hcodes, haddress⟩ := (mem_labels_iff hlayout).1 hmem
      exact .label hcodes ((hlabel hcodes).1 haddress)
    · have hlt := (List.getElem?_eq_some_iff.1 hget).1
      obtain ⟨before, after, hused, hfirst, rfl⟩ := getElem?_eraseDups_eq_some_iff.1 hget
      exact .free hused hfirst ((hvariable (Nat.le_of_lt hlt)).1 haddress)
  · intro h
    cases h with
    | predefined hmem => exact .inl hmem
    | label hcodes haddress =>
        exact .inr (.inl ((mem_labels_iff hlayout).2 ⟨_, _, hcodes, (hlabel hcodes).2 haddress⟩))
    | free hused hfirst haddress =>
        have hget := getElem?_eraseDups_eq_some_iff.2 ⟨_, _, hused, hfirst, rfl⟩
        have hlt := (List.getElem?_eq_some_iff.1 hget).1
        exact .inr (.inr ⟨_, hget, (hvariable (Nat.le_of_lt hlt)).2 haddress⟩)

end

/-- What the assembler asks of codes. -/
structure WellFormed (machine : Machine) (codes : List (List Char)) : Prop where
  closed : ∀ code ∈ codes, code.head? = some '(' → code.getLast? = some ')'
  distinct : (labelNames codes).Nodup
  fresh : ∀ name ∈ labelNames codes, name ∉ predefined.map Prod.fst
  room : (instructionCodes codes).length ≤ maxWord
  constants : ∀ operand, '@' :: operand ∈ codes → startsWithDigit operand = true →
    operand.all Char.isDigit = true ∧ decimalValue operand ≤ machine.maxConstant.toNat
  computations : ∀ code ∈ instructionCodes codes, code.head? ≠ some '@' → IsComputation code

theorem mem_instructionCodes {codes : List (List Char)} {code : List Char} :
    code ∈ instructionCodes codes ↔ code ∈ codes ∧ code.head? ≠ some '(' := by
  rw [instructionCodes, List.mem_filter, decide_eq_true_iff]

theorem wellFormed_iff {machine : Machine} {codes : List (List Char)} :
    WellFormed machine codes ↔
      Layout.Admits {} codes ∧
        ∀ code ∈ instructionCodes codes, ∃ instruction,
          Says machine.maxConstant code instruction := by
  have hempty : ∀ name, Layout.address? {} name = none ↔ name ∉ predefined.map Prod.fst := by
    intro name
    rw [Layout.address?_eq_none_iff, List.append_nil]
  have hload : ∀ operand, '@' :: operand ∈ codes ↔ '@' :: operand ∈ instructionCodes codes := by
    intro operand
    simp [mem_instructionCodes]
  constructor
  · intro h
    refine ⟨⟨h.closed, h.distinct, fun name hname => (hempty name).2 (h.fresh name hname), ?_⟩, ?_⟩
    · simpa using h.room
    · intro code hcode
      by_cases hat : code.head? = some '@'
      · obtain ⟨operand, rfl⟩ := List.head?_eq_some_iff.1 hat
        exact exists_says_load_iff.2 (h.constants operand ((hload operand).2 hcode))
      · exact (exists_says_iff_isComputation hat).2 (h.computations code hcode hat)
  · rintro ⟨hadmits, hmeaning⟩
    exact
      { closed := hadmits.closed
        distinct := hadmits.distinct
        fresh := fun name hname => (hempty name).1 (hadmits.fresh name hname)
        room := by simpa using hadmits.room
        constants := fun operand hmem =>
          exists_says_load_iff.1 (hmeaning _ ((hload operand).1 hmem))
        computations := fun code hcode hat =>
          (exists_says_iff_isComputation hat).1 (hmeaning code hcode) }

/-- The word of a code. -/
inductive Encodes (machine : Machine) (codes : List (List Char)) : List Char → UInt16 → Prop where
  | constant {operand : List Char} {word : UInt16} (hdigit : startsWithDigit operand = true)
      (hvalue : word.toNat = decimalValue operand) :
      Encodes machine codes ('@' :: operand) word
  | symbol {operand : List Char} {word : UInt16} (hdigit : startsWithDigit operand = false)
      (hresolves : Resolves machine codes (String.ofList operand) word) :
      Encodes machine codes ('@' :: operand) word
  | compute {code : List Char} {dest comp jump : String} {d : Dest} {c : Comp} {j : Jump}
      (hspells : Spells dest comp jump code) (hdest : Dest.ofText? dest = some d)
      (hcomp : Comp.ofText? comp = some c) (hjump : Jump.ofText? jump = some j) :
      Encodes machine codes code
        ((0xe000 : UInt16) ||| (c.bits <<< 6) ||| (d.bits <<< 3) ||| j.bits)

/-- A program whose words and symbols are those of its codes. -/
structure Resolved (machine : Machine) (codes : List (List Char)) (program : Program) : Prop where
  length_words : program.words.length = (instructionCodes codes).length
  words : ∀ (index : Nat) (code : List Char), (instructionCodes codes)[index]? = some code →
    ∃ word, program.words[index]? = some word ∧ Encodes machine codes code word
  address? : ∀ name address,
    program.symbols.address? name = some address ↔ Resolves machine codes name address
  listing : ∀ name address,
    (name, address) ∈ program.symbols.listing true ↔ Resolves machine codes name address
  nodup_listing : ((program.symbols.listing true).map Prod.fst).Nodup

theorem getElem?_words_link (machine : Machine) (layout : Layout)
    (instructions : List Instruction) (index : Nat) :
    (link machine layout instructions).words[index]? = instructions[index]?.map (Instruction.word
      fun name => ((link machine layout instructions).symbols.address? name).getD 0) :=
  List.getElem?_map

theorem exists_address?_link {machine : Machine} {layout : Layout}
    {instructions : List Instruction} {name : String}
    (hmem : .load (.symbol name) ∈ instructions) :
    ∃ address, (link machine layout instructions).symbols.address? name = some address := by
  cases haddress : layout.address? name with
  | some address => exact ⟨address, Symbols.address?_of_layout haddress⟩
  | none =>
      have hfree : name ∈ variablesOf layout instructions :=
        mem_variablesOf.2 ⟨List.mem_filterMap.2 ⟨_, hmem, rfl⟩, haddress⟩
      obtain ⟨rank, -, hrank⟩ :=
        Symbols.address?_of_variable machine.variableBase _ hfree haddress
      exact ⟨_, hrank⟩

theorem resolved_link {machine : Machine} {text : String} {layout : Layout}
    {instructions : List Instruction} (hlayout : Layout.addAll {} (codeLines text) = .ok layout)
    (hreads : Reads machine.maxConstant (instructionCodes (codesOf text)) instructions)
    (hroom : machine.variableBase.toNat + (freeSymbols (codesOf text)).eraseDups.length ≤
      maxWord) :
    Resolved machine (codesOf text) (link machine layout instructions) := by
  have hnodup : ((predefined ++ (link machine layout instructions).symbols.own).map
      Prod.fst).Nodup := nodup_predefined_own hlayout
  have hperm := (link machine layout instructions).symbols.listing_perm
  have hresolves : ∀ name address,
      (link machine layout instructions).symbols.address? name = some address ↔
        Resolves machine (codesOf text) name address := by
    intro name address
    rw [Symbols.address?_eq_lookup, lookup_eq_some_iff_mem hnodup,
      mem_predefined_own_iff hlayout hreads hroom]
  refine ⟨?_, ?_, hresolves, ?_, (hperm.map Prod.fst).nodup_iff.2 hnodup⟩
  · exact (List.length_map _).trans hreads.1
  · intro index code hcode
    obtain ⟨instruction, hinstruction, hmeaning⟩ := hreads.2 index code hcode
    have hword := getElem?_words_link machine layout instructions index
    rw [hinstruction] at hword
    refine ⟨_, hword, ?_⟩
    cases hmeaning with
    | constant hdigit hread _ => exact .constant hdigit (readWord?_eq_some_iff.1 hread).2
    | symbol hdigit =>
        obtain ⟨address, haddress⟩ :=
          exists_address?_link (List.mem_of_getElem? hinstruction)
        refine .symbol hdigit ((hresolves _ _).1 ?_)
        rw [haddress, Instruction.word, haddress]
        rfl
    | compute hspells hdest hcomp hjump => exact .compute hspells hdest hcomp hjump
  · intro name address
    rw [hperm.mem_iff, mem_predefined_own_iff hlayout hreads hroom]

theorem exists_assemble_eq_ok_iff {machine : Machine} {text : String} :
    (∃ program, assemble machine text = .ok program) ↔ WellFormed machine (codesOf text) := by
  rw [wellFormed_iff, ← map_code_codeLines, ← Layout.exists_addAll_eq_ok_iff (Nat.zero_le _),
    map_code_codeLines, ← exists_reads_iff]
  simp only [assemble_eq_ok_iff]
  constructor
  · rintro ⟨program, layout, instructions, hlayout, hreads, -⟩
    exact ⟨⟨layout, hlayout⟩, ⟨instructions, hreads⟩⟩
  · rintro ⟨⟨layout, hlayout⟩, ⟨instructions, hreads⟩⟩
    exact ⟨_, layout, instructions, hlayout, hreads, rfl⟩

theorem length_words_of_assemble {machine : Machine} {text : String} {program : Program}
    (h : assemble machine text = .ok program) :
    program.words.length = (instructionCodes (codesOf text)).length := by
  obtain ⟨layout, instructions, -, hreads, rfl⟩ := assemble_eq_ok_iff.1 h
  exact (List.length_map _).trans hreads.1

theorem resolved_of_assemble {machine : Machine} {text : String} {program : Program}
    (hroom : machine.variableBase.toNat + (freeSymbols (codesOf text)).eraseDups.length ≤ maxWord)
    (h : assemble machine text = .ok program) : Resolved machine (codesOf text) program := by
  obtain ⟨layout, instructions, hlayout, hreads, rfl⟩ := assemble_eq_ok_iff.1 h
  exact resolved_link hlayout hreads hroom

/-- A text is assembled if and only if its codes are well formed, and then its words and symbols
are those that its codes say. -/
theorem assemble_exact (machine : Machine) (text : String)
    (hroom : machine.variableBase.toNat + (freeSymbols (codesOf text)).eraseDups.length ≤
      maxWord) :
    ((∃ program, assemble machine text = .ok program) ↔ WellFormed machine (codesOf text)) ∧
      ∀ program, assemble machine text = .ok program →
        Resolved machine (codesOf text) program :=
  ⟨exists_assemble_eq_ok_iff, fun _ h => resolved_of_assemble hroom h⟩

namespace Sample

/-- Two variables, and a label that is used before and after its definition. -/
def summing : String :=
  "@END // done\nD;JEQ\n@sum\nM = D + M\n@i\nDM=M-1\n(END)\n@END\n0;JMP\n"

theorem exact_summing :
    Machine.hack.variableBase.toNat + (freeSymbols (codesOf summing)).eraseDups.length ≤ maxWord ∧
      ∃ program, assemble Machine.hack summing = .ok program ∧
        Resolved Machine.hack (codesOf summing) program := by
  have hroom : Machine.hack.variableBase.toNat +
      (freeSymbols (codesOf summing)).eraseDups.length ≤ maxWord := by
    decide +kernel
  have hok : (assemble Machine.hack summing).toOption.isSome = true := by
    decide +kernel
  cases h : assemble Machine.hack summing with
  | error fault =>
      rw [h] at hok
      cases hok
  | ok program =>
      exact ⟨hroom, program, rfl, (assemble_exact Machine.hack summing hroom).2 program h⟩

end Sample

end Asm

end StackVm
