import StackVm.Proofs.Assembling
import StackVm.Proofs.Cpu.Halting

/-! # Where compiled programs spin

The processor takes two words for an endless loop: a load of their own address,
and a jump that nothing is computed for.  In compiled code the instruction after
a load belongs to the same command, so the two words are a jump that one command
makes: a `goto`, a call, the bootstrap, or the jump over the second half of a
comparison.  All but the first lead out of the code that they stand in.
-/

namespace StackVm

open Asm

/-- Whether a command has no instructions. -/
def Command.isSilent : Command → Bool
  | .label _ => true
  | .function _ locals => locals == 0
  | _ => false

/-! ## Jumps in code -/

namespace Code

/-- Whether code begins with a computation that stores its value or may fail to jump. -/
def continues : Code → Bool
  | .code (.compute dest _ jump) :: _ => dest ≠ {} || jump ≠ .always
  | _ => false

/-- The loads that no such computation follows, in code that stands at an address. -/
def leaps (address : Nat) : Code → List (Nat × Address)
  | [] => []
  | .code (.load target) :: rest =>
      if continues rest then leaps (address + 1) rest
      else (address, target) :: leaps (address + 1) rest
  | .code (.compute _ _ _) :: rest => leaps (address + 1) rest
  | .label _ :: rest => leaps address rest
  | .comment _ :: rest => leaps address rest

theorem leaps_push (address : Nat) (place : Place) : leaps address (push place) = [] := by
  cases place <;> rfl

theorem leaps_pop (address : Nat) (scratch : String) (place : Place) :
    leaps address (pop scratch place) = [] := by
  cases place <;> rfl

/-- Of the two jumps of a comparison, the one over its second half is made always. -/
theorem leaps_comparison {condition : Jump} (h : condition ≠ .always) (address : Nat)
    (trueLabel endLabel : String) :
    leaps address (comparison condition trueLabel endLabel) =
      [(address + 10, .symbol endLabel)] := by
  cases condition with
  | always => exact absurd rfl h
  | _ => rfl

/-- A return jumps to an address from memory. -/
theorem leaps_ret (address : Nat) (popScratch frame returnAddress : String) :
    leaps address (ret popScratch frame returnAddress) = [] := rfl

theorem leaps_call (address : Nat) (returnLabel name : String) (args : UInt16) :
    leaps address (call returnLabel name args) = [(address + 40, .symbol name)] := rfl

/-- Locals are set without a jump. -/
theorem leaps_zeros (address count : Nat) : leaps address (zeros count) = [] := by
  induction count generalizing address with
  | zero => rfl
  | succ count ih =>
      rw [zeros_succ]
      exact ih (address + 6)

theorem leaps_function (address : Nat) (name : String) (locals : Nat) :
    leaps address (function name locals) = [] :=
  leaps_zeros address locals

theorem size_zeros (count : Nat) : Code.size (zeros count) = count * 6 := by
  induction count with
  | zero => rfl
  | succ count ih =>
      rw [zeros_succ, size_append, ih, Nat.succ_mul, Nat.add_comm]
      rfl

end Code

namespace Cpu

variable {resolve : String → UInt16} {dest : Dest} {comp : Comp} {jump : Jump}

theorem JumpsOnly.of_word (h : JumpsOnly ((Instruction.compute dest comp jump).word resolve)) :
    dest = {} ∧ jump = .always := by
  have hholds : ∀ out, jump.holds out = true := by
    intro out
    rw [← jumps_word resolve dest comp jump out]
    exact jumps_of_all_bits h.always out
  constructor
  · have ha : clear _ 0x0020 = true := clear_of_clear h.stores (by decide)
    have hd : clear _ 0x0010 = true := clear_of_clear h.stores (by decide)
    have hm := h.writesMemory
    rw [clear_word_a, Bool.not_eq_true'] at ha
    rw [clear_word_d, Bool.not_eq_true'] at hd
    rw [writesMemory_word] at hm
    rw [Dest.mk.injEq]
    exact ⟨ha, hd, hm⟩
  · cases jump with
    | always => rfl
    | eq | le => exact absurd (hholds 1) (by decide)
    | ge => exact absurd (hholds 0x8000) (by decide)
    | never | gt | lt | ne => exact absurd (hholds 0) (by decide)

theorem jumpsOnly_word (resolve : String → UInt16) :
    JumpsOnly ((Instruction.compute {} .zero .always).word resolve) := by
  have hword : (Instruction.compute {} .zero .always).word resolve = 0xea87 := rfl
  rw [hword]
  exact ⟨by decide, by decide, by decide⟩

end Cpu

/-- Two words of placed code that the processor may spin in are a load and the jump after it. -/
theorem Asm.Placed.exists_leap {program : Program} {code : Code} {address pc : Nat}
    {target jump : UInt16} (hplaced : Placed program address code) (hfirst : address ≤ pc)
    (hlast : pc < address + Code.size code) (htarget : program.words[pc]? = some target)
    (hload : target < 0x8000) (hjump : program.words[pc + 1]? = some jump)
    (honly : Cpu.JumpsOnly jump) :
    ∃ found, (pc, found) ∈ Code.leaps address code ∧
      (Instruction.load found).word program.resolve = target := by
  induction code generalizing address with
  | nil =>
      rw [Code.size_nil] at hlast
      omega
  | cons line rest ih =>
      cases line with
      | comment text => exact ih hplaced hfirst hlast
      | label name => exact ih hplaced.2 hfirst hlast
      | code instruction =>
          obtain ⟨hword, hrest⟩ := hplaced
          rw [Code.size_code] at hlast
          cases instruction with
          | compute dest comp jump =>
              have hne : address ≠ pc := by
                rintro rfl
                rw [hword] at htarget
                cases htarget
                have hcompute := Cpu.isCompute_word program.resolve dest comp jump
                rw [Cpu.isCompute_eq_false_iff.2 hload] at hcompute
                cases hcompute
              exact ih hrest (by omega) (by omega)
          | load found =>
              by_cases hpc : address = pc
              · subst hpc
                rw [hword] at htarget
                have hcontinues : Code.continues rest = false := by
                  unfold Code.continues
                  split
                  · next dest comp condition more =>
                      obtain ⟨hnext, -⟩ := hrest
                      rw [hnext] at hjump
                      cases hjump
                      obtain ⟨rfl, rfl⟩ := honly.of_word
                      rfl
                  · rfl
                refine ⟨found, ?_, Option.some.inj htarget⟩
                rw [Code.leaps, hcontinues]
                exact List.mem_cons_self
              · obtain ⟨other, hother, hvalue⟩ := ih hrest (by omega) (by omega)
                refine ⟨other, ?_, hvalue⟩
                unfold Code.leaps
                split
                · exact hother
                · exact List.mem_cons_of_mem _ hother

namespace Lowering.Lowers

variable {lowering : Lowering} {command : Command} {code : Code} {address pc : Nat}
  {target : Address}

/-- A jump in the code of a command is a `goto`, a call or the jump to the end of a comparison. -/
theorem mem_leaps_cases (h : lowering.Lowers command code)
    (hleap : (pc, target) ∈ Code.leaps address code) :
    (∃ name, command = .goto name ∧ pc = address ∧
        target = .symbol (lowering.scopedLabel name)) ∨
      (∃ name args, command = .call name args ∧ address < pc ∧ target = .symbol name) ∨
      ∃ label before, target = .symbol label ∧ code = before ++ [.label label] := by
  cases h with
  | arith op =>
      have hcomparison : ∀ condition trueLabel endLabel, condition ≠ Jump.always →
          (pc, target) ∈ Code.leaps address (Code.comparison condition trueLabel endLabel) →
          ∃ label before, target = .symbol label ∧
            Code.comparison condition trueLabel endLabel = before ++ [.label label] := by
        intro condition trueLabel endLabel hne hmem
        rw [Code.leaps_comparison hne, List.mem_singleton] at hmem
        cases hmem
        exact ⟨endLabel, _, rfl, rfl⟩
      cases op with
      | eq | gt | lt => exact .inr (.inr (hcomparison _ _ _ (by decide) hleap))
      | _ => cases hleap
  | push _ =>
      rw [Code.leaps_push] at hleap
      cases hleap
  | pop _ =>
      rw [Code.leaps_pop] at hleap
      cases hleap
  | label name => cases hleap
  | goto name =>
      cases List.mem_singleton.1 hleap
      exact .inl ⟨name, rfl, rfl, rfl⟩
  | ifGoto name => cases hleap
  | function name locals =>
      rw [Code.leaps_function] at hleap
      cases hleap
  | @call name args _ =>
      rw [Code.leaps_call, List.mem_singleton] at hleap
      cases hleap
      exact .inr (.inl ⟨name, args, rfl, by omega, rfl⟩)
  | ret =>
      rw [Code.leaps_ret] at hleap
      cases hleap

theorem size_eq_zero_iff (h : lowering.Lowers command code) :
    Code.size code = 0 ↔ command.isSilent = true := by
  cases h with
  | arith op => cases op <;> exact ⟨nofun, nofun⟩
  | @push segment index place _ => cases place <;> exact ⟨nofun, nofun⟩
  | @pop segment index place _ => cases place <;> exact ⟨nofun, nofun⟩
  | label name => exact ⟨fun _ => rfl, fun _ => rfl⟩
  | function name locals =>
      have hsize : Code.size (Code.function name locals.toNat) = locals.toNat * 6 :=
        Code.size_zeros locals.toNat
      rw [hsize, Command.isSilent, beq_iff_eq, ← UInt16.toNat_inj]
      change locals.toNat * 6 = 0 ↔ locals.toNat = 0
      omega
  | goto name | ifGoto name | call name | ret => exact ⟨nofun, nofun⟩

end Lowering.Lowers

/-! ## Addresses of commands -/

namespace Options

variable {options : Options} {units : List SourceUnit} {program : Program}

theorem commandAddress_mono {first last : Nat} (h : first ≤ last) :
    options.commandAddress units program first ≤ options.commandAddress units program last := by
  have hsplit : (options.commandBlocks units).drop first =
      ((options.commandBlocks units).drop first).take (last - first) ++
        (options.commandBlocks units).drop last := by
    conv => lhs; rw [← List.take_append_drop (last - first) ((options.commandBlocks units).drop first)]
    rw [List.drop_drop, Nat.add_sub_cancel' h]
  unfold commandAddress
  rw [hsplit, List.flatMap_append, Code.size_append]
  omega

/-- An address among commands lies in the code of one of them. -/
theorem exists_position {pc count : Nat} (hfirst : options.commandAddress units program 0 ≤ pc)
    (hlast : pc < options.commandAddress units program count) :
    ∃ position < count, options.commandAddress units program position ≤ pc ∧
      pc < options.commandAddress units program (position + 1) := by
  induction count with
  | zero => omega
  | succ count ih =>
      by_cases hpc : pc < options.commandAddress units program count
      · obtain ⟨position, hlt, hinside⟩ := ih hpc
        exact ⟨position, by omega, hinside⟩
      · exact ⟨count, by omega, by omega, hlast⟩

theorem exists_site {position : Nat} (h : position < (options.commandBlocks units).length) :
    ∃ site, (Site.ofUnits units)[position]? = some site := by
  have hsome := (List.mem_filter.1 (List.getElem_mem h)).2
  rw [options.site?_commandBlocks, List.getElem?_eq_getElem h]
  exact Option.isSome_iff_exists.1 hsome

theorem commandAddress_length :
    options.commandAddress units program (options.commandBlocks units).length =
      program.words.length := by
  rw [commandAddress, List.drop_length]
  rfl

end Options

/--
A built program in which all names are symbols and the bootstrap, if there is one, jumps to a
function of the program.
-/
structure Closed (options : Options) (units : List SourceUnit) (program : Program) : Prop
    extends Built options units program where
  unitNames : ∀ unit ∈ units, Source.isSymbol unit.name = true
  entryDeclared : options.bootstrap.enabled true = true →
    (Site.ofUnits units).any (Site.declaresFunction options.entry) = true

/-- Two commands have one address if and only if no command from the first to the last has code. -/
theorem Linked.commandAddress_eq_iff {options : Options} {units : List SourceUnit}
    {program : Program} (h : Linked options units program) {first last : Nat} (hle : first ≤ last)
    (hlast : last ≤ (Site.ofUnits units).length) :
    options.commandAddress units program first = options.commandAddress units program last ↔
      ∀ between site, first ≤ between → between < last →
        (Site.ofUnits units)[between]? = some site → site.command.isSilent = true := by
  induction hle with
  | refl =>
      refine ⟨fun _ between _ hfirst hlt => ?_, fun _ => rfl⟩
      omega
  | @step last hle ih =>
      have hget := List.getElem?_eq_getElem hlast
      obtain ⟨lowering, code, hcode⟩ := h.wellNamed.exists_hasCode h.yields hget
      have hmono : options.commandAddress units program first ≤ _ := Options.commandAddress_mono hle
      have hnext := hcode.next
      have hsilent := hcode.lowers.size_eq_zero_iff
      have hstep : options.commandAddress units program first =
            options.commandAddress units program (last + 1) ↔
          options.commandAddress units program first =
            options.commandAddress units program last ∧ Code.size code = 0 := by
        omega
      rw [hstep, ih (Nat.le_of_succ_le hlast), hsilent]
      constructor
      · rintro ⟨hbefore, hhere⟩ between site hfirst hlt hsite
        by_cases heq : between = last
        · subst heq
          rw [hget] at hsite
          cases hsite
          exact hhere
        · exact hbefore between site hfirst (by omega) hsite
      · intro hall
        refine ⟨fun between site hfirst hlt => hall between site hfirst (by omega), ?_⟩
        exact hall last _ hle (Nat.lt_succ_self last) hget

/-- At an address stands a `goto` whose label has the same address. -/
def Options.LoopsAt (options : Options) (units : List SourceUnit) (program : Program)
    (pc : UInt16) : Prop :=
  ∃ position site name, (Site.ofUnits units)[position]? = some site ∧
    site.command = .goto name ∧ pc.toNat = options.commandAddress units program position ∧
    program.address? (site.scope.symbol name) = some pc

theorem Linked.toNat_resolve_function {options : Options} {units : List SourceUnit}
    {program : Program} (h : Linked options units program) {name : String}
    (hdeclared : (Site.ofUnits units).any (Site.declaresFunction name) = true) :
    ∃ target, (program.resolve name).toNat = options.commandAddress units program target := by
  rw [← List.findIdx?_isSome, Option.isSome_iff_exists] at hdeclared
  obtain ⟨target, htarget⟩ := hdeclared
  exact ⟨target, program.toNat_resolve (h.address?_function htarget) (h.start_le target)⟩

namespace Closed

variable {options : Options} {units : List SourceUnit} {program : Program}

theorem linked (h : Closed options units program) : Linked options units program :=
  ⟨h.toBuilt, fun unit hunit => (IsName.of_isSymbol (h.unitNames unit hunit)).isOneLine⟩

theorem symbolic (h : Closed options units program) : Symbolic options units := by
  refine ⟨h.machine, h.unitNames, fun hbootstrap => ?_⟩
  obtain ⟨site, hsite, hdeclares⟩ := List.any_eq_true.1 (h.entryDeclared hbootstrap)
  exact Site.isSymbol_of_declaresFunction hsite hdeclares

/-- The opening stands before the code of the first command. -/
theorem placed_openingLines (h : Closed options units program) :
    Placed program 0 options.openingLines ∧
      options.commandAddress units program 0 = Code.size options.openingLines := by
  obtain ⟨text, hcompile, hassemble⟩ := h.yields
  have hcompiled := compileUnits_eq_ok_iff.1 hcompile
  have hlegible : ∀ line ∈ options.allLines units, line.Legible Machine.hack.maxConstant :=
    fun line hline => (h.symbolic.of_mem_allLines hcompiled hline).1
  have htext : text = Text.render ([] ++ (options.allLines units).map Line.text) := by
    rw [hcompiled.text, Block.render, options.blocks_eq, List.flatMap_append]
    rfl
  rw [h.machine, htext, assemble_render_eq_ok_iff hlegible] at hassemble
  obtain ⟨opening, layout, hopens, hassembled⟩ := hassemble
  have hempty : opening.instructions.length = 0 := by
    have hread : Except.ok [] = Except.ok opening.instructions := hopens.read
    rw [← Except.ok.inj hread]
    rfl
  have hplaced := hassembled.placed hopens.size_layout
  have hlength := hassembled.length_words
  rw [hempty] at hplaced hlength
  rw [Options.allLines, Code.size_append, Options.lines, Block.size_flatMap_lines,
    options.flatMap_code_unitBlocks] at hlength
  refine ⟨hplaced.left, ?_⟩
  rw [Options.commandAddress, List.drop_zero, hlength]
  omega

/-- The bootstrap leads past itself, to a command. -/
theorem resolve_of_leap_opening (h : Closed options units program) {pc : Nat} {found : Address}
    (hleap : (pc, found) ∈ Code.leaps 0 options.openingLines) :
    options.commandAddress units program 0 ≤
      ((Instruction.load found).word program.resolve).toNat := by
  by_cases hbootstrap : options.bootstrap.enabled true = true
  · have hleaps : Code.leaps 0 options.openingLines = [(4, .symbol options.entry)] := by
      rw [h.symbolic.openingLines_eq hbootstrap]
      cases options.annotate <;> rfl
    rw [hleaps, List.mem_singleton] at hleap
    cases hleap
    obtain ⟨target, htarget⟩ := h.linked.toNat_resolve_function (h.entryDeclared hbootstrap)
    change _ ≤ (program.resolve options.entry).toNat
    rw [htarget]
    exact Options.commandAddress_mono (Nat.zero_le target)
  · have hnone : options.openingLines = [] := by
      simp [Options.openingLines, Options.openingBlocks, Options.openingRequests, hbootstrap,
        Lowering.trace]
    rw [hnone] at hleap
    cases hleap

/-- A jump of a command to itself is a `goto`. -/
theorem goto_of_leap (h : Closed options units program) {position : Nat} {site : Site}
    {lowering : Lowering} {code : Code} {found : Address} {pc : Nat}
    (hsite : (Site.ofUnits units)[position]? = some site)
    (hcode : HasCode options units program position site lowering code)
    (hlast : pc < options.commandAddress units program (position + 1))
    (hleap : (pc, found) ∈ Code.leaps (options.commandAddress units program position) code)
    (hself : ((Instruction.load found).word program.resolve).toNat = pc) :
    ∃ name, site.command = .goto name ∧ pc = options.commandAddress units program position ∧
      (program.resolve (site.scope.symbol name)).toNat = pc := by
  have hnext := hcode.next
  rcases hcode.lowers.mem_leaps_cases hleap with
    ⟨name, hgoto, hpc, rfl⟩ | ⟨name, args, hcall, hpc, rfl⟩ | ⟨label, before, rfl, hend⟩
  · refine ⟨name, hgoto, hpc, ?_⟩
    rw [← Lowering.scopedLabel_eq hcode.unit hcode.function]
    exact hself
  · have hdeclared := h.declared site (List.mem_of_getElem? hsite)
    rw [Site.targetDeclared, hcall] at hdeclared
    obtain ⟨target, htarget⟩ := h.linked.toNat_resolve_function hdeclared
    have hstart : options.commandAddress units program target = pc := htarget.symm.trans hself
    by_cases hle : target ≤ position
    · have hmono : options.commandAddress units program target ≤
          options.commandAddress units program position := Options.commandAddress_mono hle
      omega
    · have hmono : options.commandAddress units program (position + 1) ≤
          options.commandAddress units program target := Options.commandAddress_mono (by omega)
      omega
  · have hplaced := hcode.placed
    rw [hend] at hplaced
    have haddress := hplaced.right.1
    have hsize : Code.size code = Code.size before := by
      rw [hend, Code.size_append]
      rfl
    have hle := h.linked.start_le (position + 1)
    rw [← hsize, ← hnext] at haddress
    have hresolve := program.toNat_resolve haddress hle
    have hself : (program.resolve label).toNat = pc := hself
    omega

/-- Where the processor spins, a `goto` leads to itself. -/
theorem loopsAt_of_spinning (h : Closed options units program) {cpu : Cpu}
    (hrom : cpu.rom = program.words.toArray) (hpc : cpu.pc.toNat < program.words.length)
    (hspinning : cpu.spinning = true) : options.LoopsAt units program cpu.pc := by
  obtain ⟨hlt, hload, jump, hjump, honly⟩ := Cpu.spinning_iff.1 hspinning
  rw [hrom, List.getElem?_toArray] at hload hjump
  obtain ⟨hplaced, hsize⟩ := h.placed_openingLines
  by_cases hopening : cpu.pc.toNat < options.commandAddress units program 0
  · obtain ⟨found, hleap, hword⟩ :=
      hplaced.exists_leap (Nat.zero_le _) (by omega) hload hlt hjump honly
    have hle := h.resolve_of_leap_opening hleap
    rw [hword] at hle
    omega
  · rw [← @Options.commandAddress_length options units program] at hpc
    obtain ⟨position, hposition, hfirst, hlast⟩ :=
      Options.exists_position (Nat.le_of_not_lt hopening) hpc
    obtain ⟨site, hsite⟩ := Options.exists_site hposition
    obtain ⟨lowering, code, hcode⟩ := h.linked.wellNamed.exists_hasCode h.yields hsite
    obtain ⟨found, hleap, hword⟩ :=
      hcode.placed.exists_leap hfirst (by rw [← hcode.next]; exact hlast) hload hlt hjump honly
    obtain ⟨name, hgoto, hstart, hself⟩ :=
      h.goto_of_leap hsite hcode hlast hleap (by rw [hword])
    obtain ⟨target, htarget⟩ := h.linked.exists_labelAt (List.mem_of_getElem? hsite) (.inl hgoto)
    have haddress := h.linked.address?_label htarget
    have hresolve : program.resolve (site.scope.symbol name) = cpu.pc := UInt16.toNat_inj.1 hself
    refine ⟨position, site, name, hsite, hgoto, hstart, ?_⟩
    rw [haddress, ← hresolve, Program.resolve, haddress]
    rfl

theorem spinning_of_loopsAt (h : Closed options units program) {cpu : Cpu}
    (hrom : cpu.rom = program.words.toArray) (hloops : options.LoopsAt units program cpu.pc) :
    cpu.spinning = true := by
  obtain ⟨position, site, name, hsite, hgoto, hstart, haddress⟩ := hloops
  obtain ⟨lowering, code, hcode⟩ := h.linked.wellNamed.exists_hasCode h.yields hsite
  have hlowers := hcode.lowers
  have hplaced := hcode.placed
  rw [hgoto] at hlowers
  cases hlowers
  obtain ⟨hload, hjump, -⟩ := hplaced
  rw [Lowering.scopedLabel_eq hcode.unit hcode.function, ← hstart] at hload
  rw [← hstart] at hjump
  have hresolve : program.resolve (site.scope.symbol name) = cpu.pc := by
    rw [Program.resolve, haddress]
    rfl
  have hle := h.linked.start_le position
  have hlt : cpu.pc < 0x8000 := by
    rw [UInt16.lt_iff_toNat_lt, hstart]
    change options.commandAddress units program position < 32768
    exact Nat.lt_succ_of_le hle
  rw [Cpu.spinning_iff, hrom, List.getElem?_toArray, List.getElem?_toArray]
  refine ⟨hlt, ?_, _, hjump, Cpu.jumpsOnly_word program.resolve⟩
  rw [hload, ← hresolve]
  rfl

/-- A `goto` leads to itself if and only if nothing but silent commands follow its label. -/
theorem address?_label_eq_iff (h : Closed options units program) {position : Nat} {site : Site}
    {name : String} (hsite : (Site.ofUnits units)[position]? = some site)
    (hgoto : site.command = .goto name) :
    program.address? (site.scope.symbol name) =
        some (UInt16.ofNat (options.commandAddress units program position)) ↔
      ∃ target, (Vm.ofProgram options units program).labelAt? site.scope name = some target ∧
        target ≤ position ∧ ∀ between other, target ≤ between → between < position →
          (Site.ofUnits units)[between]? = some other → other.command.isSilent = true := by
  have hlength : position < (Site.ofUnits units).length := (List.getElem?_eq_some_iff.1 hsite).1
  obtain ⟨target, htarget⟩ := h.linked.exists_labelAt (List.mem_of_getElem? hsite) (.inl hgoto)
  have haddress : program.address? (site.scope.symbol name) =
      some (UInt16.ofNat (options.commandAddress units program target)) :=
    h.linked.address?_label htarget
  constructor
  · intro hself
    have hstart : options.commandAddress units program target =
        options.commandAddress units program position := by
      rw [← program.toNat_resolve haddress (h.linked.start_le target)]
      exact program.toNat_resolve hself (h.linked.start_le position)
    by_cases hle : target ≤ position
    · exact ⟨target, htarget, hle, (h.linked.commandAddress_eq_iff hle (by omega)).1 hstart⟩
    · obtain ⟨lowering, code, hcode⟩ := h.linked.wellNamed.exists_hasCode h.yields hsite
      have hnext := hcode.next
      have hsize : Code.size code = 2 := by
        have hlowers := hcode.lowers
        rw [hgoto] at hlowers
        cases hlowers
        rfl
      have hmono : options.commandAddress units program (position + 1) ≤
          options.commandAddress units program target := Options.commandAddress_mono (by omega)
      omega
  · rintro ⟨other, hother, hle, hsilent⟩
    rw [h.linked.address?_label hother]
    have hstart := (h.linked.commandAddress_eq_iff hle (by omega)).2 hsilent
    exact congrArg (fun start => some (UInt16.ofNat start)) hstart

/--
A compiled program spins at an address if and only if a `goto` stands there whose label has the same
address, which is so if and only if only commands without instructions stand between the two.  A run
reports a halt nowhere else, except past the end of the program.
-/
theorem spinning_iff_loopsAt (h : Closed options units program) {cpu : Cpu}
    (hrom : cpu.rom = program.words.toArray) :
    (cpu.pc.toNat < program.words.length →
        (cpu.spinning = true ↔ options.LoopsAt units program cpu.pc)) ∧
      (∀ position site name, (Site.ofUnits units)[position]? = some site →
        site.command = .goto name →
          (program.address? (site.scope.symbol name) =
              some (UInt16.ofNat (options.commandAddress units program position)) ↔
            ∃ target,
              (Vm.ofProgram options units program).labelAt? site.scope name = some target ∧
                target ≤ position ∧ ∀ between other, target ≤ between → between < position →
                  (Site.ofUnits units)[between]? = some other →
                    other.command.isSilent = true)) ∧
      ∀ budget last cycles, cpu.run budget = ⟨last, cycles, .halted⟩ →
        program.words.length ≤ last.pc.toNat ∨ options.LoopsAt units program last.pc := by
  refine ⟨fun hpc => ⟨h.loopsAt_of_spinning hrom hpc, h.spinning_of_loopsAt hrom⟩,
    fun position site name => h.address?_label_eq_iff, ?_⟩
  intro budget last cycles hrun
  have hlast : last.rom = program.words.toArray := by
    rw [← hrom, ← Cpu.rom_runFrom 0 budget cpu]
    exact congrArg (fun run => run.cpu.rom) hrun.symm
  rcases Cpu.halted_iff.1 (Cpu.halted_of_runFrom hrun) with hpast | hspinning
  · rw [hlast, List.size_toArray] at hpast
    exact .inl hpast
  · by_cases hpc : last.pc.toNat < program.words.length
    · exact .inr (h.loopsAt_of_spinning hlast hpc hspinning)
    · exact .inl (Nat.le_of_not_lt hpc)

end Closed

namespace Sample

/-- A unit that waits for ever, in a loop of no commands. -/
def idleUnit : SourceUnit where
  name := "Sys"
  source := Text.render ["function Sys.init 0", "label idle", "goto idle"]

def idleLines : Code :=
  Code.bootstrap 261 "Sys.init" ++
    [.label "Sys.init", .label "Sys.init$idle"] ++ Code.jumpTo "Sys.init$idle"

def idleProgram : Program :=
  programOf .hack idleLines

theorem compileUnits_idleUnit :
    compileUnits {} [idleUnit] = .ok (Text.render (idleLines.map Line.text)) :=
  toOption_eq_some_iff.1 (by decide +kernel)

theorem closed_idle : Closed {} [idleUnit] idleProgram := by
  have hsites : Site.ofUnits [idleUnit] = Site.ofCommands "Sys" none
      [.function "Sys.init" 0, .label "idle", .goto "idle"] := rfl
  have hread : (instructions idleLines).all Instruction.isRead = true := by
    decide +kernel
  have hlayout : (Layout.addAll {} (codeLinesFrom 1 idleLines)).toOption.isSome = true := by
    decide +kernel
  obtain ⟨layout, hassembled⟩ : ∃ layout, Assembled .hack {} idleLines layout idleProgram :=
    assembled_programOf hread hlayout
  have hassemble := hassembled.assemble_render_eq_ok (by decide +kernel)
  refine ⟨⟨rfl, ⟨_, compileUnits_idleUnit, hassemble⟩, by decide +kernel, ?_⟩, ?_, ?_⟩
  · rw [hsites]
    decide
  · exact List.forall_mem_singleton.2 (by decide)
  · intro _
    rw [hsites]
    decide

/-- The sample program waits at its `goto`; the jump of the bootstrap to its first function is none. -/
theorem spinning_idle :
    Closed {} [idleUnit] idleProgram ∧
      (∃ last cycles, (Cpu.start idleProgram.words 1).run 100 = ⟨last, cycles, .halted⟩ ∧
        Options.LoopsAt {} [idleUnit] idleProgram last.pc) ∧
      ¬ Options.LoopsAt {} [idleUnit] idleProgram 4 := by
  refine ⟨closed_idle, ?_, ?_⟩
  · obtain ⟨-, -, hhalts⟩ :=
      closed_idle.spinning_iff_loopsAt (show (Cpu.start idleProgram.words 1).rom = _ from rfl)
    refine ⟨_, _, rfl, (hhalts 100 _ _ rfl).resolve_left ?_⟩
    decide +kernel
  · have hrom : { Cpu.start idleProgram.words 1 with pc := 4 }.rom = idleProgram.words.toArray := rfl
    rw [← (closed_idle.spinning_iff_loopsAt hrom).1 (by decide +kernel)]
    decide +kernel

end Sample

end StackVm
