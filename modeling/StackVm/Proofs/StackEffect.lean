import StackVm.Proofs.Spinning

/-! # Stack effects

Every command but `return` has a stack effect, a number that does not depend on
memory.  A run between two boundaries of commands executes the commands whose
first instructions it comes to, and moves the stack pointer by the sum of their
effects.  Commands without code have no effect.
-/

namespace StackVm

open Asm

/-! ## Sums of effects -/

namespace Command

/-- The sum of the stack effects of some commands, if all of them have one. -/
def totalEffect : List Command → Option Int
  | [] => some 0
  | command :: rest => do return (← command.stackEffect) + (← totalEffect rest)

theorem totalEffect_cons {command : Command} {rest : List Command} {m n : Int}
    (hcommand : command.stackEffect = some m) (hrest : totalEffect rest = some n) :
    totalEffect (command :: rest) = some (m + n) := by
  simp [totalEffect, hcommand, hrest]

theorem totalEffect_append {xs ys : List Command} {m n : Int} (hxs : totalEffect xs = some m)
    (hys : totalEffect ys = some n) : totalEffect (xs ++ ys) = some (m + n) := by
  induction xs generalizing m with
  | nil =>
      cases hxs
      rw [List.nil_append, hys, Int.zero_add]
  | cons command rest ih =>
      simp only [totalEffect, Option.bind_eq_bind, Option.bind_eq_some_iff, Option.pure_def,
        Option.some.injEq] at hxs
      obtain ⟨effect, heffect, others, hothers, rfl⟩ := hxs
      rw [List.cons_append, totalEffect_cons heffect (ih hothers), Int.add_assoc]

/-- A command without code does not move the stack pointer. -/
theorem stackEffect_of_isSilent {command : Command} (h : command.isSilent = true) :
    command.stackEffect = some 0 := by
  cases command with
  | label name => rfl
  | function name locals =>
      obtain rfl : locals = 0 := by simpa [isSilent] using h
      rfl
  | _ => cases h

theorem totalEffect_of_isSilent {commands : List Command}
    (h : ∀ command ∈ commands, command.isSilent = true) : totalEffect commands = some 0 := by
  induction commands with
  | nil => rfl
  | cons command rest ih =>
      have hcommand := stackEffect_of_isSilent (h command List.mem_cons_self)
      have hrest := ih fun other hother => h other (List.mem_cons_of_mem _ hother)
      exact totalEffect_cons hcommand hrest

end Command

/-! ## The stack pointer after a command -/

theorem toNat_add_ofNat (word : UInt16) (number : Nat) :
    ((word + UInt16.ofNat number).toNat : Int) = (word.toNat + number) % 65536 := by
  rw [UInt16.toNat_add, UInt16.toNat_ofNat']
  omega

theorem toNat_sub_one (word : UInt16) :
    ((word - 1).toNat : Int) = (word.toNat + -1) % 65536 := by
  have hsub : (word - 1).toNat = (65536 - 1 + word.toNat) % 65536 := UInt16.toNat_sub word 1
  omega

theorem Ram.pushZeros_sp {ram : Ram} {count : Nat}
    (h : ∀ i < count, IsStackCell (ram 0 + UInt16.ofNat i)) :
    ram.pushZeros count 0 = ram 0 + UInt16.ofNat count := by
  induction count generalizing ram with
  | zero => simp [pushZeros]
  | succ count ih =>
      obtain ⟨hsp, hrest⟩ := IsStackCell.of_pushes 0 h
      rw [pushZeros, ih hrest, push_sp 0 (hsp.ne (by decide)), UInt16.ofNat_add, UInt16.ofNat_one,
        UInt16.add_assoc, UInt16.add_comm 1]

namespace Vm

/--
A command other than `call` and `return` whose stack cells lie on the stack, whose segment cell
lies in memory, and which does not pop into the stack pointer.
-/
structure Plain (vm : Vm) (site : Site) (ram : Ram) : Prop where
  notCall : ∀ name args, site.command ≠ .call name args
  notReturn : site.command ≠ .ret
  stack : ∀ cell ∈ stackCells site.command ram, Ram.IsStackCell cell
  segment : ∀ cell, vm.segmentCell? site ram = some cell → cell < 0x8000
  notPopped : ∀ segment index, site.command = .pop segment index →
    vm.cell site.unit ram segment index ≠ 0

variable {vm : Vm} {site : Site} {ram : Ram}

theorem Plain.admits (h : vm.Plain site ram) : vm.Admits site ram :=
  ⟨h.stack, h.segment, fun hret => absurd hret h.notReturn⟩

/-- A command without code is plain in every memory. -/
theorem plain_of_isSilent (h : site.command.isSilent = true) : vm.Plain site ram := by
  obtain ⟨unit, function, command⟩ := site
  cases command with
  | label name => constructor <;> simp [stackCells, segmentCell?]
  | function name locals =>
      obtain rfl : locals = 0 := by simpa [Command.isSilent] using h
      constructor <;> simp [stackCells, segmentCell?]
  | _ => cases h

theorem plain_goto {unit name : String} {function : Option String} :
    vm.Plain ⟨unit, function, .goto name⟩ ram := by
  constructor <;> simp [stackCells, segmentCell?]

/-- A plain command goes on at a command. -/
theorem Plain.exists_start (h : vm.Plain site ram) {before after : Ram} {next address : Nat}
    (heffect : vm.effect? site (vm.start next) before = some (address, after)) :
    ∃ target, address = vm.start target := by
  obtain ⟨unit, function, command⟩ := site
  cases command with
  | ret => exact absurd rfl h.notReturn
  | call name args => exact absurd rfl (h.notCall name args)
  | goto name =>
      obtain ⟨target, -, hgoto⟩ := Option.map_eq_some_iff.1 heffect
      cases hgoto
      exact ⟨target, rfl⟩
  | ifGoto name =>
      obtain ⟨target, -, hgoto⟩ := Option.map_eq_some_iff.1 heffect
      cases hgoto
      by_cases hzero : before.top = 0
      · exact ⟨next, if_pos hzero⟩
      · exact ⟨target, if_neg hzero⟩
  | arith op | push segment index | pop segment index | label name | function name locals =>
      cases heffect
      exact ⟨next, rfl⟩

/-- A plain command moves the stack pointer by its stack effect. -/
theorem Plain.sp_of_effect? (h : vm.Plain site ram) {after : Ram} {next address : Nat}
    (heffect : vm.effect? site next (vm.parked site ram) = some (address, after)) :
    ∃ effect, site.command.stackEffect = some effect ∧
      ((after 0).toNat : Int) = ((ram 0).toNat + effect) % 65536 := by
  have hstay : ((ram 0).toNat : Int) = ((ram 0).toNat + 0) % 65536 := by
    have hlt : (ram 0).toNat < 65536 := (ram 0).toNat_lt
    omega
  have hpush : ((ram 0 + 1).toNat : Int) = ((ram 0).toNat + 1) % 65536 :=
    toNat_add_ofNat (ram 0) 1
  have hdrop := toNat_sub_one (ram 0)
  obtain ⟨hcall, hret, hstack, -, hpopped⟩ := h
  obtain ⟨unit, function, command⟩ := site
  cases command with
  | ret => exact absurd rfl hret
  | call name args => exact absurd rfl (hcall name args)
  | arith op =>
      cases heffect
      refine ⟨_, rfl, ?_⟩
      rw [parked, Ram.arith_sp hstack]
      by_cases harity : op.arity = 1
      · rw [if_pos harity, harity]
        exact hstay
      · have htwo : op.arity = 2 := by
          cases op with
          | neg | not => exact absurd rfl harity
          | _ => rfl
        rw [if_neg harity, htwo]
        exact hdrop
  | push segment index =>
      cases heffect
      have hcell := hstack (ram 0) (by simp [stackCells])
      refine ⟨1, rfl, ?_⟩
      rw [parked, Ram.push_sp _ (hcell.ne (by decide))]
      exact hpush
  | pop segment index =>
      cases heffect
      have hcell := hpopped segment index rfl
      refine ⟨-1, rfl, ?_⟩
      simp only [parked, cell_set _ _ _ _ _ _ (show 5 ≤ (13 : UInt16).toNat by decide)]
      rw [Ram.set_other _ _ (Ne.symm hcell), Ram.drop_sp, Ram.set_other _ _ (by decide)]
      exact hdrop
  | label name =>
      cases heffect
      exact ⟨0, rfl, hstay⟩
  | goto name =>
      obtain ⟨target, -, hgoto⟩ := Option.map_eq_some_iff.1 heffect
      cases hgoto
      exact ⟨0, rfl, hstay⟩
  | ifGoto name =>
      obtain ⟨target, -, hgoto⟩ := Option.map_eq_some_iff.1 heffect
      cases hgoto
      refine ⟨-1, rfl, ?_⟩
      rw [parked, Ram.drop_sp]
      exact hdrop
  | function name locals =>
      cases heffect
      have hcells : ∀ i < locals.toNat, Ram.IsStackCell (ram 0 + UInt16.ofNat i) :=
        fun i hi => hstack _ (List.mem_map.2 ⟨i, List.mem_range.2 hi, rfl⟩)
      refine ⟨_, rfl, ?_⟩
      rw [parked, Ram.pushZeros_sp hcells]
      exact toNat_add_ofNat (ram 0) locals.toNat

/-! ## Boundaries -/

/-- The commands whose code starts at an address: those without code, and the one after them. -/
def commandsAt (vm : Vm) (address : Nat) : List Site :=
  (vm.sites.zipIdx.filter fun entry => vm.start entry.2 = address).map Prod.fst

/-- The commands that a run executes, each with the memory that it finds. -/
def executed (vm : Vm) (count : Nat) (cpu : Cpu) : List (Site × Ram) :=
  (Cpu.trail count cpu).flatMap fun state =>
    (vm.commandsAt state.pc.toNat).map fun site => (site, state.peek)

theorem executed_add (vm : Vm) {cpu next : Cpu} {m : Nat} (h : Cpu.steps m cpu = (next, none))
    (n : Nat) : vm.executed (m + n) cpu = vm.executed m cpu ++ vm.executed n next := by
  rw [executed, Cpu.trail_add h, List.flatMap_append]
  rfl

theorem mem_commandsAt {address : Nat} :
    site ∈ vm.commandsAt address ↔
      ∃ position, vm.sites[position]? = some site ∧ vm.start position = address := by
  simp only [commandsAt, List.mem_map, List.mem_filter, decide_eq_true_eq]
  constructor
  · rintro ⟨⟨other, position⟩, ⟨hmem, hstart⟩, rfl⟩
    exact ⟨position, List.mem_zipIdx_iff_getElem?.1 hmem, hstart⟩
  · rintro ⟨position, hsite, hstart⟩
    exact ⟨(site, position), ⟨List.mem_zipIdx_iff_getElem?.2 hsite, hstart⟩, rfl⟩

/-- The code of the commands stands in their order. -/
def Ordered (vm : Vm) : Prop :=
  ∀ first last, first ≤ last → vm.start first ≤ vm.start last

namespace Ordered

/-- No command starts inside of the code of another. -/
theorem start_ne (h : vm.Ordered) {position address : Nat} (hlower : vm.start position < address)
    (hupper : address < vm.start (position + 1)) (other : Nat) : vm.start other ≠ address := by
  rcases Nat.lt_or_ge position other with hlt | hle
  · have hstart := h (position + 1) other hlt
    omega
  · have hstart := h other position hle
    omega

theorem commandsAt_eq_nil (h : vm.Ordered) {position address : Nat}
    (hlower : vm.start position < address) (hupper : address < vm.start (position + 1)) :
    vm.commandsAt address = [] := by
  rw [List.eq_nil_iff_forall_not_mem]
  intro site hsite
  obtain ⟨other, -, hstart⟩ := mem_commandsAt.1 hsite
  exact h.start_ne hlower hupper other hstart

/-- The commands that start where a command with code starts stand before it. -/
theorem exists_commandsAt_eq (h : vm.Ordered) {position : Nat}
    (hsite : vm.sites[position]? = some site)
    (hcode : vm.start position < vm.start (position + 1)) :
    ∃ others, vm.commandsAt (vm.start position) = others ++ [site] ∧
      ∀ other ∈ others, ∃ before < position, vm.sites[before]? = some other ∧
        vm.start before = vm.start position := by
  obtain ⟨hlt, hget⟩ := List.getElem?_eq_some_iff.1 hsite
  have hsplit : vm.sites = vm.sites.take position ++ site :: vm.sites.drop (position + 1) := by
    rw [← hget, List.getElem_cons_drop, List.take_append_drop]
  have hlength : (vm.sites.take position).length = position := by
    rw [List.length_take]
    omega
  have hlater : ((vm.sites.drop (position + 1)).zipIdx (position + 1)).filter
      (fun entry => vm.start entry.2 = vm.start position) = [] := by
    rw [List.filter_eq_nil_iff]
    rintro ⟨other, after⟩ hmem
    have hafter := h (position + 1) after (List.le_snd_of_mem_zipIdx hmem)
    simp only [decide_eq_true_eq]
    omega
  refine ⟨((vm.sites.take position).zipIdx.filter
    fun entry => vm.start entry.2 = vm.start position).map Prod.fst, ?_, ?_⟩
  · conv => lhs; rw [commandsAt, hsplit]
    rw [List.zipIdx_append, List.filter_append, List.map_append, hlength, Nat.zero_add,
      List.zipIdx_cons, List.filter_cons, if_pos (by simp), hlater]
    rfl
  · intro other hother
    simp only [List.mem_map, List.mem_filter, decide_eq_true_eq] at hother
    obtain ⟨⟨_, before⟩, ⟨hmem, hstart⟩, rfl⟩ := hother
    have htake := List.mem_zipIdx_iff_getElem?.1 hmem
    rw [List.getElem?_take] at htake
    split at htake
    · next hbefore => exact ⟨before, hbefore, htake, hstart⟩
    · cases htake

end Ordered

end Vm

/-! ## Runs through commands -/

theorem Cpu.pc_lt_of_steps {cpu last : Cpu} {count : Nat}
    (h : Cpu.steps (count + 1) cpu = (last, none)) : cpu.pc.toNat < cpu.rom.size := by
  by_cases hlt : cpu.pc.toNat < cpu.rom.size
  · exact hlt
  · have hfetch : cpu.fetch? = none := by
      rw [fetch?, Array.getElem?_eq_none_iff]
      omega
    have hfault : cpu.fault? = some (.outsideProgram cpu.pc) := by
      simp only [fault?, hfetch]
    simp [steps_succ_of_fault hfault] at h

/-- A run that is cut short ends among the instructions after its first one. -/
theorem Cpu.pc_mem_of_steps {cpu last : Cpu} {count total pc : Nat} {rest : List Nat}
    (h : Cpu.steps (count + 1) cpu = (last, none)) (htotal : count + 1 < total)
    (haddresses : Cpu.addresses total cpu = pc :: rest) : last.pc.toNat ∈ rest := by
  obtain ⟨more, rfl⟩ := Nat.exists_eq_add_of_lt htotal
  rw [Nat.add_assoc, addresses_add h] at haddresses
  obtain ⟨-, hrest⟩ := List.cons.inj haddresses
  rw [← hrest]
  exact List.mem_append_right _ List.mem_cons_self

/-- A run through code begins with its first instruction and does not come back to it. -/
theorem Crosses.exists_run {program : Program} {pc size pc' : Nat} {ram ram' : Ram}
    (h : Crosses program pc size ram pc' ram') (hsize : 0 < size) {cpu : Cpu} {a d : UInt16}
    (hcpu : Shows program cpu ⟨pc, a, d, ram⟩) :
    ∃ count next a' d' rest, Cpu.steps count cpu = (next, none) ∧
      Shows program next ⟨pc', a', d', ram'⟩ ∧ Cpu.addresses count cpu = pc :: rest ∧
      ∀ address ∈ rest, pc < address ∧ address < pc + size := by
  obtain ⟨a', d', visited, hpasses, hsublist, hfirst⟩ := h a d
  obtain ⟨next, hsteps, hvisited, hnext⟩ := hpasses cpu hcpu
  have hinside : ∀ address ∈ visited, pc ≤ address ∧ address < pc + size :=
    fun address haddress => List.mem_range'_1.1 (hsublist.subset haddress)
  have hsorted : visited.Pairwise (· < ·) := List.Pairwise.sublist hsublist List.pairwise_lt_range'
  cases visited with
  | nil => cases hfirst hsize
  | cons first rest =>
      obtain ⟨hless, -⟩ := List.pairwise_cons.1 hsorted
      obtain rfl : pc = first := by
        rcases List.mem_cons.1 (hfirst hsize) with heq | hmem
        · exact heq
        · have hlt := hless pc hmem
          have hle := (hinside first List.mem_cons_self).1
          omega
      refine ⟨_, next, a', d', rest, hsteps, hnext, hvisited, fun address haddress => ?_⟩
      exact ⟨hless address haddress, (hinside address (List.mem_cons_of_mem _ haddress)).2⟩

/-- A run that leaves the start of a command, and comes to no other, executes what starts there. -/
theorem Vm.executed_of_interior {vm : Vm} {cpu : Cpu} {count pc : Nat} {rest : List Nat}
    (haddresses : Cpu.addresses count cpu = pc :: rest)
    (hrest : ∀ address ∈ rest, vm.commandsAt address = []) :
    vm.executed count cpu = (vm.commandsAt pc).map fun site => (site, cpu.peek) := by
  cases count with
  | zero => cases haddresses
  | succ count =>
      obtain ⟨rfl, hothers⟩ := List.cons.inj haddresses
      have hnone : ∀ state ∈ Cpu.trail count cpu.advance,
          ((vm.commandsAt state.pc.toNat).map fun site => (site, state.peek)) = [] := by
        intro state hstate
        rw [hrest state.pc.toNat (hothers ▸ List.mem_map_of_mem hstate), List.map_nil]
      rw [executed, Cpu.trail, List.flatMap_cons, List.flatMap_eq_nil_iff.2 hnone, List.append_nil]

theorem Passes.exists_executed {program : Program} {before after : View} {vm : Vm} {cpu : Cpu}
    {pc : Nat} {rest : List Nat} (h : Passes program before (pc :: rest) after) (count : Nat)
    (hcount : rest.length + 1 = count) (hcpu : Shows program cpu before)
    (hrest : ∀ address ∈ rest, vm.commandsAt address = []) :
    ∃ next, Cpu.steps count cpu = (next, none) ∧ Shows program next after ∧
      vm.executed count cpu = (vm.commandsAt pc).map fun site => (site, before.ram) := by
  subst hcount
  obtain ⟨next, hsteps, hvisited, hnext⟩ := h cpu hcpu
  refine ⟨next, hsteps, hnext, ?_⟩
  rw [← hcpu.ram]
  exact Vm.executed_of_interior hvisited hrest

section

variable {options : Options} {units : List SourceUnit} {program : Program}

theorem Vm.ordered_ofProgram (options : Options) (units : List SourceUnit) (program : Program) :
    (Vm.ofProgram options units program).Ordered :=
  fun _ _ hle => Options.commandAddress_mono hle

/-- At a boundary inside of the program stands a command with code. -/
theorem Vm.exists_coded {first : Nat}
    (hlt : (Vm.ofProgram options units program).start first < program.words.length) :
    ∃ position site, (Site.ofUnits units)[position]? = some site ∧
      (Vm.ofProgram options units program).start position =
        (Vm.ofProgram options units program).start first ∧
      (Vm.ofProgram options units program).start position <
        (Vm.ofProgram options units program).start (position + 1) := by
  have hordered := Vm.ordered_ofProgram options units program
  rw [← @Options.commandAddress_length options units program] at hlt
  obtain ⟨position, hposition, hlower, hupper⟩ :=
    Options.exists_position (Options.commandAddress_mono (Nat.zero_le first)) hlt
  obtain ⟨site, hsite⟩ := Options.exists_site hposition
  have hstart : (Vm.ofProgram options units program).start position =
      (Vm.ofProgram options units program).start first := by
    rcases Nat.lt_or_ge (options.commandAddress units program position)
      (options.commandAddress units program first) with hless | hge
    · exact absurd rfl (hordered.start_ne hless hupper first)
    · exact Nat.le_antisymm hlower hge
  exact ⟨position, site, hsite, hstart, hstart ▸ hupper⟩

/-- What a run executes that stays inside of the code of a command. -/
theorem Vm.executed_of_run {cpu : Cpu} {count position : Nat} {rest : List Nat}
    (haddresses : Cpu.addresses count cpu =
      (Vm.ofProgram options units program).start position :: rest)
    (hinside : ∀ other ∈ rest, (Vm.ofProgram options units program).start position < other ∧
      other < (Vm.ofProgram options units program).start (position + 1)) :
    (Vm.ofProgram options units program).executed count cpu =
      ((Vm.ofProgram options units program).commandsAt
        ((Vm.ofProgram options units program).start position)).map
          fun site => (site, cpu.peek) :=
  Vm.executed_of_interior haddresses fun other hother =>
    (ordered_ofProgram options units program).commandsAt_eq_nil (hinside other hother).1
      (hinside other hother).2

end

namespace Linked

variable {options : Options} {units : List SourceUnit} {program : Program}

/-- The effects of the commands at the start of a command add up to the effect of that command. -/
theorem totalEffect_commandsAt (h : Linked options units program) {position : Nat} {site : Site}
    {effect : Int} (hsite : (Site.ofUnits units)[position]? = some site)
    (hcode : (Vm.ofProgram options units program).start position <
      (Vm.ofProgram options units program).start (position + 1))
    (heffect : site.command.stackEffect = some effect) :
    Command.totalEffect (((Vm.ofProgram options units program).commandsAt
      ((Vm.ofProgram options units program).start position)).map (·.command)) = some effect := by
  obtain ⟨others, heq, hothers⟩ :=
    (Vm.ordered_ofProgram options units program).exists_commandsAt_eq hsite hcode
  have hlength := (List.getElem?_eq_some_iff.1 hsite).1
  have hsilent : ∀ command ∈ others.map (·.command), command.isSilent = true := by
    intro command hcommand
    obtain ⟨other, hother, rfl⟩ := List.mem_map.1 hcommand
    obtain ⟨before, hbefore, hget, hstart⟩ := hothers other hother
    have hbetween :=
      (h.commandAddress_eq_iff (Nat.le_of_lt hbefore) (Nat.le_of_lt hlength)).1 hstart
    exact hbetween before other (Nat.le_refl before) hbefore hget
  have htotal := Command.totalEffect_append (Command.totalEffect_of_isSilent hsilent)
    (Command.totalEffect_cons heffect (show Command.totalEffect [] = some 0 from rfl))
  rw [Int.zero_add, Int.add_zero] at htotal
  rw [heq, List.map_append]
  exact htotal

/-- A plain command runs from its first instruction to where the reference machine goes on. -/
theorem exists_run_of_plain (h : Linked options units program) {position : Nat} {site : Site}
    {cpu : Cpu} (hsite : (Site.ofUnits units)[position]? = some site)
    (hcode : (Vm.ofProgram options units program).start position <
      (Vm.ofProgram options units program).start (position + 1))
    (hplain : (Vm.ofProgram options units program).Plain site cpu.peek)
    (hrom : cpu.rom = program.words.toArray) (hsize : cpu.ram.size = 32768)
    (hstart : cpu.pc.toNat = (Vm.ofProgram options units program).start position) :
    ∃ count next address after rest,
      (Vm.ofProgram options units program).effect? site
        ((Vm.ofProgram options units program).start (position + 1))
        ((Vm.ofProgram options units program).parked site cpu.peek) = some (address, after) ∧
      Cpu.steps count cpu = (next, none) ∧ next.rom = program.words.toArray ∧
      next.ram.size = 32768 ∧ next.pc.toNat = address ∧ next.peek = after ∧
      Cpu.addresses count cpu = (Vm.ofProgram options units program).start position :: rest ∧
      ∀ other ∈ rest, (Vm.ofProgram options units program).start position < other ∧
        other < (Vm.ofProgram options units program).start (position + 1) := by
  obtain ⟨address, after, hnext, hcrosses⟩ := h.crosses_command hsite hplain.admits
  have hget : (Vm.ofProgram options units program).sites[position]? = some site := hsite
  rw [Vm.next?_of_site hget] at hnext
  obtain ⟨count, next, a, d, rest, hsteps, hshows, haddresses, hinside⟩ :=
    hcrosses.exists_run (by omega) ⟨hrom, h.length_le, hsize, hstart, rfl, rfl, rfl⟩
  refine ⟨count, next, address, after, rest, hnext, hsteps, hshows.rom, hshows.ramSize, hshows.pc,
    hshows.ram, haddresses, fun other hother => ?_⟩
  have hbounds := hinside other hother
  omega

/--
A run between boundaries goes through the whole of the command that it starts
at, and comes to another boundary with the stack pointer moved by the effect.
-/
theorem exists_first_command (h : Linked options units program) {cpu last : Cpu}
    {count first final : Nat} (hrom : cpu.rom = program.words.toArray)
    (hsize : cpu.ram.size = 32768)
    (hstart : cpu.pc.toNat = (Vm.ofProgram options units program).start first)
    (hsteps : Cpu.steps (count + 1) cpu = (last, none))
    (hend : last.pc.toNat = (Vm.ofProgram options units program).start final)
    (hplain : ∀ moment ∈ (Vm.ofProgram options units program).executed (count + 1) cpu,
      (Vm.ofProgram options units program).Plain moment.1 moment.2) :
    ∃ m n next target effect, m + 1 + n = count + 1 ∧ Cpu.steps (m + 1) cpu = (next, none) ∧
      next.rom = program.words.toArray ∧ next.ram.size = 32768 ∧
      next.pc.toNat = (Vm.ofProgram options units program).start target ∧
      Command.totalEffect (((Vm.ofProgram options units program).executed (m + 1) cpu).map
        (·.1.command)) = some effect ∧
      ((next.peek 0).toNat : Int) = ((cpu.peek 0).toNat + effect) % 65536 := by
  have hlt := Cpu.pc_lt_of_steps hsteps
  rw [hrom, List.size_toArray, hstart] at hlt
  obtain ⟨position, site, hsite, hposition, hcode⟩ := Vm.exists_coded hlt
  rw [← hposition] at hstart
  have hmoment : (site, cpu.peek) ∈
      (Vm.ofProgram options units program).executed (count + 1) cpu := by
    refine List.mem_flatMap.2 ⟨cpu, List.mem_cons_self, List.mem_map.2 ⟨site, ?_, rfl⟩⟩
    exact Vm.mem_commandsAt.2 ⟨position, hsite, hstart.symm⟩
  have hsitePlain := hplain _ hmoment
  obtain ⟨total, next, address, after, rest, hnext, hrun, hnextRom, hnextSize, hpc, hram,
    haddresses, hinside⟩ := h.exists_run_of_plain hsite hcode hsitePlain hrom hsize hstart
  obtain ⟨target, rfl⟩ := hsitePlain.exists_start hnext
  obtain ⟨effect, heffect, hsp⟩ := hsitePlain.sp_of_effect? hnext
  have htotal : total ≤ count + 1 := by
    rcases Nat.lt_or_ge (count + 1) total with hshort | hle
    · have hlast := hinside _ (Cpu.pc_mem_of_steps hsteps hshort haddresses)
      have hordered := Vm.ordered_ofProgram options units program
      exact absurd hend.symm (hordered.start_ne hlast.1 hlast.2 final)
    · exact hle
  cases total with
  | zero => cases haddresses
  | succ m =>
      refine ⟨m, count - m, next, target, effect, by omega, hrun, hnextRom, hnextSize, hpc, ?_, ?_⟩
      · rw [Vm.executed_of_run haddresses hinside, List.map_map]
        exact h.totalEffect_commandsAt hsite hcode heffect
      · rw [hram]
        exact hsp

/--
Stack effects match execution.  A run from one boundary of commands to another,
through commands that are neither calls nor returns, moves the stack pointer by
the sum of the effects of the commands that it executes.
-/
theorem stack_effects_match (h : Linked options units program) {cpu last : Cpu}
    {count first final : Nat} (hrom : cpu.rom = program.words.toArray)
    (hsize : cpu.ram.size = 32768)
    (hstart : cpu.pc.toNat = (Vm.ofProgram options units program).start first)
    (hsteps : Cpu.steps count cpu = (last, none))
    (hend : last.pc.toNat = (Vm.ofProgram options units program).start final)
    (hplain : ∀ moment ∈ (Vm.ofProgram options units program).executed count cpu,
      (Vm.ofProgram options units program).Plain moment.1 moment.2) :
    ∃ total, Command.totalEffect (((Vm.ofProgram options units program).executed count cpu).map
        (·.1.command)) = some total ∧
      ((last.peek 0).toNat : Int) = ((cpu.peek 0).toNat + total) % 65536 := by
  -- each command takes at least one step, so the number of steps gets smaller
  induction count using Nat.strongRecOn generalizing cpu first with
  | ind count ih =>
      cases count with
      | zero =>
          cases hsteps
          have hlt : (last.peek 0).toNat < 65536 := (last.peek 0).toNat_lt
          refine ⟨0, rfl, ?_⟩
          omega
      | succ count =>
          obtain ⟨m, n, next, target, effect, hcount, hfirst, hnextRom, hnextSize, htarget,
            heffect, hsp⟩ := h.exists_first_command hrom hsize hstart hsteps hend hplain
          have hsplit := (Vm.ofProgram options units program).executed_add hfirst n
          rw [← hcount, Cpu.steps_add hfirst] at hsteps
          rw [← hcount, hsplit] at hplain ⊢
          obtain ⟨total, htotal, hlast⟩ := ih n (by omega) hnextRom hnextSize htarget hsteps
            fun moment hmoment => hplain moment (List.mem_append_right _ hmoment)
          refine ⟨effect + total, ?_, by omega⟩
          rw [List.map_append]
          exact Command.totalEffect_append heffect htotal

end Linked

namespace Sample

/-! ## A loop -/

/-- A unit that pushes a value and takes it off again, for ever. -/
def loopUnit : SourceUnit where
  name := "Main"
  source := Text.render ["label loop", "push constant 1", "if-goto loop"]

def loopParts : Parts :=
  [(loopUnit, [⟨.label "loop", ⟨1, 0, 10⟩⟩, ⟨.push .constants 1, ⟨2, 11, 26⟩⟩,
    ⟨.ifGoto "loop", ⟨3, 27, 39⟩⟩])]

def loopLines : Code :=
  (loopParts.blocks options).flatMap (Block.lines false)

def loopProgram : Program :=
  programOf .hack loopLines

def loopVm : Vm :=
  Vm.ofProgram options [loopUnit] loopProgram

theorem reads_loop : ∀ part ∈ loopParts, part.1.Reads part.2 := by
  decide +kernel

theorem linked_loop : Linked options [loopUnit] loopProgram := by
  have hbuilt : Built options [loopUnit] loopProgram ∧ Placed loopProgram 0 loopLines :=
    Parts.built reads_loop rfl rfl rfl (by decide +kernel) rfl (by decide +kernel)
      (by decide +kernel) (by decide +kernel) (by decide +kernel) (by decide)
  exact ⟨hbuilt.1, List.forall_mem_singleton.2 (by decide)⟩

theorem sites_loop : Site.ofUnits [loopUnit] =
    [⟨"Main", none, .label "loop"⟩, ⟨"Main", none, .push .constants 1⟩,
      ⟨"Main", none, .ifGoto "loop"⟩] :=
  (Parts.ofUnits_units reads_loop).trans (List.append_nil _)

theorem start_loop :
    loopVm.start 0 = 0 ∧ loopVm.start 1 = 0 ∧ loopVm.start 2 = 6 ∧ loopVm.start 3 = 11 := by
  decide +kernel

theorem commandsAt_loop :
    loopVm.commandsAt 0 = [⟨"Main", none, .label "loop"⟩, ⟨"Main", none, .push .constants 1⟩] ∧
      loopVm.commandsAt 6 = [⟨"Main", none, .ifGoto "loop"⟩] := by
  decide +kernel

/-- The processor at a boundary of the loop, with some contents of the stack pointer. -/
structure AtLoop (cpu : Cpu) (pc : Nat) (sp : UInt16) : Prop where
  rom : cpu.rom = loopProgram.words.toArray
  ramSize : cpu.ram.size = 32768
  pc : cpu.pc.toNat = pc
  sp : cpu.peek 0 = sp

theorem plain_push {ram : Ram} (hsp : ram 0 = 256) :
    loopVm.Plain ⟨"Main", none, .push .constants 1⟩ ram := by
  refine ⟨by simp, by simp, ?_, by simp [Vm.segmentCell?], by simp⟩
  rw [Vm.stackCells, hsp]
  exact Ram.forall_isStackCell (by decide)

theorem plain_ifGoto {ram : Ram} (hsp : ram 0 = 257) :
    loopVm.Plain ⟨"Main", none, .ifGoto "loop"⟩ ram := by
  refine ⟨by simp, by simp, ?_, by simp [Vm.segmentCell?], by simp⟩
  rw [Vm.stackCells, hsp]
  exact Ram.forall_isStackCell (by decide)

theorem run_push {cpu : Cpu} (h : AtLoop cpu 0 256) :
    ∃ count next, Cpu.steps count cpu = (next, none) ∧ AtLoop next 6 257 ∧ next.peek 256 = 1 ∧
      loopVm.executed count cpu = [(⟨"Main", none, .label "loop"⟩, cpu.peek),
        (⟨"Main", none, .push .constants 1⟩, cpu.peek)] := by
  obtain ⟨-, hone, htwo, -⟩ := start_loop
  have hsite : (Site.ofUnits [loopUnit])[1]? = some ⟨"Main", none, .push .constants 1⟩ := by
    rw [sites_loop]
    rfl
  have hcode : loopVm.start 1 < loopVm.start (1 + 1) := by
    rw [hone, htwo]
    decide
  obtain ⟨count, next, address, after, rest, heffect, hsteps, hrom, hsize, hpc, hram, haddresses,
    hinside⟩ := linked_loop.exists_run_of_plain hsite hcode (plain_push h.sp) h.rom h.ramSize
      (h.pc.trans hone.symm)
  cases heffect
  have hpushed : next.peek = Ram.push cpu.peek 1 := hram
  refine ⟨count, next, hsteps, ⟨hrom, hsize, hpc.trans htwo, ?_⟩, ?_, ?_⟩
  · rw [hpushed, Ram.push_apply, h.sp]
    rfl
  · rw [hpushed, Ram.push_apply, h.sp]
    rfl
  · have hexecuted := Vm.executed_of_run haddresses hinside
    rw [← loopVm, hone, commandsAt_loop.1] at hexecuted
    exact hexecuted

theorem run_ifGoto {cpu : Cpu} (h : AtLoop cpu 6 257) (htop : cpu.peek 256 = 1) :
    ∃ count next, Cpu.steps count cpu = (next, none) ∧ AtLoop next 0 256 ∧
      loopVm.executed count cpu = [(⟨"Main", none, .ifGoto "loop"⟩, cpu.peek)] := by
  obtain ⟨hzero, -, htwo, hthree⟩ := start_loop
  have hsite : (Site.ofUnits [loopUnit])[2]? = some ⟨"Main", none, .ifGoto "loop"⟩ := by
    rw [sites_loop]
    rfl
  have hcode : loopVm.start 2 < loopVm.start (2 + 1) := by
    rw [htwo, hthree]
    decide
  have hlabel : loopVm.labelAt? (.unit "Main") "loop" = some 0 := by
    decide +kernel
  obtain ⟨count, next, address, after, rest, heffect, hsteps, hrom, hsize, hpc, hram, haddresses,
    hinside⟩ := linked_loop.exists_run_of_plain hsite hcode (plain_ifGoto h.sp) h.rom h.ramSize
      (h.pc.trans htwo.symm)
  have hvalue : Ram.top cpu.peek ≠ 0 := by
    rw [Ram.top, h.sp, show (257 - 1 : UInt16) = 256 from rfl, htop]
    decide
  have hback : loopVm.effect? ⟨"Main", none, .ifGoto "loop"⟩ (loopVm.start (2 + 1))
      (loopVm.parked ⟨"Main", none, .ifGoto "loop"⟩ cpu.peek) =
        some (loopVm.start 0, Ram.drop cpu.peek) := by
    have hscope : (Site.mk "Main" none (.ifGoto "loop")).scope = .unit "Main" := rfl
    simp only [Vm.effect?, hscope, hlabel, Option.map_some, Vm.parked]
    exact congrArg (fun address => some (address, Ram.drop cpu.peek)) (if_neg hvalue)
  cases hback.symm.trans heffect
  refine ⟨count, next, hsteps, ⟨hrom, hsize, hpc.trans hzero, ?_⟩, ?_⟩
  · rw [hram, Ram.drop_sp, h.sp]
    rfl
  · have hexecuted := Vm.executed_of_run haddresses hinside
    rw [← loopVm, htwo, commandsAt_loop.2] at hexecuted
    exact hexecuted

/-- The processor before the loop. -/
def looping : Cpu :=
  .holding loopProgram.words 0 (Ram.set (fun _ => 0) 0 256)

theorem atLoop_looping : AtLoop looping 0 256 := by
  refine ⟨Cpu.rom_holding _ _ _, Cpu.size_holding _ _ _, ?_, ?_⟩
  · rw [looping, Cpu.pc_holding]
    rfl
  · rw [looping, Cpu.peek_holding]
    decide

/-- Once around the loop and into it again: one value more is on the stack. -/
theorem stack_effects_loop :
    Linked options [loopUnit] loopProgram ∧
      ∃ count last, Cpu.steps count looping = (last, none) ∧
        looping.pc.toNat = loopVm.start 0 ∧ last.pc.toNat = loopVm.start 2 ∧
        (loopVm.executed count looping).map (·.1.command) =
          [.label "loop", .push .constants 1, .ifGoto "loop", .label "loop",
            .push .constants 1] ∧
        (∀ moment ∈ loopVm.executed count looping, loopVm.Plain moment.1 moment.2) ∧
        looping.peek 0 = 256 ∧ last.peek 0 = 257 := by
  obtain ⟨hzero, -, htwo, -⟩ := start_loop
  have hlooping := atLoop_looping
  obtain ⟨m, second, hm, hsecond, htop, hpush⟩ := run_push hlooping
  obtain ⟨n, third, hn, hthird, hjump⟩ := run_ifGoto hsecond htop
  obtain ⟨k, last, hk, hlast, -, hagain⟩ := run_push hthird
  have hsteps : Cpu.steps (m + (n + k)) looping = (last, none) := by
    rw [Cpu.steps_add hm, Cpu.steps_add hn, hk]
  have hexecuted : loopVm.executed (m + (n + k)) looping =
      [(⟨"Main", none, .label "loop"⟩, looping.peek),
        (⟨"Main", none, .push .constants 1⟩, looping.peek),
        (⟨"Main", none, .ifGoto "loop"⟩, second.peek),
        (⟨"Main", none, .label "loop"⟩, third.peek),
        (⟨"Main", none, .push .constants 1⟩, third.peek)] := by
    rw [Vm.executed_add _ hm, Vm.executed_add _ hn, hpush, hjump, hagain]
    rfl
  have hplain : ∀ moment ∈ loopVm.executed (m + (n + k)) looping,
      loopVm.Plain moment.1 moment.2 := by
    rw [hexecuted]
    have hlabel : ∀ ram, loopVm.Plain ⟨"Main", none, .label "loop"⟩ ram :=
      fun _ => Vm.plain_of_isSilent rfl
    simp only [List.forall_mem_cons, hlabel, plain_push hlooping.sp, plain_push hthird.sp,
      plain_ifGoto hsecond.sp, true_and]
    exact List.forall_mem_nil _
  have hcommands : (loopVm.executed (m + (n + k)) looping).map (·.1.command) =
      [.label "loop", .push .constants 1, .ifGoto "loop", .label "loop", .push .constants 1] := by
    rw [hexecuted]
    rfl
  have hstart : looping.pc.toNat = loopVm.start 0 := hlooping.pc.trans hzero.symm
  have hend : last.pc.toNat = loopVm.start 2 := hlast.pc.trans htwo.symm
  obtain ⟨total, htotal, hsp⟩ := linked_loop.stack_effects_match hlooping.rom hlooping.ramSize
    hstart hsteps hend hplain
  rw [← loopVm, hcommands] at htotal
  cases htotal
  rw [hlooping.sp] at hsp
  refine ⟨linked_loop, _, last, hsteps, hstart, hend, hcommands, hplain, hlooping.sp, ?_⟩
  exact UInt16.toNat_inj.1 (Int.ofNat.inj hsp)

/-! ## Names that do not stay on their line -/

open Code View

def bare : Ram :=
  Ram.set (fun _ => 0) 0 256

theorem push_bare (value : UInt16) : bare.push value 0 = 257 := by
  rw [Ram.push_sp _ (by decide)]
  rfl

theorem shows_bare {program : Program} (hlength : program.words.length ≤ 32767) (pc : UInt16) :
    Shows program (.holding program.words pc bare)
      ⟨pc.toNat, (Cpu.holding program.words pc bare).a, (Cpu.holding program.words pc bare).d,
        bare⟩ := by
  refine ⟨Cpu.rom_holding _ _ _, hlength, Cpu.size_holding _ _ _, ?_, rfl, rfl, ?_⟩
  · rw [Cpu.pc_holding]
  · rw [Cpu.peek_holding]
    funext cell
    by_cases hzero : cell = 0
    · subst hzero
      rfl
    · simp [bare, Ram.set, hzero]

/-- A unit whose name hides what comes after it in a comment, and which jumps over three pushes. -/
def hidingUnit : SourceUnit where
  name := "x)//"
  source := Text.render ["goto b", "push constant 1", "push constant 1", "push constant 1",
    "label b"]

def hidingParts : Parts :=
  [(hidingUnit, [⟨.goto "b", ⟨1, 0, 6⟩⟩, ⟨.push .constants 1, ⟨2, 7, 22⟩⟩,
    ⟨.push .constants 1, ⟨3, 23, 38⟩⟩, ⟨.push .constants 1, ⟨4, 39, 54⟩⟩,
    ⟨.label "b", ⟨5, 55, 62⟩⟩])]

/-- The lines as the assembler finds them. -/
def hidingLines : Code :=
  jumpTo "x)" ++ (push (.immediate 1) ++ (push (.immediate 1) ++ (push (.immediate 1) ++
    label "x")))

def hidingProgram : Program :=
  programOf .hack hidingLines

def hidingVm : Vm :=
  Vm.ofProgram options [hidingUnit] hidingProgram

theorem built_hiding : Built options [hidingUnit] hidingProgram ∧
    Placed hidingProgram 0 hidingLines := by
  have hreads : ∀ part ∈ hidingParts, part.1.Reads part.2 := by
    decide +kernel
  have hcode : codeLines (Block.render false (hidingParts.blocks options)) =
      codeLines (Text.render (hidingLines.map Line.text)) :=
    codeLines_render_congr (by decide +kernel) (by decide +kernel) (by decide +kernel)
  exact Parts.built hreads rfl rfl rfl (by decide +kernel) hcode (by decide +kernel)
    (by decide +kernel) (by decide +kernel) (by decide +kernel) (by decide)

theorem boundaries_hiding : hidingVm.start 0 = 0 ∧ hidingVm.start 4 = 20 ∧
    hidingVm.commandsAt 0 = [⟨"x)//", none, .goto "b"⟩] ∧
    ∀ address ∈ [1, 16, 17, 18, 19], hidingVm.commandsAt address = [] := by
  decide +kernel

/-- The jump lands behind the first instructions of the last push. -/
theorem passes_hiding (a d : UInt16) : ∃ a', Passes hidingProgram ⟨0, a, d, bare⟩
    [0, 1, 16, 17, 18, 19] ⟨20, a', d, bare.push d⟩ := by
  have hplaced := built_hiding.2
  have hjump : Placed hidingProgram 0 (jumpTo "x)") := hplaced.left
  have hpush : Placed hidingProgram 16 pushD := hplaced.right.right.right.left.right
  have hvariable : hidingProgram.resolve "x)" = 16 := by
    decide +kernel
  have hjumped := passes_jumpTo a d bare hjump (by rw [hvariable]; decide)
  rw [hvariable] at hjumped
  exact ⟨_, hjumped.trans (passes_pushD hpush (by decide))⟩

/-- A unit whose name goes on for three lines, the second of which moves the stack pointer. -/
def movingUnit : SourceUnit where
  name := "0\nM=M+1\n@y"
  source := Text.render ["function f 0", "label l", "push static 0", "goto l"]

def movingParts : Parts :=
  [(movingUnit, [⟨.function "f" 0, ⟨1, 0, 12⟩⟩, ⟨.label "l", ⟨2, 13, 20⟩⟩,
    ⟨.push .statics 0, ⟨3, 21, 34⟩⟩, ⟨.goto "l", ⟨4, 35, 41⟩⟩])]

def movingBefore : Code :=
  label "f" ++ label "f$l"

def movingAfter : Code :=
  [assign toD (.it .m)] ++ pushD ++ jumpTo "f$l"

/-- The lines as the assembler finds them. -/
def movingLines : Code :=
  movingBefore ++ ([loadConstant 0, assign toM (.succ .m), load "y.0"] ++ movingAfter)

def movingProgram : Program :=
  programOf .hack movingLines

def movingVm : Vm :=
  Vm.ofProgram options [movingUnit] movingProgram

theorem built_moving : Built options [movingUnit] movingProgram ∧
    Placed movingProgram 0 movingLines := by
  have hlines : (movingParts.blocks options).flatMap (Block.lines false) =
      movingBefore ++ ([load "0\nM=M+1\n@y.0"] ++ movingAfter) := by
    decide +kernel
  have hname : Text.render ([load "0\nM=M+1\n@y.0"].map Line.text) =
      Text.render ([loadConstant 0, assign toM (.succ .m), load "y.0"].map Line.text) := by
    decide +kernel
  have htext : Block.render false (movingParts.blocks options) =
      Text.render (movingLines.map Line.text) := by
    rw [Block.render, hlines, movingLines]
    simp only [List.map_append, Text.render_append, hname]
  have hreads : ∀ part ∈ movingParts, part.1.Reads part.2 := by
    decide +kernel
  exact Parts.built hreads rfl rfl rfl (by decide +kernel) (congrArg codeLines htext)
    (by decide +kernel) (by decide +kernel) (by decide +kernel) (by decide +kernel) (by decide)

theorem boundaries_moving : movingVm.start 3 = 8 ∧
    movingVm.commandsAt 8 = [⟨"0\nM=M+1\n@y", some "f", .goto "l"⟩] ∧
    (∀ address ∈ [9, 0, 1], movingVm.commandsAt address = []) ∧
    movingVm.commandsAt 2 = [⟨"0\nM=M+1\n@y", none, .function "f" 0⟩,
      ⟨"0\nM=M+1\n@y", some "f", .label "l"⟩, ⟨"0\nM=M+1\n@y", some "f", .push .statics 0⟩] ∧
    ∀ address ∈ [3, 4, 5, 6, 7], movingVm.commandsAt address = [] := by
  decide +kernel

/-- Memory after the line that moves the stack pointer. -/
def moved : Ram :=
  bare.set 0 257

theorem push_moved (value : UInt16) : moved.push value 0 = 258 := by
  rw [Ram.push_sp _ (by decide)]
  rfl

theorem passes_moving (a d : UInt16) :
    ∃ a', Passes movingProgram ⟨8, a, d, bare⟩ [8, 9, 0, 1] ⟨2, a', d, moved⟩ := by
  have hplaced := built_moving.2
  have hlabel : Placed movingProgram 0 (label "f$l") := hplaced.left.right
  have hjump : Placed movingProgram 8 (jumpTo "f$l") := hplaced.right.right.right
  have hmove : Placed movingProgram 0 ([loadConstant 0, assign toM (.succ .m)] ++
      ([load "y.0"] ++ movingAfter)) := hplaced.right
  have htarget : movingProgram.resolve "f$l" = 0 := by
    rw [Program.resolve, hlabel.1]
    rfl
  have hjumped := passes_jumpTo a d bare hjump (by rw [htarget]; decide)
  rw [htarget] at hjumped
  have hmoved : Passes movingProgram ⟨0, 0, d, bare⟩ (List.range' 0 2) ⟨2, 0, d, moved⟩ := by
    apply Follows.passes hmove.left
    · simp [toM]
    · simp [toM, output, Comp.operand?, Comp.value, moved]
      rfl
  exact ⟨_, hjumped.trans hmoved⟩

theorem passes_pushing (a d : UInt16) : ∃ a' value, Passes movingProgram ⟨2, a, d, moved⟩
    [2, 3, 4, 5, 6, 7] ⟨8, a', value, moved.push value⟩ := by
  have hplaced := built_moving.2
  have hpush : Placed movingProgram 2 ([load "y.0", assign toD (.it .m)] ++ (pushD ++
      jumpTo "f$l")) := hplaced.right.2.2
  have hstatic : movingProgram.resolve "y.0" < 0x8000 := by
    decide +kernel
  have hloaded : Passes movingProgram ⟨2, a, d, moved⟩ (List.range' 2 2)
      ⟨4, movingProgram.resolve "y.0", moved (movingProgram.resolve "y.0"), moved⟩ := by
    apply Follows.passes hpush.left
    · simp [toD, Comp.operand?, hstatic]
    · simp [toD, output, Comp.operand?, Comp.value]
  exact ⟨_, _, hloaded.extend (passes_pushD hpush.right.left (by decide))⟩

theorem plain_static : movingVm.Plain ⟨"0\nM=M+1\n@y", some "f", .push .statics 0⟩ moved := by
  refine ⟨by simp, by simp, Ram.forall_isStackCell (by decide), ?_, by simp⟩
  rintro cell ⟨⟩
  decide +kernel

theorem run_hiding : ∃ last, Cpu.steps 6 (.holding hidingProgram.words 0 bare) = (last, none) ∧
    hidingVm.executed 6 (.holding hidingProgram.words 0 bare) =
      [(⟨"x)//", none, .goto "b"⟩, bare)] ∧ last.pc.toNat = 20 ∧ last.peek 0 = 257 := by
  obtain ⟨-, -, hfirst, hrest⟩ := boundaries_hiding
  obtain ⟨a, hpasses⟩ := passes_hiding (Cpu.holding hidingProgram.words 0 bare).a
    (Cpu.holding hidingProgram.words 0 bare).d
  obtain ⟨last, hsteps, hlast, hexecuted⟩ :=
    hpasses.exists_executed 6 rfl (shows_bare built_hiding.1.length_le 0) hrest
  rw [hfirst] at hexecuted
  exact ⟨last, hsteps, hexecuted, hlast.pc,
    (congrFun hlast.ram 0).trans (push_bare (Cpu.holding hidingProgram.words 0 bare).d)⟩

theorem run_moving : ∃ last, Cpu.steps 10 (.holding movingProgram.words 8 bare) = (last, none) ∧
    movingVm.executed 10 (.holding movingProgram.words 8 bare) =
      [(⟨"0\nM=M+1\n@y", some "f", .goto "l"⟩, bare),
        (⟨"0\nM=M+1\n@y", none, .function "f" 0⟩, moved),
        (⟨"0\nM=M+1\n@y", some "f", .label "l"⟩, moved),
        (⟨"0\nM=M+1\n@y", some "f", .push .statics 0⟩, moved)] ∧
    last.pc.toNat = 8 ∧ last.peek 0 = 258 := by
  obtain ⟨-, hgoto, hbetween, hpush, hrest⟩ := boundaries_moving
  obtain ⟨a, hmoving⟩ := passes_moving (Cpu.holding movingProgram.words 8 bare).a
    (Cpu.holding movingProgram.words 8 bare).d
  obtain ⟨middle, hfirst, hmiddle, hbefore⟩ :=
    hmoving.exists_executed 4 rfl (shows_bare built_moving.1.length_le 8) hbetween
  obtain ⟨a', value, hpushing⟩ := passes_pushing a (Cpu.holding movingProgram.words 8 bare).d
  obtain ⟨last, hsecond, hlast, hafter⟩ := hpushing.exists_executed 6 rfl hmiddle hrest
  have hexecuted := movingVm.executed_add hfirst 6
  rw [hbefore, hafter, hgoto, hpush] at hexecuted
  exact ⟨last, (Cpu.steps_add hfirst 6).trans hsecond, hexecuted, hlast.pc,
    (congrFun hlast.ram 0).trans (push_moved value)⟩

/--
Names that hide the rest of their line in a comment, or that go on for several
lines, can break the stack effects.  Here a `goto` leaves a value on the stack;
and a loop that pushes one value moves the stack pointer by two.
-/
theorem names_break_stack_effects :
    (Built options [hidingUnit] hidingProgram ∧ bare 0 = 256 ∧
      ∃ last, Cpu.steps 6 (.holding hidingProgram.words 0 bare) = (last, none) ∧
        hidingVm.start 0 = 0 ∧ hidingVm.start 4 = last.pc.toNat ∧
        hidingVm.executed 6 (.holding hidingProgram.words 0 bare) =
          [(⟨"x)//", none, .goto "b"⟩, bare)] ∧
        hidingVm.Plain ⟨"x)//", none, .goto "b"⟩ bare ∧
        Command.totalEffect [.goto "b"] = some 0 ∧ last.peek 0 = 257) ∧
    Built options [movingUnit] movingProgram ∧
      ∃ last, Cpu.steps 10 (.holding movingProgram.words 8 bare) = (last, none) ∧
        movingVm.start 3 = 8 ∧ movingVm.start 3 = last.pc.toNat ∧
        (movingVm.executed 10 (.holding movingProgram.words 8 bare)).map (·.1.command) =
          [.goto "l", .function "f" 0, .label "l", .push .statics 0] ∧
        (∀ moment ∈ movingVm.executed 10 (.holding movingProgram.words 8 bare),
          movingVm.Plain moment.1 moment.2) ∧
        Command.totalEffect [.goto "l", .function "f" 0, .label "l", .push .statics 0] = some 1 ∧
        last.peek 0 = 258 := by
  obtain ⟨hidden, hsteps, hexecuted, hpc, hsp⟩ := run_hiding
  obtain ⟨moving, hsteps', hexecuted', hpc', hsp'⟩ := run_moving
  obtain ⟨hfirst, hlast, -⟩ := boundaries_hiding
  have hboundary := boundaries_moving.1
  refine ⟨⟨built_hiding.1, rfl, hidden, hsteps, hfirst, hlast.trans hpc.symm, hexecuted,
    Vm.plain_goto, rfl, hsp⟩, built_moving.1, moving, hsteps', hboundary,
    hboundary.trans hpc'.symm, ?_, ?_, rfl, hsp'⟩
  · rw [hexecuted']
    rfl
  · have hfunction : movingVm.Plain ⟨"0\nM=M+1\n@y", none, .function "f" 0⟩ moved :=
      Vm.plain_of_isSilent rfl
    have hlabel : movingVm.Plain ⟨"0\nM=M+1\n@y", some "f", .label "l"⟩ moved :=
      Vm.plain_of_isSilent rfl
    rw [hexecuted']
    simp only [List.forall_mem_cons, Vm.plain_goto, hfunction, hlabel, plain_static, true_and]
    exact List.forall_mem_nil _

end Sample

end StackVm
