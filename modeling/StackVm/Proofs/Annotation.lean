import StackVm.Proofs.Asm.Resolution
import StackVm.Proofs.Program

/-! # Comments do not change a program

The same program compiles with comments and without.  A comment stands on a line
of its own, from which the assembler reads no code, so both texts have the same
codes, whatever the names of the units are.  The assembler looks at nothing else.
-/

namespace StackVm

open Asm Text

/-! ## Codes -/

namespace Asm

theorem codesOf_render_append (xs ys : List String) :
    codesOf (render (xs ++ ys)) = codesOf (render xs) ++ codesOf (render ys) := by
  rw [render_append, codesOf, lines_render_append, List.map_append, List.filter_append]
  rfl

theorem codesOf_render_comment {remark : String} (h : '\n' ∉ remark.toList) :
    codesOf (render [(Line.comment remark).text]) = [] := by
  have hlines : lines (render [(Line.comment remark).text]).toList =
      [(Line.comment remark).text.toList] := by
    apply lines_render
    simpa [Line.text] using h
  have hcode : codeOf (Line.comment remark).text.toList = [] :=
    Line.codeOf_text (show (Line.comment remark).Legible 0 from h)
  rw [codesOf, hlines, List.map_cons, hcode]
  rfl

/-- The first pass takes no notice of the numbers of lines. -/
theorem Layout.addAll_eq_ok_congr {xs ys : List CodeLine} {layout final : Layout}
    (hcodes : xs.map CodeLine.code = ys.map CodeLine.code) (h : layout.addAll xs = .ok final) :
    layout.addAll ys = .ok final := by
  induction xs generalizing ys layout with
  | nil =>
      cases ys with
      | nil => exact h
      | cons y ys => cases hcodes
  | cons x xs ih =>
      cases ys with
      | nil => cases hcodes
      | cons y ys =>
          rw [List.map_cons, List.map_cons, List.cons.injEq] at hcodes
          obtain ⟨next, hadd, hrest⟩ := addAll_cons_eq_ok_iff.1 h
          rw [add_eq_ok_iff, hcodes.1, ← add_eq_ok_iff] at hadd
          exact addAll_cons_eq_ok_iff.2 ⟨next, hadd, ih hcodes.2 hrest⟩

theorem assemble_of_codesOf_eq {machine : Machine} {text other : String} {program : Program}
    (hcodes : codesOf text = codesOf other) (h : assemble machine text = .ok program) :
    assemble machine other = .ok program := by
  obtain ⟨layout, instructions, hlayout, hreads, hprogram⟩ := assemble_eq_ok_iff.1 h
  have hlines : (codeLines text).map CodeLine.code = (codeLines other).map CodeLine.code := by
    rw [map_code_codeLines, map_code_codeLines, hcodes]
  rw [hcodes] at hreads
  exact assemble_eq_ok_iff.2
    ⟨layout, instructions, Layout.addAll_eq_ok_congr hlines hlayout, hreads, hprogram⟩

end Asm

/-! ## Blocks -/

namespace Block

theorem codesOf_render_block {block : Block}
    (h : ∀ remark, block.remark? = some remark → '\n' ∉ remark.toList) :
    codesOf (render true [block]) = codesOf (render false [block]) := by
  cases hremark : block.remark? with
  | none => simp [render, lines, hremark]
  | some remark =>
      have hlines : (block.lines true).map Line.text =
          [(Line.comment remark).text] ++ (block.lines false).map Line.text := by
        simp [lines, hremark]
      simp only [render, List.flatMap_cons, List.flatMap_nil, List.append_nil]
      rw [hlines, codesOf_render_append, codesOf_render_comment (h remark hremark), List.nil_append]

theorem codesOf_render_blocks {blocks : List Block}
    (h : ∀ block ∈ blocks, ∀ remark, block.remark? = some remark → '\n' ∉ remark.toList) :
    codesOf (render true blocks) = codesOf (render false blocks) := by
  induction blocks with
  | nil => rfl
  | cons block rest ih =>
      obtain ⟨hblock, hrest⟩ := List.forall_mem_cons.1 h
      have happend : ∀ annotate, codesOf (render annotate (block :: rest)) =
          codesOf (render annotate [block]) ++ codesOf (render annotate rest) := by
        intro annotate
        simp only [render, List.flatMap_cons, List.flatMap_nil, List.append_nil, List.map_append]
        exact codesOf_render_append _ _
      rw [happend, happend, codesOf_render_block hblock, ih hrest]

end Block

/-! ## Programs -/

/-- The remarks of a program stay on their lines if its entry does. -/
theorem Options.newline_not_mem_remark {options : Options} {bootstrap : Bool}
    {units : List SourceUnit} (hentry : '\n' ∉ options.entry.toList) :
    ∀ block ∈ options.blocks bootstrap units, ∀ remark, block.remark? = some remark →
      '\n' ∉ remark.toList := by
  intro block hblock remark hremark
  have hrequest := Lowering.request_mem_of_mem_trace hblock
  obtain ⟨lowering, request⟩ := block
  cases request with
  | unit name => cases hremark
  | bootstrap entry =>
      cases hremark
      have hsame : entry = options.entry := by
        cases bootstrap with
        | false => simp [requests, openingRequests, SourceUnit.requests] at hrequest
        | true => simpa [requests, openingRequests, SourceUnit.requests] using hrequest
      rw [hsame, String.toList_append, List.mem_append, not_or]
      exact ⟨by decide, hentry⟩
  | command command =>
      cases hremark
      have hcommand : ∃ unit ∈ units, command ∈ unit.commands := by
        cases bootstrap <;> simpa [requests, openingRequests, SourceUnit.requests] using hrequest
      obtain ⟨unit, -, hmem⟩ := hcommand
      exact Command.newline_not_mem_text
        (SourceUnit.isSymbol_of_mem_commands (List.mem_map_of_mem hmem))

theorem compileUnits_annotate (options : Options) (units : List SourceUnit) (annotate : Bool) :
    compileUnits { options with annotate } units =
      (options.plan (options.bootstrap.enabled true) units).map fun made =>
        Block.render annotate (options.lowering.trace made) := by
  have hplan : ({ options with annotate } : Options).plan (options.bootstrap.enabled true) units =
      options.plan (options.bootstrap.enabled true) units := rfl
  rw [compileUnits, compileWith_eq, hplan]
  cases options.plan (options.bootstrap.enabled true) units <;> rfl

/--
With comments a program compiles if and only if it compiles without, else with the same error; and
every machine's assembler makes the same words and symbols of both texts, or refuses both.
-/
theorem annotation_keeps_program (options : Options) (units : List SourceUnit)
    (hentry : '\n' ∉ options.entry.toList) :
    ((∃ text, compileUnits { options with annotate := true } units = .ok text) ↔
        ∃ text, compileUnits { options with annotate := false } units = .ok text) ∧
      (∀ error, compileUnits { options with annotate := true } units = .error error ↔
        compileUnits { options with annotate := false } units = .error error) ∧
      ∀ annotated plain, compileUnits { options with annotate := true } units = .ok annotated →
        compileUnits { options with annotate := false } units = .ok plain →
          ∀ machine program, assemble machine annotated = .ok program ↔
            assemble machine plain = .ok program := by
  rw [compileUnits_annotate, compileUnits_annotate]
  cases hplan : options.plan (options.bootstrap.enabled true) units with
  | error error => simp [Except.map]
  | ok made =>
      have hmade := (Options.plan_eq_ok_iff.1 hplan).2.2.2
      have hcodes : codesOf (Block.render true (options.lowering.trace made)) =
          codesOf (Block.render false (options.lowering.trace made)) := by
        rw [hmade]
        exact Block.codesOf_render_blocks (Options.newline_not_mem_remark hentry)
      refine ⟨by simp [Except.map], by simp [Except.map], ?_⟩
      rintro annotated plain ⟨⟩ ⟨⟩ machine program
      exact ⟨assemble_of_codesOf_eq hcodes, assemble_of_codesOf_eq hcodes.symm⟩

namespace Sample

/-- A unit whose name has a line break and the mark of a comment. -/
def oddUnits : List SourceUnit :=
  [⟨"a\n@b//", render ["push static 0", "push static 1"]⟩]

def oddText (annotate : Bool) : String :=
  render ((if annotate then ["// bootstrap: Sys.init"] else []) ++
    ["@261", "D=A", "@SP", "M=D", "@Sys.init", "0;JMP"] ++
    (if annotate then ["// push static 0"] else []) ++
    ["@a\n@b//.0", "D=M", "@SP", "M=M+1", "A=M-1", "M=D"] ++
    (if annotate then ["// push static 1"] else []) ++
    ["@a\n@b//.1", "D=M", "@SP", "M=M+1", "A=M-1", "M=D"])

theorem annotation_odd :
    '\n' ∉ ({} : Options).entry.toList ∧
      compileUnits { annotate := true } oddUnits = .ok (oddText true) ∧
      compileUnits { annotate := false } oddUnits = .ok (oddText false) ∧
      ∀ machine program,
        assemble machine (oddText true) = .ok program ↔
          assemble machine (oddText false) = .ok program := by
  have hentry : '\n' ∉ ({} : Options).entry.toList := by decide
  have htrue : compileUnits { annotate := true } oddUnits = .ok (oddText true) :=
    toOption_eq_some_iff.1 (by decide +kernel)
  have hfalse : compileUnits { annotate := false } oddUnits = .ok (oddText false) :=
    toOption_eq_some_iff.1 (by decide +kernel)
  exact ⟨hentry, htrue, hfalse, (annotation_keeps_program {} oddUnits hentry).2.2 _ _ htrue hfalse⟩

end Sample

end StackVm
