import StackVm.Proofs.Asm.Linking

/-! # What a code says

The assembler keeps of every line its code.  A code defines a label, loads an
address or computes a value.  The grammar of codes is stated here on their
characters, and each reader is shown to accept this grammar and nothing else.
-/

namespace StackVm

namespace Asm

open Text

/-! ## The parts of a computation -/

/-- The second spelling of a computation whose operands may change places. -/
def Comp.alias? : Comp → Option String
  | succD => some "1+D"
  | succ .a => some "1+A"
  | succ .m => some "1+M"
  | add .a => some "A+D"
  | add .m => some "M+D"
  | and .a => some "A&D"
  | and .m => some "M&D"
  | or .a => some "A|D"
  | or .m => some "M|D"
  | _ => none

theorem Comp.ofText?_eq_some_iff {text : String} {comp : Comp} :
    ofText? text = some comp ↔ text = comp.text ∨ comp.alias? = some text := by
  constructor
  · intro h
    unfold ofText? at h
    split at h
    all_goals
      cases h
      try first
        | exact .inl rfl
        | exact .inr rfl
  · rintro (rfl | halias)
    · exact ofText?_text comp
    · revert halias
      cases comp with
      | succ y | add y | and y | or y => cases y <;> rintro ⟨⟩ <;> rfl
      | _ => rintro ⟨⟩ <;> rfl

theorem Comp.all_isPart_of_ofText? {text : String} {comp : Comp} (h : ofText? text = some comp) :
    text.toList.all isPart = true := by
  rcases ofText?_eq_some_iff.1 h with rfl | halias
  · exact comp.all_isPart_text
  · revert halias
    cases comp with
    | succ y | add y | and y | or y => cases y <;> rintro ⟨⟩ <;> decide
    | _ => rintro ⟨⟩ <;> decide

theorem Jump.ofText?_eq_some_iff {text : String} {jump : Jump} :
    ofText? text = some jump ↔ text = jump.text := by
  constructor
  · intro h
    unfold ofText? at h
    split at h
    all_goals
      cases h
      try rfl
  · rintro rfl
    exact ofText?_text jump

namespace Dest

/-- Whether a destination has the place that a letter names. -/
def has (dest : Dest) (letter : Char) : Bool :=
  letter == 'A' && dest.a || letter == 'D' && dest.d || letter == 'M' && dest.m

def letters : List Char :=
  ['A', 'D', 'M']

theorem ext_has {x y : Dest} (h : ∀ letter ∈ letters, x.has letter = y.has letter) : x = y := by
  obtain ⟨a, d, m⟩ := x
  obtain ⟨a', d', m'⟩ := y
  have ha : a = a' := by simpa [has] using h 'A' (by decide)
  have hd : d = d' := by simpa [has] using h 'D' (by decide)
  have hm : m = m' := by simpa [has] using h 'M' (by decide)
  rw [ha, hd, hm]

theorem exists_insert? {dest : Dest} {letter : Char} (hletter : letter ∈ letters)
    (habsent : dest.has letter = false) : ∃ next, dest.insert? letter = some next := by
  simp only [letters, List.mem_cons, List.not_mem_nil, or_false] at hletter
  rcases hletter with rfl | rfl | rfl <;> simpa [insert?, has] using habsent

theorem has_of_insert? {dest next : Dest} {letter : Char} (h : dest.insert? letter = some next) :
    letter ∈ letters ∧ dest.has letter = false ∧
      ∀ other ∈ letters, next.has other = (dest.has other || other == letter) := by
  obtain ⟨a, d, m⟩ := dest
  unfold insert? at h
  split at h
  · cases a <;> cases h
    simp [letters, has]
  · cases d <;> cases h
    simp [letters, has]
  · cases m <;> cases h
    simp [letters, has]
  · cases h

theorem foldlM_insert?_eq_some_iff {cs : List Char} {dest final : Dest} :
    cs.foldlM insert? dest = some final ↔
      cs.Nodup ∧ (∀ c ∈ cs, c ∈ letters ∧ dest.has c = false) ∧
        ∀ other ∈ letters, final.has other = (dest.has other || cs.contains other) := by
  induction cs generalizing dest with
  | nil =>
      constructor
      · rintro ⟨⟩
        simp
      · rintro ⟨-, -, hfinal⟩
        exact congrArg some (ext_has fun other hother => by simpa using (hfinal other hother).symm)
  | cons c cs ih =>
      rw [List.foldlM_cons, Option.bind_eq_bind, Option.bind_eq_some_iff]
      constructor
      · rintro ⟨next, hinsert, hrest⟩
        obtain ⟨hletter, habsent, hnext⟩ := has_of_insert? hinsert
        obtain ⟨hnodup, hcs, hfinal⟩ := ih.1 hrest
        have hfresh : ∀ other ∈ cs, dest.has other = false ∧ other ≠ c := by
          intro other hother
          obtain ⟨hmem, hfalse⟩ := hcs other hother
          simpa [hnext other hmem] using hfalse
        refine ⟨List.nodup_cons.2 ⟨fun hc => (hfresh c hc).2 rfl, hnodup⟩, ?_, ?_⟩
        · intro other hother
          rcases List.mem_cons.1 hother with rfl | hother
          · exact ⟨hletter, habsent⟩
          · exact ⟨(hcs other hother).1, (hfresh other hother).1⟩
        · intro other hother
          rw [hfinal other hother, hnext other hother, List.contains_cons, Bool.or_assoc]
      · rintro ⟨hnodup, hcs, hfinal⟩
        obtain ⟨hc, hnodup⟩ := List.nodup_cons.1 hnodup
        obtain ⟨hletter, habsent⟩ := hcs c List.mem_cons_self
        obtain ⟨next, hinsert⟩ := exists_insert? hletter habsent
        have hnext := (has_of_insert? hinsert).2.2
        refine ⟨next, hinsert, ih.2 ⟨hnodup, ?_, ?_⟩⟩
        · intro other hother
          obtain ⟨hmem, hfalse⟩ := hcs other (List.mem_cons_of_mem _ hother)
          have hne : other ≠ c := by
            rintro rfl
            exact hc hother
          exact ⟨hmem, by simp [hnext other hmem, hfalse, hne]⟩
        · intro other hother
          rw [hfinal other hother, hnext other hother, List.contains_cons, Bool.or_assoc]

/-- A destination is read from different letters in any order. -/
theorem ofText?_eq_some_iff {text : String} {dest : Dest} :
    ofText? text = some dest ↔
      text.toList.Nodup ∧ (∀ c ∈ text.toList, c ∈ letters) ∧
        ∀ letter ∈ letters, dest.has letter = text.toList.contains letter := by
  have hempty : ∀ letter, Dest.has {} letter = false := by
    intro letter
    simp [has]
  simp only [ofText?, foldlM_insert?_eq_some_iff, hempty, and_true, Bool.false_or]

theorem exists_ofText?_eq_some_iff {text : String} :
    (∃ dest, ofText? text = some dest) ↔
      text.toList.Nodup ∧ ∀ c ∈ text.toList, c ∈ letters := by
  simp only [ofText?_eq_some_iff]
  constructor
  · rintro ⟨dest, hnodup, hletters, -⟩
    exact ⟨hnodup, hletters⟩
  · rintro ⟨hnodup, hletters⟩
    refine ⟨⟨text.toList.contains 'A', text.toList.contains 'D', text.toList.contains 'M'⟩,
      hnodup, hletters, ?_⟩
    simp [letters, has]

theorem all_isPart_of_ofText? {text : String} {dest : Dest} (h : ofText? text = some dest) :
    text.toList.all isPart = true := by
  have hletters : letters.all isPart = true := by
    decide
  rw [List.all_eq_true] at hletters ⊢
  exact fun c hc => hletters c ((ofText?_eq_some_iff.1 h).2.1 c hc)

end Dest

theorem splitFirst?_eq_some_iff {mark : Char} {cs before after : List Char} :
    splitFirst? mark cs = some (before, after) ↔ cs = before ++ mark :: after ∧ mark ∉ before := by
  constructor
  · intro h
    by_cases hmark : mark ∈ cs
    · obtain ⟨xs, ys, rfl, hxs⟩ := List.eq_append_cons_of_mem hmark
      rw [splitFirst?_append hxs] at h
      cases h
      exact ⟨rfl, hxs⟩
    · rw [splitFirst?_eq_none hmark] at h
      cases h
  · rintro ⟨rfl, hbefore⟩
    exact splitFirst?_append hbefore after

/-- The code of a computation has three parts, the first and the last of which may be missing. -/
inductive Spells : (dest comp jump : String) → List Char → Prop where
  | comp (comp : String) : Spells "" comp "" comp.toList
  | dest (dest comp : String) : Spells dest comp "" (dest.toList ++ '=' :: comp.toList)
  | jump (comp jump : String) : Spells "" comp jump (comp.toList ++ ';' :: jump.toList)
  | both (dest comp jump : String) :
      Spells dest comp jump (dest.toList ++ '=' :: (comp.toList ++ ';' :: jump.toList))

theorem spells_computeParts (code : List Char) :
    Spells (computeParts code).1 (computeParts code).2.1 (computeParts code).2.2 code := by
  have hrest : ∀ rest : List Char,
      (∃ comp, (splitFirst? ';' rest).getD (rest, []) = (comp, []) ∧ rest = comp) ∨
        ∃ comp jump, (splitFirst? ';' rest).getD (rest, []) = (comp, jump) ∧
          rest = comp ++ ';' :: jump := by
    intro rest
    cases hsplit : splitFirst? ';' rest with
    | none => exact .inl ⟨rest, rfl, rfl⟩
    | some parts => exact .inr ⟨parts.1, parts.2, rfl, (splitFirst?_eq_some_iff.1 hsplit).1⟩
  unfold computeParts
  cases hsplit : splitFirst? '=' code with
  | none =>
      simp only [Option.getD_none]
      rcases hrest code with ⟨comp, hcut, hcode⟩ | ⟨comp, jump, hcut, hcode⟩
      · rw [hcut]
        simpa [← hcode] using Spells.comp (String.ofList comp)
      · rw [hcut]
        simpa [← hcode] using Spells.jump (String.ofList comp) (String.ofList jump)
  | some parts =>
      obtain ⟨dest, rest⟩ := parts
      obtain ⟨rfl, -⟩ := splitFirst?_eq_some_iff.1 hsplit
      simp only [Option.getD_some]
      rcases hrest rest with ⟨comp, hcut, hcode⟩ | ⟨comp, jump, hcut, hcode⟩
      · rw [hcut]
        simpa [← hcode] using Spells.dest (String.ofList dest) (String.ofList comp)
      · rw [hcut]
        simpa [← hcode] using
          Spells.both (String.ofList dest) (String.ofList comp) (String.ofList jump)

/-- Parts without marks are found again. -/
theorem Spells.computeParts_eq {dest comp jump : String} {code : List Char}
    (h : Spells dest comp jump code) (hdest : dest.toList.all isPart = true)
    (hcomp : comp.toList.all isPart = true) (hjump : jump.toList.all isPart = true) :
    computeParts code = (dest, comp, jump) := by
  have hequals : ∀ {cs : List Char}, cs.all isPart = true → '=' ∉ cs :=
    fun hcs => not_mem_of_isPart hcs '=' (by decide)
  have hsemicolon : ';' ∉ comp.toList := not_mem_of_isPart hcomp ';' (by decide)
  cases h with
  | comp =>
      simp [computeParts, splitFirst?_eq_none (hequals hcomp), splitFirst?_eq_none hsemicolon]
  | dest =>
      simp [computeParts, splitFirst?_append (hequals hdest), splitFirst?_eq_none hsemicolon]
  | jump =>
      have hnone : '=' ∉ comp.toList ++ ';' :: jump.toList := by
        simp [hequals hcomp, hequals hjump]
      simp [computeParts, splitFirst?_eq_none hnone, splitFirst?_append hsemicolon]
  | both =>
      simp [computeParts, splitFirst?_append (hequals hdest), splitFirst?_append hsemicolon]

theorem Spells.head?_ne {dest comp jump : String} {code : List Char}
    (h : Spells dest comp jump code) (hdest : dest.toList.all isPart = true)
    (hcomp : comp.toList.all isPart = true) : code.head? ≠ some '@' := by
  have hat : ∀ {cs : List Char} {c : Char} {rest : List Char}, cs.all isPart = true → c ≠ '@' →
      (cs ++ c :: rest).head? ≠ some '@' := by
    intro cs c rest hcs hc
    cases cs with
    | nil => simpa using hc
    | cons first others =>
        have hfirst := not_mem_of_isPart hcs '@' (by decide)
        rw [List.mem_cons, not_or] at hfirst
        simpa [eq_comm] using hfirst.1
  cases h with
  | comp => exact fun hhead => not_mem_of_isPart hcomp '@' (by decide) (List.mem_of_head? hhead)
  | jump => exact hat hcomp (by decide)
  | dest => exact hat hdest (by decide)
  | both => exact hat hdest (by decide)

/-! ## Instructions -/

/-- Whether what follows `@` is taken for a constant. -/
def startsWithDigit (operand : List Char) : Bool :=
  operand.head?.any Char.isDigit

/-- The instruction that a code says, when constants are limited. -/
inductive Says (limit : UInt16) : List Char → Instruction → Prop where
  | constant {operand : List Char} {value : UInt16} (hdigit : startsWithDigit operand = true)
      (hread : readWord? operand = some value) (hle : value ≤ limit) :
      Says limit ('@' :: operand) (.load (.constant value))
  | symbol {operand : List Char} (hdigit : startsWithDigit operand = false) :
      Says limit ('@' :: operand) (.load (.symbol (String.ofList operand)))
  | compute {code : List Char} {dest comp jump : String} {d : Dest} {c : Comp} {j : Jump}
      (hspells : Spells dest comp jump code) (hdest : Dest.ofText? dest = some d)
      (hcomp : Comp.ofText? comp = some c) (hjump : Jump.ofText? jump = some j) :
      Says limit code (.compute d c j)

/-- Digits within a limit are a word within this limit. -/
theorem map_readDigits?_eq_some_iff {limit value : UInt16} {cs : List Char} :
    (readDigits? limit.toNat cs).map UInt16.ofNat = some value ↔
      readWord? cs = some value ∧ value ≤ limit := by
  rw [readWord?_eq_some_iff, UInt16.le_iff_toNat_le]
  simp only [Option.map_eq_some_iff, readDigits?_eq_some_iff]
  constructor
  · rintro ⟨n, ⟨hcs, hn, hle⟩, rfl⟩
    rw [UInt16.toNat_ofNat_of_lt' (Nat.lt_of_le_of_lt hle limit.toNat_lt)]
    exact ⟨⟨hcs, hn⟩, hle⟩
  · rintro ⟨⟨hcs, hn⟩, hle⟩
    exact ⟨value.toNat, ⟨hcs, hn, hle⟩, UInt16.ofNat_toNat⟩

theorem readAddress_eq_ok_iff {limit : UInt16} {operand : List Char} {address : Address} :
    readAddress limit operand = .ok address ↔
      Says limit ('@' :: operand) (.load address) := by
  have hcompute : ∀ {dest comp jump : String}, Spells dest comp jump ('@' :: operand) →
      dest.toList.all isPart = true → comp.toList.all isPart = true → False :=
    fun hspells hdest hcomp => hspells.head?_ne hdest hcomp rfl
  cases hdigit : startsWithDigit operand with
  | false =>
      have hread : readAddress limit operand = .ok (.symbol (String.ofList operand)) :=
        readAddress_symbol hdigit
      rw [hread, Except.ok.injEq]
      constructor
      · rintro rfl
        exact .symbol hdigit
      · rintro (⟨hdigit', -, -⟩ | ⟨-⟩)
        · rw [hdigit] at hdigit'
          cases hdigit'
        · rfl
  | true =>
      have hread : readAddress limit operand = .ok address ↔
          ∃ value, address = .constant value ∧
            (readDigits? limit.toNat operand).map UInt16.ofNat = some value := by
        have hhead : operand.head?.any Char.isDigit = true := hdigit
        rw [readAddress, if_pos hhead]
        cases readDigits? limit.toNat operand with
        | none => simp
        | some value => simp [eq_comm]
      simp only [hread, map_readDigits?_eq_some_iff]
      constructor
      · rintro ⟨value, rfl, hword, hle⟩
        exact .constant hdigit hword hle
      · rintro (⟨-, hword, hle⟩ | ⟨hdigit'⟩)
        · exact ⟨_, rfl, hword, hle⟩
        · rw [hdigit] at hdigit'
          cases hdigit'

theorem readInstruction_eq_ok_iff {limit : UInt16} {code : List Char} {instruction : Instruction} :
    readInstruction limit code = .ok instruction ↔ Says limit code instruction := by
  by_cases hat : ∃ operand, code = '@' :: operand
  · obtain ⟨operand, rfl⟩ := hat
    have hmap : readInstruction limit ('@' :: operand) = .ok instruction ↔
        ∃ address, readAddress limit operand = .ok address ∧ .load address = instruction := by
      rw [readInstruction]
      cases readAddress limit operand <;> simp [Except.map]
    rw [hmap]
    simp only [readAddress_eq_ok_iff]
    constructor
    · rintro ⟨address, hmeaning, rfl⟩
      exact hmeaning
    · intro hmeaning
      cases hmeaning with
      | constant hdigit hread hle => exact ⟨_, .constant hdigit hread hle, rfl⟩
      | symbol hdigit => exact ⟨_, .symbol hdigit, rfl⟩
      | compute hspells hdest hcomp hjump =>
          exact absurd rfl (hspells.head?_ne (Dest.all_isPart_of_ofText? hdest)
            (Comp.all_isPart_of_ofText? hcomp))
  · have hne : ∀ operand, code ≠ '@' :: operand := fun operand h => hat ⟨operand, h⟩
    have hparts := spells_computeParts code
    rw [readInstruction]
    · constructor
      · intro h
        generalize computeParts code = parts at h hparts
        dsimp only at h
        split at h
        · cases h
        · cases h
        · cases h
        · next d c j hdest hcomp hjump =>
            cases h
            exact .compute hparts hdest hcomp hjump
      · intro hmeaning
        cases hmeaning with
        | constant => exact absurd rfl (hne _)
        | symbol => exact absurd rfl (hne _)
        | compute hspells hdest hcomp hjump =>
            have hjumpPart : ∀ {text : String} {j : Jump}, Jump.ofText? text = some j →
                text.toList.all isPart = true := by
              intro text j htext
              rw [Jump.ofText?_eq_some_iff.1 htext]
              exact j.all_isPart_text
            rw [hspells.computeParts_eq (Dest.all_isPart_of_ofText? hdest)
              (Comp.all_isPart_of_ofText? hcomp) (hjumpPart hjump)]
            simp [hdest, hcomp, hjump]
    · exact hne

/-- A code that computes: each of its parts has a spelling of its kind. -/
inductive IsComputation (code : List Char) : Prop where
  | intro {dest comp jump : String} (hspells : Spells dest comp jump code)
      (hdest : dest.toList.Nodup ∧ ∀ c ∈ dest.toList, c ∈ Dest.letters)
      (hcomp : ∃ c : Comp, comp = c.text ∨ c.alias? = some comp)
      (hjump : ∃ j : Jump, jump = j.text)

theorem exists_says_iff_isComputation {limit : UInt16} {code : List Char}
    (hcode : code.head? ≠ some '@') :
    (∃ instruction, Says limit code instruction) ↔ IsComputation code := by
  constructor
  · rintro ⟨instruction, hmeaning⟩
    cases hmeaning with
    | constant => exact absurd rfl hcode
    | symbol => exact absurd rfl hcode
    | compute hspells hdest hcomp hjump =>
        exact ⟨hspells, Dest.exists_ofText?_eq_some_iff.1 ⟨_, hdest⟩,
          ⟨_, Comp.ofText?_eq_some_iff.1 hcomp⟩, ⟨_, Jump.ofText?_eq_some_iff.1 hjump⟩⟩
  · rintro ⟨hspells, hdest, ⟨c, hcomp⟩, ⟨j, hjump⟩⟩
    obtain ⟨d, hdest⟩ := Dest.exists_ofText?_eq_some_iff.2 hdest
    exact ⟨_, .compute hspells hdest (Comp.ofText?_eq_some_iff.2 hcomp)
      (Jump.ofText?_eq_some_iff.2 hjump)⟩

theorem exists_says_load_iff {limit : UInt16} {operand : List Char} :
    (∃ instruction, Says limit ('@' :: operand) instruction) ↔
      (startsWithDigit operand = true →
        operand.all Char.isDigit = true ∧ decimalValue operand ≤ limit.toNat) := by
  constructor
  · rintro ⟨instruction, hmeaning⟩ hdigit
    cases hmeaning with
    | constant hdigit hread hle =>
        obtain ⟨⟨-, hdigits⟩, hvalue⟩ := readWord?_eq_some_iff.1 hread
        exact ⟨hdigits, hvalue ▸ UInt16.le_iff_toNat_le.1 hle⟩
    | symbol hsymbol =>
        rw [hdigit] at hsymbol
        cases hsymbol
    | compute hspells hdest hcomp =>
        exact absurd rfl (hspells.head?_ne (Dest.all_isPart_of_ofText? hdest)
          (Comp.all_isPart_of_ofText? hcomp))
  · intro h
    cases hdigit : startsWithDigit operand with
    | false => exact ⟨_, .symbol hdigit⟩
    | true =>
        obtain ⟨hdigits, hle⟩ := h hdigit
        have hne : operand ≠ [] := by
          rintro rfl
          cases hdigit
        have hvalue := UInt16.toNat_ofNat_of_lt' (Nat.lt_of_le_of_lt hle limit.toNat_lt)
        refine ⟨_, .constant hdigit (readWord?_eq_some_iff.2 ⟨⟨hne, hdigits⟩, hvalue⟩) ?_⟩
        rwa [UInt16.le_iff_toNat_le, hvalue]

/-! ## Codes of a text -/

/-- The codes of the lines of a text, without the empty ones. -/
def codesOf (text : String) : List (List Char) :=
  ((lines text.toList).map codeOf).filter (· ≠ [])

theorem map_code_codeLines (text : String) :
    (codeLines text).map CodeLine.code = codesOf text := by
  rw [codeLines, codesOf]
  generalize lines text.toList = texts
  generalize 1 = number
  induction texts generalizing number with
  | nil => rfl
  | cons line rest ih =>
      rw [List.zipIdx_cons, List.filterMap_cons, List.map_cons, List.filter_cons]
      cases hcode : codeOf line with
      | nil => simpa using ih (number + 1)
      | cons c cs => simpa using ih (number + 1)

def instructionCodes (codes : List (List Char)) : List (List Char) :=
  codes.filter fun code => code.head? ≠ some '('

/-- The names of the labels that codes define, in order. -/
def labelNames (codes : List (List Char)) : List String :=
  codes.filterMap labelName?

theorem mem_labelNames {codes : List (List Char)} {name : String} :
    name ∈ labelNames codes ↔ labelCode name ∈ codes := by
  simp only [labelNames, List.mem_filterMap, labelName?_eq_some_iff, exists_eq_right]

theorem exists_labelCode {code : List Char} (hhead : code.head? = some '(')
    (hlast : code.getLast? = some ')') : ∃ name, code = labelCode name := by
  cases code with
  | nil => cases hhead
  | cons c rest =>
      cases hhead
      cases rest with
      | nil => cases hlast
      | cons d others =>
          rw [List.getLast?_cons_cons] at hlast
          obtain ⟨cs, hcs⟩ := List.getLast?_eq_some_iff.1 hlast
          exact ⟨String.ofList cs, by rw [labelCode, String.toList_ofList, hcs]⟩

theorem getLast?_labelCode (name : String) : (labelCode name).getLast? = some ')' := by
  rw [labelCode, ← List.cons_append, List.getLast?_concat]

end Asm

end StackVm
