import StackVm.CommandLine
import StackVm.Proofs.Lowering.Refused
import StackVm.Proofs.Session
import StackVm.Proofs.Source.Grammar

/-! # Accepted project files

A project file is a list of settings, each in the section that the headings before it
open.  It is accepted if and only if all its lines can be read, all its values mean
something, and the last stack base leaves room for the cells that the bootstrap
reserves.  So no session over the options of an accepted project fails for want of a
first stack pointer.
-/

namespace StackVm

namespace Text

/-- A numeral that may follow one plus sign. -/
def IsUnsigned (text : String) (value : Nat) : Prop :=
  ∃ digits, IsNumeral digits value ∧ (text = digits ∨ text = "+" ++ digits)

theorem readDigits?_eq_some_iff_isNumeral {bound value : Nat} {text : String} :
    readDigits? bound text.toList = some value ↔ IsNumeral text value ∧ value ≤ bound := by
  rw [readDigits?_eq_some_iff, isNumeral_iff]
  exact and_assoc.symm

theorem readUnsigned?_eq_some_iff {bound value : Nat} {text : String} :
    readUnsigned? bound text.toList = some value ↔ IsUnsigned text value ∧ value ≤ bound := by
  have hplus : ∀ {digits : String}, IsNumeral digits value → digits.toList.head? ≠ some '+' := by
    intro digits hdigits hhead
    have hall := List.all_eq_true.1 (isNumeral_iff.1 hdigits).1.2 '+' (List.mem_of_mem_head? hhead)
    cases hall
  unfold readUnsigned?
  split
  · next digits htext =>
      obtain ⟨digits, rfl⟩ : ∃ text : String, text.toList = digits := ⟨_, String.toList_ofList⟩
      have hsign : text = "+" ++ digits := by
        rw [← String.toList_inj, htext, String.toList_append]
        rfl
      rw [readDigits?_eq_some_iff_isNumeral]
      constructor
      · rintro ⟨hdigits, hle⟩
        exact ⟨⟨digits, hdigits, .inr hsign⟩, hle⟩
      · rintro ⟨⟨other, hother, rfl | hsame⟩, hle⟩
        · exact absurd (by rw [htext]; rfl) (hplus hother)
        · have hlist : '+' :: digits.toList = '+' :: other.toList := by
            rw [← htext, hsame, String.toList_append]
            rfl
          rw [String.toList_inj.1 (List.cons.inj hlist).2]
          exact ⟨hother, hle⟩
  · next hunsigned =>
      rw [readDigits?_eq_some_iff_isNumeral]
      constructor
      · rintro ⟨hdigits, hle⟩
        exact ⟨⟨text, hdigits, .inl rfl⟩, hle⟩
      · rintro ⟨⟨digits, hdigits, rfl | rfl⟩, hle⟩
        · exact ⟨hdigits, hle⟩
        · exact absurd (by rw [String.toList_append]; rfl) (hunsigned digits.toList)

theorem isUnsigned_unique {text : String} {x y : Nat} (hx : IsUnsigned text x)
    (hy : IsUnsigned text y) : x = y := by
  have hread : ∀ {value}, IsUnsigned text value → value ≤ x + y →
      readUnsigned? (x + y) text.toList = some value :=
    fun hvalue hle => readUnsigned?_eq_some_iff.2 ⟨hvalue, hle⟩
  exact Option.some.inj ((hread hx (Nat.le_add_right x y)).symm.trans (hread hy (Nat.le_add_left y x)))

end Text

namespace Machine

/-- The only machine that a target names is the standard one. -/
theorem named?_getD (target? : Option String) :
    (target?.bind named?).getD hack = hack := by
  cases target? with
  | none => rfl
  | some target =>
      rw [Option.bind_some, named?]
      split <;> rfl

theorem initialSp?_isSome_iff (base : UInt16) :
    { hack with stackBase := base }.initialSp?.isSome ↔ base.toNat ≤ 32762 := by
  have hroom : base.toNat + hack.bootstrapReserve.toNat ≤ hack.maxConstant.toNat ↔
      base.toNat ≤ 32762 :=
    Nat.add_le_add_iff_right (m := base.toNat) (k := 32762) (n := 5)
  rw [← hroom, initialSp?]
  split <;> simp_all

end Machine

namespace Project

/-! ## Settings -/

/-- An assignment of a project file and the section that it stands in. -/
structure Setting where
  part : String
  key : String
  raw : String
  deriving DecidableEq, Repr

/-- The settings on lines, the first of which stands in a given section. -/
def settingsFrom (part : String) : List (List Char) → List Setting
  | [] => []
  | line :: rest =>
      match readLine line with
      | .blank => settingsFrom part rest
      | .heading name => settingsFrom name rest
      | .assignment key raw => ⟨part, key, raw⟩ :: settingsFrom part rest
      | .other => settingsFrom part rest

/-- The settings of a project file in order; the first lines stand in no section. -/
def settings (text : String) : List Setting :=
  settingsFrom "" (Text.lines text.toList)

/-- The sections and keys that mean something. -/
def known : List (String × String) :=
  [("project", "name"), ("project", "entry"), ("project", "output"), ("project", "target"),
    ("project", "bootstrap"), ("project", "annotate"), ("machine", "stack_base")]

/-- Carry out a setting. -/
def set (project : Project) (setting : Setting) : Except ConfigFault Project :=
  project.assign setting.part setting.key setting.raw

/-- What each setting does to a project. -/
inductive Sets (project : Project) : Setting → Project → Prop where
  | name (raw : String) :
      project.Sets ⟨"project", "name", raw⟩ { project with name := some (plain raw) }
  | entry (raw : String) :
      project.Sets ⟨"project", "entry", raw⟩ { project with entry := some (plain raw) }
  | output (raw : String) :
      project.Sets ⟨"project", "output", raw⟩ { project with output := some ⟨plain raw⟩ }
  | target (raw : String) :
      project.Sets ⟨"project", "target", raw⟩ { project with target := some (plain raw) }
  | bootstrap {raw : String} {policy : Bootstrap} (h : Bootstrap.ofWord? (plain raw) = some policy) :
      project.Sets ⟨"project", "bootstrap", raw⟩ { project with bootstrap := some policy }
  | annotate {raw : String} {flag : Bool} (h : readBool? (plain raw) = some flag) :
      project.Sets ⟨"project", "annotate", raw⟩ { project with annotate := some flag }
  | stackBase {raw : String} {base : Nat} (h : Text.IsUnsigned (plain raw) base)
      (hword : base ≤ Text.maxWord) :
      project.Sets ⟨"machine", "stack_base", raw⟩
        { project with stackBase := some (UInt16.ofNat base) }
  | unknown {part key : String} (raw : String) (h : (part, key) ∉ known) :
      project.Sets ⟨part, key, raw⟩ project

variable {project next final : Project} {setting : Setting}

/-- What a setting must be so that it can be carried out. -/
structure Setting.IsLegal (setting : Setting) : Prop where
  bootstrap : setting.part = "project" → setting.key = "bootstrap" →
    plain setting.raw ∈ ["auto", "always", "never"]
  annotate : setting.part = "project" → setting.key = "annotate" →
    plain setting.raw ∈ ["true", "false"]
  stackBase : setting.part = "machine" → setting.key = "stack_base" →
    ∃ base, Text.IsUnsigned (plain setting.raw) base ∧ base ≤ Text.maxWord

theorem orFault_eq_ok_iff {α : Type} {fault : ConfigFault} {value? : Option α} {value : α} :
    orFault fault value? = .ok value ↔ value? = some value := by
  cases value? <;> simp [orFault]

theorem set_eq_ok_iff : project.set setting = .ok next ↔ project.Sets setting next := by
  obtain ⟨part, key, raw⟩ := setting
  constructor
  · intro h
    simp only [set, assign] at h
    split at h
    case h_1 | h_2 | h_3 | h_4 =>
        cases h
        constructor
    case h_5 =>
        obtain ⟨policy, hpolicy, hnext⟩ := bind_eq_ok_iff.1 h
        cases hnext
        exact .bootstrap (orFault_eq_ok_iff.1 hpolicy)
    case h_6 =>
        obtain ⟨flag, hflag, hnext⟩ := bind_eq_ok_iff.1 h
        cases hnext
        exact .annotate (orFault_eq_ok_iff.1 hflag)
    case h_7 =>
        obtain ⟨base, hbase, hnext⟩ := bind_eq_ok_iff.1 h
        cases hnext
        obtain ⟨hvalue, hword⟩ := Text.readUnsigned?_eq_some_iff.1 (orFault_eq_ok_iff.1 hbase)
        exact .stackBase hvalue hword
    case h_8 hname hentry houtput htarget hbootstrap hannotate hbase =>
        cases h
        refine .unknown raw fun hmem => ?_
        simp only [known, List.mem_cons, List.not_mem_nil, or_false, Prod.mk.injEq] at hmem
        rcases hmem with ⟨hpart, hkey⟩ | ⟨hpart, hkey⟩ | ⟨hpart, hkey⟩ | ⟨hpart, hkey⟩ |
          ⟨hpart, hkey⟩ | ⟨hpart, hkey⟩ | ⟨hpart, hkey⟩
        · exact hname hpart hkey
        · exact hentry hpart hkey
        · exact houtput hpart hkey
        · exact htarget hpart hkey
        · exact hbootstrap hpart hkey
        · exact hannotate hpart hkey
        · exact hbase hpart hkey
  · intro h
    cases h with
    | bootstrap h =>
        simp only [set, assign]
        rw [orFault_eq_ok_iff.2 h]
        rfl
    | annotate h =>
        simp only [set, assign]
        rw [orFault_eq_ok_iff.2 h]
        rfl
    | stackBase h hword =>
        simp only [set, assign]
        rw [orFault_eq_ok_iff.2 (Text.readUnsigned?_eq_some_iff.2 ⟨h, hword⟩)]
        rfl
    | unknown _ hknown =>
        simp only [set, assign]
        split
        case h_8 => rfl
        all_goals exact absurd (by decide) hknown
    | _ => rfl

theorem bootstrap_isSome_iff {word : String} :
    (∃ policy, Bootstrap.ofWord? word = some policy) ↔ word ∈ ["auto", "always", "never"] := by
  constructor
  · rintro ⟨policy, h⟩
    unfold Bootstrap.ofWord? at h
    split at h
    case h_4 => cases h
    all_goals simp
  · intro h
    simp only [List.mem_cons, List.not_mem_nil, or_false] at h
    rcases h with rfl | rfl | rfl
    · exact ⟨.auto, rfl⟩
    · exact ⟨.always, rfl⟩
    · exact ⟨.never, rfl⟩

theorem readBool?_isSome_iff {word : String} :
    (∃ flag, readBool? word = some flag) ↔ word ∈ ["true", "false"] := by
  constructor
  · rintro ⟨flag, h⟩
    unfold readBool? at h
    split at h
    case h_3 => cases h
    all_goals simp
  · intro h
    simp only [List.mem_cons, List.not_mem_nil, or_false] at h
    rcases h with rfl | rfl
    · exact ⟨true, rfl⟩
    · exact ⟨false, rfl⟩

/-- Whether a setting can be carried out does not depend on the settings before it. -/
theorem exists_sets_iff (project : Project) (setting : Setting) :
    (∃ next, project.Sets setting next) ↔ setting.IsLegal := by
  constructor
  · rintro ⟨next, h⟩
    cases h with
    | bootstrap h =>
        exact ⟨fun _ _ => bootstrap_isSome_iff.1 ⟨_, h⟩, by simp, by simp⟩
    | annotate h =>
        exact ⟨by simp, fun _ _ => readBool?_isSome_iff.1 ⟨_, h⟩, by simp⟩
    | stackBase h hword => exact ⟨by simp, by simp, fun _ _ => ⟨_, h, hword⟩⟩
    | unknown raw h =>
        refine ⟨?_, ?_, ?_⟩ <;>
          · rintro rfl rfl
            exact absurd (by decide) h
    | _ => exact ⟨by simp, by simp, by simp⟩
  · obtain ⟨part, key, raw⟩ := setting
    intro h
    by_cases hknown : (part, key) ∈ known
    · simp only [known, List.mem_cons, List.not_mem_nil, or_false, Prod.mk.injEq] at hknown
      rcases hknown with ⟨rfl, rfl⟩ | ⟨rfl, rfl⟩ | ⟨rfl, rfl⟩ | ⟨rfl, rfl⟩ | ⟨rfl, rfl⟩ |
        ⟨rfl, rfl⟩ | ⟨rfl, rfl⟩
      · exact ⟨_, .name raw⟩
      · exact ⟨_, .entry raw⟩
      · exact ⟨_, .output raw⟩
      · exact ⟨_, .target raw⟩
      · obtain ⟨policy, hpolicy⟩ := bootstrap_isSome_iff.2 (h.bootstrap rfl rfl)
        exact ⟨_, .bootstrap hpolicy⟩
      · obtain ⟨flag, hflag⟩ := readBool?_isSome_iff.2 (h.annotate rfl rfl)
        exact ⟨_, .annotate hflag⟩
      · obtain ⟨base, hbase, hword⟩ := h.stackBase rfl rfl
        exact ⟨_, .stackBase hbase hword⟩
    · exact ⟨_, .unknown raw hknown⟩

/-! ## Runs of settings -/

variable {list : List Setting}

theorem foldlM_set_cons_eq_ok_iff :
    (setting :: list).foldlM set project = .ok final ↔
      ∃ next, project.Sets setting next ∧ list.foldlM set next = .ok final := by
  rw [List.foldlM_cons, bind_eq_ok_iff]
  simp only [set_eq_ok_iff]

theorem exists_foldlM_set_iff (project : Project) :
    (∃ final, list.foldlM set project = .ok final) ↔ ∀ setting ∈ list, setting.IsLegal := by
  induction list generalizing project with
  | nil => exact ⟨fun _ => List.forall_mem_nil _, fun _ => ⟨project, rfl⟩⟩
  | cons first rest ih =>
      rw [List.forall_mem_cons, ← exists_sets_iff project first]
      simp only [foldlM_set_cons_eq_ok_iff]
      constructor
      · rintro ⟨final, next, hfirst, hrest⟩
        exact ⟨⟨next, hfirst⟩, (ih next).1 ⟨final, hrest⟩⟩
      · rintro ⟨⟨next, hfirst⟩, hrest⟩
        obtain ⟨final, hfinal⟩ := (ih next).2 hrest
        exact ⟨final, next, hfirst, hfinal⟩

/-- What no setting of a run changes stays as it is. -/
theorem kept_by_foldlM {α : Type} (field : Project → α)
    (hkeeps : ∀ setting ∈ list, ∀ {project next : Project}, project.Sets setting next →
      field next = field project)
    (h : list.foldlM set project = .ok final) : field final = field project := by
  induction list generalizing project with
  | nil =>
      cases h
      rfl
  | cons first rest ih =>
      rw [List.forall_mem_cons] at hkeeps
      obtain ⟨next, hfirst, hrest⟩ := foldlM_set_cons_eq_ok_iff.1 h
      rw [ih hkeeps.2 hrest, hkeeps.1 hfirst]

/-- The last setting of a key in a section, with its value as it is written. -/
def LastSetting (list : List Setting) (part key raw : String) : Prop :=
  ∃ before after, list = before ++ ⟨part, key, raw⟩ :: after ∧
    ∀ other ∈ after, ¬ (other.part = part ∧ other.key = key)

theorem exists_lastSetting (list : List Setting) (part key : String) :
    (∀ setting ∈ list, ¬ (setting.part = part ∧ setting.key = key)) ∨
      ∃ raw, LastSetting list part key raw := by
  induction list with
  | nil => exact .inl (List.forall_mem_nil _)
  | cons first rest ih =>
      rcases ih with hrest | ⟨raw, before, after, rfl, hafter⟩
      · by_cases hfirst : first.part = part ∧ first.key = key
        · obtain ⟨rfl, rfl⟩ := hfirst
          exact .inr ⟨first.raw, [], rest, rfl, hrest⟩
        · exact .inl (List.forall_mem_cons.2 ⟨hfirst, hrest⟩)
      · exact .inr ⟨raw, first :: before, after, rfl, hafter⟩

theorem stackBase_of_sets (h : project.Sets setting next)
    (hother : ¬ (setting.part = "machine" ∧ setting.key = "stack_base")) :
    next.stackBase = project.stackBase := by
  cases h with
  | stackBase => exact absurd ⟨rfl, rfl⟩ hother
  | _ => rfl

theorem stackBase_of_sets_stackBase (h : project.Sets setting next)
    (hpart : setting.part = "machine") (hkey : setting.key = "stack_base") :
    ∃ base, Text.IsUnsigned (plain setting.raw) base ∧ base ≤ Text.maxWord ∧
      next.stackBase = some (UInt16.ofNat base) := by
  cases h with
  | stackBase hbase hword => exact ⟨_, hbase, hword, rfl⟩
  | unknown raw hknown =>
      subst hpart hkey
      exact absurd (by decide) hknown
  | _ => simp at hpart

/-- What only one key in one section changes is in the end what its last setting makes it. -/
theorem exists_sets_of_lastSetting {α : Type} (field : Project → α) {part key raw : String}
    (hkeeps : ∀ {setting : Setting} {project next : Project}, project.Sets setting next →
      ¬ (setting.part = part ∧ setting.key = key) → field next = field project)
    (hlast : LastSetting list part key raw) (h : list.foldlM set project = .ok final) :
    ∃ middle next : Project, middle.Sets ⟨part, key, raw⟩ next ∧ field final = field next := by
  obtain ⟨before, after, rfl, hafter⟩ := hlast
  rw [List.foldlM_append] at h
  obtain ⟨middle, -, hrest⟩ := bind_eq_ok_iff.1 h
  obtain ⟨next, hset, hlater⟩ := foldlM_set_cons_eq_ok_iff.1 hrest
  exact ⟨middle, next, hset,
    kept_by_foldlM field (fun setting hmem _ _ hsets => hkeeps hsets (hafter setting hmem)) hlater⟩

theorem stackBase_of_lastSetting {raw : String}
    (hlast : LastSetting list "machine" "stack_base" raw)
    (h : list.foldlM set project = .ok final) :
    ∃ base, Text.IsUnsigned (plain raw) base ∧ base ≤ Text.maxWord ∧
      final.stackBase = some (UInt16.ofNat base) := by
  obtain ⟨middle, next, hset, hfinal⟩ :=
    exists_sets_of_lastSetting Project.stackBase stackBase_of_sets hlast h
  have hbase := stackBase_of_sets_stackBase hset rfl rfl
  rw [hfinal]
  exact hbase

/-! ## Lines -/

/-- A run over lines is a run over their settings, if each line can be read. -/
theorem exists_foldlM_add_iff {lines : List (List Char × Nat)} {reading : Reading} :
    (∃ last, lines.foldlM Reading.add reading = .ok last ∧ last.project = final) ↔
      (∀ line ∈ lines.map Prod.fst, readLine line ≠ .other) ∧
        (settingsFrom reading.part (lines.map Prod.fst)).foldlM set reading.project = .ok final := by
  induction lines generalizing reading with
  | nil =>
      constructor
      · rintro ⟨last, h, rfl⟩
        cases h
        exact ⟨List.forall_mem_nil _, rfl⟩
      · rintro ⟨-, h⟩
        cases h
        exact ⟨reading, rfl, rfl⟩
  | cons line rest ih =>
      have hstep : ∀ {next : Reading}, reading.add line = .ok next →
          ((line :: rest).foldlM Reading.add reading = rest.foldlM Reading.add next) := by
        intro next hnext
        rw [List.foldlM_cons, hnext]
        rfl
      rw [List.map_cons, List.forall_mem_cons, settingsFrom]
      cases hline : readLine line.1 with
      | blank =>
          rw [hstep (by rw [Reading.add, hline]), ih]
          simp
      | heading name =>
          rw [hstep (by rw [Reading.add, hline]), ih]
          simp
      | other =>
          have hfault : (line :: rest).foldlM Reading.add reading =
              .error (.expectedAssignment line.2) := by
            rw [List.foldlM_cons, Reading.add, hline]
            rfl
          rw [hfault]
          simp
      | assignment key raw =>
          cases hassign : reading.project.assign reading.part key raw with
          | error fault =>
              have hfault : (line :: rest).foldlM Reading.add reading = .error fault := by
                rw [List.foldlM_cons, Reading.add, hline]
                simp only [hassign]
                rfl
              rw [hfault, List.foldlM_cons, set, hassign]
              simp [bind, Except.bind]
          | ok next =>
              rw [hstep (by rw [Reading.add, hline]; simp only [hassign]; rfl), ih,
                List.foldlM_cons, set, hassign]
              simp [bind, Except.bind]

/-! ## Acceptance -/

/-- The last stack base that a project file sets, if it is a number. -/
def LastStackBase (text : String) (value : Nat) : Prop :=
  ∃ raw, LastSetting (settings text) "machine" "stack_base" raw ∧
    Text.IsUnsigned (plain raw) value

theorem checkStackBase_eq_ok_iff :
    project.checkStackBase = .ok final ↔
      final = project ∧ ∀ base, project.stackBase = some base → base.toNat ≤ 32762 := by
  unfold checkStackBase
  cases hbase : project.stackBase with
  | none => simp [eq_comm]
  | some base =>
      rw [machine, Machine.named?_getD]
      simp only [Machine.initialSp?_isSome_iff]
      split
      · next hroom => simp [hroom, eq_comm]
      · next hroom => simp [hroom]

theorem parse_eq_ok_iff {directory : Path} {text : String} :
    parse directory text = .ok project ↔
      (∀ line ∈ Text.lines text.toList, readLine line ≠ .other) ∧
        (settings text).foldlM set { directory } = .ok project ∧
        ∀ base, project.stackBase = some base → base.toNat ≤ 32762 := by
  have hrun := @exists_foldlM_add_iff project ((Text.lines text.toList).zipIdx 1)
    { project := { directory } }
  rw [List.zipIdx_map_fst] at hrun
  rw [parse, bind_eq_ok_iff, ← and_assoc]
  refine Iff.trans ?_ (and_congr_left' hrun)
  constructor
  · rintro ⟨reading, hreading, hcheck⟩
    obtain ⟨rfl, hroom⟩ := checkStackBase_eq_ok_iff.1 hcheck
    exact ⟨⟨reading, hreading, rfl⟩, hroom⟩
  · rintro ⟨⟨reading, hreading, rfl⟩, hroom⟩
    exact ⟨reading, hreading, checkStackBase_eq_ok_iff.2 ⟨rfl, hroom⟩⟩

/-- A project file is accepted or not by its lines, its values, and its last stack base. -/
theorem exists_parse_iff (directory : Path) (text : String) :
    (∃ project, parse directory text = .ok project) ↔
      (∀ line ∈ Text.lines text.toList, readLine line ≠ .other) ∧
        (∀ setting ∈ settings text, setting.IsLegal) ∧
        ∀ value, LastStackBase text value → value ≤ 32762 := by
  simp only [parse_eq_ok_iff]
  constructor
  · rintro ⟨project, hlines, hrun, hroom⟩
    refine ⟨hlines, (exists_foldlM_set_iff _).1 ⟨project, hrun⟩, ?_⟩
    rintro value ⟨raw, hlast, hvalue⟩
    obtain ⟨base, hbase, hword, hstack⟩ := stackBase_of_lastSetting hlast hrun
    rw [Text.isUnsigned_unique hvalue hbase]
    have hle := hroom _ hstack
    rwa [UInt16.toNat_ofNat_of_lt' (Nat.lt_succ_of_le hword)] at hle
  · rintro ⟨hlines, hlegal, hlast⟩
    obtain ⟨project, hrun⟩ := (exists_foldlM_set_iff { directory }).2 hlegal
    refine ⟨project, hlines, hrun, ?_⟩
    intro stackBase hstackBase
    rcases exists_lastSetting (settings text) "machine" "stack_base" with hnone | ⟨raw, hraw⟩
    · have hkept := kept_by_foldlM Project.stackBase
        (fun setting hmem _ _ hsets => stackBase_of_sets hsets (hnone setting hmem)) hrun
      rw [hstackBase] at hkept
      cases hkept
    · obtain ⟨base, hbase, hword, hstack⟩ := stackBase_of_lastSetting hraw hrun
      cases hstack.symm.trans hstackBase
      rw [UInt16.toNat_ofNat_of_lt' (Nat.lt_succ_of_le hword)]
      exact hlast base ⟨raw, hraw, hbase⟩

end Project

/-! ## Bootstraps -/

namespace Error

/-- Whether an error is about a setting. -/
def IsConfig (error : Error) : Prop :=
  ∃ path fault, error = .config path fault

end Error

theorem Lowering.exists_bootstrap {lowering : Lowering} (h : lowering.machine.initialSp?.isSome)
    (entry : String) : ∃ code, lowering.bootstrap entry = .ok code := by
  obtain ⟨sp, hsp⟩ := Option.isSome_iff_exists.1 h
  exact ⟨Code.bootstrap sp entry, by rw [Lowering.bootstrap, hsp]⟩

/-- Only the bootstrap is refused because of a setting. -/
theorem Block.not_isConfig_of_refusal {block : Block} {error : Error}
    (h : block.lowering.machine.initialSp?.isSome) (hrefusal : block.refusal? = some error) :
    ¬ error.IsConfig := by
  obtain ⟨lowering, request⟩ := block
  rintro ⟨path, fault, rfl⟩
  cases request with
  | unit name => cases hrefusal
  | bootstrap entry =>
      obtain ⟨code, hcode⟩ := Lowering.exists_bootstrap h entry
      simp [Block.refusal?, hcode] at hrefusal
  | command command =>
      cases hresult : lowering.command command with
      | ok result => simp [Block.refusal?, hresult] at hrefusal
      | error error =>
          obtain rfl : error = .config path fault := by simpa [Block.refusal?, hresult] using hrefusal
          rcases (Lowering.command_eq_error_iff.1 hresult).error_cases with
            ⟨_, _, _, -, hother⟩ | ⟨_, _, _, -, hother⟩ <;> cases hother

namespace Session

variable {σ : Type} [Sink σ] {session : Session σ}

/-- A session that has a first stack pointer and has not failed because of a setting. -/
structure Boots (session : Session σ) : Prop where
  sp : session.lowering.machine.initialSp?.isSome
  failure : ∀ error, session.failure = some error → ¬ error.IsConfig

theorem Boots.emit (h : session.Boots) (lines : List String) : (session.emit lines).Boots := by
  unfold Session.emit
  refine ⟨h.sp, ?_⟩
  intro error herror
  cases hwrite : (session.writer.writeLines lines).2 with
  | none =>
      rw [hwrite] at herror
      exact h.failure error herror
  | some fault =>
      rw [hwrite] at herror
      cases herror
      rintro ⟨path, fault, hconfig⟩
      cases hconfig

theorem Boots.request (h : session.Boots) (request : Request) : (session.request request).Boots := by
  cases hfailure : session.failure with
  | some error => rwa [request_of_failed hfailure]
  | none =>
      cases hrefusal : (Block.mk session.lowering request).refusal? with
      | some error =>
          rw [request_of_refused hfailure hrefusal]
          refine ⟨h.sp, ?_⟩
          rintro other ⟨⟩
          exact Block.not_isConfig_of_refusal h.sp hrefusal
      | none =>
          rw [request_of_accepted hfailure (Block.accepted_iff.2 hrefusal)]
          apply Boots.emit
          refine ⟨?_, h.failure⟩
          rw [Block.machine_next]
          exact h.sp

theorem Boots.requests (h : session.Boots) (requests : List Request) :
    (session.requests requests).Boots := by
  induction requests generalizing session with
  | nil => exact h
  | cons request rest ih => exact ih (h.request request)

theorem Boots.answers (h : session.Boots) (hrest : session.pending = #[]) (calls : List Call)
    {answer : Answer} {error : Error}
    (hanswer : answer ∈ session.answers calls) (herror : answer.error? = some error) :
    ¬ error.IsConfig := by
  induction calls generalizing session with
  | nil => cases hanswer
  | cons call rest ih =>
      have hnext : (session.call call).Boots ∧ (session.call call).pending = #[] := by
        rw [call_eq_requests hrest, pending_requests]
        exact ⟨h.requests _, hrest⟩
      rw [answers_cons hrest] at hanswer
      cases hanswer with
      | head => exact hnext.1.failure error herror
      | tail _ hlater => exact ih hnext.1 hnext.2 hlater

end Session

/-- Options under which no session fails because of a setting, at its bootstrap or elsewhere. -/
structure Options.Boots (options : Options) : Prop where
  sp : ∃ sp, options.machine.initialSp? = some sp
  code : ∀ (requests : List Request) (entry : String),
    ∃ code, (options.lowering.after requests).bootstrap entry = .ok code
  answers : ∀ {σ : Type} [Sink σ] (sink : σ) (sinkName : String) (calls : List Session.Call),
    ∀ answer ∈ (Session.opened options sink sinkName).answers calls,
      ∀ error, answer.error? = some error → ¬ error.IsConfig

theorem Options.boots_of_isSome {options : Options} (h : options.machine.initialSp?.isSome) :
    options.Boots where
  sp := Option.isSome_iff_exists.1 h
  code := by
    intro requests entry
    refine Lowering.exists_bootstrap ?_ entry
    rw [Lowering.machine_after]
    exact h
  answers := by
    intro σ _ sink sinkName calls answer hanswer error herror
    have hopened : (Session.opened options sink sinkName).Boots := ⟨h, by rintro error ⟨⟩⟩
    exact hopened.answers rfl calls hanswer herror

namespace Project

theorem machine_apply (project : Project) :
    (project.apply {}).machine =
      { Machine.hack with stackBase := project.stackBase.getD Machine.hack.stackBase } := by
  simp only [apply, Machine.named?_getD]

theorem initialSp?_apply {project : Project}
    (hroom : ∀ base, project.stackBase = some base → base.toNat ≤ 32762) :
    (project.apply {}).machine.initialSp?.isSome := by
  rw [machine_apply, Machine.initialSp?_isSome_iff]
  cases hbase : project.stackBase with
  | none => decide
  | some base => exact hroom base hbase

/--
The options of an accepted project, alone or with arguments on top, have a first stack pointer, and
no operation of a session over them fails because of a setting.  A project file is accepted if and
only if all its lines can be read, all its values mean something, and the last stack base, if there
is one, is at most 32762.
-/
theorem accepted_boots (directory : Path) (text : String) :
    (∀ project, parse directory text = .ok project →
      (project.apply {}).Boots ∧
        ∀ arguments, (CommandLine.resolveOptions arguments (some project)).Boots) ∧
      ((∃ project, parse directory text = .ok project) ↔
        (∀ line ∈ Text.lines text.toList, readLine line ≠ .other) ∧
          (∀ setting ∈ settings text, setting.IsLegal) ∧
          ∀ value, LastStackBase text value → value ≤ 32762) ∧
      ∀ value, LastStackBase text value → 32762 < value →
        ∃ fault, parse directory text = .error fault := by
  refine ⟨?_, exists_parse_iff directory text, ?_⟩
  · intro project hparse
    have hsp := initialSp?_apply (parse_eq_ok_iff.1 hparse).2.2
    exact ⟨Options.boots_of_isSome hsp, fun _ => Options.boots_of_isSome hsp⟩
  · intro value hlast hlarge
    cases hparse : parse directory text with
    | error fault => exact ⟨fault, rfl⟩
    | ok project =>
        have hle := ((exists_parse_iff directory text).1 ⟨project, hparse⟩).2.2 value hlast
        exact absurd hle (Nat.not_le_of_lt hlarge)

namespace Sample

/-- Of two stack bases the later counts; no machine has the target's name. -/
def crowded : String :=
  "[machine]\nstack_base=40000\n[project]\ntarget=\"wide\"\n[machine]\nstack_base=+32762\n"

def crowdedProject : Project :=
  { target := some "wide", stackBase := some 32762 }

def overfull : String :=
  "[machine]\nstack_base=7\nsize=9\n\"stack_base\"=032763\n"

theorem boots_crowded :
    (parse ⟨""⟩ crowded = .ok crowdedProject ∧
      ∀ arguments, (CommandLine.resolveOptions arguments (some crowdedProject)).Boots) ∧
      LastStackBase overfull 32763 ∧ ∃ fault, parse ⟨""⟩ overfull = .error fault := by
  have hparse : parse ⟨""⟩ crowded = .ok crowdedProject := by rfl
  have hsettings : settings overfull =
      [⟨"machine", "stack_base", "7"⟩, ⟨"machine", "size", "9"⟩] ++
        [⟨"machine", "stack_base", "032763"⟩] := by decide +kernel
  have hlast : LastStackBase overfull 32763 :=
    ⟨"032763", ⟨_, [], hsettings, List.forall_mem_nil _⟩, "032763", ⟨1, by rfl⟩, .inl rfl⟩
  exact ⟨⟨hparse, ((accepted_boots ⟨""⟩ crowded).1 crowdedProject hparse).2⟩, hlast,
    (accepted_boots ⟨""⟩ overfull).2.2 32763 hlast (by decide)⟩

end Sample

end Project

end StackVm
