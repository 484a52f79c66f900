/-
Arguments in another order. What a list of items leads to is said for each part of the
options on its own, so items that are about different parts may change places. Of the
values of an option the last one counts. Once there is an input no further path is
taken: not even an empty one, which would have been skipped before it.
-/

import Mathlib.Data.List.Basic
import ScriptAudit.Proofs.Command.Items

namespace ScriptAudit.Command

namespace Item

def isFormat : Item → Bool
  | option name _ => name == formatName
  | _ => false

def isOutput : Item → Bool
  | option name _ => outputNames.contains name
  | _ => false

def path? : Item → Option Bytes
  | path argument => some argument
  | _ => none

/-- Another order of the same items, in which the formats are in the order they had,
and the outputs too. -/
structure Reordering (items others : List Item) : Prop where
  perm : items.Perm others
  formats : items.filter isFormat = others.filter isFormat
  outputs : items.filter isOutput = others.filter isOutput

end Item

/-- No empty path stands behind one that is not empty. -/
def BlanksFirst (paths : List Bytes) : Prop :=
  paths.Pairwise fun front back => back = [] → front = []

/-! ### Settings part by part -/

namespace Setting

def outputPath? : Setting → Option Bytes
  | output path => some path
  | _ => none

def inputPath? : Setting → Option Bytes
  | input path => some path
  | _ => none

end Setting

/-- Settings, sorted by the part of the options that they are about. -/
structure Parts where
  help : Bool
  verbose : Bool
  tokens : Bool
  formats : List Bytes
  outputs : List Bytes
  inputs : List Bytes

namespace Parts

def ofSettings (settings : List Setting) : Parts :=
  { help := settings.contains .help
    verbose := settings.contains .verbose
    tokens := settings.contains .tokens
    formats := settings.filterMap Setting.formatName?
    outputs := settings.filterMap Setting.outputPath?
    inputs := settings.filterMap Setting.inputPath? }

def add (parts : Parts) : Setting → Parts
  | .help => { parts with help := true }
  | .verbose => { parts with verbose := true }
  | .tokens => { parts with tokens := true }
  | .format name => { parts with formats := name :: parts.formats }
  | .output path => { parts with outputs := path :: parts.outputs }
  | .input path => { parts with inputs := path :: parts.inputs }

theorem ofSettings_cons (setting : Setting) (rest : List Setting) :
    ofSettings (setting :: rest) = (ofSettings rest).add setting := by
  cases setting <;> rfl

def withoutBlanks (paths : List Bytes) : List Bytes :=
  paths.dropWhile List.isEmpty

/-- What the options become, part by part. The names of formats are known, and the
last one counts, as does the last output. Of the paths, empty ones in front are
skipped, and then there is at most one. -/
@[mk_iff]
structure LeadsTo (parts : Parts) (options result : Options) : Prop where
  help : result.help = (options.help || parts.help)
  verbose : result.verbose = (options.verbose || parts.verbose)
  tokens : result.tokens = (options.tokens || parts.tokens)
  known : ∀ name ∈ parts.formats, Format.ofName? name ≠ none
  format : formatAfter parts.formats options.format = some result.format
  output : result.output = parts.outputs.getLastD options.output
  plain : ∀ path ∈ parts.inputs, Options.isHyphenated path = false
  input : withoutBlanks (options.input :: parts.inputs) =
    withoutBlanks [result.input]

theorem LeadsTo.settled {parts : Parts} {format : Format} {result : Options}
    (leads : parts.LeadsTo (Options.initial format) result) :
    withoutBlanks parts.inputs = withoutBlanks [result.input] :=
  leads.input

theorem withoutBlanks_singleton_inj {first second : Bytes}
    (same : withoutBlanks [first] = withoutBlanks [second]) : first = second := by
  cases first <;> cases second <;> simp_all [withoutBlanks, List.dropWhile]

theorem length_withoutBlanks_singleton_le (path : Bytes) :
    (withoutBlanks [path]).length ≤ 1 :=
  (List.dropWhile_suffix _).length_le

theorem leadsTo_nil {options result : Options} :
    (ofSettings []).LeadsTo options result ↔ result = options := by
  constructor
  · rintro ⟨help, verbose, tokens, _, format, output, _, input⟩
    have same := withoutBlanks_singleton_inj input
    cases result
    cases options
    simp_all [ofSettings, formatAfter]
  · rintro rfl
    refine ⟨?_, ?_, ?_, ?_, rfl, rfl, ?_, rfl⟩ <;> simp [ofSettings]

theorem leadsTo_add_format {parts : Parts} {name : Bytes}
    {options result : Options} :
    (parts.add (.format name)).LeadsTo options result ↔
      ∃ changed, (Setting.format name).apply options = .ok changed ∧
        parts.LeadsTo changed result := by
  cases found : Format.ofName? name with
  | none =>
      simp only [Setting.apply, found, reduceCtorEq, false_and, exists_false,
        iff_false]
      exact fun leads => leads.known name (.head _) found
  | some selected =>
      simp only [add, Setting.apply, found, Except.ok.injEq, exists_eq_left',
        leadsTo_iff, List.forall_mem_cons, ne_eq, reduceCtorEq,
        not_false_eq_true, true_and, formatAfter_cons found]

theorem leadsTo_add_input {parts : Parts} {path : Bytes}
    {options result : Options} :
    (parts.add (.input path)).LeadsTo options result ↔
      ∃ changed, (Setting.input path).apply options = .ok changed ∧
        parts.LeadsTo changed result := by
  cases hyphenated : Options.isHyphenated path with
  | true =>
      simp only [Setting.apply, Options.addInput, hyphenated, ↓reduceIte,
        reduceCtorEq, false_and, exists_false, iff_false]
      intro leads
      have plain := leads.plain path (.head _)
      rw [hyphenated] at plain
      cases plain
  | false =>
      cases taken : options.input with
      | nil =>
          simp only [add, Setting.apply, Options.addInput, hyphenated, taken,
            Bool.false_eq_true, ↓reduceIte, List.isEmpty_nil, Except.ok.injEq,
            exists_eq_left', leadsTo_iff, List.forall_mem_cons, true_and,
            withoutBlanks, List.dropWhile_cons_of_pos]
      | cons byte bytes =>
          simp only [Setting.apply, Options.addInput, hyphenated, taken,
            Bool.false_eq_true, ↓reduceIte, List.isEmpty_cons, reduceCtorEq,
            false_and, exists_false, iff_false]
          intro leads
          -- The input that is there and the path behind it are two, and at most one
          -- may be left.
          have input := leads.input
          rw [taken] at input
          have short := length_withoutBlanks_singleton_le result.input
          rw [← input] at short
          change (parts.inputs.length + 1) + 1 ≤ 1 at short
          omega

theorem leadsTo_add {parts : Parts} {setting : Setting} {options result : Options} :
    (parts.add setting).LeadsTo options result ↔
      ∃ changed, setting.apply options = .ok changed ∧
        parts.LeadsTo changed result := by
  cases setting with
  | format name => exact leadsTo_add_format
  | input path => exact leadsTo_add_input
  | _ =>
      simp only [add, Setting.apply, Except.ok.injEq, exists_eq_left', leadsTo_iff,
        Bool.or_true, Bool.true_or, List.getLastD_cons]

/-- Settings can be applied one after the other exactly if each part of the options can
be found on its own. -/
theorem foldlM_apply_eq_ok_iff {settings : List Setting} {options result : Options} :
    settings.foldlM Setting.apply options = .ok result ↔
      (ofSettings settings).LeadsTo options result := by
  induction settings generalizing options with
  | nil =>
      change Except.ok options = Except.ok result ↔ _
      rw [leadsTo_nil, Except.ok.injEq, eq_comm]
  | cons setting rest inductionHypothesis =>
      rw [ofSettings_cons, leadsTo_add, List.foldlM_cons]
      cases setting.apply options with
      | error problem => simp [bind, Except.bind]
      | ok changed =>
          simp only [Except.ok.injEq, exists_eq_left', ← inductionHypothesis]
          rfl

/-- Where the formats are known and no path looks like an option, the only complaint can
be about a second input. -/
theorem eq_severalInputs_of_error {settings : List Setting} {options : Options}
    {problem : UsageError}
    (failed : settings.foldlM Setting.apply options = .error problem)
    (known : ∀ name ∈ (ofSettings settings).formats, Format.ofName? name ≠ none)
    (plain : ∀ path ∈ (ofSettings settings).inputs,
      Options.isHyphenated path = false) :
    problem = .severalInputs := by
  induction settings generalizing options with
  | nil => cases failed
  | cons setting rest inductionHypothesis =>
      rw [ofSettings_cons] at known plain
      rw [List.foldlM_cons] at failed
      cases applied : setting.apply options with
      | ok changed =>
          rw [applied] at failed
          refine inductionHypothesis failed ?_ ?_
          · intro name listed
            exact known name (by cases setting <;> simp [add, listed])
          · intro path listed
            exact plain path (by cases setting <;> simp [add, listed])
      | error early =>
          rw [applied] at failed
          cases failed
          -- Flags and outputs are never refused.
          cases setting with
          | format name =>
              obtain ⟨selected, found⟩ :=
                Option.ne_none_iff_exists'.mp (known name (.head _))
              simp [Setting.apply, found] at applied
          | input path =>
              have unhyphenated := plain path (.head _)
              simp only [Setting.apply, Options.addInput, unhyphenated,
                Bool.false_eq_true, ↓reduceIte] at applied
              split at applied
              · cases applied
              · cases applied
                rfl
          | _ => cases applied

def isGiven (path : Bytes) : Bool :=
  !path.isEmpty

theorem withoutBlanks_eq_filter {paths : List Bytes}
    (blanksFirst : BlanksFirst paths) :
    withoutBlanks paths = paths.filter isGiven := by
  induction paths with
  | nil => rfl
  | cons path rest inductionHypothesis =>
      obtain ⟨behind, later⟩ := List.pairwise_cons.mp blanksFirst
      cases path with
      | nil => exact inductionHypothesis later
      | cons byte bytes =>
          have given : ∀ back ∈ rest, isGiven back = true := by
            intro back member
            cases back with
            | nil => cases behind [] member rfl
            | cons => rfl
          change _ :: rest = _ :: rest.filter isGiven
          rw [List.filter_eq_self.mpr given]

theorem blanksFirst_of_withoutBlanks {paths : List Bytes} {result : Bytes}
    (settled : withoutBlanks paths = withoutBlanks [result]) :
    BlanksFirst paths := by
  have short := length_withoutBlanks_singleton_le result
  rw [← settled] at short
  clear settled
  induction paths with
  | nil => exact List.Pairwise.nil
  | cons path rest inductionHypothesis =>
      cases path with
      | nil =>
          exact List.pairwise_cons.mpr ⟨fun _ _ _ => rfl, inductionHypothesis short⟩
      | cons byte bytes =>
          change rest.length + 1 ≤ 1 at short
          obtain rfl : rest = [] := List.length_eq_zero_iff.mp (by omega)
          exact List.pairwise_singleton _ _

/-- At most one path is not empty, so the order of the others does not matter. -/
theorem withoutBlanks_of_perm {paths others : List Bytes} {result : Bytes}
    (perm : paths.Perm others) (blanksFirst : BlanksFirst others)
    (settled : withoutBlanks paths = withoutBlanks [result]) :
    withoutBlanks others = withoutBlanks [result] := by
  have given : paths.filter isGiven = withoutBlanks [result] := by
    rw [← settled, withoutBlanks_eq_filter (blanksFirst_of_withoutBlanks settled)]
  have filtered : (others.filter isGiven).Perm (withoutBlanks [result]) := by
    rw [← given]
    exact perm.symm.filter isGiven
  rw [withoutBlanks_eq_filter blanksFirst]
  cases result with
  | nil => exact filtered.eq_nil
  | cons byte bytes => exact filtered.eq_singleton

end Parts

/-! ### Items in another order -/

namespace Item

theorem filterMap_filter_of_isSome {α β : Type} {view : α → Option β}
    {test : α → Bool} {items : List α}
    (passes : ∀ item ∈ items, view item ≠ none → test item = true) :
    (items.filter test).filterMap view = items.filterMap view := by
  rw [List.filterMap_filter]
  apply List.filterMap_congr
  intro item member
  split
  · rfl
  · rename_i fails
    exact (not_not.mp (mt (passes item member) fails)).symm

theorem flagSetting_cases (name : Bytes) :
    flagSetting name = .verbose ∨ flagSetting name = .tokens ∨
      flagSetting name = .help := by
  unfold flagSetting
  split
  · exact .inl rfl
  split
  · exact .inr (.inl rfl)
  · exact .inr (.inr rfl)

theorem isFormat_of_formatName? {item : Item}
    (named : item.setting.formatName? ≠ none) : item.isFormat = true := by
  cases item with
  | flag name =>
      rcases flagSetting_cases name with flag | flag | flag
      all_goals
        rw [setting, flag] at named
        exact absurd rfl named
  | option name value =>
      by_cases format : name = formatName
      · exact beq_iff_eq.mpr format
      · rw [setting, if_neg format] at named
        exact absurd rfl named
  | path argument => exact absurd rfl named

theorem isOutput_of_outputPath? {item : Item} (wellFormed : item.WellFormed)
    (saved : item.setting.outputPath? ≠ none) : item.isOutput = true := by
  cases item with
  | flag name =>
      rcases flagSetting_cases name with flag | flag | flag
      all_goals
        rw [setting, flag] at saved
        exact absurd rfl saved
  | option name value =>
      rcases isOptionName_cases wellFormed with rfl | rfl | rfl
      · exact absurd rfl saved
      · rfl
      · rfl
  | path argument => exact absurd rfl saved

theorem inputPath?_setting (item : Item) : item.setting.inputPath? = item.path? := by
  cases item with
  | flag name =>
      rcases flagSetting_cases name with flag | flag | flag
      all_goals
        rw [setting, flag]
        rfl
  | option name value =>
      rw [setting]
      split <;> rfl
  | path argument => rfl

theorem parts_inputs (items : List Item) :
    (Parts.ofSettings (items.map setting)).inputs = items.filterMap path? := by
  change (items.map setting).filterMap Setting.inputPath? = _
  rw [List.filterMap_map]
  exact List.filterMap_congr fun item _ => inputPath?_setting item

theorem parts_formats (items : List Item) :
    (Parts.ofSettings (items.map setting)).formats =
      (items.filter isFormat).filterMap fun item => item.setting.formatName? := by
  change (items.map setting).filterMap Setting.formatName? = _
  rw [List.filterMap_map, filterMap_filter_of_isSome]
  · rfl
  · exact fun item _ => isFormat_of_formatName?

theorem parts_outputs {items : List Item}
    (wellFormed : ∀ item ∈ items, item.WellFormed) :
    (Parts.ofSettings (items.map setting)).outputs =
      (items.filter isOutput).filterMap fun item => item.setting.outputPath? := by
  change (items.map setting).filterMap Setting.outputPath? = _
  rw [List.filterMap_map, filterMap_filter_of_isSome]
  · rfl
  · exact fun item member => isOutput_of_outputPath? (wellFormed item member)

namespace Reordering

variable {items others : List Item} {format : Format} {result : Options}

/-- Another order of the items gives another order of the paths, and no other
difference. -/
theorem parts_eq (reordering : Reordering items others)
    (wellFormed : ∀ item ∈ items, item.WellFormed) :
    Parts.ofSettings (others.map setting) =
      { Parts.ofSettings (items.map setting) with
        inputs := others.filterMap path? } := by
  have also : ∀ item ∈ others, item.WellFormed := fun item member =>
    wellFormed item (reordering.perm.mem_iff.mpr member)
  have contained (wanted : Setting) : (others.map setting).contains wanted =
      (items.map setting).contains wanted :=
    ((reordering.perm.map setting).contains_eq).symm
  have formats : (Parts.ofSettings (others.map setting)).formats =
      (Parts.ofSettings (items.map setting)).formats := by
    rw [parts_formats, parts_formats, reordering.formats]
  have outputs : (Parts.ofSettings (others.map setting)).outputs =
      (Parts.ofSettings (items.map setting)).outputs := by
    rw [parts_outputs also, parts_outputs wellFormed, reordering.outputs]
  have inputs := parts_inputs others
  -- The flags are looked for anywhere, so their order does not show.
  unfold Parts.ofSettings at formats outputs inputs ⊢
  dsimp only at formats outputs inputs ⊢
  rw [contained, contained, contained, formats, outputs, inputs]

theorem leadsTo (reordering : Reordering items others)
    (wellFormed : ∀ item ∈ items, item.WellFormed)
    (blanksFirst : BlanksFirst (others.filterMap path?))
    (leads : (Parts.ofSettings (items.map setting)).LeadsTo
      (Options.initial format) result) :
    (Parts.ofSettings (others.map setting)).LeadsTo
      (Options.initial format) result := by
  have perm : (Parts.ofSettings (items.map setting)).inputs.Perm
      (others.filterMap path?) := by
    rw [parts_inputs]
    exact reordering.perm.filterMap path?
  rw [reordering.parts_eq wellFormed]
  refine ⟨leads.help, leads.verbose, leads.tokens, leads.known, leads.format,
    leads.output, ?_, ?_⟩
  · exact fun path member => leads.plain path (perm.mem_iff.mpr member)
  · change Parts.withoutBlanks (others.filterMap path?) = _
    exact Parts.withoutBlanks_of_perm perm blanksFirst leads.settled

/-- In an order that puts an empty path behind one that is not empty, the empty path is
taken for a second input. -/
theorem foldlM_eq_error (reordering : Reordering items others)
    (wellFormed : ∀ item ∈ items, item.WellFormed)
    (blankBehind : ¬BlanksFirst (others.filterMap path?))
    (leads : (Parts.ofSettings (items.map setting)).LeadsTo
      (Options.initial format) result) :
    (others.map setting).foldlM Setting.apply (Options.initial format) =
      .error .severalInputs := by
  cases applied : (others.map setting).foldlM Setting.apply
      (Options.initial format) with
  | ok other =>
      have settled := (Parts.foldlM_apply_eq_ok_iff.mp applied).settled
      rw [parts_inputs] at settled
      exact absurd (Parts.blanksFirst_of_withoutBlanks settled) blankBehind
  | error problem =>
      have perm := reordering.perm.filterMap path?
      have only : problem = .severalInputs := by
        apply Parts.eq_severalInputs_of_error applied
        · rw [reordering.parts_eq wellFormed]
          exact leads.known
        · intro path member
          rw [parts_inputs] at member
          apply leads.plain
          rw [parts_inputs]
          exact perm.mem_iff.mpr member
      rw [only]

end Reordering

end Item

namespace Options

theorem ofArguments_eq_ok_iff {format : Format} {arguments : List Bytes}
    {options : Options} :
    ofArguments format arguments = .ok options ↔
      scan (initial format) arguments = .ok options ∧
        options.check = .ok options := by
  unfold ofArguments
  cases scan (initial format) arguments with
  | error problem => simp
  | ok scanned =>
      constructor
      · intro accepted
        have same : scanned = options := by
          change scanned.check = _ at accepted
          unfold check at accepted
          split at accepted
          · cases accepted
          · exact Except.ok.inj accepted
        subst same
        exact ⟨rfl, accepted⟩
      · rintro ⟨same, accepted⟩
        cases same
        exact accepted

theorem ofArguments_of_error {format : Format} {arguments : List Bytes}
    {problem : UsageError}
    (failed : scan (initial format) arguments = .error problem) :
    ofArguments format arguments = .error problem := by
  rw [ofArguments, failed]

end Options

open Item

/--
The order of independent arguments does not matter. Accepted arguments are read as
items, and so are these items in any other order that keeps the order of the formats
and that of the outputs. If no empty path stands behind one that is not empty, the
arguments in the other order are accepted too and ask for the same options; otherwise
they are refused, as if they named two inputs.
-/
theorem ofArguments_reordered {format : Format} {arguments : List Bytes}
    {options : Options}
    (accepted : Options.ofArguments format arguments = .ok options) :
    ∃ items, readAll arguments = some items ∧ write items = arguments ∧
      ∀ others, Reordering items others →
        readAll (write others) = some others ∧
          (BlanksFirst (others.filterMap path?) →
            Options.ofArguments format (write others) = .ok options) ∧
          (¬BlanksFirst (others.filterMap path?) →
            Options.ofArguments format (write others) = .error .severalInputs) := by
  obtain ⟨scanned, checked⟩ := Options.ofArguments_eq_ok_iff.mp accepted
  obtain ⟨items, read⟩ := exists_readAll scanned
  obtain ⟨written, wellFormed⟩ := of_readAll read
  rw [scan_of_readAll read, Parts.foldlM_apply_eq_ok_iff] at scanned
  refine ⟨items, read, written, fun others reordering => ?_⟩
  have readOthers : readAll (write others) = some others :=
    readAll_write fun item member =>
      wellFormed item (reordering.perm.mem_iff.mpr member)
  refine ⟨readOthers, fun blanksFirst => ?_, fun blankBehind => ?_⟩
  · rw [Options.ofArguments_eq_ok_iff, scan_of_readAll readOthers,
      Parts.foldlM_apply_eq_ok_iff]
    exact ⟨reordering.leadsTo wellFormed blanksFirst scanned, checked⟩
  · apply Options.ofArguments_of_error
    rw [scan_of_readAll readOthers]
    exact reordering.foldlM_eq_error wellFormed blankBehind scanned

/-- An option's value that looks like a flag moves to the front with its option, and
the input to the end. -/
theorem ofArguments_reordered_inputLast :
    Options.ofArguments .text ["", "--format", "text", "a.js", "-o", "--verbose",
        "--format", "json"] =
        .ok ⟨false, false, false, "a.js", "--verbose", .json⟩ ∧
      Options.ofArguments .text ["-o", "--verbose", "--format", "text", "",
        "--format", "json", "a.js"] =
        .ok ⟨false, false, false, "a.js", "--verbose", .json⟩ := by
  have accepted : Options.ofArguments .text ["", "--format", "text", "a.js", "-o",
      "--verbose", "--format", "json"] =
      .ok ⟨false, false, false, "a.js", "--verbose", .json⟩ := rfl
  obtain ⟨items, read, _, reordered⟩ := ofArguments_reordered accepted
  obtain rfl : [path "", option "--format" "text", path "a.js",
      option "-o" "--verbose", option "--format" "json"] = items :=
    Option.some.inj (.trans (by decide) read)
  obtain ⟨_, kept, _⟩ := reordered
    [option "-o" "--verbose", option "--format" "text", path "",
      option "--format" "json", path "a.js"]
    ⟨by decide, by decide, by decide⟩
  exact ⟨accepted, kept (by unfold BlanksFirst; decide)⟩

/-- Without the condition on empty paths it fails: an empty path is skipped before the
input, and refused behind it. -/
theorem ofArguments_blankBehindInput :
    Options.ofArguments .text ["", "a.js"] =
        .ok ⟨false, false, false, "a.js", "", .text⟩ ∧
      readAll ["", "a.js"] = some [path "", path "a.js"] ∧
      Reordering [path "", path "a.js"] [path "a.js", path ""] ∧
      write [path "a.js", path ""] = ["a.js", ""] ∧
      Options.ofArguments .text ["a.js", ""] = .error .severalInputs := by
  refine ⟨rfl, by decide, ⟨?_, rfl, rfl⟩, rfl, rfl⟩
  exact .swap _ _ _

end ScriptAudit.Command
