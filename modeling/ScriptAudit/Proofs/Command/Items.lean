/-
Arguments as items: flags, options with the argument after them, and other arguments,
which are paths. Arguments are read as items exactly if no option is left without its
value; reading and writing are inverse, and the scan applies the settings of the items
one after the other.
-/

import ScriptAudit.Proofs.Command.Arguments

namespace ScriptAudit.Command

inductive Item where
  | flag (name : Bytes)
  | option (name value : Bytes)
  | path (argument : Bytes)
  deriving DecidableEq

namespace Item

def flagNames : List Bytes := ["-h", "--help", "--verbose", "--tokens"]

def formatName : Bytes := "--format"

def outputNames : List Bytes := ["-o", "--output"]

def isFlagName (argument : Bytes) : Bool :=
  flagNames.contains argument

def isOptionName (argument : Bytes) : Bool :=
  (formatName :: outputNames).contains argument

def words : Item → List Bytes
  | flag name => [name]
  | option name value => [name, value]
  | path argument => [argument]

def write (items : List Item) : List Bytes :=
  items.flatMap words

/-- Reads arguments from the left; an option without a value is no item. -/
def readAll : List Bytes → Option (List Item)
  | [] => some []
  | argument :: rest =>
      if isFlagName argument then (readAll rest).map (flag argument :: ·)
      else if isOptionName argument then
        match rest with
        | [] => none
        | value :: others => (readAll others).map (option argument value :: ·)
      else (readAll rest).map (path argument :: ·)

/-- An item that is read as such when its words are read. -/
def WellFormed : Item → Prop
  | flag name => isFlagName name = true
  | option name _ => isOptionName name = true
  | path argument => ¬isFlagName argument = true ∧ ¬isOptionName argument = true

theorem isFlagName_cases {name : Bytes} (listed : isFlagName name = true) :
    name = "-h" ∨ name = "--help" ∨ name = "--verbose" ∨ name = "--tokens" := by
  simpa [flagNames] using List.contains_iff_mem.mp listed

theorem isOptionName_cases {name : Bytes} (listed : isOptionName name = true) :
    name = formatName ∨ name = "-o" ∨ name = "--output" := by
  simpa [outputNames] using List.contains_iff_mem.mp listed

theorem not_isFlagName_of_isOptionName {name : Bytes}
    (listed : isOptionName name = true) : ¬isFlagName name = true := by
  rcases isOptionName_cases listed with rfl | rfl | rfl <;> decide

theorem readAll_write {items : List Item}
    (wellFormed : ∀ item ∈ items, item.WellFormed) :
    readAll (write items) = some items := by
  induction items with
  | nil => rfl
  | cons item rest inductionHypothesis =>
      have first := wellFormed item (.head _)
      have later := inductionHypothesis fun other member =>
        wellFormed other (.tail _ member)
      cases item with
      | flag name =>
          have isFlag : isFlagName name = true := first
          change readAll (name :: write rest) = _
          rw [readAll.eq_def]
          simp only [isFlag, ↓reduceIte, later, Option.map_some]
      | option name value =>
          have isOption : isOptionName name = true := first
          have noFlag := not_isFlagName_of_isOptionName isOption
          change readAll (name :: value :: write rest) = _
          rw [readAll.eq_def]
          simp only [noFlag, isOption, Bool.false_eq_true, ↓reduceIte, later,
            Option.map_some]
      | path argument =>
          obtain ⟨noFlag, noOption⟩ := first
          change readAll (argument :: write rest) = _
          rw [readAll.eq_def]
          simp only [noFlag, noOption, Bool.false_eq_true, ↓reduceIte, later,
            Option.map_some]

theorem of_readAll {arguments : List Bytes} {items : List Item}
    (read : readAll arguments = some items) :
    write items = arguments ∧ ∀ item ∈ items, item.WellFormed := by
  fun_induction readAll arguments generalizing items with
  | case1 =>
      cases read
      exact ⟨rfl, List.forall_mem_nil _⟩
  | case2 argument rest listed inductionHypothesis =>
      obtain ⟨others, readRest, rfl⟩ := Option.map_eq_some_iff.mp read
      obtain ⟨written, wellFormed⟩ := inductionHypothesis readRest
      exact ⟨congrArg (argument :: ·) written,
        List.forall_mem_cons.mpr ⟨listed, wellFormed⟩⟩
  | case3 => cases read
  | case4 argument unlisted listed value others inductionHypothesis =>
      obtain ⟨items, readRest, rfl⟩ := Option.map_eq_some_iff.mp read
      obtain ⟨written, wellFormed⟩ := inductionHypothesis readRest
      exact ⟨congrArg (argument :: value :: ·) written,
        List.forall_mem_cons.mpr ⟨listed, wellFormed⟩⟩
  | case5 argument rest noFlag noOption inductionHypothesis =>
      obtain ⟨others, readRest, rfl⟩ := Option.map_eq_some_iff.mp read
      obtain ⟨written, wellFormed⟩ := inductionHypothesis readRest
      exact ⟨congrArg (argument :: ·) written,
        List.forall_mem_cons.mpr ⟨⟨noFlag, noOption⟩, wellFormed⟩⟩

/-! ### Items as settings -/

def flagSetting (name : Bytes) : Setting :=
  if name = "--verbose" then .verbose
  else if name = "--tokens" then .tokens
  else .help

def setting : Item → Setting
  | flag name => flagSetting name
  | option name value =>
      if name = formatName then .format value else .output value
  | path argument => .input argument

theorem form_flag {name : Bytes} (listed : isFlagName name = true) :
    Form.ofArgument name = .alone (setting (flag name)) := by
  rcases isFlagName_cases listed with rfl | rfl | rfl | rfl <;> rfl

theorem form_option {name : Bytes} (listed : isOptionName name = true) :
    ∃ missing, Form.ofArgument name =
      .valued (fun value => setting (option name value)) missing := by
  rcases isOptionName_cases listed with rfl | rfl | rfl
  · exact ⟨.missingFormat, rfl⟩
  · exact ⟨.missingOutput, rfl⟩
  · exact ⟨.missingOutput, rfl⟩

theorem form_path {argument : Bytes} (noFlag : ¬isFlagName argument = true)
    (noOption : ¬isOptionName argument = true) :
    Form.ofArgument argument = .alone (.input argument) := by
  simp only [isFlagName, isOptionName, flagNames, formatName, outputNames,
    List.contains_iff_mem, List.mem_cons, List.not_mem_nil, or_false,
    not_or] at noFlag noOption
  simp [Form.ofArgument, noFlag, noOption]

/-- What is read as items is the same as what is read as settings; without a value for
an option, there are no items. -/
def Agrees (read : Option (List Item)) (reading : Reading) : Prop :=
  match read with
  | some items => reading = ⟨items.map setting, none⟩
  | none => reading.missing ≠ none

theorem Agrees.cons {read : Option (List Item)} {reading : Reading}
    (agrees : Agrees read reading) (item : Item) :
    Agrees (read.map (item :: ·)) (.cons item.setting reading) := by
  cases read with
  | none => exact agrees
  | some items => exact congrArg (Reading.cons item.setting) agrees

theorem agrees_readAll (arguments : List Bytes) :
    Agrees (readAll arguments) (Reading.ofArguments arguments) := by
  fun_induction readAll arguments with
  | case1 => rfl
  | case2 argument rest listed inductionHypothesis =>
      rw [Reading.ofArguments, form_flag listed]
      exact inductionHypothesis.cons _
  | case3 argument unlisted listed =>
      obtain ⟨missing, form⟩ := form_option listed
      rw [Reading.ofArguments, form]
      exact Option.some_ne_none missing
  | case4 argument unlisted listed value others inductionHypothesis =>
      obtain ⟨missing, form⟩ := form_option listed
      rw [Reading.ofArguments, form]
      exact inductionHypothesis.cons _
  | case5 argument rest noFlag noOption inductionHypothesis =>
      rw [Reading.ofArguments, form_path noFlag noOption]
      exact inductionHypothesis.cons (path argument)

theorem scan_of_readAll {arguments : List Bytes} {items : List Item}
    (read : readAll arguments = some items) (options : Options) :
    Options.scan options arguments =
      (items.map setting).foldlM Setting.apply options := by
  have agrees := agrees_readAll arguments
  rw [read] at agrees
  rw [Options.scan_eq_apply, agrees]
  change Except.bind _ Except.ok = _
  cases (items.map setting).foldlM Setting.apply options <;> rfl

/-- Arguments that can be scanned can be read as items. -/
theorem exists_readAll {arguments : List Bytes} {options result : Options}
    (scanned : Options.scan options arguments = .ok result) :
    ∃ items, readAll arguments = some items := by
  have agrees := agrees_readAll arguments
  cases read : readAll arguments with
  | some items => exact ⟨items, rfl⟩
  | none =>
      rw [read] at agrees
      obtain ⟨problem, missing⟩ := Option.ne_none_iff_exists'.mp agrees
      rw [Options.scan_eq_apply, Reading.apply, missing] at scanned
      generalize (Reading.ofArguments arguments).settings.foldlM Setting.apply
        options = applied at scanned
      cases applied <;> cases scanned

end Item

end ScriptAudit.Command
