/-
The catalogue: the eleven rules of an audit, each with the shape of the node it is
about, the condition on the place of that node in its tree, and its words. An audit
is the catalogue, applied to every node in pre-order.
-/

import ScriptAudit.Grammar.Program
import ScriptAudit.Proofs.Audit.Walker

namespace ScriptAudit

def Node.identifier? : Node → Option Identifier
  | .expression (.identifier content) => some content
  | _ => none

def Node.identifiers (node : Node) : List Identifier :=
  node.preorder.filterMap identifier?

/-- The place of a node: the tree it is in, and its strict ancestors there. -/
structure Site where
  tree : Node
  above : List Node

structure Rule where
  category : Category
  severity : Severity
  /-- The words about a node, if the rule matches it. -/
  words? : Site → Node → Option Bytes

namespace Rule

def finding? (rule : Rule) (site : Site) (node : Node) : Option Finding :=
  (rule.words? site node).map fun words =>
    { category := rule.category
      severity := rule.severity
      message := words
      position := node.position }

def codeExecution : Rule where
  category := .security
  severity := .high
  words?
    | _, .expression (.call (.identifier callee) _ _) =>
        if callee.name ∈ (["eval", "Function", "execScript"] : List Bytes) then
          some ("Unsafe use of " ++ callee.name
            ++ "() — can execute arbitrary code")
        else none
    | _, _ => none

def stringTimer : Rule where
  category := .security
  severity := .high
  words?
    | _, .expression (.call (.identifier callee)
        (.literal ⟨.string _, _, _⟩ :: _) _) =>
        if callee.name ∈ (["setTimeout", "setInterval"] : List Bytes) then
          some ("Unsafe use of " ++ callee.name
            ++ " with string argument — similar to eval()")
        else none
    | _, _ => none

def markupProperty : Rule where
  category := .security
  severity := .high
  words?
    | _, .expression (.member _ (.identifier property) _ _) =>
        if property.name ∈ (["innerHTML", "outerHTML"] : List Bytes) then
          some ("Potential XSS vulnerability using " ++ property.name)
        else none
    | _, _ => none

/-- A method in brackets does not count. -/
def documentWrite : Rule where
  category := .security
  severity := .high
  words?
    | _, .expression (.call
        (.member (.identifier object) (.identifier method) false _) _ _) =>
        if object.name = "document"
            ∧ method.name ∈ (["write", "writeln"] : List Bytes) then
          some ("Insecure use of document." ++ method.name
            ++ "() — can enable XSS attacks")
        else none
    | _, _ => none

def insecureRequest : Rule where
  category := .security
  severity := .medium
  words?
    | _, .expression (.call (.member _ (.identifier method) _ _)
        (_ :: .literal ⟨.string address, _, _⟩ :: _) _) =>
        if method.name = "open" ∧ ("http://" : Bytes) <+: address then
          some "Using insecure HTTP protocol instead of HTTPS"
        else none
    | _, _ => none

def looseEquality : Rule where
  category := .error
  severity := .medium
  words?
    | _, .expression (.binary operator _ _ _) =>
        if operator = "==" ∨ operator = "!=" then
          some ("Unsafe equality comparison using " ++ operator
            ++ " instead of " ++ operator ++ "=")
        else none
    | _, _ => none

def implicitGlobal : Rule where
  category := .error
  severity := .high
  words?
    | _, .expression (.assignment _ (.identifier target) _ _) =>
        some ("Potential implicit global variable: " ++ target.name)
    | _, _ => none

def functionScopedVariable : Rule where
  category := .style
  severity := .medium
  words?
    | _, .statement (.declaration keyword _ _) =>
        if keyword = "var" then
          some "Use of 'var' keyword — consider using 'let' or 'const' instead"
        else none
    | _, _ => none

def loopConcatenation : Rule where
  category := .performance
  severity := .medium
  words?
    | site, .expression (.assignment operator _
        (.literal ⟨.string _, _, _⟩) _) =>
        if operator = "+=" ∧ ∃ ancestor ∈ site.above,
            ancestor.kind = .whileStatement ∨ ancestor.kind = .forStatement then
          some ("Inefficient string concatenation in loop — consider using "
            ++ "array.join() instead")
        else none
    | _, _ => none

def oversizedFunction : Rule where
  category := .complexity
  severity := .medium
  words?
    | _, .statement (.function _ _ body _ _) =>
        if 30 < Statement.countAll body then
          some ("Function is too large ("
            ++ Bytes.decimal (Statement.countAll body)
            ++ " statements) — consider refactoring")
        else none
    | _, _ => none

/-- The name of the declarator is an identifier of the tree; it is the only one. -/
def unusedVariable : Rule where
  category := .performance
  severity := .low
  words?
    | site, .declarator content =>
        if site.tree.identifiers.filter (·.name = content.identifier.name) =
            [content.identifier] then
          some ("Unused variable: " ++ content.identifier.name)
        else none
    | _, _ => none

end Rule

def catalogue : List Rule :=
  [.codeExecution, .stringTimer, .markupProperty, .documentWrite,
    .insecureRequest, .looseEquality, .implicitGlobal, .functionScopedVariable,
    .loopConcatenation, .oversizedFunction, .unusedVariable]

namespace Site

def apply (rules : List Rule) (site : Site) (node : Node) : List Finding :=
  rules.filterMap fun rule => rule.finding? site node

def findings (site : Site) (node : Node) : List Finding :=
  apply catalogue site node

theorem apply_nil (site : Site) (node : Node) : apply [] site node = [] :=
  rfl

theorem apply_cons (rule : Rule) (rules : List Rule) (site : Site)
    (node : Node) :
    apply (rule :: rules) site node =
      (rule.finding? site node).toList ++ apply rules site node := by
  rw [apply, List.filterMap_cons]
  split
  next silent => rw [silent]; rfl
  next finding matched => rw [matched]; rfl

end Site

/-! ### The rules and the hazards -/

theorem map_guarded {α β γ : Type} {stamp : α → γ} {mark : β → γ} {words : α}
    {hazard : β} {guard test : Prop} [Decidable guard] [Decidable test]
    (agree : guard ↔ test) (same : stamp words = mark hazard) :
    (if guard then some words else none).map stamp =
      (if test then some hazard else none).map mark := by
  by_cases holds : test
  · rw [if_pos holds, if_pos (agree.mpr holds), Option.map_some, Option.map_some,
      same]
  · rw [if_neg holds, if_neg (mt agree.mp holds)]
    rfl

namespace Rule

section Shapes

variable (site : Site) (position : Position)

theorem codeExecution_call (callee : Expr) (arguments : List Expr) :
    codeExecution.finding? site (.expression (.call callee arguments position)) =
      (Audit.codeExecution? callee).map (·.finding position) := by
  cases callee with
  | identifier callee => exact map_guarded List.contains_iff_mem.symm rfl
  | _ => rfl

theorem stringTimer_call (callee : Expr) (arguments : List Expr) :
    stringTimer.finding? site (.expression (.call callee arguments position)) =
      (Audit.stringTimer? callee arguments).map (·.finding position) := by
  cases callee with
  | identifier callee =>
      rcases arguments with _ | ⟨first, rest⟩
      · rfl
      · cases first with
        | literal content =>
            rcases content with ⟨_ | _ | _ | text, _, _⟩
            case string => exact map_guarded List.contains_iff_mem.symm rfl
            all_goals rfl
        | _ => rfl
  | _ => rfl

theorem documentWrite_call (callee : Expr) (arguments : List Expr) :
    documentWrite.finding? site (.expression (.call callee arguments position)) =
      (Audit.documentWrite? callee).map (·.finding position) := by
  cases callee with
  | member object property computed place =>
      cases computed
      · cases property with
        | identifier method =>
            cases object with
            | identifier object =>
                refine map_guarded (and_congr ?_ ?_) rfl
                · exact Option.some_inj.symm
                · exact List.contains_iff_mem.symm
            | _ => rfl
        | _ => cases object <;> rfl
      · cases object <;> cases property <;> rfl
  | _ => rfl

theorem insecureRequest_call (callee : Expr) (arguments : List Expr) :
    insecureRequest.finding? site
        (.expression (.call callee arguments position)) =
      (Audit.insecureRequest? callee arguments).map (·.finding position) := by
  cases callee with
  | member object property computed place =>
      rcases arguments with _ | ⟨first, _ | ⟨second, rest⟩⟩
      · cases property <;> rfl
      · cases property <;> rfl
      · cases second with
        | literal content =>
            rcases content with ⟨_ | _ | _ | address, _, _⟩
            case string =>
              cases property with
              | identifier method =>
                  refine map_guarded (and_congr ?_ ?_) rfl
                  · exact Option.some_inj.symm
                  · exact List.isPrefixOf_iff_prefix.symm
              | _ => rfl
            all_goals cases property <;> rfl
        | _ => cases property <;> rfl
  | _ => rfl

theorem markupProperty_member (object property : Expr) (computed : Bool) :
    markupProperty.finding? site
        (.expression (.member object property computed position)) =
      (Audit.markupProperty? property).map (·.finding position) := by
  cases property with
  | identifier property => exact map_guarded List.contains_iff_mem.symm rfl
  | _ => rfl

theorem looseEquality_binary (operator : Bytes) (left right : Expr) :
    looseEquality.finding? site
        (.expression (.binary operator left right position)) =
      (Audit.looseEquality? operator).map (·.finding position) := by
  refine map_guarded ?_ rfl
  rw [List.contains_iff_mem, Audit.looseEqualities, List.mem_pair]

theorem implicitGlobal_assignment (operator : Bytes) (target value : Expr) :
    implicitGlobal.finding? site
        (.expression (.assignment operator target value position)) =
      (Audit.implicitGlobal? target).map (·.finding position) := by
  cases target <;> rfl

theorem loopConcatenation_assignment (operator : Bytes) (target value : Expr) :
    loopConcatenation.finding? site
        (.expression (.assignment operator target value position)) =
      (Audit.loopConcatenation? (site.above.any Node.isLoop) operator value).map
        (·.finding position) := by
  have silent (absent : value.stringText? = none) :
      Audit.loopConcatenation? (site.above.any Node.isLoop) operator value =
        none := by
    simp [Audit.loopConcatenation?, absent]
  cases value with
  | literal content =>
      rcases content with ⟨_ | _ | _ | text, _, _⟩
      case string =>
        refine map_guarded (and_congr_right fun _ => ?_) rfl
        simp [Expr.stringText?, Node.isLoop]
      all_goals rw [silent rfl]; rfl
  | _ => rw [silent rfl]; rfl

theorem functionScopedVariable_declaration (keyword : Bytes)
    (declarators : List Declarator) :
    functionScopedVariable.finding? site
        (.statement (.declaration keyword declarators position)) =
      (Audit.functionScopedVariable? keyword).map (·.finding position) :=
  map_guarded Iff.rfl rfl

theorem oversizedFunction_function (identifier : Identifier)
    (parameters : List Identifier) (body : List Statement)
    (bodyPosition : Position) :
    oversizedFunction.finding? site (.statement
        (.function identifier parameters body bodyPosition position)) =
      (Audit.oversizedFunction? body).map (·.finding position) :=
  map_guarded Iff.rfl rfl

end Shapes

end Rule

theorem Node.names_eq_map (node : Node) :
    node.names = node.identifiers.map (·.name) := by
  rw [names, identifiers, List.map_filterMap]
  congr 1
  funext other
  cases other with
  | expression content => cases content <;> rfl
  | _ => rfl

theorem Program.occurrences_eq_length (program : Program) (name : Bytes) :
    program.occurrences name =
      ((Node.program program).identifiers.filter (·.name = name)).length := by
  rw [occurrences, NameTally.occurrences_ofNames, Node.names_eq_map,
    List.count_eq_countP, List.countP_map, List.countP_eq_length_filter]
  simp only [Function.comp_def, beq_eq_decide]

theorem Node.identifier_mem_of_declarator {root : Node} {content : Declarator}
    (present : .declarator content ∈ root.preorder) :
    content.identifier ∈ root.identifiers := by
  have below : ofIdentifier content.identifier ∈
      (Node.declarator content).preorder :=
    mem_preorder_iff.mpr (.inr ⟨_, List.mem_cons_self, mem_preorder_self _⟩)
  exact List.mem_filterMap.mpr ⟨_, mem_preorder_trans present below, rfl⟩

theorem Rule.unusedVariable_declarator {program : Program} {content : Declarator}
    (present : .declarator content ∈ (Node.program program).preorder)
    (above : List Node) :
    unusedVariable.finding? ⟨.program program, above⟩ (.declarator content) =
      (Audit.unusedVariable? program.occurrences content.identifier.name).map
        (·.finding content.position) := by
  refine map_guarded ?_ rfl
  have own : content.identifier ∈ (Node.program program).identifiers.filter
      (·.name = content.identifier.name) :=
    List.mem_filter.mpr
      ⟨Node.identifier_mem_of_declarator present, decide_eq_true rfl⟩
  rw [program.occurrences_eq_length]
  constructor
  · intro only
    rw [only]
    exact Nat.le_refl 1
  · intro rare
    generalize List.filter _ _ = named at own rare ⊢
    rcases named with _ | ⟨first, _ | _⟩
    · cases own
    · rw [List.mem_singleton.mp own]
    · simp at rare

/-! ### The audit and the catalogue -/

/-- At a node of the program, the catalogue says what the rules of an audit say. -/
theorem Site.findings_eq {program : Program} {node : Node}
    (present : node ∈ (Node.program program).preorder) (above : List Node) :
    Site.findings ⟨.program program, above⟩ node =
      Audit.findings program.occurrences (above.any Node.isLoop) node := by
  -- At each kind of node, only the rules about this kind are not silent.
  cases node with
  | expression content =>
      cases content with
      | call callee arguments position =>
          change apply [.codeExecution, .stringTimer, .documentWrite,
            .insecureRequest] _ _ = _
          simp [apply_cons, apply_nil, Rule.codeExecution_call,
            Rule.stringTimer_call, Rule.documentWrite_call,
            Rule.insecureRequest_call, Audit.findings, Audit.hazards,
            Node.position, Expr.position, Option.toList_map]
      | member object property computed position =>
          change apply [.markupProperty] _ _ = _
          simp [apply_cons, apply_nil, Rule.markupProperty_member,
            Audit.findings, Audit.hazards, Node.position, Expr.position,
            Option.toList_map]
      | binary operator left right position =>
          change apply [.looseEquality] _ _ = _
          simp [apply_cons, apply_nil, Rule.looseEquality_binary,
            Audit.findings, Audit.hazards, Node.position, Expr.position,
            Option.toList_map]
      | assignment operator target value position =>
          change apply [.implicitGlobal, .loopConcatenation] _ _ = _
          simp [apply_cons, apply_nil, Rule.implicitGlobal_assignment,
            Rule.loopConcatenation_assignment, Audit.findings, Audit.hazards,
            Node.position, Expr.position, Option.toList_map]
      | _ => rfl
  | statement content =>
      cases content with
      | declaration keyword declarators position =>
          change apply [.functionScopedVariable] _ _ = _
          simp [apply_cons, apply_nil, Rule.functionScopedVariable_declaration,
            Audit.findings, Audit.hazards, Node.position, Statement.position,
            Option.toList_map]
      | function identifier parameters body bodyPosition position =>
          change apply [.oversizedFunction] _ _ = _
          simp [apply_cons, apply_nil, Rule.oversizedFunction_function,
            Audit.findings, Audit.hazards, Node.position, Statement.position,
            Option.toList_map]
      | loop kind body position => cases kind <;> rfl
      | _ => rfl
  | declarator content =>
      change apply [.unusedVariable] _ _ = _
      simp [apply_cons, apply_nil, Rule.unusedVariable_declarator present,
        Audit.findings, Audit.hazards, Node.position, Option.toList_map]
  | _ => rfl

/-- The nodes of a program in pre-order, each with its strict ancestors. -/
def Program.visits (program : Program) : List (List Node × Node) :=
  (Node.program program).lineages []

theorem Program.visits_map_snd (program : Program) :
    program.visits.map Prod.snd = (Node.program program).preorder :=
  Node.walk_map_snd _ _ _

/--
A walk with a stack of ancestors and a table of names reports what an audit does,
and this is the catalogue, applied in its order to one node after the other in
pre-order. With each node come the nodes on the way from the root down to it.
-/
theorem audit_eq_catalogue (program : Program) :
    (Walker.run program).reported = audit program ∧
      audit program =
        (program.visits.flatMap fun visit =>
          Site.findings ⟨.program program, visit.1⟩ visit.2) ∧
      program.visits.map Prod.snd = (Node.program program).preorder ∧
      ∀ visit ∈ program.visits,
        Node.Lineage (.program program) visit.1 visit.2 := by
  have reported := Walker.reported_eq_audit program
  refine ⟨reported, ?_, program.visits_map_snd, ?_⟩
  · rw [← reported, Walker.run_reported]
    apply List.flatMap_congr
    intro visit visited
    have present := List.mem_map_of_mem (f := Prod.snd) visited
    rw [← Program.visits, program.visits_map_snd] at present
    exact (Site.findings_eq present visit.1).symm
  · intro visit visited
    exact (Node.Lineage.refl _).of_mem_lineages visited

/-- The loop is above one of the two assignments. -/
theorem audit_eq_catalogue_besideLoop :
    audit (parse "let s; s += 'a'; while (s) s += 'b'").program =
      [{ category := .error
         severity := .high
         message := "Potential implicit global variable: s"
         position := ⟨1, 8⟩ },
        { category := .error
          severity := .high
          message := "Potential implicit global variable: s"
          position := ⟨1, 28⟩ },
        { category := .performance
          severity := .medium
          message := "Inefficient string concatenation in loop — consider using "
            ++ "array.join() instead"
          position := ⟨1, 28⟩ }] := by
  rw [(audit_eq_catalogue _).2.1]
  decide +kernel

end ScriptAudit
