/-
Where findings come from: each finding of an audit is that of a hazard at one
node of the program tree, and the finding tells which hazard it was.
-/

import ScriptAudit.Audit.Basic
import ScriptAudit.Proofs.Tree.Preorder

namespace ScriptAudit

def Program.occurrences (program : Program) : Bytes → Nat :=
  (NameTally.ofNames (Node.program program).names).occurrences

theorem audit_eq (program : Program) :
    audit program =
      ((Node.program program).walk
        (fun insideLoop node => insideLoop || node.isLoop) false).flatMap
          fun visit => Audit.findings program.occurrences visit.1 visit.2 :=
  rfl

/-- The nodes below some statements in pre-order, each with whether it stands
inside a loop. -/
def Audit.visits (body : List Statement) : List (Bool × Node) :=
  body.flatMap fun content =>
    (Node.statement content).walk
      (fun insideLoop node => insideLoop || node.isLoop) false

/-- A program is no loop and has no findings of its own. -/
theorem audit_eq_visits (program : Program) :
    audit program =
      (Audit.visits program.body).flatMap fun visit =>
        Audit.findings program.occurrences visit.1 visit.2 := by
  have root : Audit.findings program.occurrences false (.program program) =
      [] :=
    rfl
  have outside : (false || (Node.program program).isLoop) = false :=
    rfl
  have children : (Node.program program).children =
      program.body.map .statement :=
    rfl
  rw [audit_eq, Node.walk_eq, List.flatMap_cons, root, outside, children,
    List.flatMap_map, List.nil_append]
  rfl

theorem Audit.mem_preorder_of_mem_visits {program : Program} {visit : Bool × Node}
    (visited : visit ∈ visits program.body) :
    visit.2 ∈ (Node.program program).preorder := by
  obtain ⟨content, member, below⟩ := List.mem_flatMap.mp visited
  have inside := List.mem_map_of_mem (f := Prod.snd) below
  rw [Node.walk_map_snd] at inside
  exact Node.mem_preorder_iff.mpr
    (.inr ⟨.statement content, List.mem_map_of_mem member, inside⟩)

/-- A finding stands at a node that carries its hazard. -/
theorem exists_node_of_mem_audit {program : Program} {finding : Finding}
    (reported : finding ∈ audit program) :
    ∃ node ∈ (Node.program program).preorder, ∃ insideLoop,
      ∃ hazard ∈ Audit.hazards program.occurrences insideLoop node,
        hazard.finding node.position = finding := by
  obtain ⟨⟨insideLoop, node⟩, visited, found⟩ := List.mem_flatMap.mp reported
  obtain ⟨hazard, present, same⟩ := List.mem_map.mp found
  refine ⟨node, ?_, insideLoop, hazard, present, same⟩
  have listed := List.mem_map_of_mem (f := Prod.snd) visited
  rwa [Node.walk_map_snd] at listed

theorem mem_audit_of_node {program : Program} {node : Node} {hazard : Hazard}
    (member : node ∈ (Node.program program).preorder)
    (carried : ∀ insideLoop,
      hazard ∈ Audit.hazards program.occurrences insideLoop node) :
    hazard.finding node.position ∈ audit program := by
  rw [← Node.walk_map_snd (fun insideLoop node => insideLoop || node.isLoop)
    false] at member
  obtain ⟨⟨insideLoop, node⟩, visited, rfl⟩ := List.mem_map.mp member
  exact List.mem_flatMap.mpr ⟨_, visited,
    List.mem_map.mpr ⟨hazard, carried insideLoop, rfl⟩⟩

/-! ### The rules as a relation -/

namespace Audit

/-- Which hazards a node carries, with the conditions of each rule. -/
inductive Carries (occurrences : Bytes → Nat) (insideLoop : Bool) :
    Node → Hazard → Prop where
  | codeExecution {callee : Expr} {arguments : List Expr} {position : Position}
      {name : Bytes} (spelled : callee.name? = some name)
      (listed : name ∈ codeExecutors) :
      Carries occurrences insideLoop
        (.expression (.call callee arguments position)) (.codeExecution name)
  | stringTimer {callee : Expr} {arguments : List Expr} {position : Position}
      {name text : Bytes} (spelled : callee.name? = some name)
      (first : arguments.head?.bind Expr.stringText? = some text)
      (listed : name ∈ timers) :
      Carries occurrences insideLoop
        (.expression (.call callee arguments position)) (.stringTimer name)
  | documentWrite {object property : Expr} {arguments : List Expr}
      {place position : Position} {method : Bytes}
      (owner : object.name? = some (Bytes.ofString "document"))
      (spelled : property.name? = some method)
      (listed : method ∈ documentWriters) :
      Carries occurrences insideLoop
        (.expression
          (.call (.member object property false place) arguments position))
        (.documentWrite method)
  | insecureRequest {object property : Expr} {computed : Bool}
      {arguments : List Expr} {place position : Position} {address : Bytes}
      (method : property.name? = some (Bytes.ofString "open"))
      (second : (arguments[1]?).bind Expr.stringText? = some address)
      (scheme : insecureScheme <+: address) :
      Carries occurrences insideLoop
        (.expression
          (.call (.member object property computed place) arguments position))
        .insecureRequest
  | markupProperty {object property : Expr} {computed : Bool}
      {position : Position} {name : Bytes}
      (spelled : property.name? = some name)
      (listed : name ∈ markupProperties) :
      Carries occurrences insideLoop
        (.expression (.member object property computed position))
        (.markupProperty name)
  | looseEquality {operator : Bytes} {left right : Expr} {position : Position}
      (listed : operator ∈ looseEqualities) :
      Carries occurrences insideLoop
        (.expression (.binary operator left right position))
        (.looseEquality operator)
  | implicitGlobal {operator name : Bytes} {target value : Expr}
      {position : Position} (spelled : target.name? = some name) :
      Carries occurrences insideLoop
        (.expression (.assignment operator target value position))
        (.implicitGlobal name)
  | loopConcatenation {operator : Bytes} {target value : Expr}
      {position : Position} (appends : operator = "+=")
      (literal : value.stringText?.isSome = true) (inside : insideLoop = true) :
      Carries occurrences insideLoop
        (.expression (.assignment operator target value position))
        .loopConcatenation
  | functionScopedVariable {keyword : Bytes} {declarators : List Declarator}
      {position : Position} (spelled : keyword = "var") :
      Carries occurrences insideLoop
        (.statement (.declaration keyword declarators position))
        .functionScopedVariable
  | oversizedFunction {identifier : Identifier} {parameters : List Identifier}
      {body : List Statement} {bodyPosition position : Position}
      (large : functionLimit < Statement.countAll body) :
      Carries occurrences insideLoop
        (.statement (.function identifier parameters body bodyPosition position))
        (.oversizedFunction (Statement.countAll body))
  | unusedVariable {content : Declarator}
      (rare : occurrences content.identifier.name ≤ 1) :
      Carries occurrences insideLoop (.declarator content)
        (.unusedVariable content.identifier.name)

section Rules

variable {occurrences : Bytes → Nat} {insideLoop : Bool} {node : Node}
  {hazard : Hazard}

theorem carries_of_call {callee : Expr} {arguments : List Expr}
    {position : Position}
    (carried : codeExecution? callee = some hazard ∨
      stringTimer? callee arguments = some hazard ∨
      documentWrite? callee = some hazard ∨
      insecureRequest? callee arguments = some hazard) :
    Carries occurrences insideLoop
      (.expression (.call callee arguments position)) hazard := by
  rcases carried with carried | carried | carried | carried
  · simp only [codeExecution?, Option.bind_eq_bind, Option.bind_eq_some_iff,
      Option.ite_none_right_eq_some, Option.some.injEq,
      List.contains_iff_mem] at carried
    obtain ⟨name, spelled, listed, rfl⟩ := carried
    exact .codeExecution spelled listed
  · simp only [stringTimer?, Option.bind_eq_bind, Option.bind_eq_some_iff,
      Option.ite_none_right_eq_some, Option.some.injEq,
      List.contains_iff_mem] at carried
    obtain ⟨name, spelled, text, first, listed, rfl⟩ := carried
    exact .stringTimer spelled (Option.bind_eq_some_iff.mpr first) listed
  · unfold documentWrite? at carried
    split at carried
    · simp only [Option.bind_eq_bind, Option.bind_eq_some_iff,
        Option.ite_none_right_eq_some, Option.some.injEq,
        List.contains_iff_mem] at carried
      obtain ⟨method, spelled, ⟨owner, listed⟩, rfl⟩ := carried
      exact .documentWrite owner spelled listed
    · cases carried
  · unfold insecureRequest? at carried
    split at carried
    · simp only [Option.bind_eq_bind, Option.bind_eq_some_iff,
        Option.ite_none_right_eq_some, Option.some.injEq,
        List.isPrefixOf_iff_prefix] at carried
      obtain ⟨address, second, ⟨method, scheme⟩, rfl⟩ := carried
      exact .insecureRequest method (Option.bind_eq_some_iff.mpr second) scheme
    · cases carried

theorem carries_of_mem_hazards
    (carried : hazard ∈ hazards occurrences insideLoop node) :
    Carries occurrences insideLoop node hazard := by
  unfold hazards at carried
  split at carried
  · simp only [List.append_assoc, List.mem_append, Option.mem_toList] at carried
    exact carries_of_call carried
  · simp only [markupProperty?, Option.mem_toList, Option.bind_eq_bind,
      Option.bind_eq_some_iff, Option.ite_none_right_eq_some,
      Option.some.injEq, List.contains_iff_mem] at carried
    obtain ⟨name, spelled, listed, rfl⟩ := carried
    exact .markupProperty spelled listed
  · simp only [looseEquality?, Option.mem_toList,
      Option.ite_none_right_eq_some, Option.some.injEq,
      List.contains_iff_mem] at carried
    obtain ⟨listed, rfl⟩ := carried
    exact .looseEquality listed
  · simp only [implicitGlobal?, loopConcatenation?, List.mem_append,
      Option.mem_toList, Option.map_eq_some_iff,
      Option.ite_none_right_eq_some, Option.some.injEq] at carried
    rcases carried with ⟨name, spelled, rfl⟩ | ⟨⟨appends, literal, inside⟩, rfl⟩
    · exact .implicitGlobal spelled
    · exact .loopConcatenation appends literal inside
  · simp only [functionScopedVariable?, Option.mem_toList,
      Option.ite_none_right_eq_some, Option.some.injEq] at carried
    obtain ⟨spelled, rfl⟩ := carried
    exact .functionScopedVariable spelled
  · simp only [oversizedFunction?, Option.mem_toList,
      Option.ite_none_right_eq_some, Option.some.injEq] at carried
    obtain ⟨large, rfl⟩ := carried
    exact .oversizedFunction large
  · simp only [unusedVariable?, Option.mem_toList,
      Option.ite_none_right_eq_some, Option.some.injEq] at carried
    obtain ⟨rare, rfl⟩ := carried
    exact .unusedVariable rare
  · cases carried

theorem mem_hazards_of_carries
    (carried : Carries occurrences insideLoop node hazard) :
    hazard ∈ hazards occurrences insideLoop node := by
  cases carried with
  | codeExecution spelled listed =>
      simp [hazards, codeExecution?, spelled, listed]
  | stringTimer spelled first listed =>
      simp [hazards, stringTimer?, spelled, first, listed]
  | documentWrite owner spelled listed =>
      simp [hazards, documentWrite?, owner, spelled, listed]
  | insecureRequest method second scheme =>
      simp [hazards, insecureRequest?, method, second, scheme]
  | markupProperty spelled listed =>
      simp [hazards, markupProperty?, spelled, listed]
  | looseEquality listed => simp [hazards, looseEquality?, listed]
  | implicitGlobal spelled => simp [hazards, implicitGlobal?, spelled]
  | loopConcatenation appends literal inside =>
      simp [hazards, loopConcatenation?, appends, literal, inside]
  | functionScopedVariable spelled =>
      simp [hazards, functionScopedVariable?, spelled]
  | oversizedFunction large => simp [hazards, oversizedFunction?, large]
  | unusedVariable rare => simp [hazards, unusedVariable?, rare]

theorem mem_hazards_iff :
    hazard ∈ hazards occurrences insideLoop node ↔
      Carries occurrences insideLoop node hazard :=
  ⟨carries_of_mem_hazards, mem_hazards_of_carries⟩

end Rules

end Audit

theorem codeExecution_mem_hazards {occurrences : Bytes → Nat}
    {insideLoop : Bool} {node : Node} {name : Bytes} :
    Hazard.codeExecution name ∈ Audit.hazards occurrences insideLoop node ↔
      ∃ callee arguments position,
        node = .expression (.call callee arguments position) ∧
          callee.name? = some name ∧
            Audit.codeExecutors.contains name = true := by
  rw [Audit.mem_hazards_iff, List.contains_iff_mem]
  constructor
  · rintro (⟨spelled, listed⟩)
    exact ⟨_, _, _, rfl, spelled, listed⟩
  · rintro ⟨callee, arguments, position, rfl, spelled, listed⟩
    exact .codeExecution spelled listed

theorem getLast?_append_some {front back : Bytes} {byte : UInt8}
    (last : back.getLast? = some byte) :
    (front ++ back).getLast? = some byte := by
  rw [List.getLast?_append, last]
  rfl

theorem head?_append_some {front back : Bytes} {byte : UInt8}
    (first : front.head? = some byte) :
    (front ++ back).head? = some byte := by
  rw [List.head?_append, first]
  rfl

/-- The words of a finding about executed code name the callee, and no other
hazard has words like them. -/
theorem eq_codeExecution_of_finding {hazard : Hazard} {name : Bytes}
    {place position : Position}
    (same : hazard.finding place =
      (Hazard.codeExecution name).finding position) :
    hazard = .codeExecution name ∧ place = position := by
  have category := congrArg Finding.category same
  have severity := congrArg Finding.severity same
  have message : hazard.message = (Hazard.codeExecution name).message :=
    congrArg Finding.message same
  have first : (Hazard.codeExecution name).message.head? = some 0x55 :=
    head?_append_some (head?_append_some (by decide))
  have last : (Hazard.codeExecution name).message.getLast? = some 0x65 :=
    getLast?_append_some (by decide)
  refine ⟨?_, congrArg Finding.position same⟩
  cases hazard with
  | codeExecution callee =>
      have inner := List.append_cancel_right message
      exact congrArg _ (List.append_cancel_left inner)
  | stringTimer callee =>
      have other : (Hazard.stringTimer callee).message.getLast? = some 0x29 :=
        getLast?_append_some (by decide)
      rw [message, last] at other
      cases other
  | markupProperty property =>
      have other : (Hazard.markupProperty property).message.head? = some 0x50 :=
        head?_append_some (by decide)
      rw [message, first] at other
      cases other
  | documentWrite method =>
      have other : (Hazard.documentWrite method).message.head? = some 0x49 :=
        head?_append_some (head?_append_some (by decide))
      rw [message, first] at other
      cases other
  | insecureRequest => cases severity
  | _ => cases category

/-! ### Carriers of hazards -/

def Hazard.carrier : Hazard → Node.Kind
  | codeExecution _ | stringTimer _ | documentWrite _ => .callExpression
  | insecureRequest => .callExpression
  | markupProperty _ => .memberExpression
  | looseEquality _ => .binaryExpression
  | implicitGlobal _ | loopConcatenation => .assignmentExpression
  | functionScopedVariable => .variableDeclaration
  | oversizedFunction _ => .functionDeclaration
  | unusedVariable _ => .variableDeclarator

theorem carrier_of_mem_hazards {occurrences : Bytes → Nat} {insideLoop : Bool}
    {node : Node} {hazard : Hazard}
    (carried : hazard ∈ Audit.hazards occurrences insideLoop node) :
    hazard.carrier = node.kind := by
  cases Audit.mem_hazards_iff.mp carried <;> rfl

/-- Nodes of other kinds than its carrier's do not carry a hazard. -/
theorem filter_hazards_of_kind_ne {hazard : Hazard} {node : Node}
    (different : node.kind ≠ hazard.carrier) (occurrences : Bytes → Nat)
    (insideLoop : Bool) :
    (Audit.hazards occurrences insideLoop node).filter (· == hazard) = [] := by
  apply List.filter_eq_nil_iff.mpr
  intro other carried same
  have kind := carrier_of_mem_hazards carried
  rw [eq_of_beq same] at kind
  exact different kind.symm

def Hazard.isReportedBy (hazard : Hazard) (finding : Finding) : Bool :=
  finding == hazard.finding finding.position

theorem filterMap_noted {α μ : Type} (test : α → Bool) (note : α → μ)
    (items : List α) :
    (items.filterMap fun item => if test item then some (note item) else none) =
      (items.filter test).map note := by
  rw [← List.filterMap_eq_map, List.filterMap_filter]
  rfl

/-- Where each node decides by itself about the findings that pass a test, these
come in the order of the nodes. -/
theorem filter_audit_eq_filterMap {program : Program} {test : Finding → Bool}
    {note : Node → Option Finding}
    (noted : ∀ insideLoop node,
      (Audit.findings program.occurrences insideLoop node).filter test =
        (note node).toList) :
    (audit program).filter test =
      (Node.program program).preorder.filterMap note := by
  rw [audit_eq, List.filter_flatMap,
    ← Node.walk_map_snd (fun insideLoop node => insideLoop || node.isLoop) false,
    List.filterMap_map, List.filterMap_eq_flatMap_toList]
  congr 1
  funext visit
  exact noted visit.1 visit.2

/-- If the words of a hazard tell it from all others, and the nodes themselves
decide it, then the findings about it stand at these nodes, in pre-order. -/
theorem filter_audit {hazard : Hazard} {carries : Node → Bool}
    (told : ∀ {other place},
      hazard.isReportedBy (other.finding place) = true ↔ other = hazard)
    (decided : ∀ occurrences insideLoop node,
      (Audit.hazards occurrences insideLoop node).filter (· == hazard) =
        if carries node then [hazard] else [])
    (program : Program) :
    (audit program).filter hazard.isReportedBy =
      ((Node.program program).preorder.filter carries).map
        fun node => hazard.finding node.position := by
  rw [← filterMap_noted]
  apply filter_audit_eq_filterMap
  intro insideLoop node
  have tests : hazard.isReportedBy ∘ (fun other => other.finding node.position) =
      (· == hazard) := by
    funext other
    rw [Bool.eq_iff_iff, beq_iff_eq]
    exact told
  rw [Audit.findings, List.filter_map, tests, decided]
  split <;> rfl

end ScriptAudit
