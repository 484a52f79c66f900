/-
Parsing undoes printing: the tokens that a program is printed to, in any style
and put at any places, are read back as the same program up to places.

An expression at a place of some level is followed by a token that no phrase of
a higher level goes on with. That is what makes the reader stop where the
printer did.
-/

import ScriptAudit.Proofs.Grammar.Completeness
import ScriptAudit.Proofs.Grammar.Lookahead
import ScriptAudit.Proofs.Grammar.Printing
import ScriptAudit.Proofs.Grammar.Relocation

namespace ScriptAudit

namespace Grammar

open Production

def phraseAt (place : Nat) (value : Expr) : Phrase :=
  match place with
  | 0 => .expression value
  | 1 => .binary ranks value
  | 8 => .unary value
  | 9 => .updated value
  | 10 => .accessed value
  | 11 => .primary value
  | rank + 2 =>
      match ranks.drop rank with
      | [] => .unary value
      | first :: tighter => .chain first tighter value

def continues (place : Nat) (token : Token) : Bool :=
  match place with
  | 0 => false
  | 1 => isAssignment token
  | 10 => opensAccess token || isUpdate token
  | rank + 2 => (ranks[rank]?).any fun rank => rank.admits token

/-- No phrase of a level above the given one goes on with the next token. -/
def Stops (place : Nat) (rest : List Token) : Prop :=
  ∀ higher, place < higher → begins (continues higher) rest = false

theorem Stops.mono {place higher : Nat} {rest : List Token}
    (stops : Stops place rest) (above : place ≤ higher) : Stops higher rest :=
  fun further tighter => stops further (Nat.lt_of_le_of_lt above tighter)

theorem reads_below {place : Nat} {value : Expr} {tokens rest : List Token}
    (bounded : place < 11)
    (stops : begins (continues (place + 1)) rest = false)
    (reading : Reads (phraseAt (place + 1) value) tokens rest) :
    Reads (phraseAt place value) tokens rest := by
  match place with
  | 0 => exact .simple reading stops
  | 1 => exact .rank reading stops
  | 2 | 3 | 4 | 5 | 6 => exact .first (.rank reading stops)
  | 7 => exact .first (.innermost reading)
  | 8 => exact .operand reading
  | 9 =>
      have both (token : Token) (rejected : continues 10 token = false) :
          opensAccess token = false ∧ isUpdate token = false :=
        Bool.or_eq_false_iff.mp rejected
      cases rest with
      | nil => exact .settled reading rfl rfl
      | cons token others =>
          exact .settled reading (both token stops).1 (both token stops).2
  | 10 => exact .bare reading
  | place + 11 => omega

theorem reads_of_le {place higher : Nat} {value : Expr}
    {tokens rest : List Token} (above : place ≤ higher) (bounded : higher ≤ 11)
    (stops : Stops place rest)
    (reading : Reads (phraseAt higher value) tokens rest) :
    Reads (phraseAt place value) tokens rest := by
  induction higher with
  | zero =>
      rw [Nat.le_zero.mp above]
      exact reading
  | succ higher inductionHypothesis =>
      by_cases same : place = higher + 1
      · rw [same]
        exact reading
      · have below : place ≤ higher := by omega
        exact inductionHypothesis below (by omega)
          (reads_below (by omega) (stops (higher + 1) (by omega)) reading)

theorem kind_of_admits {index : Nat} {token : Token}
    (admitted : (ranks[index]?).any (fun rank => rank.admits token) = true) :
    token.kind ∈ [Token.Kind.logical, .comparison, .arithmetic] := by
  obtain ⟨rank, found, admits⟩ := (Option.any_eq_true _ _).mp admitted
  have kinds : ∀ rank ∈ ranks,
      rank.kind ∈ [Token.Kind.logical, .comparison, .arithmetic] := by
    decide
  rw [kind_of_isSpelled admits]
  exact kinds rank (List.mem_of_getElem? found)

theorem kind_of_continues {place : Nat} {token : Token}
    (goesOn : continues place token = true) :
    token.kind ∈ continuingKinds := by
  unfold continues at goesOn
  split at goesOn
  · cases goesOn
  · rw [eq_of_beq goesOn]
    decide
  · simp only [Bool.or_eq_true, opensAccess, beq_iff_eq] at goesOn
    rcases goesOn with ((kind | kind) | kind) | updates
    · rw [kind]
      decide
    · rw [kind]
      decide
    · rw [kind]
      decide
    · rw [kind_of_isUpdate updates]
      decide
  · have kind := kind_of_admits goesOn
    have included : ∀ kind ∈ [Token.Kind.logical, .comparison, .arithmetic],
        kind ∈ continuingKinds := by
      decide
    exact included _ kind

theorem stops_of_kind {token : Token} (place : Nat) (rest : List Token)
    (outside : token.kind ∉ continuingKinds) : Stops place (token :: rest) := by
  intro higher _
  rw [begins_cons, Bool.eq_false_iff]
  exact fun goesOn => outside (kind_of_continues goesOn)

theorem stops_accessed (rest : List Token) : Stops 10 rest := by
  intro higher above
  cases rest with
  | nil => rfl
  | cons token others =>
      rw [begins_cons]
      unfold continues
      split
      · rfl
      · omega
      · omega
      · rename_i rank _
        have count : ranks.length = 6 := rfl
        rw [List.getElem?_eq_none (by omega)]
        rfl

theorem stops_of_ranks {token : Token} {place : Nat} (rest : List Token)
    (kind : token.kind ∈
      [Token.Kind.assignment, .logical, .comparison, .arithmetic])
    (above : 0 < place)
    (declined : ∀ index, place < index + 2 →
      (ranks[index]?).any (fun rank => rank.admits token) = false) :
    Stops place (token :: rest) := by
  intro higher further
  rw [begins_cons]
  unfold continues
  split
  · rfl
  · omega
  · simp only [List.mem_cons, List.not_mem_nil, or_false] at kind
    rcases kind with kind | kind | kind | kind <;>
      simp [opensAccess, isUpdate, Token.isSpelled, kind]
  · exact declined _ further

theorem stops_of_assignment {token : Token} (rest : List Token)
    (kind : token.kind = .assignment) : Stops 1 (token :: rest) := by
  refine stops_of_ranks rest (by simp [kind]) Nat.one_pos fun index _ => ?_
  rw [Bool.eq_false_iff]
  intro admitted
  have other := kind_of_admits admitted
  rw [kind] at other
  simp at other

/-- Every known operator is in one rank, and no tighter rank admits it. -/
theorem operator_cases {operator : Bytes}
    (known : (ranks.any fun rank => rank.spellings.contains operator) = true) :
    ∃ rank tighter, ranks.drop (operatorRank operator) = rank :: tighter ∧
      rank.admits (mark (operatorKind operator) operator) = true ∧
        ∀ other ∈ tighter,
          other.admits (mark (operatorKind operator) operator) = false := by
  simp only [ranks, List.any_cons, List.any_nil, List.contains_cons,
    List.contains_nil, Bool.or_false, Bool.or_eq_true, beq_iff_eq] at known
  rcases known with rfl | rfl | (rfl | rfl | rfl | rfl) |
    (rfl | rfl | rfl | rfl) | (rfl | rfl) | (rfl | rfl | rfl)
  all_goals
    refine ⟨_, _, rfl, by decide, ?_⟩
    decide

section Ranks

variable {index : Nat} {rank : Rank} {tighter : List Rank}

theorem lt_six_of_drop (listed : ranks.drop index = rank :: tighter) :
    index < 6 := by
  have nonempty : ranks.drop index ≠ [] := by
    rw [listed]
    exact List.cons_ne_nil rank tighter
  exact Nat.lt_of_not_le fun beyond =>
    nonempty (List.drop_eq_nil_of_le beyond)

theorem phraseAt_rank (listed : ranks.drop index = rank :: tighter)
    (value : Expr) : phraseAt (index + 2) value = .chain rank tighter value := by
  have bounded := lt_six_of_drop listed
  match index with
  | 0 | 1 | 2 | 3 | 4 | 5 =>
      cases listed
      rfl
  | beyond + 6 => omega

theorem reads_tighter (listed : ranks.drop index = rank :: tighter)
    {value : Expr} {tokens rest : List Token}
    (stops : begins (continues (index + 3)) rest = false)
    (reading : Reads (phraseAt (index + 3) value) tokens rest) :
    Reads (.binary tighter value) tokens rest := by
  have bounded := lt_six_of_drop listed
  match index with
  | 0 | 1 | 2 | 3 | 4 =>
      cases listed
      exact .rank reading stops
  | 5 =>
      cases listed
      exact .innermost reading
  | beyond + 6 => omega

theorem stops_of_operator {token : Token} (rest : List Token)
    (listed : ranks.drop index = rank :: tighter)
    (admitted : rank.admits token = true)
    (declined : ∀ other ∈ tighter, other.admits token = false) :
    Stops (index + 2) (token :: rest) := by
  have found : ranks[index]? = some rank := by
    rw [← Nat.add_zero index, ← List.getElem?_drop, listed]
    rfl
  have admittedThere :
      (ranks[index]?).any (fun rank => rank.admits token) = true := by
    rw [found]
    exact admitted
  have kind := List.mem_cons_of_mem Token.Kind.assignment
    (kind_of_admits admittedThere)
  refine stops_of_ranks rest kind (Nat.succ_pos _) ?_
  intro further above
  cases entry : ranks[further]? with
  | none => rfl
  | some other =>
      have shifted : (ranks.drop index)[further - index]? = some other := by
        rw [List.getElem?_drop, Nat.add_sub_cancel' (by omega), entry]
      have positive : further - index = (further - index - 1) + 1 := by omega
      rw [listed, positive, List.getElem?_cons_succ] at shifted
      exact declined other (List.mem_of_getElem? shifted)

end Ranks

theorem reads_commas {α β : Type} {each : β → List Token → List Token → Prop}
    {all : List β → List Token → List Token → Prop} (listing : Listing each all)
    {print : α → List Token} {convert : α → β} {values : List α}
    (nonempty : values ≠ []) {closing : Token} (rest : List Token)
    (printed : ∀ value ∈ values, ∀ after, Stops 0 after →
      each (convert value) (print value ++ after) after)
    (closes : closing.kind ∉ listKinds) :
    all (values.map convert) (commas (values.map print) ++ closing :: rest)
      (closing :: rest) := by
  induction values with
  | nil => exact absurd rfl nonempty
  | cons value others inductionHypothesis =>
      have head := printed value List.mem_cons_self
      cases others with
      | nil =>
          have stops : Stops 0 (closing :: rest) :=
            stops_of_kind 0 rest (List.not_mem_of_not_mem_cons closes)
          have noComma : isComma closing = false :=
            beq_eq_false_iff_ne.mpr (List.ne_of_not_mem_cons closes)
          exact listing.one (head _ stops) noComma
      | cons next others =>
          have tail := inductionHypothesis (List.cons_ne_nil next others)
            fun value member => printed value (List.mem_cons_of_mem _ member)
          have separator : Stops 0 (mark .comma "," ::
              (commas ((next :: others).map print) ++ closing :: rest)) :=
            stops_of_kind 0 _ (by decide)
          have reading := listing.more (head _ separator) rfl tail
          simpa only [List.map_cons, commas, List.append_assoc,
            List.cons_append] using reading

/-! ### Expressions -/

/-- Moves every place to the start, so that places no longer differ. -/
def toStart : Position → Position :=
  fun _ => .start

/-- The printed form of a node is read back as the node, whatever follows that
the node cannot go on with. -/
def Printed (style : Style) : Node → Prop
  | .expression value => ∀ leading rest, Stops (level value) rest →
      Reads (phraseAt (level value) (value.relocate toStart))
        (bareTokens style leading value ++ rest) rest
  | .property entry => ∀ rest, Stops 0 rest →
      Reads (.property (entry.relocate toStart))
        (entryTokens style entry ++ rest) rest
  | .declarator content => ∀ rest, Stops 0 rest →
      Reads (.declarator (content.relocate toStart))
        (declaratorTokens style content ++ rest) rest
  | .statement content => ∀ rest,
      (content.endsOpen = true → begins isElse rest = false) →
        Reads (.statement (content.relocate toStart))
          (statementTokens style content ++ rest) rest
  | .program program => ∀ rest, begins isElse rest = false →
      Reads (.statements (program.relocate toStart).body)
        (programTokens style program ++ rest) rest

theorem level_le (value : Expr) : level value ≤ 11 := by
  have bound (operator : Bytes) : operatorRank operator ≤ 6 :=
    List.findIdx_le_length
  cases value with
  | binary operator left right position =>
      have := bound operator
      simp only [level]
      omega
  | unary operator fixity operand position => cases fixity <;> simp [level]
  | _ => simp [level]

section Expressions

variable {style : Style}

theorem reads_tokensAt {value : Expr} {place : Nat} (bounded : place ≤ 11)
    (leading : Bool) {rest : List Token}
    (printed : Printed style (.expression value)) (stops : Stops place rest) :
    Reads (phraseAt place (value.relocate toStart))
      (tokensAt style place leading value ++ rest) rest := by
  unfold tokensAt placed
  by_cases wrapped : wraps style place leading value = true
  · rw [if_pos wrapped]
    have closing : Stops 0 (mark .rightParen ")" :: rest) :=
      stops_of_kind 0 rest (by decide)
    have inner := reads_of_le (Nat.zero_le _) (level_le value) closing
      (printed false _ (closing.mono (Nat.zero_le _)))
    have group : Reads (phraseAt 11 (value.relocate toStart))
        (mark .leftParen "(" :: (bareTokens style false value
          ++ mark .rightParen ")" :: rest)) rest :=
      .parenthesized rfl inner rfl
    rw [parentheses, between_append]
    exact reads_of_le bounded (Nat.le_refl 11) stops group
  · rw [if_neg wrapped]
    have above : place ≤ level value := by
      simp only [wraps, Bool.or_eq_true, decide_eq_true_eq, not_or] at wrapped
      omega
    exact reads_of_le above (level_le value) stops
      (printed leading rest (stops.mono above))

theorem reads_expressions {values : List Expr} {closing : Token}
    (rest : List Token)
    (printed : ∀ value ∈ values, Printed style (.expression value))
    (closes : closing.kind ∉ listKinds) :
    Reads (.expressions (Expr.relocateAll toStart values))
      (commas (listTokens style values) ++ closing :: rest)
      (closing :: rest) := by
  rw [Expr.relocateAll_eq_map, listTokens_eq_map]
  by_cases empty : values = []
  · rw [empty]
    exact .noExpressions
  · refine reads_commas expressionListing empty rest ?_ closes
    intro value member after stops
    exact reads_tokensAt (Nat.zero_le 11) false (printed value member) stops

theorem reads_properties {entries : List Property} {closing : Token}
    (rest : List Token)
    (printed : ∀ entry ∈ entries, Printed style (.property entry))
    (closes : closing.kind ∉ listKinds) :
    Reads (.properties (Property.relocateAll toStart entries))
      (commas (entriesTokens style entries) ++ closing :: rest)
      (closing :: rest) := by
  rw [Property.relocateAll_eq_map, entriesTokens_eq_map]
  by_cases empty : entries = []
  · rw [empty]
    exact .noProperties
  · exact reads_commas propertyListing empty rest printed closes

theorem literal?_mark {literal : Literal} (written : literal.isWritten = true) :
    literal? (mark literal.value.kind literal.raw) =
      some (literal.relocate toStart) := by
  have value : literalValue? (mark literal.value.kind literal.raw) =
      some literal.value :=
    eq_of_beq written
  unfold literal?
  rw [value]
  rfl

theorem printed_binary {operator : Bytes} {left right : Expr}
    {position : Position}
    (known : (ranks.any fun rank => rank.spellings.contains operator) = true)
    (leftPrinted : Printed style (.expression left))
    (rightPrinted : Printed style (.expression right)) :
    Printed style (.expression (.binary operator left right position)) := by
  intro leading rest stops
  obtain ⟨rank, tighter, listed, admitted, declined⟩ := operator_cases known
  have bounded := lt_six_of_drop listed
  have rightReading := reads_tighter listed (stops _ (Nat.lt_succ_self _))
    (reads_tokensAt (by omega) false rightPrinted (stops.mono (Nat.le_succ _)))
  have leftReading := reads_tokensAt (by omega) leading leftPrinted
    (stops_of_operator (tokensAt style (operatorRank operator + 3) false right
      ++ rest) listed admitted declined)
  rw [phraseAt_rank listed] at leftReading
  have reading := Reads.join leftReading admitted rightReading
  rw [Expr.position_relocate] at reading
  rw [level, phraseAt_rank listed, bareTokens, List.append_assoc]
  exact reading

theorem printed_unary {operator : Bytes} {fixity : Fixity} {operand : Expr}
    {position : Position}
    (regular : (Node.expression
      (.unary operator fixity operand position)).isRegular = true)
    (printed : Printed style (.expression operand)) :
    Printed style (.expression (.unary operator fixity operand position)) := by
  intro leading rest stops
  cases fixity with
  | before =>
      have kind : (mark .unary operator).kind = .unary := rfl
      exact .operator kind (reads_tokensAt (level_le _) false printed stops)
  | after =>
      have reading := reads_tokensAt (Nat.le_succ 10) leading printed
        (stops_accessed (mark .unary operator :: rest))
      have updates : isUpdate (mark .unary operator) = true := regular
      have update := Reads.update reading updates
      rw [Expr.position_relocate] at update
      rw [bareTokens, List.append_assoc]
      exact update

theorem printed_assignment {operator : Bytes} {target value : Expr}
    {position : Position} (targetPrinted : Printed style (.expression target))
    (valuePrinted : Printed style (.expression value)) :
    Printed style
      (.expression (.assignment operator target value position)) := by
  intro leading rest stops
  have kind : (mark .assignment operator).kind = .assignment := rfl
  have valueReading := reads_tokensAt (Nat.zero_le 11) false valuePrinted stops
  have targetReading := reads_tokensAt (by decide) leading targetPrinted
    (stops_of_assignment (tokensAt style 0 false value ++ rest) kind)
  have reading := Reads.assignment targetReading kind valueReading
  rw [Expr.position_relocate] at reading
  rw [bareTokens, List.append_assoc]
  exact reading

theorem printed_call {callee : Expr} {arguments : List Expr}
    {position : Position} (calleePrinted : Printed style (.expression callee))
    (argumentsPrinted : ∀ value ∈ arguments,
      Printed style (.expression value)) :
    Printed style (.expression (.call callee arguments position)) := by
  intro leading rest stops
  have closes : (mark .rightParen ")").kind ∉ listKinds := by decide
  have calleeReading (following : List Token) :=
    reads_tokensAt (Nat.le_succ 10) leading calleePrinted
      (stops_accessed following)
  have reading := Reads.call (calleeReading _) (mark_kind .leftParen "(")
    (reads_expressions rest argumentsPrinted closes)
    (mark_kind .rightParen ")")
  rw [Expr.position_relocate] at reading
  rw [bareTokens, List.append_assoc, parentheses, between_append]
  exact reading

theorem printed_member {object selector : Expr} {computed : Bool}
    {position : Position}
    (regular : (Node.expression
      (.member object selector computed position)).isRegular = true)
    (objectPrinted : Printed style (.expression object))
    (selectorPrinted : Printed style (.expression selector)) :
    Printed style
      (.expression (.member object selector computed position)) := by
  intro leading rest stops
  have objectReading (following : List Token) :=
    reads_tokensAt (Nat.le_succ 10) leading objectPrinted
      (stops_accessed following)
  cases computed with
  | true =>
      have closing : Stops 0 (mark .rightBracket "]" :: rest) :=
        stops_of_kind 0 rest (by decide)
      have inner := reads_tokensAt (Nat.zero_le 11) false selectorPrinted closing
      have reading := Reads.index (objectReading _) (mark_kind .leftBracket "[")
        inner (mark_kind .rightBracket "]")
      rw [Expr.position_relocate] at reading
      rw [bareTokens, List.append_assoc, brackets, between_append]
      exact reading
  | false =>
      cases selector with
      | identifier identifier =>
          have reading := Reads.member
            (objectReading (_ :: _ :: rest)) (mark_kind .dot ".")
            (mark_kind .identifier identifier.name)
          rw [Expr.position_relocate] at reading
          rw [bareTokens, List.append_assoc]
          exact reading
      | _ => cases regular

theorem printed_expression {value : Expr}
    (regular : (Node.expression value).isRegular = true)
    (inner : ∀ child ∈ Node.expressionChildren value, Printed style child) :
    Printed style (.expression value) := by
  cases value with
  | identifier identifier =>
      intro leading rest stops
      exact .identifier (mark_kind .identifier identifier.name)
  | literal literal =>
      intro leading rest stops
      exact .literal (literal?_mark regular)
  | binary operator left right position =>
      exact printed_binary regular (inner _ (by simp [Node.expressionChildren]))
        (inner _ (by simp [Node.expressionChildren]))
  | unary operator fixity operand position =>
      exact printed_unary regular (inner _ (by simp [Node.expressionChildren]))
  | assignment operator target value position =>
      exact printed_assignment (inner _ (by simp [Node.expressionChildren]))
        (inner _ (by simp [Node.expressionChildren]))
  | call callee arguments position =>
      exact printed_call (inner _ (by simp [Node.expressionChildren]))
        fun value member => inner _ (by simp [Node.expressionChildren, member])
  | member object selector computed position =>
      exact printed_member regular (inner _ (by simp [Node.expressionChildren]))
        (inner _ (by simp [Node.expressionChildren]))
  | array elements position =>
      intro leading rest stops
      have closes : (mark .rightBracket "]").kind ∉ listKinds := by decide
      have list := reads_expressions rest (fun value member =>
        inner _ (List.mem_map_of_mem member)) closes
      rw [bareTokens, brackets, between_append]
      exact .array (mark_kind .leftBracket "[") list
        (mark_kind .rightBracket "]")
  | object properties position =>
      intro leading rest stops
      have closes : (mark .rightBrace "\x7d").kind ∉ listKinds := by decide
      have list := reads_properties rest (fun entry member =>
        inner _ (List.mem_map_of_mem member)) closes
      rw [bareTokens, braces, between_append]
      exact .object (mark_kind .leftBrace "\x7b") list
        (mark_kind .rightBrace "\x7d")

theorem printed_property {entry : Property}
    (regular : (Node.property entry).isRegular = true)
    (keyRegular : (Node.expression entry.key).isRegular = true)
    (printed : Printed style (.expression entry.value)) :
    Printed style (.property entry) := by
  cases entry with
  | entry key value position =>
      intro rest stops
      have content := reads_tokensAt (Nat.zero_le 11) false printed stops
      cases key with
      | identifier identifier =>
          exact .namedProperty (mark_kind .identifier identifier.name)
            (mark_kind .colon ":") content
      | literal literal =>
          have written := literal?_mark keyRegular
          obtain ⟨value, raw, place⟩ := literal
          cases value with
          | string text =>
              exact .quotedProperty (mark_kind .string raw) written
                (mark_kind .colon ":") content
          | _ => cases regular
      | _ => cases regular

theorem notBrace_tokensAt (place : Nat) (rest : List Token) (value : Expr) :
    begins opensBrace (tokensAt style place true value ++ rest) = false := by
  unfold tokensAt placed
  by_cases wrapped : wraps style place true value = true
  · rw [if_pos wrapped]
    rfl
  rw [if_neg wrapped]
  change begins opensBrace (bareTokens style true value ++ rest) = false
  cases value with
  | identifier identifier => rfl
  | literal literal =>
      obtain ⟨content, raw, position⟩ := literal
      cases content <;> rfl
  | unary operator fixity operand position =>
      cases fixity with
      | before => rfl
      | after =>
          rw [bareTokens, List.append_assoc]
          exact notBrace_tokensAt 10 _ operand
  | member object selector computed position =>
      cases computed <;> rw [bareTokens, List.append_assoc] <;>
        exact notBrace_tokensAt 10 _ object
  | call callee arguments position =>
      rw [bareTokens, List.append_assoc]
      exact notBrace_tokensAt 10 _ callee
  | binary operator left right position =>
      rw [bareTokens, List.append_assoc]
      exact notBrace_tokensAt _ _ left
  | assignment operator target assigned position =>
      rw [bareTokens, List.append_assoc]
      exact notBrace_tokensAt 1 _ target
  | array elements position => rfl
  | object properties position =>
      simp [wraps, isObject] at wrapped

end Expressions

/-! ### Statements -/

section Statements

variable {style : Style}

theorem printed_declarator {content : Declarator}
    (inner : ∀ value ∈ content.init, Printed style (.expression value)) :
    Printed style (.declarator content) := by
  intro rest stops
  obtain ⟨identifier, init, position⟩ := content
  cases init with
  | none =>
      have noEquals : begins isEquals rest = false := by
        cases rest with
        | nil => rfl
        | cons token others =>
            have other : (token.kind == .assignment) = false :=
              stops 1 Nat.one_pos
            rw [begins_cons, isEquals, Token.isSpelled, other]
            rfl
      exact .declared (mark_kind .identifier identifier.name) noEquals
  | some value =>
      have equals : isEquals (mark .assignment "=") = true := by decide
      exact .initialized (mark_kind .identifier identifier.name) equals
        (reads_tokensAt (Nat.zero_le 11) false (inner value rfl) stops)

theorem not_isElse_of_opensStatement (token : Token)
    (opens : opensStatement token = true) : isElse token = false := by
  rw [opensStatement, Bool.or_eq_true, Bool.or_eq_true] at opens
  rw [Bool.eq_false_iff]
  rcases opens with (starts | brace) | expression
  · exact not_isSpelled_of_disjoint starts
  · exact not_isSpelled_of_kind (by rw [eq_of_beq brace]; decide) _
  · have other : (token.kind == .keyword) = false :=
      kind_ne_of_opensExpression (by decide) token expression
    exact not_isSpelled_of_kind (beq_eq_false_iff_ne.mp other) _

theorem reads_statements {contents : List Statement} {rest : List Token}
    (printed : ∀ content ∈ contents, Printed style (.statement content))
    (noElse : begins isElse rest = false) :
    Reads (.statements (Statement.relocateAll toStart contents))
        (statementsTokens style contents ++ rest) rest ∧
      begins isElse (statementsTokens style contents ++ rest) = false := by
  induction contents with
  | nil => exact ⟨.noStatements, noElse⟩
  | cons content others inductionHypothesis =>
      obtain ⟨tail, tailNoElse⟩ := inductionHypothesis
        fun content member => printed content (List.mem_cons_of_mem _ member)
      have head := printed content List.mem_cons_self _ fun _ => tailNoElse
      rw [statementsTokens, List.append_assoc]
      exact ⟨.moreStatements head tail,
        begins_disjoint not_isElse_of_opensStatement (head.begins_first rfl)⟩

theorem reads_block {body : List Statement}
    (printed : ∀ content ∈ body, Printed style (.statement content))
    (rest : List Token) :
    Reads (.block (Statement.relocateAll toStart body) .start)
      (braces (statementsTokens style body) ++ rest) rest := by
  have noElse : begins isElse (mark .rightBrace "\x7d" :: rest) = false := rfl
  obtain ⟨list, _⟩ := reads_statements printed noElse
  rw [braces, between_append]
  exact .block (mark_kind .leftBrace "\x7b") list (mark_kind .rightBrace "\x7d")

theorem reads_parameters (parameters : List Identifier) (rest : List Token) :
    Reads
      (.parameters (parameters.map
        fun parameter => mark .identifier parameter.name))
      (commas (parameters.map fun parameter => [mark .identifier parameter.name])
        ++ mark .rightParen ")" :: rest)
      (mark .rightParen ")" :: rest) := by
  by_cases empty : parameters = []
  · rw [empty]
    exact .noParameters
  · exact reads_commas parameterListing empty rest
      (fun parameter _ after _ => ⟨rfl, rfl⟩) (by decide)

theorem printed_declaration {keyword : Bytes} {declarators : List Declarator}
    {position : Position}
    (regular : (Node.statement
      (.declaration keyword declarators position)).isRegular = true)
    (inner : ∀ content ∈ declarators, Printed style (.declarator content)) :
    Printed style (.statement (.declaration keyword declarators position)) := by
  intro rest _
  simp only [Node.isRegular, Bool.and_eq_true, Bool.not_eq_true',
    List.isEmpty_eq_false_iff] at regular
  have spelled : (mark .keyword keyword).isSpelled .keyword
      ["var", "let", "const"] = true :=
    regular.1
  have closes : (mark .semicolon ";").kind ∉ listKinds := by decide
  have list := reads_commas declaratorListing regular.2 rest inner closes
  have reading := Reads.declaration spelled list
    (.semicolon (mark_kind .semicolon ";"))
  rw [statementTokens, List.cons_append, List.append_assoc]
  exact reading

theorem stops_of_semicolon (rest : List Token) :
    Stops 0 (mark .semicolon ";" :: rest) :=
  stops_of_kind 0 rest (by decide)

theorem printed_returning {argument : Option Expr} {position : Position}
    (inner : ∀ value ∈ argument, Printed style (.expression value)) :
    Printed style (.statement (.returning argument position)) := by
  intro rest _
  have spelled : (mark .keyword "return").isSpelled .keyword ["return"] =
      true := by
    decide
  cases argument with
  | none =>
      exact .returnNothing spelled (.inr rfl)
        (.semicolon (mark_kind .semicolon ";"))
  | some value =>
      have reading := reads_tokensAt (Nat.zero_le 11) false (inner value rfl)
        (stops_of_semicolon rest)
      have whole := Reads.returnValue spelled reading
        (.semicolon (mark_kind .semicolon ";"))
      rw [statementTokens, List.cons_append, List.append_assoc]
      exact whole

theorem printed_function {identifier : Identifier}
    {parameters : List Identifier} {body : List Statement}
    {bodyPosition position : Position}
    (inner : Printed style (.statement (.block body bodyPosition))) :
    Printed style (.statement
      (.function identifier parameters body bodyPosition position)) := by
  intro rest _
  have block := inner rest fun impossible => nomatch impossible
  have spelled : (mark .keyword "function").isSpelled .keyword ["function"] =
      true := by
    decide
  cases block with
  | blockStatement block =>
      have reading := Reads.function spelled
        (mark_kind .identifier identifier.name) (mark_kind .leftParen "(")
        (reads_parameters parameters _) (mark_kind .rightParen ")") block
      rw [List.map_map] at reading
      rw [statementTokens]
      simp only [List.cons_append, List.append_assoc, parentheses,
        between_append]
      exact reading

theorem reads_condition {test : Expr} (following : List Token)
    (printed : Printed style (.expression test)) :
    Reads (.expression (test.relocate toStart))
      (tokensAt style 0 false test ++ mark .rightParen ")" :: following)
      (mark .rightParen ")" :: following) :=
  reads_tokensAt (Nat.zero_le 11) false printed
    (stops_of_kind 0 following (by decide))

theorem printed_ifThen {test : Expr} {consequent : Statement}
    {position : Position} (testPrinted : Printed style (.expression test))
    (branchPrinted : Printed style (.statement consequent)) :
    Printed style (.statement (.ifThen test consequent position)) := by
  intro rest closed
  have noElse := closed rfl
  have spelled : (mark .keyword "if").isSpelled .keyword ["if"] = true := by
    decide
  have branch := branchPrinted rest fun _ => noElse
  have reading := Reads.ifThen spelled (mark_kind .leftParen "(")
    (reads_condition _ testPrinted) (mark_kind .rightParen ")") branch noElse
  rw [statementTokens]
  simp only [List.cons_append, List.append_assoc, parentheses, between_append]
  exact reading

theorem printed_ifElse {test : Expr} {consequent alternate : Statement}
    {position : Position}
    (regular : (Node.statement
      (.ifElse test consequent alternate position)).isRegular = true)
    (testPrinted : Printed style (.expression test))
    (branchPrinted : Printed style (.statement consequent))
    (otherPrinted : Printed style (.statement alternate)) :
    Printed style
      (.statement (.ifElse test consequent alternate position)) := by
  intro rest closed
  have spelled : (mark .keyword "if").isSpelled .keyword ["if"] = true := by
    decide
  have elseSpelled : isElse (mark .keyword "else") = true := by decide
  -- the consequent leaves no conditional open that could take the `else`
  have settled : consequent.endsOpen = false := by
    simpa [Node.isRegular] using regular
  have other := otherPrinted rest closed
  have branch := branchPrinted
    (mark .keyword "else" :: (statementTokens style alternate ++ rest))
    fun endsOpen => absurd endsOpen (by rw [settled]; decide)
  have reading := Reads.ifElse spelled (mark_kind .leftParen "(")
    (reads_condition _ testPrinted) (mark_kind .rightParen ")") branch
    elseSpelled other
  rw [statementTokens]
  simp only [List.cons_append, List.append_assoc, parentheses, between_append]
  exact reading

theorem printed_loop {kind : LoopKind} {body : Statement} {position : Position}
    (printed : Printed style (.statement body)) :
    Printed style (.statement (.loop kind body position)) := by
  intro rest closed
  have repeated := printed rest closed
  have spelled : (loopKeyword kind).isSpelled .keyword ["while", "for"] =
      true := by
    cases kind <;> decide
  have same : loopKind (loopKeyword kind) = kind := by
    cases kind <;> decide
  have place : (loopKeyword kind).position = .start := by
    cases kind <;> rfl
  have reading := Reads.loop spelled (mark_kind .leftParen "(") .nil
    (mark_kind .rightParen ")") repeated
  rw [same, place] at reading
  rw [statementTokens, List.cons_append, List.append_assoc, parentheses,
    between_append]
  exact reading

theorem printed_statement {content : Statement}
    (regular : (Node.statement content).isRegular = true)
    (inner : ∀ child ∈ Node.statementChildren content, Printed style child) :
    Printed style (.statement content) := by
  cases content with
  | declaration keyword declarators position =>
      exact printed_declaration regular fun content member =>
        inner _ (List.mem_map_of_mem member)
  | function identifier parameters body bodyPosition position =>
      exact printed_function (inner _ (by simp [Node.statementChildren]))
  | block body position =>
      intro rest _
      exact .blockStatement (reads_block
        (fun content member => inner _ (List.mem_map_of_mem member)) rest)
  | expression value position =>
      intro rest _
      have reading := reads_tokensAt (Nat.zero_le 11) true
        (inner _ List.mem_cons_self) (stops_of_semicolon rest)
      have whole := Reads.expressionStatement (notBrace_tokensAt 0 _ value)
        reading (.semicolon (mark_kind .semicolon ";"))
      rw [Expr.position_relocate] at whole
      rw [statementTokens, List.append_assoc]
      exact whole
  | returning argument position =>
      exact printed_returning fun value member =>
        inner _ (List.mem_map_of_mem (Option.mem_toList.mpr member))
  | ifThen test consequent position =>
      exact printed_ifThen (inner _ (by simp [Node.statementChildren]))
        (inner _ (by simp [Node.statementChildren]))
  | ifElse test consequent alternate position =>
      exact printed_ifElse regular (inner _ (by simp [Node.statementChildren]))
        (inner _ (by simp [Node.statementChildren]))
        (inner _ (by simp [Node.statementChildren]))
  | loop kind body position =>
      exact printed_loop (inner _ (by simp [Node.statementChildren]))

end Statements

/-! ### Whole programs -/

/-- Every node of a well-formed tree is read back from its printed form. -/
theorem printed_of_wellFormed (style : Style) (node : Node) :
    node.WellFormed → Printed style node := by
  induction node using Node.induction_on_children with
  | step node inductionHypothesis =>
      intro wellFormed
      obtain ⟨regular, below⟩ := node.wellFormed_iff.mp wellFormed
      have inner : ∀ child ∈ node.children, Printed style child :=
        fun child member =>
          inductionHypothesis child member (below child member)
      cases node with
      | expression value => exact printed_expression regular inner
      | statement content => exact printed_statement regular inner
      | property entry =>
          have key := below _ List.mem_cons_self
          exact printed_property regular
            ((Node.wellFormed_iff _).mp key).1
            (inner _ (List.mem_cons_of_mem _ List.mem_cons_self))
      | declarator content =>
          refine printed_declarator fun value member => inner _ ?_
          exact List.mem_cons_of_mem _
            (List.mem_map_of_mem (Option.mem_toList.mpr member))
      | program program =>
          intro rest noElse
          have reading := (reads_statements (fun content member =>
            inner _ (List.mem_map_of_mem member)) noElse).1
          rw [Statement.relocateAll_eq_map] at reading
          exact reading

end Grammar

open Grammar

/--
Take any token list whose significant tokens have the kinds and lexemes of a
well-formed program printed in some style, at whatever places they stand. It is
read without diagnostics, and the program read is the one that was printed, up
to places.
-/
theorem parseTokens_printed (style : Style) (program : Program)
    (wellFormed : (Node.program program).WellFormed) (all : List Token)
    (spelled : (Token.Stream.ofTokens all).tokens.map (Token.relocate toStart) =
      programTokens style program) :
    (parseTokens all).diagnostics = [] ∧
      (parseTokens all).program.relocate toStart =
        program.relocate toStart := by
  have reading := printed_of_wellFormed style _ wellFormed [] rfl
  rw [List.append_nil, ← spelled, ← Token.Stream.tokens_relocate] at reading
  have parsed := (parseTokens_eq_iff _ _).mpr reading
  rw [parseTokens_relocate] at parsed
  exact ⟨List.map_eq_nil_iff.mp parsed.1, congrArg Program.mk parsed.2⟩

/-- `if (a == b) while () { } else ({})(a - (b - c));` -/
def guardedCall : Program :=
  have name (text : Bytes) : Expr := .identifier ⟨text, .start⟩
  ⟨[.ifElse (.binary "==" (name "a") (name "b") .start)
      (.loop .whileLoop (.block [] .start) .start)
      (.expression
        (.call (.object [] .start)
          [.binary "-" (name "a") (.binary "-" (name "b") (name "c") .start)
            .start]
          .start)
        .start)
      .start]⟩

/-- Both extreme styles, on a program that needs parentheses of each sort. -/
theorem parseTokens_printed_guardedCall :
    (Node.program guardedCall).WellFormed ∧
      ∀ style ∈ [Style.minimal, Style.full],
        (parseTokens (programTokens style guardedCall)).diagnostics = [] ∧
          (parseTokens (programTokens style guardedCall)).program.relocate
              toStart =
            guardedCall.relocate toStart := by
  have wellFormed : (Node.program guardedCall).WellFormed := by
    unfold Node.WellFormed
    simp only [guardedCall, Node.preorder_eq, Node.children,
      Node.statementChildren, Node.expressionChildren, List.map_cons,
      List.map_nil, List.flatMap_cons, List.flatMap_nil, List.forall_mem_cons,
      List.append_nil, List.nil_append, List.cons_append]
    decide
  refine ⟨wellFormed, fun style member => ?_⟩
  apply parseTokens_printed style guardedCall wellFormed
  simp only [List.mem_cons, List.not_mem_nil, or_false] at member
  rcases member with rfl | rfl <;> decide +kernel

end ScriptAudit
