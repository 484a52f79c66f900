/-
Names that are called. In a reading, a name with an opening parenthesis after it
is the callee of a call, unless it stands in a loop header or after a token that
makes it a property, a declared name or an item of a list.
-/

import ScriptAudit.Proofs.Grammar.LoopHeader
import ScriptAudit.Proofs.Tree.Preorder

namespace ScriptAudit.Grammar

/-- The tokens after which a name need not stand for a value. -/
def hidesName (token : Token) : Bool :=
  token.kind == .dot || token.kind == .comma
    || token.isSpelled .keyword ["function", "var", "let", "const"]

theorem hidesName_of_isSpelled {token : Token} {spellings : List Bytes}
    (spelled : token.isSpelled .keyword spellings = true)
    (listed : ∀ spelling ∈ spellings, spelling ∈
      (["function", "var", "let", "const"] : List Bytes) := by decide) :
    hidesName token = true := by
  rw [hidesName, Bool.or_eq_true]
  exact .inr (isSpelled_mono spelled listed)

/-- What follows these tokens is outside loop headers and not hidden. -/
structure Visible (before : List Token) : Prop where
  outside : (Region.code.after before).isHeader = false
  unhidden : ∀ token ∈ before.getLast?, hidesName token = false

/-- A token with the tokens after it, at a visible spot of a list. -/
def Spot (name : Token) (following tokens : List Token) : Prop :=
  ∃ before, tokens = before ++ name :: following ∧ Visible before

theorem Visible.nil : Visible [] :=
  { outside := rfl
    unhidden := fun _ member => nomatch member }

theorem Visible.of_append {front back : List Token}
    (visible : Visible (front ++ back))
    (settled : Region.code.after front = .code) : Visible back := by
  constructor
  · have outside := visible.outside
    rwa [Region.after_append, settled] at outside
  · intro token member
    apply visible.unhidden
    rw [List.getLast?_append, Option.mem_def.mp member]
    rfl

namespace Spot

variable {name token : Token} {following tokens middle rest : List Token}

theorem not_suffix (spot : Spot name following tokens) :
    ¬tokens <:+ following := by
  obtain ⟨before, rfl, _⟩ := spot
  intro suffix
  have bound := suffix.length_le
  rw [List.length_append, List.length_cons] at bound
  omega

theorem cons (spot : Spot name following (token :: rest))
    (settled : Region.code.next token = .code) :
    (token = name ∧ rest = following) ∨
      (Spot name following rest ∧
        (hidesName token = true → rest ≠ name :: following)) := by
  obtain ⟨before, same, visible⟩ := spot
  cases before with
  | nil => exact .inl (List.cons.inj same)
  | cons first others =>
      rw [List.cons_append] at same
      obtain ⟨rfl, rfl⟩ := List.cons.inj same
      have after : Visible ([token] ++ others) := visible
      refine .inr ⟨⟨others, rfl, after.of_append settled⟩, ?_⟩
      intro hides atHead
      rw [List.append_left_eq_self.mp atHead] at visible
      have unhidden := visible.unhidden token rfl
      rw [hides] at unhidden
      cases unhidden

/-- A spot is before what is left after a phrase, or in it. -/
theorem through {phrase : Phrase} (spot : Spot name following tokens)
    (reading : Reads phrase tokens middle) (proper : phrase.Proper) :
    middle <:+ following ∨ Spot name following middle := by
  obtain ⟨before, same, visible⟩ := spot
  obtain ⟨front, rfl, derivation⟩ := reading.derives
  have settled := derivation.after_code proper
  rcases List.append_eq_append_iff.mp same with
    ⟨shared, rfl, rfl⟩ | ⟨shared, rfl, split⟩
  · exact .inr ⟨shared, rfl, visible.of_append settled⟩
  · cases shared with
    | nil => exact .inr ⟨[], split.symm, .nil⟩
    | cons head others => exact .inl ⟨others, (List.cons.inj split).2.symm⟩

theorem past {kind : Token.Kind} (spot : Spot name following (token :: rest))
    (named : name.kind = .identifier) (known : token.kind = kind)
    (other : kind ∉ [Token.Kind.identifier, .keyword] := by decide) :
    Spot name following rest ∧
      (hidesName token = true → rest ≠ name :: following) := by
  simp only [List.mem_cons, List.not_mem_nil, or_false, not_or] at other
  rcases spot.cons (next_code_of_kind known other.2) with ⟨rfl, _⟩ | later
  · exact absurd (known.symm.trans named) other.1
  · exact later

theorem pastKeyword {spellings : List Bytes}
    (spot : Spot name following (token :: rest))
    (named : name.kind = .identifier)
    (spelled : token.isSpelled .keyword spellings = true)
    (disjoint : ∀ spelling ∈ spellings,
      spelling ∉ (["while", "for"] : List Bytes) := by decide) :
    Spot name following rest ∧
      (hidesName token = true → rest ≠ name :: following) := by
  rcases spot.cons (next_code_of_isSpelled spelled disjoint) with
    ⟨rfl, _⟩ | later
  · exact nomatch named.symm.trans (kind_of_isSpelled spelled)
  · exact later

theorem atName (spot : Spot name following (token :: rest))
    (kind : token.kind = .identifier) :
    (token = name ∧ rest = following) ∨ Spot name following rest :=
  (spot.cons (next_code_of_kind kind)).imp_right And.left

theorem atLastName (spot : Spot name following (token :: rest))
    (kind : token.kind = .identifier) (suffix : rest <:+ following) :
    token = name ∧ rest = following := by
  rcases spot.atName kind with here | later
  · exact here
  · exact absurd suffix later.not_suffix

theorem parted {phrase : Phrase} {separator : Token} {kind : Token.Kind}
    (spot : Spot name following tokens) (named : name.kind = .identifier)
    (reading : Reads phrase tokens (separator :: middle))
    (proper : phrase.Proper) (known : separator.kind = kind)
    (other : kind ∉ [Token.Kind.identifier, .keyword] := by decide) :
    separator :: middle <:+ following ∨ Spot name following middle := by
  rcases spot.through reading proper with before | behind
  · exact .inl before
  · exact .inr (behind.past named known other).1

theorem within {phrase : Phrase} {closing : Token} {kind : Token.Kind}
    (spot : Spot name following tokens) (named : name.kind = .identifier)
    (reading : Reads phrase tokens (closing :: rest)) (proper : phrase.Proper)
    (known : closing.kind = kind) (suffix : rest <:+ following)
    (other : kind ∉ [Token.Kind.identifier, .keyword] := by decide) :
    closing :: rest <:+ following := by
  rcases spot.parted named reading proper known other with before | behind
  · exact before
  · exact absurd suffix behind.not_suffix

theorem bracketed {phrase : Phrase} {opening closing : Token}
    {kind otherKind : Token.Kind}
    (spot : Spot name following (opening :: tokens))
    (named : name.kind = .identifier) (opens : opening.kind = kind)
    (closes : closing.kind = otherKind)
    (reading : Reads phrase tokens (closing :: rest)) (proper : phrase.Proper)
    (suffix : rest <:+ following)
    (others : ∀ bracket ∈ [kind, otherKind],
      bracket ∉ [Token.Kind.identifier, .keyword] := by decide) :
    Spot name following tokens ∧ closing :: rest <:+ following := by
  have inner := (spot.past named opens (others _ (.head _))).1
  have before := inner.within named reading proper closes suffix
    (others _ (.tail _ (.head _)))
  exact ⟨inner, before⟩

theorem not_terminated (spot : Spot name following middle)
    (named : name.kind = .identifier) (ends : Terminates middle rest) :
    ¬rest <:+ following := by
  cases ends with
  | semicolon kind => exact (spot.past named kind).1.not_suffix
  | absent => exact spot.not_suffix

theorem beforeEnd {phrase : Phrase} (spot : Spot name following tokens)
    (named : name.kind = .identifier) (reading : Reads phrase tokens middle)
    (proper : phrase.Proper) (ends : Terminates middle rest)
    (suffix : rest <:+ following) : middle <:+ following := by
  rcases spot.through reading proper with before | behind
  · exact before
  · exact absurd suffix (behind.not_terminated named ends)

theorem pastHeader {keyword opening closing : Token} {header : List Token}
    (spot : Spot name following
      (keyword :: opening :: (header ++ closing :: middle)))
    (named : name.kind = .identifier)
    (spelled : isLoopKeyword keyword = true)
    (opens : opening.kind = .leftParen) (balanced : Balanced header)
    (closes : closing.kind = .rightParen) : Spot name following middle := by
  obtain ⟨before, same, visible⟩ := spot
  obtain ⟨enters, leaves⟩ := after_header spelled opens balanced closes
  match before with
  | [] =>
      obtain ⟨rfl, _⟩ := List.cons.inj same
      exact nomatch named.symm.trans (kind_of_isSpelled spelled)
  | [_] =>
      obtain ⟨rfl, _⟩ := List.cons.inj (List.cons.inj same).2
      exact nomatch named.symm.trans opens
  | first :: second :: others =>
      obtain ⟨rfl, tail⟩ := List.cons.inj same
      obtain ⟨rfl, split⟩ := List.cons.inj tail
      rcases List.append_eq_append_iff.mp split with
        ⟨shared, rfl, inBody⟩ | ⟨shared, rfl, _⟩
      · cases shared with
        | nil =>
            obtain ⟨rfl, _⟩ := List.cons.inj inBody
            exact nomatch named.symm.trans closes
        | cons last behind =>
            obtain ⟨rfl, rfl⟩ := List.cons.inj inBody
            have parted : Visible
                ((keyword :: opening :: header ++ [closing]) ++ behind) := by
              simpa using visible
            refine ⟨behind, rfl, parted.of_append ?_⟩
            rw [Region.after_append]
            exact (congrArg (Region.next · closing) enters).trans leaves
      · -- The spot would stand between the parentheses of the header.
        have start := (after_header spelled opens .nil closes).1
        have inside := (balanced.stays 0).inside others ⟨shared, rfl⟩
        have outside := visible.outside
        rw [Region.after_nil] at start
        rw [Region.after_cons, Region.after_cons, start, inside] at outside
        cases outside

end Spot

/-! ### Calls in trees -/

/-- Somewhere in the trees below the nodes, the name is called at its place. -/
def Calls (name : Token) (nodes : List Node) : Prop :=
  ∃ node ∈ nodes, ∃ arguments,
    Node.expression
        (.call (.identifier (identifierOf name)) arguments name.position) ∈
      node.preorder

theorem Calls.mono {name : Token} {nodes others : List Node}
    (calls : Calls name nodes) (included : ∀ node ∈ nodes, node ∈ others) :
    Calls name others := by
  obtain ⟨node, member, found⟩ := calls
  exact ⟨node, included node member, found⟩

theorem Calls.lift {name : Token} {nodes : List Node} {parent : Node}
    (calls : Calls name nodes)
    (included : ∀ node ∈ nodes, node ∈ parent.children) :
    Calls name [parent] := by
  obtain ⟨node, member, arguments, found⟩ := calls
  refine ⟨parent, List.mem_singleton_self parent, arguments, ?_⟩
  exact Node.mem_preorder_iff.mpr (.inr ⟨node, included node member, found⟩)

theorem Calls.below {name : Token} {child parent : Node}
    (calls : Calls name [child]) (member : child ∈ parent.children) :
    Calls name [parent] :=
  calls.lift fun _ only => List.eq_of_mem_singleton only ▸ member

theorem Calls.head {name : Token} {node : Node} {others : List Node}
    (calls : Calls name [node]) : Calls name (node :: others) :=
  calls.mono fun _ only => List.eq_of_mem_singleton only ▸ .head _

theorem Calls.tail {name : Token} {node : Node} {others : List Node}
    (calls : Calls name others) : Calls name (node :: others) :=
  calls.mono fun _ member => .tail _ member

/--
What becomes of a name that is followed by an opening parenthesis: the phrase
calls it. A phrase that ends with the name leaves the call to what follows, and a
declarator may begin with it.
-/
def Caught (name : Token) (following tokens rest : List Token) : Phrase → Prop
  | .primary value | .accessed value =>
      Calls name [.expression value] ∨
        (value = .identifier (identifierOf name) ∧ rest = following)
  | .parameters _ => rest = following
  | .declarator content =>
      tokens ≠ name :: following → Calls name [.declarator content]
  | .declarators contents =>
      tokens ≠ name :: following → Calls name (contents.map .declarator)
  | phrase => Calls name phrase.roots

/-- No name at a visible spot, followed by an opening parenthesis, is read as
anything but the callee of a call. -/
theorem caught_of_reads {name : Token} {following : List Token}
    (named : name.kind = .identifier)
    (called : begins (fun token => token.kind == .leftParen) following = true)
    {phrase : Phrase} {tokens rest : List Token}
    (reading : Reads phrase tokens rest) :
    phrase.Proper → Spot name following tokens → rest <:+ following →
      Caught name following tokens rest phrase := by
  have uncalled {token : Token} {kind : Token.Kind} {others : List Token}
      {goal : Prop} (same : token :: others = following)
      (known : token.kind = kind) (other : kind ≠ .leftParen) : goal := by
    rw [← same, begins_cons, known, beq_iff_eq] at called
    exact absurd called other
  -- In each rule the spot falls in one part, whose hypothesis finds the call,
  -- or the part before it ends at the name and the next token is no parenthesis.
  induction reading with
  | identifier kind =>
      intro _ spot suffix
      obtain ⟨rfl, same⟩ := spot.atLastName kind suffix
      exact .inr ⟨rfl, same⟩
  | literal writes =>
      intro _ spot suffix
      have other : ∀ kind ∈ literalKinds,
          kind ∉ [Token.Kind.identifier, .keyword] := by
        decide
      have kind := other _ (kind_of_literal? writes)
      exact absurd suffix (spot.past named rfl kind).1.not_suffix
  | parenthesized opens reading closes nested =>
      intro _ spot suffix
      obtain ⟨inner, before⟩ :=
        spot.bracketed named opens closes reading trivial suffix
      exact .inl (nested trivial inner before)
  | array opens reading closes items | object opens reading closes items =>
      intro _ spot suffix
      obtain ⟨inner, before⟩ :=
        spot.bracketed named opens closes reading trivial suffix
      have found := items trivial inner before
      exact .inl (found.lift fun _ member => member)
  | bare _ primary => exact fun _ => primary trivial
  | member reading dotted kind object =>
      intro _ spot suffix
      rcases spot.through reading trivial with before | behind
      · rcases object trivial spot before with found | ⟨_, same⟩
        · exact .inl (found.below (.head _))
        · exact uncalled same dotted (by decide)
      · obtain ⟨later, hidden⟩ := behind.past named dotted
        obtain ⟨rfl, rfl⟩ := later.atLastName kind suffix
        exact absurd rfl (hidden (by simp [hidesName, dotted]))
  | index reading opens inner closes object selector =>
      intro _ spot suffix
      rcases spot.through reading trivial with before | behind
      · rcases object trivial spot before with found | ⟨_, same⟩
        · exact .inl (found.below (.head _))
        · exact uncalled same opens (by decide)
      · obtain ⟨inside, before⟩ :=
          behind.bracketed named opens closes inner trivial suffix
        have found := selector trivial inside before
        exact .inl (Calls.below found (.tail _ (.head _)))
  | call reading opens inner closes callee arguments =>
      intro _ spot suffix
      rcases spot.through reading trivial with before | behind
      · rcases callee trivial spot before with found | ⟨rfl, _⟩
        · exact .inl (found.below (.head _))
        · -- The name ends in front of this call, which is its own.
          exact .inl ⟨_, List.mem_singleton_self _, _, Node.mem_preorder_self _⟩
      · obtain ⟨inside, before⟩ :=
          behind.bracketed named opens closes inner trivial suffix
        have found := arguments trivial inside before
        exact .inl (Calls.lift found fun _ member => .tail _ member)
  | settled _ noAccess _ accessed =>
      intro _ spot suffix
      rcases accessed trivial spot suffix with found | ⟨_, rfl⟩
      · exact found
      · have access : begins opensAccess _ = true :=
          begins_mono (fun _ opens => by simp [opensAccess, opens]) called
        rw [access] at noAccess
        cases noAccess
  | update reading updates accessed =>
      intro _ spot suffix
      have kind := kind_of_isUpdate updates
      have before := spot.within named reading trivial kind suffix
      rcases accessed trivial spot before with found | ⟨_, same⟩
      · exact found.below (.head _)
      · exact uncalled same kind (by decide)
  | operand _ updated => exact fun _ => updated trivial
  | operator kind _ operand =>
      intro _ spot suffix
      have inner := (spot.past named kind).1
      exact Calls.below (operand trivial inner suffix) (.head _)
  | first _ operand => exact fun proper => operand proper.2
  | join reading admitted _ chain operand =>
      intro proper spot suffix
      have kinds : ∀ rank ∈ ranks,
          rank.kind ∉ [Token.Kind.identifier, .keyword] := by
        decide
      rcases spot.parted named reading proper (kind_of_isSpelled admitted)
        (kinds _ proper.1) with before | inner
      · exact Calls.below (chain proper spot before) (.head _)
      · exact Calls.below (operand proper.2 inner suffix) (.tail _ (.head _))
  | innermost _ unary => exact fun _ => unary trivial
  | rank _ _ chain =>
      intro proper
      exact chain ⟨proper _ (.head _), fun _ member => proper _ (.tail _ member)⟩
  | simple _ _ ladder => exact fun _ => ladder fun _ member => member
  | assignment reading kind _ ladder assigned =>
      intro _ spot suffix
      rcases spot.parted named reading (fun _ member => member) kind with
        before | inner
      · exact Calls.below (ladder (fun _ member => member) spot before) (.head _)
      · exact Calls.below (assigned trivial inner suffix) (.tail _ (.head _))
  | moreExpressions reading kind _ head tail
  | moreProperties reading kind _ head tail =>
      intro _ spot suffix
      rcases spot.parted named reading trivial kind with before | inner
      · exact Calls.head (head trivial spot before)
      · exact Calls.tail (tail trivial inner suffix)
  | namedProperty kind colonKind _ content =>
      intro _ spot suffix
      rcases spot.atName kind with ⟨rfl, same⟩ | atColon
      · exact uncalled same colonKind (by decide)
      · have inner := (atColon.past named colonKind).1
        exact Calls.below (content trivial inner suffix) (.tail _ (.head _))
  | quotedProperty kind _ colonKind _ content =>
      intro _ spot suffix
      have atColon := (spot.past named kind).1
      have inner := (atColon.past named colonKind).1
      exact Calls.below (content trivial inner suffix) (.tail _ (.head _))
  | oneParameter kind _ =>
      intro _ spot suffix
      exact (spot.atLastName kind suffix).2
  | moreParameters kind commaKind _ tail =>
      intro _ spot suffix
      rcases spot.atName kind with ⟨_, same⟩ | atComma
      · exact uncalled same commaKind (by decide)
      · have inner := (atComma.past named commaKind).1
        exact tail trivial inner suffix
  | declared kind _ =>
      intro _ spot suffix notFirst
      obtain ⟨rfl, rfl⟩ := spot.atLastName kind suffix
      exact absurd rfl notFirst
  | initialized kind spelled _ init =>
      intro _ spot suffix notFirst
      rcases spot.atName kind with ⟨rfl, rfl⟩ | atEquals
      · exact absurd rfl notFirst
      · have equals := kind_of_isSpelled spelled
        have inner := (atEquals.past named equals).1
        exact Calls.below (init trivial inner suffix) (.tail _ (.head _))
  | moreDeclarators reading kind _ head tail =>
      intro _ spot suffix notFirst
      rcases spot.through reading trivial with before | behind
      · exact Calls.head (head trivial spot before notFirst)
      · obtain ⟨inner, hidden⟩ := behind.past named kind
        have notNext := hidden (by simp [hidesName, kind])
        exact Calls.tail (tail trivial inner suffix notNext)
  | declaration spelled reading ends list =>
      intro _ spot suffix
      obtain ⟨inner, hidden⟩ := spot.pastKeyword named spelled
      have before := inner.beforeEnd named reading trivial ends suffix
      have notFirst := hidden (hidesName_of_isSpelled spelled)
      have found := list trivial inner before notFirst
      exact Calls.lift found fun _ member => member
  | function spelled kind opens reading closes _ parameters block =>
      intro _ spot suffix
      obtain ⟨later, hidden⟩ := spot.pastKeyword named spelled
      rcases later.atName kind with ⟨rfl, rfl⟩ | atOpening
      · have notName := hidden (hidesName_of_isSpelled spelled)
        exact absurd rfl notName
      · have inside := (atOpening.past named opens).1
        rcases inside.parted named reading trivial closes with before | inBlock
        · have same := parameters trivial inside before
          exact uncalled same closes (by decide)
        · exact Calls.below (block trivial inBlock suffix)
            (List.mem_append_right _ (.head _))
  | returnNothing spelled _ ends =>
      intro _ spot suffix
      have inner := (spot.pastKeyword named spelled).1
      exact absurd suffix (inner.not_terminated named ends)
  | returnValue spelled reading ends argument =>
      intro _ spot suffix
      have inner := (spot.pastKeyword named spelled).1
      have before := inner.beforeEnd named reading trivial ends suffix
      exact Calls.below (argument trivial inner before) (.head _)
  | ifThen spelled opens reading closes _ _ condition branch =>
      intro _ spot suffix
      have atOpening := (spot.pastKeyword named spelled).1
      have inner := (atOpening.past named opens).1
      rcases inner.parted named reading trivial closes with before | inBranch
      · exact Calls.below (condition trivial inner before) (.head _)
      · exact Calls.below (branch trivial inBranch suffix) (.tail _ (.head _))
  | ifElse spelled opens reading closes chosen elseSpelled _ condition branch
      other =>
      intro _ spot suffix
      have atOpening := (spot.pastKeyword named spelled).1
      have inner := (atOpening.past named opens).1
      rcases inner.parted named reading trivial closes with before | inBranch
      · exact Calls.below (condition trivial inner before) (.head _)
      · rcases inBranch.through chosen trivial with before | behind
        · exact Calls.below (branch trivial inBranch before) (.tail _ (.head _))
        · have inOther := (behind.pastKeyword named elseSpelled).1
          exact Calls.below (other trivial inOther suffix)
            (.tail _ (.tail _ (.head _)))
  | loop spelled opens balanced closes _ repeated =>
      intro _ spot suffix
      have inner := spot.pastHeader named spelled opens balanced closes
      exact Calls.below (repeated trivial inner suffix) (.head _)
  | expressionStatement _ reading ends content =>
      intro _ spot suffix
      have before := spot.beforeEnd named reading trivial ends suffix
      exact Calls.below (content trivial spot before) (.head _)
  | block opens reading closes list =>
      intro _ spot suffix
      obtain ⟨inner, before⟩ :=
        spot.bracketed named opens closes reading trivial suffix
      exact Calls.lift (list trivial inner before) fun _ member => member
  | moreStatements reading _ head tail =>
      intro _ spot suffix
      rcases spot.through reading trivial with before | behind
      · exact Calls.head (head trivial spot before)
      · exact Calls.tail (tail trivial behind suffix)
  | oneExpression _ _ only | oneProperty _ _ only | oneDeclarator _ _ only =>
      exact fun _ => only trivial
  | blockStatement _ block => exact fun _ => block trivial
  | noExpressions | noProperties | noParameters | noStatements =>
      intro _ spot suffix
      exact absurd suffix spot.not_suffix

end ScriptAudit.Grammar
