/-
Lookahead. A reading looks at one token beyond what it takes off, and only to see
that it cannot go on. So what follows may be exchanged: for any other tokens if the
first of them is the same, and behind a phrase inside a statement for any tokens
that no such phrase goes on with.
-/

import ScriptAudit.Proofs.Grammar.LoopHeader

namespace ScriptAudit.Grammar

def continuingKinds : List Token.Kind :=
  [.assignment, .logical, .comparison, .arithmetic, .unary, .dot,
    .leftBracket, .leftParen]

def listKinds : List Token.Kind :=
  .comma :: continuingKinds

/-- The phrases inside a statement up to its semicolon. -/
def Phrase.Unterminated : Phrase → Prop
  | .block .. | .statement _ | .statements _ => False
  | phrase => phrase.Proper

theorem Phrase.Unterminated.proper {phrase : Phrase}
    (unterminated : phrase.Unterminated) : phrase.Proper := by
  cases phrase with
  | block | statement | statements => exact unterminated.elim
  | _ => exact unterminated

/-- No phrase inside a statement goes on with these tokens. -/
def Declined (tokens : List Token) : Prop :=
  ∀ token ∈ tokens.head?, token.kind ∉ listKinds

/-- `other` may follow a phrase in the place of `rest`. -/
def Suits (phrase : Phrase) (rest other : List Token) : Prop :=
  rest.head? = other.head? ∨ phrase.Unterminated ∧ Declined other

theorem begins_of_head? {test : Token → Bool} {rest other : List Token}
    (same : rest.head? = other.head?) : begins test rest = begins test other :=
  congrArg (Option.any test) same

theorem head?_append_congr (front : List Token) {rest other : List Token}
    (same : rest.head? = other.head?) :
    (front ++ rest).head? = (front ++ other).head? := by
  rw [List.head?_append, List.head?_append, same]

theorem Declined.begins {test : Token → Bool} {tokens : List Token}
    (declined : Declined tokens)
    (listed : ∀ token, test token = true → token.kind ∈ listKinds) :
    begins test tokens = false := by
  cases tokens with
  | nil => rfl
  | cons token rest =>
      rw [begins_cons, Bool.eq_false_iff]
      exact fun passes => declined token rfl (listed token passes)

theorem kind_of_opensAccess {token : Token} (opens : opensAccess token = true) :
    token.kind ∈ listKinds := by
  simp only [opensAccess, Bool.or_eq_true, beq_iff_eq] at opens
  rcases opens with (kind | kind) | kind <;> rw [kind] <;> decide

theorem kind_mem_of_isSpelled {token : Token} {kind : Token.Kind}
    {spellings : List Bytes} (spelled : token.isSpelled kind spellings = true)
    (listed : kind ∈ listKinds) : token.kind ∈ listKinds := by
  rwa [kind_of_isSpelled spelled]

namespace Suits

variable {phrase inner : Phrase} {rest other : List Token}

theorem part (suits : Suits phrase rest other)
    (unterminated : phrase.Unterminated → inner.Unterminated) :
    Suits inner rest other :=
  suits.imp_right fun both => ⟨unterminated both.1, both.2⟩

theorem stops {test : Token → Bool} (suits : Suits phrase rest other)
    (stopped : begins test rest = false)
    (listed : phrase.Unterminated →
      ∀ token, test token = true → token.kind ∈ listKinds) :
    begins test other = false := by
  rcases suits with same | ⟨unterminated, declined⟩
  · rwa [← begins_of_head? same]
  · exact declined.begins (listed unterminated)

theorem stopsAt {kind : Token.Kind} (suits : Suits phrase rest other)
    (stopped : begins (·.kind == kind) rest = false)
    (listed : kind ∈ listKinds := by decide) :
    begins (·.kind == kind) other = false := by
  apply suits.stops stopped
  intro _ token same
  rwa [eq_of_beq same]

/-- A statement looks at the first token of what follows and at nothing else. -/
theorem head?_eq (suits : Suits phrase rest other)
    (statement : phrase.Unterminated → False) : rest.head? = other.head? :=
  suits.resolve_right fun both => statement both.1

end Suits

theorem Terminates.refit {middle rest : List Token}
    (ends : Terminates middle rest) :
    ∃ front, middle = front ++ rest ∧
      ∀ other, rest.head? = other.head? → Terminates (front ++ other) other := by
  cases ends with
  | @semicolon mark _ kind => exact ⟨[mark], rfl, fun _ _ => .semicolon kind⟩
  | absent stopped =>
      refine ⟨[], rfl, fun other same => ?_⟩
      rw [begins_of_head? same] at stopped
      exact .absent stopped

/-! ### Readings -/

/-- What a reading takes off it also takes off in front of other tokens that suit
the phrase. -/
theorem Reads.refit {phrase : Phrase} {tokens rest : List Token}
    (reading : Reads phrase tokens rest) :
    ∃ front, tokens = front ++ rest ∧
      ∀ other, Suits phrase rest other → Reads phrase (front ++ other) other := by
  induction reading with
  | @identifier name _ kind => exact ⟨[name], rfl, fun _ _ => .identifier kind⟩
  | @literal token _ _ writes => exact ⟨[token], rfl, fun _ _ => .literal writes⟩
  | @parenthesized opening closing _ _ _ opens _ closes nested =>
      obtain ⟨inner, rfl, moved⟩ := nested
      refine ⟨opening :: inner ++ [closing], by simp, fun other _ => ?_⟩
      -- Inside brackets the next token is the closing one, whatever comes behind it.
      have within := moved (closing :: other) (.inl rfl)
      simpa using Reads.parenthesized opens within closes
  | @array opening closing _ _ _ opens _ closes elements =>
      obtain ⟨inner, rfl, moved⟩ := elements
      refine ⟨opening :: inner ++ [closing], by simp, fun other _ => ?_⟩
      have within := moved (closing :: other) (.inl rfl)
      simpa using Reads.array opens within closes
  | @object opening closing _ _ _ opens _ closes properties =>
      obtain ⟨inner, rfl, moved⟩ := properties
      refine ⟨opening :: inner ++ [closing], by simp, fun other _ => ?_⟩
      have within := moved (closing :: other) (.inl rfl)
      simpa using Reads.object opens within closes
  | bare _ primary =>
      obtain ⟨front, rfl, moved⟩ := primary
      exact ⟨front, rfl, fun other suits => .bare (moved other (suits.part id))⟩
  | @member _ _ _ dot name _ dotted kind object =>
      obtain ⟨front, rfl, moved⟩ := object
      refine ⟨front ++ [dot, name], by simp, fun other _ => ?_⟩
      have before := moved (dot :: name :: other) (.inl rfl)
      simpa using Reads.member before dotted kind
  | @index _ _ _ _ _ opening closing _ opens _ closes object selector =>
      obtain ⟨front, rfl, moved⟩ := object
      obtain ⟨inner, rfl, movedInner⟩ := selector
      refine ⟨front ++ opening :: inner ++ [closing], by simp, fun other _ => ?_⟩
      have before := moved (opening :: (inner ++ closing :: other)) (.inl rfl)
      have within := movedInner (closing :: other) (.inl rfl)
      simpa using Reads.index before opens within closes
  | @call _ _ _ _ _ opening closing _ opens _ closes callee arguments =>
      obtain ⟨front, rfl, moved⟩ := callee
      obtain ⟨inner, rfl, movedInner⟩ := arguments
      refine ⟨front ++ opening :: inner ++ [closing], by simp, fun other _ => ?_⟩
      have before := moved (opening :: (inner ++ closing :: other)) (.inl rfl)
      have within := movedInner (closing :: other) (.inl rfl)
      simpa using Reads.call before opens within closes
  | settled _ noAccess noUpdate accessed =>
      obtain ⟨front, rfl, moved⟩ := accessed
      refine ⟨front, rfl, fun other suits => ?_⟩
      refine .settled (moved other (suits.part id))
        (suits.stops noAccess fun _ _ => kind_of_opensAccess)
        (suits.stops noUpdate fun _ _ updates => ?_)
      exact kind_mem_of_isSpelled updates (by decide)
  | @update _ _ _ operator _ updates accessed =>
      obtain ⟨front, rfl, moved⟩ := accessed
      refine ⟨front ++ [operator], by simp, fun other _ => ?_⟩
      have before := moved (operator :: other) (.inl rfl)
      simpa using Reads.update before updates
  | operand _ updated =>
      obtain ⟨front, rfl, moved⟩ := updated
      exact ⟨front, rfl, fun other suits => .operand (moved other (suits.part id))⟩
  | @operator _ _ _ operator kind _ operand =>
      obtain ⟨front, rfl, moved⟩ := operand
      exact ⟨operator :: front, rfl, fun other suits =>
        .operator kind (moved other (suits.part id))⟩
  | first _ operand =>
      obtain ⟨front, rfl, moved⟩ := operand
      exact ⟨front, rfl, fun other suits =>
        .first (moved other (suits.part And.right))⟩
  | @join _ _ _ _ _ _ _ operator _ admitted _ chain operand =>
      obtain ⟨front, rfl, moved⟩ := chain
      obtain ⟨back, rfl, movedBack⟩ := operand
      refine ⟨front ++ operator :: back, by simp, fun other suits => ?_⟩
      have before := moved (operator :: (back ++ other)) (.inl rfl)
      have behind := movedBack other (suits.part And.right)
      simpa using Reads.join before admitted behind
  | innermost _ unary =>
      obtain ⟨front, rfl, moved⟩ := unary
      exact ⟨front, rfl, fun other suits =>
        .innermost (moved other (suits.part fun _ => trivial))⟩
  | rank _ stopped chain =>
      obtain ⟨front, rfl, moved⟩ := chain
      have kinds : ∀ rank ∈ ranks, rank.kind ∈ listKinds := by decide
      refine ⟨front, rfl, fun other suits => ?_⟩
      refine .rank (moved other (suits.part List.forall_mem_cons.mp))
        (suits.stops stopped fun proper token admitted => ?_)
      exact kind_mem_of_isSpelled admitted (kinds _ (proper _ List.mem_cons_self))
  | simple _ stopped ladder =>
      obtain ⟨front, rfl, moved⟩ := ladder
      refine ⟨front, rfl, fun other suits => ?_⟩
      exact .simple (moved other (suits.part fun _ _ member => member))
        (suits.stopsAt stopped)
  | @assignment _ _ _ _ _ operator _ kind _ ladder assigned =>
      obtain ⟨front, rfl, moved⟩ := ladder
      obtain ⟨back, rfl, movedBack⟩ := assigned
      refine ⟨front ++ operator :: back, by simp, fun other suits => ?_⟩
      have before := moved (operator :: (back ++ other)) (.inl rfl)
      have behind := movedBack other (suits.part id)
      simpa using Reads.assignment before kind behind
  | noExpressions => exact ⟨[], rfl, fun _ _ => .noExpressions⟩
  | oneExpression _ stopped only =>
      obtain ⟨front, rfl, moved⟩ := only
      exact ⟨front, rfl, fun other suits =>
        .oneExpression (moved other (suits.part id)) (suits.stopsAt stopped)⟩
  | @moreExpressions _ _ _ _ _ _ comma _ kind _ head tail =>
      obtain ⟨front, rfl, moved⟩ := head
      obtain ⟨back, rfl, movedBack⟩ := tail
      refine ⟨front ++ comma :: back, by simp, fun other suits => ?_⟩
      have before := moved (comma :: (back ++ other)) (.inl rfl)
      have behind := movedBack other (suits.part id)
      simpa using Reads.moreExpressions before kind behind
  | @namedProperty name colon _ _ _ kind colonKind _ content =>
      obtain ⟨front, rfl, moved⟩ := content
      exact ⟨name :: colon :: front, rfl, fun other suits =>
        .namedProperty kind colonKind (moved other (suits.part id))⟩
  | @quotedProperty quote colon _ _ _ _ kind writes colonKind _ content =>
      obtain ⟨front, rfl, moved⟩ := content
      exact ⟨quote :: colon :: front, rfl, fun other suits =>
        .quotedProperty kind writes colonKind (moved other (suits.part id))⟩
  | noProperties => exact ⟨[], rfl, fun _ _ => .noProperties⟩
  | oneProperty _ stopped only =>
      obtain ⟨front, rfl, moved⟩ := only
      exact ⟨front, rfl, fun other suits =>
        .oneProperty (moved other (suits.part id)) (suits.stopsAt stopped)⟩
  | @moreProperties _ _ _ _ _ _ comma _ kind _ head tail =>
      obtain ⟨front, rfl, moved⟩ := head
      obtain ⟨back, rfl, movedBack⟩ := tail
      refine ⟨front ++ comma :: back, by simp, fun other suits => ?_⟩
      have before := moved (comma :: (back ++ other)) (.inl rfl)
      have behind := movedBack other (suits.part id)
      simpa using Reads.moreProperties before kind behind
  | noParameters => exact ⟨[], rfl, fun _ _ => .noParameters⟩
  | @oneParameter name _ kind stopped =>
      exact ⟨[name], rfl, fun other suits =>
        .oneParameter kind (suits.stopsAt stopped)⟩
  | @moreParameters name _ comma _ _ _ kind commaKind _ tail =>
      obtain ⟨back, rfl, moved⟩ := tail
      exact ⟨name :: comma :: back, rfl, fun other suits =>
        .moreParameters kind commaKind (moved other (suits.part id))⟩
  | @declared name _ kind stopped =>
      refine ⟨[name], rfl, fun other suits => ?_⟩
      refine .declared kind (suits.stops stopped fun _ token equals => ?_)
      exact kind_mem_of_isSpelled equals (by decide)
  | @initialized name equals _ _ _ kind spelled _ init =>
      obtain ⟨front, rfl, moved⟩ := init
      exact ⟨name :: equals :: front, rfl, fun other suits =>
        .initialized kind spelled (moved other (suits.part id))⟩
  | oneDeclarator _ stopped only =>
      obtain ⟨front, rfl, moved⟩ := only
      exact ⟨front, rfl, fun other suits =>
        .oneDeclarator (moved other (suits.part id)) (suits.stopsAt stopped)⟩
  | @moreDeclarators _ _ _ _ _ _ comma _ kind _ head tail =>
      obtain ⟨front, rfl, moved⟩ := head
      obtain ⟨back, rfl, movedBack⟩ := tail
      refine ⟨front ++ comma :: back, by simp, fun other suits => ?_⟩
      have before := moved (comma :: (back ++ other)) (.inl rfl)
      have behind := movedBack other (suits.part id)
      simpa using Reads.moreDeclarators before kind behind
  | @declaration keyword _ _ _ _ spelled _ ends list =>
      obtain ⟨mark, rfl, ended⟩ := ends.refit
      obtain ⟨front, rfl, moved⟩ := list
      refine ⟨keyword :: front ++ mark, by simp, fun other suits => ?_⟩
      have same := suits.head?_eq id
      have before := moved (mark ++ other) (.inl (head?_append_congr mark same))
      simpa using Reads.declaration spelled before (ended other same)
  | @function keyword name opening closing _ _ _ _ _ _ spelled kind opens _ closes
      _ parameters block =>
      obtain ⟨inner, rfl, movedInner⟩ := parameters
      obtain ⟨back, rfl, moved⟩ := block
      refine ⟨keyword :: name :: opening :: inner ++ closing :: back, by simp,
        fun other suits => ?_⟩
      have within := movedInner (closing :: (back ++ other)) (.inl rfl)
      have behind := moved other (suits.part id)
      simpa using Reads.function spelled kind opens within closes behind
  | @returnNothing keyword _ _ spelled stopped ends =>
      obtain ⟨mark, rfl, ended⟩ := ends.refit
      refine ⟨keyword :: mark, rfl, fun other suits => ?_⟩
      have same := suits.head?_eq id
      have heads := head?_append_congr mark same
      have stops : mark ++ other = [] ∨
          begins endsReturn (mark ++ other) = true := by
        rw [← begins_of_head? heads]
        apply stopped.imp_left
        intro empty
        rw [empty] at heads
        exact List.head?_eq_none_iff.mp heads.symm
      exact .returnNothing spelled stops (ended other same)
  | @returnValue keyword _ _ _ _ spelled _ ends argument =>
      obtain ⟨mark, rfl, ended⟩ := ends.refit
      obtain ⟨front, rfl, moved⟩ := argument
      refine ⟨keyword :: front ++ mark, by simp, fun other suits => ?_⟩
      have same := suits.head?_eq id
      have before := moved (mark ++ other) (.inl (head?_append_congr mark same))
      simpa using Reads.returnValue spelled before (ended other same)
  | @ifThen keyword opening closing _ _ _ _ _ spelled opens _ closes _ stopped
      condition branch =>
      obtain ⟨inner, rfl, movedInner⟩ := condition
      obtain ⟨front, rfl, moved⟩ := branch
      refine ⟨keyword :: opening :: inner ++ closing :: front, by simp,
        fun other suits => ?_⟩
      have within := movedInner (closing :: (front ++ other)) (.inl rfl)
      have behind := moved other (suits.part id)
      rw [begins_of_head? (suits.head?_eq id)] at stopped
      simpa using Reads.ifThen spelled opens within closes behind stopped
  | @ifElse keyword opening closing otherwise _ _ _ _ _ _ _ spelled opens _ closes
      _ elseSpelled _ condition branch alternate =>
      obtain ⟨inner, rfl, movedInner⟩ := condition
      obtain ⟨front, rfl, moved⟩ := branch
      obtain ⟨back, rfl, movedBack⟩ := alternate
      refine ⟨keyword :: opening :: inner ++ closing :: front ++ otherwise :: back,
        by simp, fun other suits => ?_⟩
      have between := moved (otherwise :: (back ++ other)) (.inl rfl)
      have within := movedInner
        (closing :: (front ++ otherwise :: (back ++ other))) (.inl rfl)
      have behind := movedBack other (suits.part id)
      simpa using
        Reads.ifElse spelled opens within closes between elseSpelled behind
  | @loop keyword opening closing _ header _ _ spelled opens balanced closes _
      repeated =>
      obtain ⟨front, rfl, moved⟩ := repeated
      refine ⟨keyword :: opening :: header ++ closing :: front, by simp,
        fun other suits => ?_⟩
      have behind := moved other (suits.part id)
      simpa using Reads.loop spelled opens balanced closes behind
  | blockStatement _ block =>
      obtain ⟨front, rfl, moved⟩ := block
      exact ⟨front, rfl, fun other suits =>
        .blockStatement (moved other (suits.part id))⟩
  | expressionStatement notBlock _ ends content =>
      obtain ⟨mark, rfl, ended⟩ := ends.refit
      obtain ⟨front, rfl, moved⟩ := content
      refine ⟨front ++ mark, by simp, fun other suits => ?_⟩
      have same := suits.head?_eq id
      have heads := head?_append_congr mark same
      rw [begins_of_head? (head?_append_congr front heads)] at notBlock
      have before := moved (mark ++ other) (.inl heads)
      simpa using Reads.expressionStatement notBlock before (ended other same)
  | @block opening closing _ _ _ opens _ closes list =>
      obtain ⟨inner, rfl, moved⟩ := list
      refine ⟨opening :: inner ++ [closing], by simp, fun other _ => ?_⟩
      have within := moved (closing :: other) (.inl rfl)
      simpa using Reads.block opens within closes
  | noStatements => exact ⟨[], rfl, fun _ _ => .noStatements⟩
  | moreStatements _ _ head tail =>
      obtain ⟨back, rfl, movedBack⟩ := tail
      obtain ⟨front, rfl, moved⟩ := head
      refine ⟨front ++ back, by simp, fun other suits => ?_⟩
      have heads := head?_append_congr back (suits.head?_eq id)
      have before := moved (back ++ other) (.inl heads)
      have behind := movedBack other (suits.part id)
      simpa using Reads.moreStatements before behind

end ScriptAudit.Grammar
