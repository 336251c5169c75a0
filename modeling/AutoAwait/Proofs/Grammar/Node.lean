import AutoAwait.ParseTree.ToNode
import AutoAwait.Proofs.Grammar.Place
import AutoAwait.Proofs.Tree.Move

/-!
# The trees of moved parse trees

The syntax tree of a parse tree moves with it: `Statement.toNode_move`. An error moves too, but only
that there is one is said here.
-/

namespace AutoAwait

variable {φ : Position → Position}

/-- Does the second computation succeed where the first one does, with what `g` makes of the result?
Where both fail the errors may differ. -/
def Maps {ε α β : Type} (g : α → β) (x : Except ε α) (y : Except ε β) : Prop :=
  y.toOption = x.toOption.map g

namespace Maps

variable {ε α β γ δ : Type} {g : α → β} {h : γ → δ} {x : Except ε α} {y : Except ε β}

theorem pure {a : α} {b : β} (hab : g a = b) :
    Maps g (Pure.pure a : Except ε α) (Pure.pure b : Except ε β) := congrArg some hab.symm

theorem bind {f : α → Except ε γ} {f' : β → Except ε δ} (hx : Maps g x y)
    (hf : ∀ a, Maps h (f a) (f' (g a))) : Maps h (x >>= f) (y >>= f') := by
  cases x with
  | ok a =>
    cases y with
    | ok b =>
      obtain rfl : b = g a := Option.some.inj hx
      exact hf a
    | error _ => cases hx
  | error e =>
    cases y with
    | ok _ => cases hx
    | error _ => rfl

theorem ok (hx : Maps g x y) {a : α} (ha : x = .ok a) : y = .ok (g a) := by
  subst ha
  cases y with
  | ok b => exact congrArg Except.ok (Option.some.inj hx)
  | error _ => cases hx

end Maps

theorem Node.untyped_move (loc : Position) (shape : Shape Node) :
    (Node.untyped loc shape).move φ = Node.untyped (φ loc) (shape.map (move φ)) :=
  move_mk φ loc none shape

/-! ## Tokens -/

namespace Token

theorem toIdentifier_move (t : Token) : (t.move φ).toIdentifier = t.toIdentifier.move φ := rfl

theorem toConstant_move (t : Token) : (t.move φ).toConstant = t.toConstant.move φ := by
  unfold toConstant
  rw [Node.untyped_move, move_kind]
  split <;> rfl

theorem toInteger_move (t : Token) : Maps (Node.move φ) t.toInteger (t.move φ).toInteger := by
  unfold toInteger
  rw [move_text]
  split <;> rfl

theorem toNumber_move (t : Token) : Maps (Node.move φ) t.toNumber (t.move φ).toNumber := by
  unfold toNumber
  rw [move_text]
  split
  · rfl
  · exact t.toInteger_move

theorem toKey_move [CharNames] (t : Token) : Maps (Node.move φ) t.toKey (t.move φ).toKey := by
  unfold toKey
  rw [move_text, move_kind]
  split
  · rfl
  · split
    · rfl
    · exact t.toInteger_move
  · rfl

end Token

/-! ## Nodes made of moved parts -/

@[simp] theorem Phrase.start_move : (p : Phrase) → (p.move φ).start = φ p.start
  | .member p _ | .index p _ | .call p _ | .update p _ | .binary _ p _ | .conditional p _ _
  | .assignment _ p _ => p.start_move
  | .name _ | .number _ | .string _ | .constant _ | .this _ | .group .. | .array .. | .object ..
  | .function .. | .construct .. | .unary .. | .arrow .. => rfl

theorem binaryShape_move (op : Token) (l r : Node) :
    binaryShape (op.move φ) (l.move φ) (r.move φ) = (binaryShape op l r).map (Node.move φ) := by
  unfold binaryShape
  rw [Token.move_kind]
  split <;> rfl

theorem unaryShape_move (op : Token) (n : Node) :
    unaryShape (op.move φ) (n.move φ) = (unaryShape op n).map (Node.move φ) := by
  unfold unaryShape
  rw [Token.move_kind]
  split <;> rfl

theorem constructTarget_move (target : Token) (path : List Token) :
    constructTarget (target.move φ) (path.map (·.move φ)) =
      (constructTarget target path).move φ := by
  unfold constructTarget
  rw [List.foldl_map, Token.toIdentifier_move]
  generalize target.toIdentifier = n
  induction path generalizing n with
  | nil => rfl
  | cons t path ih =>
    rw [List.foldl_cons, List.foldl_cons, ← ih, Token.toIdentifier_move, Node.untyped_move]
    rfl

/-! ## Parse trees -/

variable [CharNames]

mutual

theorem Phrase.toNode_move : (p : Phrase) → Maps (Node.move φ) p.toNode (p.move φ).toNode
  | .name _ | .string _ | .this _ => rfl
  | .number t => t.toNumber_move
  | .constant t => congrArg some t.toConstant_move
  | .group _ p => p.toNode_move
  | .array _ es => (phraseNodes_move es).bind fun _ => .pure (Node.untyped_move ..)
  | .object _ es => (entryNodes_move es).bind fun _ => .pure (Node.untyped_move ..)
  | .function _ id ps b => b.toNode_move.bind fun n => .pure <| by
    rw [Node.untyped_move, Shape.map, Option.map_map, Option.map_map, List.map_map, List.map_map]
    rfl
  | .construct _ t ts args => (argumentNodes_move args).bind fun ns => .pure <| by
    rw [constructTarget_move, Node.untyped_move]
    rfl
  | .member o _ => o.toNode_move.bind fun _ => .pure <| by
    rw [o.start_move, Node.untyped_move]
    rfl
  | .index o k => o.toNode_move.bind fun _ => k.toNode_move.bind fun _ => .pure <| by
    rw [o.start_move, Node.untyped_move]
    rfl
  | .call c args => c.toNode_move.bind fun _ => (phraseNodes_move args).bind fun _ => .pure <| by
    rw [c.start_move, Node.untyped_move]
    rfl
  | .update p _ => p.toNode_move.bind fun _ => .pure <| by
    rw [p.start_move, Node.untyped_move]
    rfl
  | .unary op p => p.toNode_move.bind fun _ => .pure <| by
    rw [unaryShape_move, Node.untyped_move]
    rfl
  | .binary op l r => l.toNode_move.bind fun _ => r.toNode_move.bind fun _ => .pure <| by
    rw [binaryShape_move, l.start_move, Node.untyped_move]
  | .conditional t c a =>
    t.toNode_move.bind fun _ => c.toNode_move.bind fun _ => a.toNode_move.bind fun _ => .pure <| by
      rw [t.start_move, Node.untyped_move]
      rfl
  | .assignment op p v => p.toNode_move.bind fun target => by
    rw [Node.move_kind]
    split
    · refine v.toNode_move.bind fun _ => .pure ?_
      rw [p.start_move, Node.untyped_move]
      rfl
    · rfl
  | .arrow _ ps b => (parameterNodes_move ps).bind fun _ => b.toNode_move.bind fun _ =>
    .pure (Node.untyped_move ..)

theorem phraseNodes_move : (ps : List Phrase) →
    Maps (List.map (Node.move φ)) (phraseNodes ps) (phraseNodes (movePhrases φ ps))
  | [] => rfl
  | p :: ps => p.toNode_move.bind fun _ => (phraseNodes_move ps).bind fun _ => .pure rfl

theorem argumentNodes_move : (args : Option (List Phrase)) →
    Maps (List.map (Node.move φ)) (argumentNodes args) (argumentNodes (moveArguments φ args))
  | none => rfl
  | some ps => phraseNodes_move ps

theorem parameterNodes_move : (ps : List Phrase) →
    Maps (List.map (Node.move φ)) (parameterNodes ps) (parameterNodes (movePhrases φ ps))
  | [] => rfl
  | p :: ps => p.toNode_move.bind fun _ => by
    rw [Node.move_kind]
    split
    · exact (parameterNodes_move ps).bind fun _ => .pure rfl
    · rfl

theorem ObjectEntry.toNode_move : (e : ObjectEntry) →
    Maps (Node.move φ) e.toNode (e.move φ).toNode
  | .shorthand _ => rfl
  | .pair t p => t.toKey_move.bind fun _ => p.toNode_move.bind fun _ =>
    .pure (Node.untyped_move ..)

theorem entryNodes_move : (es : List ObjectEntry) →
    Maps (List.map (Node.move φ)) (entryNodes es) (entryNodes (moveEntries φ es))
  | [] => rfl
  | e :: es => e.toNode_move.bind fun _ => (entryNodes_move es).bind fun _ => .pure rfl

theorem ArrowBody.toNode_move : (b : ArrowBody) → Maps (Node.move φ) b.toNode (b.move φ).toNode
  | .block b => b.toNode_move
  | .phrase p => p.toNode_move

theorem Declarator.toNode_move : (d : Declarator) →
    Maps (Node.move φ) d.toNode (d.move φ).toNode
  | .mk _ i => (optionalNode_move i).bind fun _ => .pure (Node.untyped_move ..)

theorem declaratorNodes_move : (ds : List Declarator) →
    Maps (List.map (Node.move φ)) (declaratorNodes ds) (declaratorNodes (moveDeclarators φ ds))
  | [] => rfl
  | d :: ds => d.toNode_move.bind fun _ => (declaratorNodes_move ds).bind fun _ => .pure rfl

theorem optionalNode_move : (o : Option Phrase) →
    Maps (Option.map (Node.move φ)) (optionalNode o) (optionalNode (movePhrase? φ o))
  | none => rfl
  | some p => p.toNode_move.bind fun _ => .pure rfl

theorem Block.toNode_move : (b : Block) → Maps (Node.move φ) b.toNode (b.move φ).toNode
  | .mk _ ss => (statementNodes_move ss).bind fun _ => .pure (Node.untyped_move ..)

theorem optionalBlock_move : (o : Option Block) →
    Maps (Option.map (Node.move φ)) (optionalBlock o) (optionalBlock (moveBlock? φ o))
  | none => rfl
  | some b => b.toNode_move.bind fun _ => .pure rfl

theorem LoopInit.toNode_move : (i : LoopInit) → Maps (Node.move φ) i.toNode (i.move φ).toNode
  | .declaration _ ds => (declaratorNodes_move ds).bind fun _ => .pure (Node.untyped_move ..)
  | .phrase p => p.toNode_move

theorem optionalInit_move : (o : Option LoopInit) →
    Maps (Option.map (Node.move φ)) (optionalInit o) (optionalInit (moveInit? φ o))
  | none => rfl
  | some i => i.toNode_move.bind fun _ => .pure rfl

theorem Handler.toNode_move : (h : Handler) → Maps (Node.move φ) h.toNode (h.move φ).toNode
  | .mk _ param b => b.toNode_move.bind fun _ => .pure <| by
    rw [Node.untyped_move]
    cases param <;> rfl

theorem optionalHandler_move : (o : Option Handler) →
    Maps (Option.map (Node.move φ)) (optionalHandler o) (optionalHandler (moveHandler? φ o))
  | none => rfl
  | some h => h.toNode_move.bind fun _ => .pure rfl

/-- The syntax tree of a moved statement is the moved tree. -/
theorem Statement.toNode_move : (s : Statement) → Maps (Node.move φ) s.toNode (s.move φ).toNode
  | .declaration _ ds => (declaratorNodes_move ds).bind fun _ => .pure (Node.untyped_move ..)
  | .expression p => p.toNode_move.bind fun _ => .pure <| by
    rw [p.start_move, Node.untyped_move]
    rfl
  | .return _ o => (optionalNode_move o).bind fun _ => .pure (Node.untyped_move ..)
  | .if _ t c a => (optionalStatement_move a).bind fun _ => t.toNode_move.bind fun _ =>
    c.toNode_move.bind fun _ => .pure (Node.untyped_move ..)
  | .while _ t b => t.toNode_move.bind fun _ => b.toNode_move.bind fun _ =>
    .pure (Node.untyped_move ..)
  | .for _ i t u b => (optionalInit_move i).bind fun _ => (optionalNode_move t).bind fun _ =>
    (optionalNode_move u).bind fun _ => b.toNode_move.bind fun _ => .pure (Node.untyped_move ..)
  | .forOf _ _ _ p b => p.toNode_move.bind fun _ => b.toNode_move.bind fun _ =>
    .pure (Node.untyped_move ..)
  | .function _ _ ps b => b.toNode_move.bind fun _ => .pure <| by
    rw [Node.untyped_move, Shape.map, List.map_map, List.map_map]
    rfl
  | .block b => b.toNode_move
  | .break _ | .continue _ => rfl
  | .throw _ p => p.toNode_move.bind fun _ => .pure (Node.untyped_move ..)
  | .try _ b h f => b.toNode_move.bind fun _ => (optionalHandler_move h).bind fun _ =>
    (optionalBlock_move f).bind fun _ => .pure (Node.untyped_move ..)

theorem optionalStatement_move : (o : Option Statement) →
    Maps (Option.map (Node.move φ)) (optionalStatement o) (optionalStatement (moveStatement? φ o))
  | none => rfl
  | some s => s.toNode_move.bind fun _ => .pure rfl

theorem statementNodes_move : (ss : List Statement) →
    Maps (List.map (Node.move φ)) (statementNodes ss) (statementNodes (moveStatements φ ss))
  | [] => rfl
  | s :: ss => s.toNode_move.bind fun _ => (statementNodes_move ss).bind fun _ => .pure rfl

end

end AutoAwait
