import AutoAwait.ParseTree.Parser
import AutoAwait.ParseTree.ToNode
import AutoAwait.Token.Terminator

/-!
# Reading a script

A script is cut into tokens, laid out with terminators, read as a parse tree and turned into a
syntax tree. A character at which no token starts is an error only if all tokens before it fit.

* `scriptTokens` are the laid-out tokens of a script;
* `parseStatements` is the parse tree of a script, `parseScript` its syntax tree.
-/

namespace AutoAwait

variable [CharNames]

/-- The laid-out tokens of a script. -/
def scriptTokens (source : String) : TokenStream := layOut (readTokens source.toList)

/-- The error where a script with the tokens `ts` does not fit at the first token of `rest`. -/
def misfit (ts rest : List Token) : ParseError :=
  match rest.head? with
  | some t => .unexpectedToken t
  | none => .unexpectedEnd ((ts.getLast?.map (·.loc)).getD .start)

/-- The statements of a script as they are written. -/
def parseStatements (stream : TokenStream) : Except ParseError (List Statement) :=
  match parseTokens stream.tokens, stream.stop with
  | .ok body, none => .ok body
  | .ok _, some (c, p) => .error (.unexpectedCharacter c p)
  | .error [], some (c, p) => .error (.unexpectedCharacter c p)
  | .error rest, _ => .error (misfit stream.tokens rest)

/-- The syntax tree of a script. -/
def parseScript (source : String) : Except ParseError Node := do
  Node.ofStatements (← parseStatements (scriptTokens source))

end AutoAwait
