import AutoAwait.Text.DecimalDigit
import AutoAwait.Text.Quoted

/-!
# The arguments of the command

The command takes the names of scripts and some options, in any order. An option that starts with
two dashes can be shortened to any beginning that belongs to no other option, and its value can
follow an equals sign. After the first `--` nothing is an option.

All arguments are first classified; then they are read from left to right, until one of them asks
for help or cannot be used. The scripts are the first group of plain arguments that stand next to
each other; further plain arguments are not understood.

* `Argument.ofText` says what an argument is taken for;
* `parseArguments` reads all arguments; `UsageError` says why they cannot be read.
-/

namespace AutoAwait

/-- The options of the command. -/
inductive Switch where
  | help | catalog | debug | types
deriving DecidableEq

namespace Switch

/-- All options. -/
def all : List Switch := [.help, .catalog, .debug, .types]

/-- The full spelling of an option. -/
def spelling : Switch → String
  | .help => "--help"
  | .catalog => "--catalog"
  | .debug => "--debug"
  | .types => "--types"

/-- How an option is called in messages. -/
def label : Switch → String
  | .help => "-h/--help"
  | s => s.spelling

end Switch

/-- Why the arguments cannot be used. -/
inductive UsageError where
  | ambiguous (argument : String) (candidates : List Switch)
  | expectedValue (option : Switch)
  | ignoredValue (option : Switch) (value : String)
  | missingCatalog
  | unrecognized (arguments : List String)
deriving DecidableEq

/-- The text of a usage error. -/
def UsageError.message : UsageError → String
  | .ambiguous a candidates =>
    "ambiguous option: " ++ a ++ " could match "
      ++ ", ".intercalate (candidates.map (·.spelling))
  | .expectedValue o => "argument " ++ o.label ++ ": expected one argument"
  | .ignoredValue o v =>
    "argument " ++ o.label ++ ": ignored explicit argument " ++ quoted v
  | .missingCatalog => "the following arguments are required: --catalog"
  | .unrecognized as => "unrecognized arguments: " ++ " ".intercalate as

/-- What an argument is taken for. -/
inductive Argument where
  | plain (text : String)
  /-- The first `--`. -/
  | separator
  /-- An option, with a value if one is attached to it. -/
  | option (o : Switch) (value : Option String)
  /-- Something that looks like an option and is none. -/
  | unknown (text : String)
deriving DecidableEq

namespace Argument

/-- The value that is attached to a group of one-letter options after its dash: every letter `h` is
an option, and an equals sign or a dash starts a value. Other letters are left alone. -/
def lettersValue? : List Char → Option (List Char)
  | 'h' :: '=' :: cs => some cs
  | 'h' :: '-' :: cs => some ('-' :: cs)
  | 'h' :: cs => lettersValue? cs
  | _ => none

/-- Is this the text of a negative number? A newline can follow it. -/
def isNegativeNumber (cs : List Char) : Bool :=
  match (if cs.getLast? = some '\n' then cs.dropLast else cs) with
  | '-' :: cs =>
    match cs.dropWhile isDecimalDigit with
    | [] => !cs.isEmpty
    | '.' :: ds => !ds.isEmpty && ds.all isDecimalDigit
    | _ => false
  | _ => false

/-- An argument that starts with two dashes. -/
def ofLong (text : String) : Except UsageError Argument :=
  let cs := text.toList
  let name := cs.takeWhile (· ≠ '=')
  let value :=
    match cs.dropWhile (· ≠ '=') with
    | [] => none
    | _ :: v => some (String.ofList v)
  match Switch.all.filter fun o => name.isPrefixOf o.spelling.toList with
  | [] => .ok (if ' ' ∈ cs then .plain text else .unknown text)
  | [o] => .ok (.option o value)
  | os => .error (.ambiguous text os)

/-- What an argument is taken for that no `--` stands before. -/
def ofText (text : String) : Except UsageError Argument :=
  match text.toList with
  | ['-', '-'] => .ok .separator
  | '-' :: '-' :: _ => ofLong text
  | '-' :: 'h' :: cs => .ok (.option .help ((lettersValue? ('h' :: cs)).map String.ofList))
  | '-' :: c :: cs =>
    .ok (if isNegativeNumber ('-' :: c :: cs) ∨ ' ' ∈ c :: cs then .plain text else .unknown text)
  | _ => .ok (.plain text)

/-- What each argument is taken for. -/
def classify : List String → Except UsageError (List Argument)
  | [] => .ok []
  | text :: texts => do
    match ← ofText text with
    | .separator => return .separator :: texts.map .plain
    | a => return a :: (← classify texts)

end Argument

/-- What the command is to do. -/
structure Options where
  /-- The names of the scripts; `-` is the standard input. -/
  scripts : List String
  catalog : String
  debug : Bool
  types : Bool
deriving DecidableEq

/-- What the arguments ask for. -/
inductive Request where
  | help
  | rewrite (o : Options)
deriving DecidableEq

/-- What has been read of the arguments. -/
structure ReadArguments where
  scripts : List String
  /-- Has the group of scripts begun, and has it ended? -/
  begun : Bool
  ended : Bool
  catalog : Option String
  debug : Bool
  types : Bool
  /-- What is not understood. -/
  unrecognized : List String

namespace ReadArguments

/-- Before the first argument. -/
def start : ReadArguments := ⟨[], false, false, none, false, false, []⟩

/-- A plain argument belongs to the group of scripts until that has ended. -/
def plain (r : ReadArguments) (text : String) : ReadArguments :=
  if r.ended then { r with unrecognized := r.unrecognized ++ [text] }
  else { r with scripts := r.scripts ++ [text], begun := true }

/-- A separator belongs to the group of scripts too, but is none of them. -/
def separator (r : ReadArguments) : ReadArguments :=
  if r.ended then { r with unrecognized := r.unrecognized ++ ["--"] } else { r with begun := true }

/-- An option ends the group of scripts if that has begun. -/
def endGroup (r : ReadArguments) : ReadArguments := { r with ended := r.begun }

/-- After the last argument. -/
def finish (r : ReadArguments) : Except UsageError Request :=
  match r.catalog, r.unrecognized with
  | none, _ => .error .missingCatalog
  | some c, [] => .ok (.rewrite ⟨r.scripts, c, r.debug, r.types⟩)
  | some _, as => .error (.unrecognized as)

/-- Reads arguments from left to right. -/
def read (r : ReadArguments) : List Argument → Except UsageError Request
  | [] => r.finish
  | .plain text :: as => (r.plain text).read as
  | .separator :: as => r.separator.read as
  | .unknown text :: as =>
    let r := r.endGroup
    { r with unrecognized := r.unrecognized ++ [text] }.read as
  | .option .catalog (some value) :: as => { r.endGroup with catalog := some value }.read as
  | .option .catalog none :: .plain value :: as =>
    { r.endGroup with catalog := some value }.read as
  | .option .catalog none :: _ => .error (.expectedValue .catalog)
  | .option o (some value) :: _ => .error (.ignoredValue o value)
  | .option .help none :: _ => .ok .help
  | .option .debug none :: as => { r.endGroup with debug := true }.read as
  | .option .types none :: as => { r.endGroup with types := true }.read as

end ReadArguments

/-- Reads the arguments of the command. -/
def parseArguments (texts : List String) : Except UsageError Request := do
  ReadArguments.start.read (← Argument.classify texts)

/-- The line that shows how the command is used. -/
def usageLine : String :=
  "usage: shellasync [-h] --catalog CATALOG [--debug] [--types] [FILE ...]\n"

/-- What the command says about itself. -/
def helpText : String :=
  usageLine ++ "\n"
    ++ "shellasync: insert `await` before asynchronous shell API calls\n"
    ++ "\n"
    ++ "positional arguments:\n"
    ++ "  FILE               Script files to rewrite ('-' or none reads stdin)\n"
    ++ "\n"
    ++ "options:\n"
    ++ "  -h, --help         show this help message and exit\n"
    ++ "  --catalog CATALOG  JSON shell API type catalog\n"
    ++ "  --debug            Log every typing decision to stderr\n"
    ++ "  --types            After rewriting, print the inferred type of each top-\n"
    ++ "                     level binding\n"

end AutoAwait
