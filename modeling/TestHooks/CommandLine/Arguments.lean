import TestHooks.Text.DecimalDigit
import TestHooks.Text.Lines

/-!
# Arguments

What the words of a command line ask for. Long options may be shortened as long as only one is meant, and take a
value after an equals sign or from the next word. After a word of two dashes no word is an option. Words that fit
nowhere make the command line wrong, but only after a request for help before them is granted.
-/

namespace TestHooks.CommandLine

/-- The options of all commands. -/
inductive OptionName
  | help
  | version
  | strict
  | out
  | config
  deriving DecidableEq, Repr

/-- How many values an option takes. -/
inductive Arity
  | none
  | one
  | many
  deriving DecidableEq, Repr

def OptionName.arity : OptionName → Arity
  | help | version | strict => .none
  | out => .one
  | config => .many

def OptionName.long : OptionName → String
  | help => "--help"
  | version => "--version"
  | strict => "--strict"
  | out => "--out"
  | config => "--config"

/-- The options before the name of a command. -/
def mainOptions : List OptionName := [.help, .version]

def expandOptions : List OptionName := [.help, .out, .strict, .config]

def inspectOptions : List OptionName := [.help, .config]

/-! ### Words -/

/-- What stands in the same word after the name of an option. -/
inductive Attached
  | nothing
  /-- The text after an equals sign. -/
  | value (text : String)
  /-- More letters after a short option. -/
  | letters (cs : List Char)
  deriving DecidableEq, Repr

/-- What a word is taken for. -/
inductive Word
  | separator
  | value (text : String)
  | option (name : OptionName) (attached : Attached)
  | unknown
  | ambiguous
  deriving DecidableEq, Repr

namespace Word

def isValue : Word → Bool
  | value _ => true
  | _ => false

def text : Word → String
  | value s => s
  | _ => ""

end Word

/-- The text before the first equals sign, and the text after it if there is one. -/
def splitAtEquals (cs : List Char) : String × Attached :=
  let name := cs.takeWhile (· != '=')
  match cs.drop name.length with
  | _ :: value => (String.ofList name, .value (String.ofList value))
  | [] => (String.ofList name, .nothing)

/-- True for the text of a number below zero: digits, or digits around a point. -/
def isNegativeNumber (cs : List Char) : Bool :=
  let digits := cs.drop 1
  let fraction := digits.dropWhile Text.isDecimalDigit
  cs.head? == some '-' &&
    match fraction with
    | [] => !digits.isEmpty
    | c :: places => c == '.' && !places.isEmpty && places.all Text.isDecimalDigit

/-- What a word with a dash at its head is taken for if it is none of the options. -/
def otherWord (cs : List Char) : Word :=
  if isNegativeNumber cs || cs.contains ' ' then .value (String.ofList cs) else .unknown

/-- The option of a name, or the only option whose name begins like that. -/
def longWord (known : List OptionName) (cs : List Char) : Word :=
  let (name, attached) := splitAtEquals cs
  match known.find? (·.long == name) with
  | some option => .option option attached
  | none =>
    match known.filter fun option => name.toList.isPrefixOf option.long.toList with
    | [] => otherWord cs
    | [option] => .option option attached
    | _ => .ambiguous

/-- What a word that is not a separator is taken for. -/
def wordOf (known : List OptionName) (s : String) : Word :=
  match s.toList with
  | '-' :: '-' :: rest => longWord known ('-' :: '-' :: rest)
  | ['-', 'h'] => .option .help .nothing
  | '-' :: 'h' :: '=' :: rest => .option .help (.value (String.ofList rest))
  | '-' :: 'h' :: rest => .option .help (.letters rest)
  | ['-'] => .value s
  | '-' :: rest => otherWord ('-' :: rest)
  | _ => .value s

/-- The words of a command line. After the first separator all are values. -/
def wordsOf (known : List OptionName) : List String → List Word
  | [] => []
  | s :: rest => if s = "--" then .separator :: rest.map .value else wordOf known s :: wordsOf known rest

/-! ### Commands -/

inductive Command
  | expand (out : Option String) (strict : Bool)
  | inspect
  deriving DecidableEq, Repr

/-- A command on a file, with items of settings. -/
structure Request where
  command : Command
  path : String
  items : List String
  deriving DecidableEq, Repr

/-- What a command line asks for. -/
inductive Invocation
  | help
  | version
  | run (request : Request)
  deriving DecidableEq, Repr

/-- What words have said so far. -/
structure Options where
  path : Option String := none
  out : Option String := none
  strict : Bool := false
  items : List String := []
  /-- A word fits nowhere. -/
  surplus : Bool := false
  deriving DecidableEq, Repr

/-- True if letters after a short option ask for nothing but help. -/
def lettersAskHelp : List Char → Bool
  | [] => true
  | '-' :: _ => false
  | 'h' :: '=' :: _ => false
  | 'h' :: rest => lettersAskHelp rest
  | _ => true

/-- What comes of an option without values, if what is attached to it is right. -/
def allowsAttached : Attached → Bool
  | .nothing => true
  | .value _ => false
  | .letters cs => lettersAskHelp cs

/-- The words after a separator that comes first. -/
def skipSeparator : List Word → List Word
  | .separator :: rest => rest
  | rest => rest

theorem length_skipSeparator_le (words : List Word) : (skipSeparator words).length ≤ words.length := by
  unfold skipSeparator
  split <;> simp

/-- Reads the words after the name of a command. There is no result for a wrong command line, and `none` inside the
result for a request for help. -/
def readOptions (o : Options) : List Word → Option (Option Options)
  | [] => some (some o)
  | .value s :: rest =>
    if o.path.isSome then readOptions { o with surplus := true } rest
    else readOptions { o with path := some s } (skipSeparator rest)
  | .separator :: .value s :: rest =>
    if o.path.isSome then readOptions { o with surplus := true } rest
    else readOptions { o with path := some s } rest
  | .option .help attached :: _ => if allowsAttached attached then some none else none
  | .option .strict attached :: rest =>
    if allowsAttached attached then readOptions { o with strict := true } rest else none
  | .option .out (.value s) :: rest => readOptions { o with out := some s } rest
  | .option .out _ :: .value s :: rest => readOptions { o with out := some s } rest
  | .option .config (.value s) :: rest => readOptions { o with items := [s] } rest
  | .option .config _ :: rest =>
    let values := rest.takeWhile Word.isValue
    readOptions { o with items := values.map Word.text } (rest.drop values.length)
  | .option .out _ :: _ => none
  | .option .version _ :: rest => readOptions { o with surplus := true } rest
  | .separator :: rest => readOptions { o with surplus := true } rest
  | .unknown :: rest => readOptions { o with surplus := true } rest
  | .ambiguous :: _ => none
termination_by words => words.length
decreasing_by
  all_goals first
    | exact Nat.lt_succ_of_le (length_skipSeparator_le _)
    | (simp only [List.length_cons, List.length_drop]; omega)

/-- The request of a command for the words after its name. -/
def requestOf (known : List OptionName) (command : Options → Command) (surplus : Bool) (args : List String) :
    Option Invocation :=
  let words := wordsOf known args
  if words.contains .ambiguous then none
  else
    match readOptions { surplus } words with
    | none => none
    | some none => some .help
    | some (some o) =>
      match o.path, o.surplus with
      | some path, false => some (.run ⟨command o, path, o.items⟩)
      | _, _ => none

def commandOf (name : String) (surplus : Bool) (args : List String) : Option Invocation :=
  if name = "expand" then requestOf expandOptions (fun o => .expand o.out o.strict) surplus args
  else if name = "inspect" then requestOf inspectOptions (fun _ => .inspect) surplus args
  else none

/-- Reads the words up to the name of a command. -/
def readMain (surplus : Bool) : List String → Option Invocation
  | [] => none
  | s :: rest =>
    match wordOf mainOptions s with
    | .option .help attached => if allowsAttached attached then some .help else none
    | .option .version attached => if allowsAttached attached then some .version else none
    | .value name => commandOf name surplus rest
    | .unknown => readMain true rest
    | _ => none

/-- What the words of a command line ask for, unless they are wrong. -/
def Invocation.ofArguments? (args : List String) : Option Invocation :=
  if (wordsOf mainOptions args).contains .ambiguous then none else readMain false args

theorem ofArguments?_nil : Invocation.ofArguments? [] = none := rfl

theorem ofArguments?_separator :
    Invocation.ofArguments? ["expand", "--config", "a=1", "--", "F"] =
      some (.run ⟨.expand none false, "F", ["a=1"]⟩) := by
  decide +kernel

end TestHooks.CommandLine
