import IcFront.Text.Digit
import IcFront.Text.Quoted

/-!
# Command line arguments

How the arguments of a command are read. Options may stand anywhere; a long one
may be cut short as long as it can only mean one, and may be given its value
after `=`; short ones may be joined, and may be followed directly by a value.
After `--` nothing is an option, and `--` is never a value. The first argument that is neither an option
nor the value of one is the input, and any further one is not recognised.

What an argument looks like is decided for all arguments first (`Argument.of`);
then they are taken in order, and help or the version is given as soon as it is
asked for.
-/

namespace IcFront

namespace CommandLine

/-- The options. -/
inductive Switch
  | help
  | library
  | noLibrary
  | dumpAst
  | dumpSymtab
  | verbose
  | version
  deriving DecidableEq, Repr

namespace Switch

/-- The spellings of an option. -/
def spellings : Switch → List String
  | help => ["-h", "--help"]
  | library => ["-L", "--library"]
  | noLibrary => ["--no-library"]
  | dumpAst => ["--dump-ast"]
  | dumpSymtab => ["--dump-symtab"]
  | verbose => ["-v", "--verbose"]
  | version => ["--version"]

/-- Every option, in the order in which they are listed. -/
def all : List Switch := [help, library, noLibrary, dumpAst, dumpSymtab, verbose, version]

/-- Every spelling with its option. -/
def bySpelling : List (String × Switch) :=
  all.flatMap fun o => o.spellings.map fun s => (s, o)

/-- Whether an option has a value. -/
def hasValue : Switch → Bool
  | library => true
  | _ => false

/-- How an option is called in messages. -/
def name (o : Switch) : String := "/".intercalate o.spellings

end Switch

/-- An argument that is written as an option: the option if there is one, the
spelling meant, and a value written into the argument. -/
structure Written where
  option : Option Switch
  spelling : String
  value : Option String
  deriving Repr

/-- What an argument looks like. -/
inductive Argument
  | plain (text : String)
  /-- The first `--`. -/
  | separator
  | option (text : String) (written : Written)
  deriving Repr

namespace Argument

/-- A text cut at its first equals sign, if it has one. -/
def cutAtEquals? (text : String) : Option (String × String) :=
  let cs := text.toList
  let before := cs.takeWhile (· ≠ '=')
  match cs.drop before.length with
  | [] => none
  | _ :: after => some (String.ofList before, String.ofList after)

/-- The digits of a number, perhaps with decimals: digits, or digits or none
before a point and digits after it. -/
def isNumber (cs : List Char) : Bool :=
  let whole := cs.takeWhile isDecimalDigit
  match cs.drop whole.length with
  | [] => !whole.isEmpty
  | '.' :: decimals => !decimals.isEmpty && decimals.all isDecimalDigit
  | _ => false

/-- Whether a text is a negative number, which is no option. One newline may end
it. -/
def isNegativeNumber (text : String) : Bool :=
  match text.toList with
  | '-' :: rest => isNumber (if rest.getLast? = some '\n' then rest.dropLast else rest)
  | _ => false

/-- What an argument that is no spelling of an option can be short for: a long
option by its start, or a short one with a value directly after it. -/
def abbreviations (text : String) : List Written :=
  match text.toList with
  | '-' :: '-' :: _ =>
    let (start, value) :=
      match cutAtEquals? text with
      | some (start, value) => (start, some value)
      | none => (text, none)
    (Switch.bySpelling.filter fun (s, _) => s.startsWith start).map fun (s, o) =>
      ⟨some o, s, value⟩
  | dash :: letter :: rest =>
    (Switch.bySpelling.filter fun (s, _) => s == String.ofList [dash, letter]).map fun (s, o) =>
      ⟨some o, s, some (String.ofList rest)⟩
  | _ => []

/-- What an argument looks like before any separator, or the options that it
could equally be. -/
def of (text : String) : Except (List String) Argument :=
  match text.toList with
  | '-' :: _ :: _ =>
    match Switch.bySpelling.lookup text with
    | some o => .ok (option text ⟨some o, text, none⟩)
    | none =>
      let exact := (cutAtEquals? text).bind fun (start, value) =>
        (Switch.bySpelling.lookup start).map fun o =>
          Written.mk (some o) start (some value)
      match exact with
      | some w => .ok (option text w)
      | none =>
        match abbreviations text with
        | [w] => .ok (option text w)
        | [] =>
          if isNegativeNumber text || text.contains ' ' then .ok (plain text)
          else .ok (option text ⟨none, text, none⟩)
        | several => .error (several.map (·.spelling))
  | _ => .ok (plain text)

end Argument

/-- Why arguments are refused. -/
inductive UsageError
  | ambiguous (argument : String) (options : List String)
  | valueMissing (o : Switch)
  | valueIgnored (o : Switch) (value : String)
  | unrecognised (arguments : List String)
  deriving Repr

/-- The wording of an error. -/
def UsageError.message : UsageError → String
  | ambiguous argument options =>
    "ambiguous option: " ++ argument ++ " could match " ++ ", ".intercalate options
  | valueMissing o => "argument " ++ o.name ++ ": expected one argument"
  | valueIgnored o value =>
    "argument " ++ o.name ++ ": ignored explicit argument " ++ quoted value
  | unrecognised arguments => "unrecognized arguments: " ++ " ".intercalate arguments

/-- Looks at every argument. -/
def look : List String → Except UsageError (List Argument)
  | [] => .ok []
  | "--" :: rest => .ok (.separator :: rest.map .plain)
  | text :: rest =>
    match Argument.of text with
    | .error options => .error (.ambiguous text options)
    | .ok a => do
      let rest ← look rest
      return a :: rest

/-- What a command is asked to do. -/
structure Settings where
  input : Option String := none
  library : Option String := none
  noLibrary : Bool := false
  dumpAst : Bool := false
  dumpSymtab : Bool := false
  verbose : Bool := false
  deriving Repr

/-- What reading the arguments ends with. -/
inductive Command
  | run (s : Settings)
  | help
  | version
  | refused (e : UsageError)
  deriving Repr

/-- What one argument stands for: options without a value, and a last one, with
its value if that is in the argument too. -/
structure Joined where
  flags : List Switch
  last : Switch
  value : Option String

/-- The option whose value must be the next argument. -/
def Joined.missing (j : Joined) : Option Switch :=
  match j.value with
  | none => if j.last.hasValue then some j.last else none
  | some _ => none

/-- The options joined in one argument, given a short one and what follows it.
What follows an option without a value must be the letter of another. -/
def joined (o : Switch) (following : List Char) : Except UsageError Joined :=
  if o.hasValue then .ok ⟨[], o, some (String.ofList following)⟩
  else
    match following with
    | [] => .error (.valueIgnored o "")
    | letter :: rest =>
      match Switch.bySpelling.lookup (String.ofList ['-', letter]) with
      | none => .error (.valueIgnored o (String.ofList (letter :: rest)))
      | some p =>
        let more : Except UsageError Joined :=
          match rest with
          | [] => .ok ⟨[], p, none⟩
          | rest => joined p rest
        more.map fun j => { j with flags := o :: j.flags }

/-- What a written argument stands for, its first option given. -/
def Written.joined (w : Written) (o : Switch) : Except UsageError Joined :=
  match w.value with
  | none => .ok ⟨[], o, none⟩
  | some value =>
    if w.spelling.startsWith "--" then
      if o.hasValue then .ok ⟨[], o, some value⟩ else .error (.valueIgnored o value)
    else CommandLine.joined o value.toList

/-- The arguments taken so far: the settings, whether the input has been, and
what was not recognised. -/
structure Progress where
  settings : Settings := {}
  inputTaken : Bool := false
  unrecognised : List String := []

namespace Progress

/-- Takes one option, or ends if it asks for an answer at once. -/
def takeOption (p : Progress) (o : Switch) (value : Option String) : Except Command Progress :=
  let set (s : Settings) : Except Command Progress := .ok { p with settings := s }
  match o with
  | .help => .error .help
  | .version => .error .version
  | .library => set { p.settings with library := value.filter (· != "--") }
  | .noLibrary => set { p.settings with noLibrary := true }
  | .dumpAst => set { p.settings with dumpAst := true }
  | .dumpSymtab => set { p.settings with dumpSymtab := true }
  | .verbose => set { p.settings with verbose := true }

/-- Takes options without values in order. -/
def takeFlags (p : Progress) (flags : List Switch) : Except Command Progress :=
  flags.foldlM (fun p o => takeOption p o none) p

/-- Takes the input. -/
def takeInput (p : Progress) (text : Option String) : Progress :=
  { p with settings := { p.settings with input := text }, inputTaken := true }

/-- Puts an argument aside that is not recognised. -/
def putAside (p : Progress) (text : String) : Progress :=
  { p with unrecognised := p.unrecognised ++ [text] }

/-- Ends when there are no more arguments. -/
def finish (p : Progress) : Command :=
  match p.unrecognised with
  | [] => .run p.settings
  | texts => .refused (.unrecognised texts)

/-- Takes what an argument stands for, the last option with a value. -/
def takeJoined (p : Progress) (j : Joined) (value : Option String) : Except Command Progress := do
  let p ← p.takeFlags j.flags
  takeOption p j.last value

/-- Goes on with what was taken, unless that is the end. -/
def andThen (x : Except Command Progress) (next : Progress → Command) : Command :=
  match x with
  | .ok p => next p
  | .error c => c

/-- Takes the arguments in order. -/
def takeAll (p : Progress) : List Argument → Command
  | [] => p.finish
  | .option text w :: rest =>
    match w.option with
    | none => (p.putAside text).takeAll rest
    | some o =>
      match w.joined o with
      | .error e => .refused e
      | .ok j =>
        match j.missing with
        | some o =>
          match rest with
          | .plain value :: rest => andThen (p.takeJoined j (some value)) fun p => p.takeAll rest
          | _ => .refused (.valueMissing o)
        | none => andThen (p.takeJoined j j.value) fun p => p.takeAll rest
  | .plain text :: rest =>
    if p.inputTaken then (p.putAside text).takeAll rest
    else
      match rest with
      | .separator :: rest => (p.takeInput (some text)).takeAll rest
      | rest => (p.takeInput (some text)).takeAll rest
  | .separator :: rest =>
    if p.inputTaken then (p.putAside "--").takeAll rest
    else
      match rest with
      | .plain text :: rest => (p.takeInput (some text)).takeAll rest
      | rest => (p.takeInput none).takeAll rest

end Progress

/-- What arguments ask for. -/
def Command.ofArguments (args : List String) : Command :=
  match look args with
  | .error e => .refused e
  | .ok args => Progress.takeAll {} args

end CommandLine

end IcFront
