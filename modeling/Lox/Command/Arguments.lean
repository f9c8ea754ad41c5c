/-
Arguments.

`Request.ofArguments` reads the arguments of the program from left to right.  The first argument
that asks for help or the version, or that has no place where it stands, decides.

* `--log` may stand before the name of a command and behind it, once in each place;
* behind `--` every argument of a command is the name of a file.

Design notes: a file name is not empty, and a single dash is one.
-/
namespace Lox

/-- What the program can do. -/
inductive Command where
  | tokenize (file : String) (json : Bool)
  | parse (file : String) (json : Bool)
  | script (file : String)
  | dialogue
deriving Repr, DecidableEq

/-- The file that a command reads. -/
def Command.file? : Command → Option String
  | tokenize file _ | parse file _ | script file => some file
  | dialogue => none

/-- What the arguments ask for. -/
inductive Request where
  | misuse
  | help
  | version
  | command (log : Bool) (c : Command)
deriving Repr, DecidableEq

/-- The names of commands. -/
inductive Verb where
  | tokenize
  | parse
  | run
deriving Repr, DecidableEq

/-- The command of a name. -/
def Verb.ofName? : String → Option Verb
  | "tokenize" => some .tokenize
  | "parse" => some .parse
  | "run" => some .run
  | _ => none

/-- The kinds of argument. -/
inductive Argument where
  | separator
  | log
  | json
  | help
  | version
  | unknownOption
  | word (s : String)
deriving Repr, DecidableEq

/-- The kind of an argument.  Of options that are written together the first one counts. -/
def Argument.ofText (s : String) : Argument :=
  match s with
  | "-" => .word s
  | "--" => .separator
  | "--log" => .log
  | "--json" => .json
  | "--help" => .help
  | "--version" => .version
  | _ =>
    match s.toList with
    | '-' :: 'h' :: _ => .help
    | '-' :: 'V' :: _ => .version
    | '-' :: _ => .unknownOption
    | _ => .word s

/-- What has been read behind the name of a command. -/
structure Options where
  log : Bool
  json : Bool
  file : Option String

namespace Options

/-- Nothing has been read. -/
def none : Options := ⟨false, false, Option.none⟩

/-- The request for a command with these options. -/
def request (o : Options) (log : Bool) (verb : Verb) : Request :=
  match verb, o.file with
  | .tokenize, some file => .command (log || o.log) (.tokenize file o.json)
  | .parse, some file => .command (log || o.log) (.parse file o.json)
  | .run, some file => .command (log || o.log) (.script file)
  | .run, .none => .command (log || o.log) .dialogue
  | _, .none => .misuse

/-- The options with a file, unless they have one or its name is empty. -/
def withFile? (o : Options) (name : String) : Option Options :=
  if o.file.isSome || name.isEmpty then .none else some { o with file := some name }

end Options

namespace Request

/-- Reads the arguments behind a separator, which are file names. -/
def ofFiles (log : Bool) (verb : Verb) (o : Options) : List String → Request
  | [] => o.request log verb
  | name :: names =>
    match o.withFile? name with
    | some o => ofFiles log verb o names
    | none => misuse

/-- Reads the arguments behind the name of a command. -/
def ofOptions (log : Bool) (verb : Verb) (o : Options) : List String → Request
  | [] => o.request log verb
  | s :: rest =>
    match Argument.ofText s with
    | .separator => ofFiles log verb o rest
    | .log => if o.log then misuse else ofOptions log verb { o with log := true } rest
    | .json =>
      if o.json || verb = .run then misuse else ofOptions log verb { o with json := true } rest
    | .help => help
    | .word name =>
      match o.withFile? name with
      | some o => ofOptions log verb o rest
      | none => misuse
    | .version | .unknownOption => misuse

/-- Reads the arguments behind `help`: at most one, the name of a command. -/
def ofHelp : List String → Request
  | [] => help
  | [name] => if name = "help" || (Verb.ofName? name).isSome then help else misuse
  | _ => misuse

/-- Reads the arguments from before the name of a command on. -/
def ofArgumentsFrom (log : Bool) : List String → Request
  | [] => misuse
  | s :: rest =>
    match Argument.ofText s with
    | .log => if log then misuse else ofArgumentsFrom true rest
    | .help => help
    | .version => version
    | .word name =>
      match Verb.ofName? name with
      | some verb => ofOptions log verb .none rest
      | none => if name = "help" then ofHelp rest else misuse
    | .separator | .json | .unknownOption => misuse

/-- What the arguments of the program ask for. -/
def ofArguments (arguments : List String) : Request :=
  ofArgumentsFrom false arguments

end Request

end Lox
