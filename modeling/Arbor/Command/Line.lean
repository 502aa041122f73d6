import Arbor.Command.Flag
import Arbor.Command.Suggestion

/-!
# The command line

The tool has several **commands**, some with commands of their own. A command
line names one by its words; what is left of it are the arguments of that
command. Flags may stand anywhere, also before the name of the command, so the
name is looked for behind flags and their values.
-/

namespace Arbor

namespace Command

/-- A shell that can complete command lines. -/
inductive Shell where
  /-- The shell `bash`. -/
  | bash
  /-- The shell `zsh`. -/
  | zsh
  /-- The shell `fish`. -/
  | fish
  /-- The shell `powershell`. -/
  | powershell
  deriving DecidableEq, Repr

/-- The name of a shell. -/
def Shell.name : Shell → Text
  | bash => utf8 "bash"
  | zsh => utf8 "zsh"
  | fish => utf8 "fish"
  | powershell => utf8 "powershell"

/-- A command. -/
inductive Name where
  /-- The tool itself. -/
  | tool
  /-- Parses a file and shows its tree. -/
  | parse
  /-- Lists the nodes of a file that are instances of a rule. -/
  | find
  /-- Shows the nodes that enclose a place. -/
  | path
  /-- Tools for grammars. -/
  | grammar
  /-- Reads and verifies a grammar. -/
  | check
  /-- Serves an editor. -/
  | serve
  /-- Explains the tool. -/
  | help
  /-- Explains completion in shells. -/
  | completion
  /-- Writes the completion script of a shell. -/
  | script (shell : Shell)
  /-- Completes a command line, on behalf of such a script. -/
  | complete
  deriving DecidableEq, Repr

namespace Name

/-- The commands of a command, by their names. -/
def subcommands : Name → List (Text × Name)
  | tool => [(utf8 "parse", parse), (utf8 "find", find), (utf8 "path", path),
      (utf8 "grammar", grammar), (utf8 "lsp", serve), (utf8 "help", help),
      (utf8 "completion", completion), (utf8 "__complete", complete),
      (utf8 "__completeNoDesc", complete)]
  | grammar => [(utf8 "check", check)]
  | completion => [Shell.bash, .zsh, .fish, .powershell].map fun s => (s.name, script s)
  | _ => []

/-- How deep commands are nested below a command. -/
def height : Name → Nat
  | tool => 2
  | grammar => 1
  | completion => 1
  | _ => 0

/-- The command of a name among those of a command. -/
def subcommand? (c : Name) (word : Text) : Option Name :=
  (c.subcommands.find? (·.1 = word)).map (·.2)

/-- Commands are nested less deep the further down they are. -/
theorem height_lt {c d : Name} {word : Text} (h : c.subcommand? word = some d) :
    d.height < c.height := by
  obtain ⟨e, he, rfl⟩ := Option.map_eq_some_iff.mp h
  have hm := List.mem_of_find?_eq_some he
  cases c <;> simp only [subcommands, List.map_cons, List.map_nil, List.mem_cons,
    List.not_mem_nil, or_false] at hm
  · rcases hm with rfl | rfl | rfl | rfl | rfl | rfl | rfl | rfl | rfl <;> decide
  · subst hm
    decide
  · rcases hm with rfl | rfl | rfl | rfl <;> decide

/-- Whether a command is suggested where another name is not known. -/
def isSuggested (c : Name) : Bool := c ≠ help && c ≠ complete

/-- The name of a command, as far as messages name it. -/
def title : Name → Text
  | script s => utf8 "cstq completion " ++ s.name
  | _ => utf8 "cstq"

end Name

/-- A flag of the name, without a letter. -/
def flag (name : String) (kind : Flag.Kind) : Flag := ⟨utf8 name, none, kind⟩

/-- The flags of all commands. -/
def commonFlags : List Flag :=
  [flag "config" .text, flag "grammar" .text, flag "start" .text,
    ⟨utf8 "verbose", some 118, .counter⟩, flag "log" .text]

/-- The flags of a command of its own. One of them takes the place of a common
flag of the same name. -/
def Name.ownFlags : Name → List Flag
  | .parse => [⟨utf8 "format", some 102, .text⟩, flag "positions" .switch]
  | .find => [flag "first" .switch, flag "count" .switch, flag "text" .switch]
  | .path => [flag "rule" .text]
  | .check => [flag "start" .text]
  | .script _ => [flag "no-descriptions" .switch]
  | _ => []

/-- The flags by which a command line is searched for commands. -/
def Name.flags (c : Name) : List Flag := c.ownFlags ++ commonFlags

/-- All flags that a command understands. -/
def Name.allFlags (c : Name) : List Flag :=
  c.flags ++ [⟨utf8 "help", some 104, .switch⟩]
    ++ if c = .tool then [flag "version" .switch] else []

/-- How many words a command takes, if that is laid down. -/
def Name.arity? : Name → Option Nat
  | .parse => some 1
  | .find => some 2
  | .path => some 2
  | .check => some 1
  | _ => none

/-- **What can be wrong with a command line.** -/
inductive UsageError where
  /-- A command has no such command; others may have been meant. -/
  | unknownCommand (c : Name) (word : Text) (meant : List Text)
  /-- Something is wrong with a flag. -/
  | flag (e : FlagError)
  /-- The number of words is not the right one. -/
  | arity (expected received : Nat)
  /-- There are too few words. -/
  | tooFew (least received : Nat)
  deriving DecidableEq, Repr

/-- The wording of the error. -/
def UsageError.message : UsageError → Text
  | unknownCommand c word meant =>
    utf8 "unknown command " ++ word.quoted ++ utf8 " for " ++ c.title.quoted
      ++ if meant.isEmpty then []
        else utf8 "\n\nDid you mean this?\n"
          ++ meant.flatMap fun n => utf8 "\t" ++ n ++ utf8 "\n"
  | flag e => e.message
  | arity expected received =>
    utf8 "accepts " ++ Text.ofNat expected ++ utf8 " arg(s), received " ++ Text.ofNat received
  | tooFew least received =>
    utf8 "requires at least " ++ Text.ofNat least ++ utf8 " arg(s), only received "
      ++ Text.ofNat received

/-! ## Finding the command -/

/-- Whether an argument is a flag that takes the next argument as its value.
An unknown flag counts as one. -/
def takesNext (flags : List Flag) (arg : Text) : Bool :=
  61 ∉ arg && match arg with
    | 45 :: 45 :: name => (named? flags name).all (·.kind = .text)
    | [45, b] => (lettered? flags b).all (·.kind = .text)
    | _ => false

/-- The arguments that are neither flags nor values of flags. A flag at the
end of the line, or right before its last argument, ends the search. -/
def words (flags : List Flag) (args : List Text) : List Text :=
  match args with
  | [] => []
  | arg :: rest =>
    if arg = [dash, dash] then []
    else if takesNext flags arg then if rest.length ≤ 1 then [] else words flags (rest.drop 1)
    else if arg ≠ [] ∧ arg.head? ≠ some dash then arg :: words flags rest
    else words flags rest
termination_by args.length
decreasing_by all_goals simp only [List.length_drop, List.length_cons]; omega

/-- Takes the first occurrence of a word out of the arguments that is no value
of a flag. -/
def without (flags : List Flag) (word : Text) (args : List Text) : List Text :=
  match args with
  | [] => []
  | arg :: rest =>
    if arg = [dash, dash] then args
    else if takesNext flags arg then arg :: (rest.take 1 ++ without flags word (rest.drop 1))
    else if arg = word then rest
    else arg :: without flags word rest
termination_by args.length
decreasing_by all_goals simp only [List.length_drop, List.length_cons]; omega

/-- **Finds the command of a command line**, from a command on, and its
arguments. -/
def locate (c : Name) (args : List Text) : Name × List Text :=
  match words c.flags args with
  | [] => (c, args)
  | word :: _ => match h : c.subcommand? word with
    | none => (c, args)
    | some d =>
      have : d.height < c.height := Name.height_lt h
      locate d (without c.flags word args)
termination_by c.height

/-! ## What to do -/

/-- The common options of commands; an empty one is not set. -/
structure Options where
  /-- The settings file. -/
  config : Text
  /-- The grammar. -/
  grammar : Text
  /-- The start production. -/
  start : Text
  deriving DecidableEq, Repr

/-- **What a command line asks for.** -/
inductive Task where
  /-- The version of the tool. -/
  | version
  /-- An explanation of a command. -/
  | help (c : Name)
  /-- The tree of a file. -/
  | parse (o : Options) (format : Text) (positions : Bool) (file : Text)
  /-- The nodes of a file that are instances of a rule: all of them, only the
  first, or just their number. -/
  | find (o : Options) (first count text : Bool) (file rule : Text)
  /-- The nodes of a file around a place, or only the nearest of a rule. -/
  | path (o : Options) (rule file place : Text)
  /-- Whether a grammar is well formed, and verifies from a start
  production. -/
  | check (start file : Text)
  /-- Serving an editor. -/
  | serve (o : Options)
  /-- The completion script of a shell. -/
  | script (shell : Shell)
  /-- What can complete the last of some words. -/
  | complete (words : List Text)
  deriving DecidableEq, Repr

/-- What a command is asked for by its arguments. -/
def taskOf (c : Name) (a : Arguments) : Except UsageError Task :=
  if a.isOn "help" then .ok (.help c)
  else if a.isOn "version" then .ok .version
  else
    let o : Options := ⟨a.text "config", a.text "grammar", a.text "start"⟩
    match c, a.words with
    | .parse, [file] =>
      .ok (.parse o ((a.value? "format").getD (utf8 "text")) (a.isOn "positions") file)
    | .find, [file, rule] =>
      .ok (.find o (a.isOn "first") (a.isOn "count") (a.isOn "text") file rule)
    | .path, [file, place] => .ok (.path o (a.text "rule") file place)
    | .check, [file] => .ok (.check (a.text "start") file)
    | .serve, _ => .ok (.serve o)
    | .script s, [] => .ok (.script s)
    | .script s, word :: _ => .error (.unknownCommand (.script s) word [])
    | c, words => match c.arity? with
      | some n => .error (.arity n words.length)
      | none => .ok (.help c)

/-- **Reads a command line.** -/
def read (args : List Text) : Except UsageError Task := do
  let (c, rest) := locate .tool args
  if c = .tool then
    if let word :: _ := words c.flags rest then
      let known := (c.subcommands.filter (·.2.isSuggested)).map (·.1)
      throw (.unknownCommand c word (suggestions known word))
  if c = .complete then
    if rest = [] then throw (.tooFew 1 0) else return .complete rest
  let a ← (Arguments.read c.allFlags rest).mapError .flag
  taskOf c a

end Command

end Arbor
