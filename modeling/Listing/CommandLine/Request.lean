import Listing.Window

/-!
# Arguments

Arguments are read from left to right. Those that start with a dash are options, up to a bare `--`;
the one other argument is the file. Each option is given at most once, with its value after it or
after an equals sign. A fault ends the reading where it is met, and so does a wish for help or for
the version; what only all arguments together can violate is looked at last (`Options.request`).
-/

namespace Listing.CommandLine

/-- What is written out. -/
inductive Format where
  | html
  | json
  | tokens
  deriving DecidableEq, Repr

/-- The options that take a value. -/
inductive Setting where
  | start
  | end_
  | focus
  | line
  | buffer
  | format
  deriving DecidableEq, Repr

namespace Setting

def name : Setting → String
  | .start => "start"
  | .end_ => "end"
  | .focus => "focus"
  | .line => "line"
  | .buffer => "buffer"
  | .format => "format"

def ofName? (name : String) : Option Setting :=
  [Setting.start, .end_, .focus, .line, .buffer, .format].find? fun setting => setting.name == name

end Setting

/-- A fault in the arguments. -/
inductive UsageError where
  | unknown (argument : String)
  | repeated (option : String)
  | valueMissing (option : String)
  | valueRefused (option value : String)
  | valueUnwanted (option : String)
  | surplus (argument : String)
  | fileMissing
  /-- A line was asked for together with a range. -/
  | rangeAndLine
  /-- A reach was given without a line. -/
  | reachAlone
  deriving DecidableEq, Repr

/-- The fault in words. -/
def UsageError.message : UsageError → String
  | .unknown argument => "unexpected argument '" ++ argument ++ "'"
  | .repeated option => "'--" ++ option ++ "' is given twice"
  | .valueMissing option => "'--" ++ option ++ "' needs a value"
  | .valueRefused option value => "'" ++ value ++ "' is no value for '" ++ option ++ "'"
  | .valueUnwanted option => "'--" ++ option ++ "' takes no value"
  | .surplus argument => "unexpected argument '" ++ argument ++ "'"
  | .fileMissing => "no file is given"
  | .rangeAndLine => "'--line' goes with none of '--start', '--end' and '--focus'"
  | .reachAlone => "'--buffer' needs '--line'"

/-- What the arguments said so far. -/
structure Options where
  file : Option String := none
  start : Option Nat := none
  end_ : Option Nat := none
  focus : Option Nat := none
  line : Option Nat := none
  buffer : Option Nat := none
  format : Option Format := none
  styles : Bool := false
  deriving DecidableEq, Repr

/-- What is to be shown of which file, and how. -/
structure Request where
  file : String
  window : Window
  format : Format
  styles : Bool
  deriving DecidableEq, Repr

/-- What the arguments ask for. -/
inductive Command where
  | show_ (request : Request)
  | version
  | help
  deriving DecidableEq, Repr

/-- A number: digits, perhaps after a plus sign, that make a word of 64 bits. -/
def number? (text : String) : Option Nat :=
  let digits :=
    match text.toList with
    | '+' :: digits => digits
    | digits => digits
  if digits.isEmpty || !digits.all Char.isDigit then none
  else
    let value := digits.foldl (fun value c => value * 10 + (c.toNat - '0'.toNat)) 0
    if value ≤ Window.maxLine then some value else none

def format? (text : String) : Option Format :=
  if text = "html" then some .html
  else if text = "json" then some .json
  else if text = "tokens" then some .tokens
  else none

namespace Options

/-- The value of a setting, unless the setting already has one or the text is no value for it. -/
def fill {α : Type} (setting : Setting) (old new : Option α) (text : String) :
    Except UsageError (Option α) :=
  if old.isSome then .error (.repeated setting.name)
  else
    match new with
    | none => .error (.valueRefused setting.name text)
    | some value => .ok (some value)

/-- The options with one more setting. -/
def set (options : Options) (setting : Setting) (text : String) : Except UsageError Options :=
  match setting with
  | .start => (fill setting options.start (number? text) text).map ({ options with start := · })
  | .end_ => (fill setting options.end_ (number? text) text).map ({ options with end_ := · })
  | .focus => (fill setting options.focus (number? text) text).map ({ options with focus := · })
  | .line => (fill setting options.line (number? text) text).map ({ options with line := · })
  | .buffer => (fill setting options.buffer (number? text) text).map ({ options with buffer := · })
  | .format => (fill setting options.format (format? text) text).map ({ options with format := · })

/-- The options with the file. -/
def setFile (options : Options) (argument : String) : Except UsageError Options :=
  if options.file.isSome then .error (.surplus argument)
  else if argument.isEmpty then .error (.valueRefused "FILE" argument)
  else .ok { options with file := some argument }

/-- The options with the stylesheet asked for. -/
def setStyles (options : Options) : Except UsageError Options :=
  if options.styles then .error (.repeated "styles") else .ok { options with styles := true }

/-- A range of lines is given, in whole or in part. -/
def hasRange (options : Options) : Bool :=
  options.start.isSome || options.end_.isSome || options.focus.isSome

/-- The window that the options describe. -/
def window (options : Options) (defaultReach maxReach : Nat) : Window :=
  match options.line with
  | some line => .around line (options.buffer.getD defaultReach) maxReach
  | none => { first := options.start, last := options.end_, focus := options.focus }

/-- The request, if the options go together. A reach needs a line, but beside a range it is only
passed over. -/
def request (options : Options) (defaultReach maxReach : Nat) : Except UsageError Request :=
  if options.line.isSome && options.hasRange then .error .rangeAndLine
  else if options.buffer.isSome && options.line.isNone && !options.hasRange then
    .error .reachAlone
  else
    match options.file with
    | none => .error .fileMissing
    | some file =>
      .ok
        { file
          window := options.window defaultReach maxReach
          format := options.format.getD .html
          styles := options.styles }

end Options

/-- How an argument reads. -/
inductive Argument where
  /-- The end of the options. -/
  | dashes
  /-- An option in full, with the value after its equals sign. -/
  | long (name : String) (value : Option String)
  /-- Options of one letter. -/
  | short (letters : List Char)
  | plain
  deriving DecidableEq, Repr

/-- A dash alone is no option. -/
def Argument.of (argument : String) : Argument :=
  match argument.toList with
  | ['-', '-'] => .dashes
  | '-' :: '-' :: cs =>
    match cs.dropWhile (· != '=') with
    | [] => .long (String.ofList cs) none
    | _ :: value => .long (String.ofList (cs.takeWhile (· != '='))) (some (String.ofList value))
  | '-' :: c :: letters => .short (c :: letters)
  | _ => .plain

/-- What reading the arguments comes to. -/
inductive Reading where
  | options (options : Options)
  | version
  | help

/-- Arguments after a bare `--`. -/
def readPlain (options : Options) : List String → Except UsageError Reading
  | [] => .ok (.options options)
  | argument :: arguments =>
    match options.setFile argument with
    | .error error => .error error
    | .ok options => readPlain options arguments

/-- Arguments from left to right. -/
def read (options : Options) : List String → Except UsageError Reading
  | [] => .ok (.options options)
  | argument :: arguments =>
    match Argument.of argument with
    | .dashes => readPlain options arguments
    | .short ('V' :: _) => .ok .version
    | .short ('h' :: _) => .ok .help
    | .short _ => .error (.unknown argument)
    | .plain =>
      match options.setFile argument with
      | .error error => .error error
      | .ok options => read options arguments
    | .long name value =>
      match Setting.ofName? name, value, arguments with
      | some setting, some value, arguments =>
        match options.set setting value with
        | .error error => .error error
        | .ok options => read options arguments
      | some setting, none, [] => .error (.valueMissing setting.name)
      | some setting, none, next :: arguments =>
        match Argument.of next with
        | .plain =>
          match options.set setting next with
          | .error error => .error error
          | .ok options => read options arguments
        | _ => .error (.valueMissing setting.name)
      | none, some _, _ =>
        if ["styles", "version", "help"].contains name then .error (.valueUnwanted name)
        else .error (.unknown argument)
      | none, none, arguments =>
        if name = "styles" then
          match options.setStyles with
          | .error error => .error error
          | .ok options => read options arguments
        else if name = "version" then .ok .version
        else if name = "help" then .ok .help
        else .error (.unknown argument)

/-- The command that arguments give. -/
def command (defaultReach maxReach : Nat) (arguments : List String) : Except UsageError Command :=
  match read {} arguments with
  | .error error => .error error
  | .ok .version => .ok .version
  | .ok .help => .ok .help
  | .ok (.options options) => (options.request defaultReach maxReach).map .show_

end Listing.CommandLine
