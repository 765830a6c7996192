import Listing.CommandLine.Request
import Listing.Highlight
import Listing.Report
import Listing.Stylesheet

/-!
# The command line

One run of the program, from its arguments and what can be read to what it writes. Faults in the
arguments are found before anything is read.
-/

namespace Listing.CommandLine

/-- Why a file cannot be read. -/
structure ReadError where
  reason : String
  code : Nat
  deriving DecidableEq, Repr

namespace ReadError

def notFound : ReadError := ⟨"No such file or directory", 2⟩

def notDirectory : ReadError := ⟨"Not a directory", 20⟩

def isDirectory : ReadError := ⟨"Is a directory", 21⟩

def denied : ReadError := ⟨"Permission denied", 13⟩

def nameTooLong : ReadError := ⟨"File name too long", 36⟩

/-- The error with a code of the system, given as it is or as a negative word of 32 bits. -/
def ofCode (code : Nat) (reason : String) : ReadError :=
  let code := if 0x80000000 ≤ code then 0x100000000 - code else code
  ([notFound, denied, notDirectory, isDirectory, nameTooLong].find? fun error =>
    error.code == code).getD ⟨reason, code⟩

def message (error : ReadError) : String :=
  error.reason ++ " (os error " ++ toString error.code ++ ")"

end ReadError

/-- What a run writes and how it exits. -/
structure Outcome where
  exit : Nat
  stdout : String := ""
  stderr : String := ""
  deriving DecidableEq, Repr

/-- Why a run fails. -/
inductive RunError where
  | unreadable (file : String) (error : ReadError)
  | unterminated (error : LexError)

def RunError.message : RunError → String
  | .unreadable file error => "cannot read " ++ file ++ ": " ++ error.message
  | .unterminated error => error.message

def version : String := "excerpt 0.3.0"

def help : String :=
  "Render a line-numbered, highlighted excerpt of a PHP file\n\n"
    ++ "Usage: excerpt [OPTIONS] <FILE>\n\n"
    ++ "Options:\n"
    ++ "      --start <START>    First line to render\n"
    ++ "      --end <END>        Last line to render\n"
    ++ "      --focus <FOCUS>    Line to highlight\n"
    ++ "      --line <LINE>      Render lines either side of this line and highlight it\n"
    ++ "      --buffer <BUFFER>  Lines either side of the line, 1 to 30 [default: 8]\n"
    ++ "      --format <FORMAT>  html, json or tokens [default: html]\n"
    ++ "      --styles           Put the stylesheet in front (html only)\n"
    ++ "  -h, --help             Print help\n"
    ++ "  -V, --version          Print version"

/-- What a request shows of a source. -/
def output (request : Request) (source : String) : Except LexError String :=
  match request.format with
  | .html =>
    (highlight source request.window).map fun markup =>
      if request.styles then Stylesheet.element ++ "\n" ++ markup else markup
  | .json => (render source request.window).map fun excerpt => excerpt.json.write
  | .tokens => (tokensOf source).map fun tokens => (Text.Json.array (tokens.map Token.json)).write

/-- What a request shows of its file. -/
def answer (read : String → Except ReadError ByteArray) (request : Request) :
    Except RunError String :=
  match read request.file with
  | .error error => .error (.unreadable request.file error)
  | .ok bytes => (output request (Text.Utf8.decode bytes)).mapError .unterminated

/-- A run of the program; `read` gives the contents of a file. -/
def run (read : String → Except ReadError ByteArray) (arguments : List String) : Outcome :=
  match command defaultReach maxReach arguments with
  | .error error => { exit := 2, stderr := "error: " ++ error.message ++ "\n" }
  | .ok .version => { exit := 0, stdout := version ++ "\n" }
  | .ok .help => { exit := 0, stdout := help ++ "\n" }
  | .ok (.show_ request) =>
    match answer read request with
    | .error error => { exit := 1, stderr := "error: " ++ error.message ++ "\n" }
    | .ok text => { exit := 0, stdout := text ++ "\n" }

end Listing.CommandLine
