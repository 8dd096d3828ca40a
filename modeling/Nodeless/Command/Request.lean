/-!
# Requests

What a command line asks for. Options and files come in any order, and after `--` all words are
files. An option has its value in the next word, or in the same word after `=`.
-/

namespace Nodeless

structure Request where
  /-- The directory that reported paths are relative to. -/
  context : Option String := none
  /-- The file that options are read from. -/
  config : Option String := none
  filename : Option String := none
  dirname : Option String := none
  /-- The module that stands in for `module`. -/
  moduleShim : Option String := none
  /-- The directory that code is written below. Without one it is printed. -/
  outDir : Option String := none
  verbose : Bool := false
  files : List String := []
  deriving DecidableEq, Repr

inductive Parameter
  | context
  | config
  | filename
  | dirname
  | moduleShim
  | outDir
  deriving DecidableEq, Repr

inductive Switch
  | verbose
  | help
  | version
  deriving DecidableEq, Repr

inductive Command
  | build (request : Request)
  | help
  | version
  deriving DecidableEq, Repr

/-! ## Words -/

def Parameter.ofName? : String → Option Parameter
  | "context" => some context
  | "config" => some config
  | "filename" => some filename
  | "dirname" => some dirname
  | "module-shim" => some moduleShim
  | "out-dir" => some outDir
  | _ => none

/-- Whether the value of an option is a path. A path has to say something. -/
def Parameter.isPath : Parameter → Bool
  | filename | dirname => false
  | _ => true

def Switch.ofName? : String → Option Switch
  | "verbose" => some verbose
  | "help" => some help
  | "version" => some version
  | _ => none

def Switch.ofLetter? : Char → Option Switch
  | 'v' => some verbose
  | 'h' => some help
  | 'V' => some version
  | _ => none

inductive Word
  /-- All words after it are files. -/
  | endOfOptions
  | long (name : String) (value : Option String)
  | letters (letters : List Char)
  | plain
  deriving DecidableEq, Repr

def Word.ofString (word : String) : Word :=
  match word.toList with
  | ['-', '-'] => endOfOptions
  | '-' :: '-' :: rest =>
    match rest.dropWhile (· ≠ '=') with
    | [] => long (String.ofList rest) none
    | _ :: value =>
      long (String.ofList (rest.takeWhile (· ≠ '='))) (some (String.ofList value))
  | '-' :: c :: rest => letters (c :: rest)
  | _ => plain

/-! ## Reading -/

namespace Request

def value? (r : Request) : Parameter → Option String
  | .context => r.context
  | .config => r.config
  | .filename => r.filename
  | .dirname => r.dirname
  | .moduleShim => r.moduleShim
  | .outDir => r.outDir

def withValue (r : Request) (value : String) : Parameter → Request
  | .context => { r with context := some value }
  | .config => { r with config := some value }
  | .filename => { r with filename := some value }
  | .dirname => { r with dirname := some value }
  | .moduleShim => { r with moduleShim := some value }
  | .outDir => { r with outDir := some value }

/-- Gives an option its value. It may be given once. -/
def give? (r : Request) (p : Parameter) (value : String) : Option Request :=
  if (r.value? p).isSome || (p.isPath && value.isEmpty) then none else some (r.withValue value p)

def addFile? (r : Request) (file : String) : Option Request :=
  if file.isEmpty then none else some { r with files := r.files ++ [file] }

/-- A switch asks for something else than a build, or is noted, once. -/
def turn? (r : Request) : Switch → Option (Command ⊕ Request)
  | .verbose => if r.verbose then none else some (.inr { r with verbose := true })
  | .help => some (.inl .help)
  | .version => some (.inl .version)

def turnLetters? (r : Request) : List Char → Option (Command ⊕ Request)
  | [] => some (.inr r)
  | letter :: letters => do
    match ← r.turn? (← Switch.ofLetter? letter) with
    | .inl command => return .inl command
    | .inr r => r.turnLetters? letters

def command? (r : Request) : Option Command :=
  if r.files = [] then none else some (.build r)

/-- Reads the words one by one. The first that asks for something else than a build decides. -/
def read? (r : Request) : List String → Option Command
  | [] => r.command?
  | word :: words =>
    match Word.ofString word with
    | .endOfOptions => (words.foldlM addFile? r).bind command?
    | .plain => (r.addFile? word).bind fun r => r.read? words
    | .letters letters =>
      match r.turnLetters? letters with
      | none => none
      | some (.inl command) => some command
      | some (.inr r) => r.read? words
    | .long name (some value) =>
      ((Parameter.ofName? name).bind fun p => r.give? p value).bind fun r => r.read? words
    | .long name none =>
      match Parameter.ofName? name, words with
      | some p, value :: words =>
        if Word.ofString value = .plain then (r.give? p value).bind fun r => r.read? words
        else none
      | some _, [] => none
      | none, words =>
        match (Switch.ofName? name).bind r.turn? with
        | none => none
        | some (.inl command) => some command
        | some (.inr r) => r.read? words

end Request

namespace Command

def ofWords? (words : List String) : Option Command := Request.read? {} words

def usage : String := "Usage: spacey-pack [OPTIONS] <FILES>...\n"

def versionLine : String := "spacey-pack 0.1.0\n"

end Command

end Nodeless
