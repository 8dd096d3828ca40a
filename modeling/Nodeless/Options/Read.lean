import Nodeless.FilePath
import Nodeless.Json.Value
import Nodeless.Number.Shortest
import Nodeless.Text.Quoted
import Nodeless.Toml.Document

/-!
# Reading options

Options are read from JSON or TOML text, or set one by one from the command line. Keys that are not
known are passed over.
-/

namespace Nodeless

namespace Setting

def ofJson? : List Json.Token → Option Setting
  | [.boolean value] => some (.boolean value)
  | [.null] => some .null
  | [.text raw] => (Json.decode? raw).map fun text => .text (String.ofList text)
  | [.number raw] => ((Json.numberParts? raw).bind Json.numberValue?).map .number
  | _ => none

/-- The words of JSON and numbers count as what they say, and all else as text. -/
def ofText (text : String) : Setting :=
  if text = "true" then .boolean true
  else if text = "false" then .boolean false
  else if text = "null" then .null
  else ((Binary64.ofText? text.toList).map .number).getD (.text text)

def json : Setting → String
  | boolean value => if value then "true" else "false"
  | number value => value.render
  | text value => Text.quote value
  | null => "null"

end Setting

namespace Options

def isKnown (key : String) : Bool := key = filenameKey || key = dirnameKey

/-- The setting of a member of an object. `none` is an error, and `some none` a key not known. -/
def jsonMember? (key : List Char) (value : List Json.Token) : Option (Option (String × Setting)) := do
  let key := String.ofList (← Json.decode? key)
  if isKnown key then return some (key, ← Setting.ofJson? value)
  return none

def ofJson? (text : String) : Option Options := do
  match ← Json.tokens? text.toList with
  | .openObject :: tokens =>
    let members ← (← Json.members? tokens).mapM fun m => jsonMember? m.1 m.2
    ofSettings? members.reduceOption
  | .openArray :: tokens =>
    match ← (← Json.elements? tokens).mapM Setting.ofJson? with
    | [] => some {}
    | [filename] => some { filename := .ofSetting filename }
    | [filename, dirname] =>
      some { filename := .ofSetting filename, dirname := .ofSetting dirname }
    | _ => none
  | _ => none

def tomlEntry? (key : String) (item : Toml.Item) : Option (Option (String × Setting)) :=
  if isKnown key then
    match item with
    | .value (.setting setting) => some (some (key, setting))
    | _ => none
  else some none

def ofToml? (text : String) : Option Options := do
  let settings ← (← Toml.entries? text.toList).mapM fun entry => tomlEntry? entry.1 entry.2
  ofSettings? settings.reduceOption

def ofJson (text : String) : Except BuildError Options :=
  (ofJson? text).elim (.error .malformedJson) .ok

def ofToml (text : String) : Except BuildError Options :=
  (ofToml? text).elim (.error .malformedToml) .ok

/-- Reads the options of a file in the format that its extension names. `text` is the text of the
file, if it can be read. -/
def ofFile (path : String) (text : Option String) : Except BuildError Options :=
  let read (ofText : String → Except BuildError Options) : Except BuildError Options :=
    text.elim (.error .unreadableFile) ofText
  match FilePath.extension? path with
  | some "json" => read ofJson
  | some "toml" => read ofToml
  | _ => .error (.unsupportedConfigFile path)

def set (options : Options) (key value : String) : Except BuildError Options :=
  match options.put? key (.ofText value) with
  | some options => .ok options
  | none => .error (.config ("Unknown option '" ++ key ++ "'"))

def json (options : Options) : String :=
  "\x7b" ++ Text.quote filenameKey ++ ":" ++ options.filename.setting.json ++ "," ++
    Text.quote dirnameKey ++ ":" ++ options.dirname.setting.json ++ "\x7d"

end Options

end Nodeless
