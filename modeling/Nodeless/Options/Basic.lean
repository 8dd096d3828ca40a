import Nodeless.Module.Error
import Nodeless.Number.Binary64

/-!
# Options

What becomes of `__filename` and `__dirname`. A setting counts by its truth: what is false, null,
zero, not a number or empty switches the substitution off, the name of a mode selects it, and
anything else selects the path relative to the build root.
-/

namespace Nodeless

inductive Setting
  | boolean (value : Bool)
  | number (value : Binary64)
  | text (value : String)
  | null
  deriving DecidableEq, Repr

def Setting.isTruthy : Setting → Bool
  | boolean value => value
  | number value => value ≠ .nan && !value.isZero
  | text value => !value.isEmpty
  | null => false

inductive FilenameOption
  | off
  | mock
  | relative
  deriving DecidableEq, Repr

inductive DirnameOption
  | off
  | mock
  /-- A path that is made absolute when the module runs. -/
  | mockAbsolute
  | relative
  deriving DecidableEq, Repr

def FilenameOption.ofSetting (setting : Setting) : FilenameOption :=
  if setting = .text "mock" then .mock
  else if setting.isTruthy then .relative
  else .off

def FilenameOption.setting : FilenameOption → Setting
  | off => .boolean false
  | mock => .text "mock"
  | relative => .boolean true

def DirnameOption.ofSetting (setting : Setting) : DirnameOption :=
  if setting = .text "mock" then .mock
  else if setting = .text "mock_absolute" then .mockAbsolute
  else if setting.isTruthy then .relative
  else .off

def DirnameOption.setting : DirnameOption → Setting
  | off => .boolean false
  | mock => .text "mock"
  | mockAbsolute => .text "mock_absolute"
  | relative => .boolean true

structure Options where
  filename : FilenameOption := .off
  dirname : DirnameOption := .off
  deriving DecidableEq, Repr

namespace Options

def filenameKey : String := "__filename"

def dirnameKey : String := "__dirname"

def put? (options : Options) (key : String) (setting : Setting) : Option Options :=
  if key = filenameKey then some { options with filename := .ofSetting setting }
  else if key = dirnameKey then some { options with dirname := .ofSetting setting }
  else none

/-- The options that settings under known keys give. A key may come once only. -/
def ofSettings? : List (String × Setting) → Option Options
  | [] => some {}
  | (key, setting) :: settings =>
    if settings.any (fun s => s.1 = key) then none
    else (ofSettings? settings).bind fun options => options.put? key setting

end Options

end Nodeless
