import Nodeless.Module.Basic

/-!
# Reports

What is told about modules while they are built, in the colours of a terminal.
-/

namespace Nodeless.Report

inductive Color
  | red
  | yellow
  | cyan
  deriving DecidableEq, Repr

def Color.code : Color → String
  | red => "31"
  | yellow => "33"
  | cyan => "36"

def style (code : String) : String := "\x1b[" ++ code ++ "m"

def paint (color : Color) (text : String) : String :=
  style color.code ++ text ++ style "39"

def bold (text : String) : String := style "1" ++ text ++ style "0"

def warning (w : Warning) : String :=
  bold (paint .yellow "WARNING") ++ ": " ++ paint .yellow w.render ++ "\n"

def failure (m : Module) (error : BuildError) : String :=
  bold (paint .red "ERROR") ++ " in " ++ paint .cyan m.identifier ++ ": " ++ error.message ++ "\n"

def summary (failed total : Nat) : String :=
  bold (paint .red s!"{failed} of {total} modules failed") ++ "\n"

end Nodeless.Report
