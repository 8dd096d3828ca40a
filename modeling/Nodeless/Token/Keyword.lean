/-!
# Keywords

The reserved words of JavaScript, with the three words that are values left out.
-/

namespace Nodeless

inductive Keyword
  | await | «break» | case | «catch» | «class» | const | «continue» | debugger | default | delete
  | «do» | «else» | enum | «export» | «extends» | «finally» | «for» | function | «if» | «import»
  | «in» | instanceof | «let» | new | «return» | static | super | switch | this | throw | «try»
  | typeof | var | void | «while» | «with» | yield | async
  deriving DecidableEq, Repr, Inhabited

namespace Keyword

def all : List Keyword :=
  [.await, .«break», .case, .«catch», .«class», .const, .«continue», .debugger, .default, .delete,
   .«do», .«else», .enum, .«export», .«extends», .«finally», .«for», .function, .«if», .«import»,
   .«in», .instanceof, .«let», .new, .«return», .static, .super, .switch, .this, .throw, .«try»,
   .typeof, .var, .void, .«while», .«with», .yield, .async]

def spelling : Keyword → String
  | await => "await" | «break» => "break" | case => "case" | «catch» => "catch"
  | «class» => "class" | const => "const" | «continue» => "continue" | debugger => "debugger"
  | default => "default" | delete => "delete" | «do» => "do" | «else» => "else" | enum => "enum"
  | «export» => "export" | «extends» => "extends" | «finally» => "finally" | «for» => "for"
  | function => "function" | «if» => "if" | «import» => "import" | «in» => "in"
  | instanceof => "instanceof" | «let» => "let" | new => "new" | «return» => "return"
  | static => "static" | super => "super" | switch => "switch" | this => "this"
  | throw => "throw" | «try» => "try" | typeof => "typeof" | var => "var" | void => "void"
  | «while» => "while" | «with» => "with" | yield => "yield" | async => "async"

def ofSpelling? (word : String) : Option Keyword := all.find? fun k => k.spelling = word

/-- The words whose parenthesised head is followed by a statement. -/
def opensHead : Keyword → Bool
  | «if» | «while» | «for» | «with» => true
  | _ => false

end Keyword

end Nodeless
