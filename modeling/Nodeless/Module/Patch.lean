import Nodeless.Source.Text
import Nodeless.Source.Span

/-!
# Patches

Texts that take the place of spans of a source. Patches are applied in the order of their spans,
and one that reaches behind the last one applied, or past the end of the source, is left out.
-/

namespace Nodeless

structure Patch where
  span : Span
  text : String
  deriving DecidableEq, Repr

namespace Patch

open Source

/-- By span. Patches of one span keep their order. -/
def sort (patches : List Patch) : List Patch :=
  patches.mergeSort fun a b => (a.span.compare b.span).isLE

/-- Applies patches to what is left of a source of `length` bytes after the first `cursor`. -/
def renderFrom (length cursor : Nat) (rest : List Char) : List Patch → List Char
  | [] => rest
  | p :: ps =>
    if p.span.start < cursor ∨ length < p.span.stop then renderFrom length cursor rest ps
    else
      takeBytes (p.span.start - cursor) rest ++ p.text.toList ++
        renderFrom length p.span.stop (dropBytes (p.span.stop - cursor) rest) ps

def render (source : String) (patches : List Patch) : String :=
  String.ofList (renderFrom (byteLength source.toList) 0 source.toList (sort patches))

end Patch

end Nodeless
