/-
# The prelude

Derived forms and helpers, written in the language itself. A session loads this source
before anything else unless its configuration says otherwise.

Key definitions: `preludeSource`.
-/
import LittleLisp.Text

namespace LittleLisp

/-- The lines of the prelude. -/
def preludeLines : List Text :=
  [ "; Derived forms and helpers written in the language itself.",
    "",
    "(defsyntax let (syntax-rules ()",
    "  ((_ ((name value) ...) body1 body2 ...)",
    "   ((fn (name ...) body1 body2 ...) value ...))))",
    "",
    "(defsyntax and (syntax-rules ()",
    "  ((_) true)",
    "  ((_ e) e)",
    "  ((_ e1 e2 e3 ...) (if e1 (and e2 e3 ...) false))))",
    "",
    "(defsyntax or (syntax-rules ()",
    "  ((_) false)",
    "  ((_ e) e)",
    "  ((_ e1 e2 e3 ...) (if e1 true (or e2 e3 ...)))))",
    "",
    "(defsyntax when (syntax-rules ()",
    "  ((_ test body ...) (if test (do body ...)))))",
    "",
    "(defsyntax unless (syntax-rules ()",
    "  ((_ test body ...) (if test nil (do body ...)))))",
    "",
    "(def inc (fn (n) (+ n 1)))",
    "(def dec (fn (n) (- n 1)))",
    "",
    "(def map (fn (f l)",
    "  (if (= (count l) 0)",
    "    (list)",
    "    (cons (f (get l 0)) (map f (rest l))))))" ]

/-- The source of the prelude. -/
def preludeSource : Text :=
  Text.concat (preludeLines.map fun l => l ++ ("\n" : Text))

end LittleLisp
