import Pseudocode.Text.Substitute

namespace Pseudocode

/-- A character of the parameters of a control sequence. -/
def isControlParameter (c : Char) : Bool :=
  c = ';' || c = '?' || c.isDigit

/-- Takes out a control sequence of a terminal: an escape character and a square bracket, then
parameters, then a plain letter. One that is not complete stays. -/
def controlSequence : Replacer
  | _, '\x1b' :: '[' :: rest =>
    let parameters := rest.takeWhile isControlParameter
    match rest.drop parameters.length with
    | final :: _ => if final.isAlpha then some (parameters.length + 3, []) else none
    | [] => none
  | _, _ => none

/-- A text without its control sequences, for an output that is no terminal. -/
def withoutControls (text : Text) : Text :=
  substitute controlSequence text

end Pseudocode
