import Pseudocode.Text.Lowercase

namespace Pseudocode

/-- Small letters that share a capital with another small letter, each with the letter that
stands for all of them. -/
def caseVariants : List (Nat × Nat) :=
  [(0x131, 0x69), (0x17f, 0x73), (0x3bc, 0xb5), (0x3b9, 0x345), (0x1fbe, 0x345), (0x1fd3, 0x390),
  (0x1fe3, 0x3b0), (0x3d0, 0x3b2), (0x3f5, 0x3b5), (0x3d1, 0x3b8), (0x3f0, 0x3ba), (0x3d6, 0x3c0),
  (0x3f1, 0x3c1), (0x3c3, 0x3c2), (0x3d5, 0x3c6), (0x1c80, 0x432), (0x1c81, 0x434),
  (0x1c82, 0x43e), (0x1c83, 0x441), (0x1c84, 0x442), (0x1c85, 0x442), (0x1c86, 0x44a),
  (0x1c87, 0x463), (0xa64b, 0x1c88), (0x1e9b, 0x1e61), (0xfb06, 0xfb05)]

/-- Two characters are the same letter in different case exactly if they have one key. -/
def caseKey (c : Char) : Char :=
  let small := smallLetter c
  if small.toNat < 128 then small
  else match caseVariants.lookup small.toNat with
    | some key => Char.ofNat key
    | none => small

/-- The rest of `text` after `word` in any letter case, if it starts so. -/
def dropWord? : List Char → List Char → Option (List Char)
  | [], text => some text
  | _ :: _, [] => none
  | w :: word, c :: text => if caseKey w = caseKey c then dropWord? word text else none

end Pseudocode
