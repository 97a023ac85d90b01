import Pseudocode.Text.Range

namespace Pseudocode

/-- Letters, digits and other numerals past the ASCII block. -/
def alphanumericRanges : List (Nat × Nat) :=
  rangesFrom 0 [170, 0, 7, 1, 1, 0, 3, 1, 1, 2, 1, 22, 1, 30, 1, 457, 4, 11, 14, 4, 7, 0, 1, 0, 129,
    4, 1, 1, 2, 3, 1, 0, 6, 0, 1, 2, 1, 0, 1, 19, 1, 82, 1, 138, 8, 165, 1, 37, 2, 0, 6, 40, 71, 26,
    4, 3, 45, 42, 21, 9, 4, 1, 1, 98, 1, 0, 15, 1, 7, 14, 2, 0, 16, 0, 1, 29, 29, 88, 11, 0, 14, 42,
    9, 1, 4, 0, 5, 21, 4, 0, 9, 0, 3, 0, 23, 24, 7, 10, 5, 23, 1, 5, 17, 41, 58, 53, 3, 0, 18, 0, 7,
    9, 4, 9, 1, 15, 4, 7, 2, 1, 2, 21, 1, 6, 1, 0, 3, 3, 3, 0, 16, 0, 13, 1, 1, 2, 4, 11, 2, 5, 2,
    0, 8, 5, 4, 1, 2, 21, 1, 6, 1, 1, 1, 1, 1, 1, 31, 3, 1, 0, 7, 9, 2, 2, 16, 8, 1, 2, 1, 21, 1, 6,
    1, 1, 1, 4, 3, 0, 18, 0, 15, 1, 4, 9, 9, 0, 11, 7, 2, 1, 2, 21, 1, 6, 1, 1, 1, 4, 3, 0, 30, 1,
    1, 2, 4, 9, 1, 6, 11, 0, 1, 5, 3, 2, 1, 3, 3, 1, 1, 0, 1, 1, 3, 1, 3, 2, 3, 11, 22, 0, 21, 12,
    18, 7, 1, 2, 1, 22, 1, 15, 3, 0, 26, 2, 2, 0, 2, 1, 4, 9, 8, 6, 1, 0, 4, 7, 1, 2, 1, 22, 1, 9,
    1, 4, 3, 0, 31, 1, 1, 1, 4, 9, 1, 1, 17, 8, 1, 2, 1, 40, 2, 0, 16, 0, 5, 2, 1, 9, 4, 18, 1, 5,
    5, 17, 3, 23, 1, 8, 1, 0, 2, 6, 31, 9, 17, 47, 1, 1, 12, 6, 9, 9, 39, 1, 1, 0, 1, 4, 1, 23, 1,
    0, 1, 9, 1, 1, 9, 0, 2, 4, 1, 0, 9, 9, 2, 3, 32, 0, 31, 19, 12, 7, 1, 35, 27, 4, 115, 42, 20,
    10, 6, 5, 4, 3, 3, 0, 3, 1, 7, 2, 4, 12, 12, 0, 1, 9, 6, 37, 1, 0, 5, 0, 2, 42, 1, 332, 1, 3, 2,
    6, 1, 0, 1, 3, 2, 40, 1, 3, 2, 32, 1, 3, 2, 6, 1, 0, 1, 3, 2, 14, 1, 56, 1, 3, 2, 66, 14, 19, 3,
    15, 16, 85, 2, 5, 3, 619, 2, 16, 1, 25, 5, 74, 3, 10, 7, 17, 13, 18, 14, 17, 14, 12, 1, 2, 15,
    51, 35, 0, 4, 0, 3, 9, 6, 9, 22, 9, 6, 88, 7, 4, 2, 33, 1, 0, 5, 69, 10, 30, 39, 39, 2, 4, 11,
    43, 4, 25, 6, 10, 37, 22, 9, 52, 43, 9, 6, 9, 13, 0, 93, 46, 17, 7, 3, 9, 41, 29, 13, 55, 26,
    35, 28, 9, 3, 48, 2, 8, 7, 42, 2, 2, 41, 3, 1, 5, 1, 1, 3, 0, 5, 191, 64, 277, 2, 5, 2, 37, 2,
    5, 2, 7, 1, 0, 1, 0, 1, 0, 1, 30, 2, 52, 1, 6, 1, 0, 3, 2, 1, 6, 3, 3, 2, 5, 4, 12, 5, 2, 1, 6,
    115, 1, 2, 5, 5, 10, 6, 12, 101, 0, 4, 0, 2, 9, 1, 0, 3, 4, 6, 0, 1, 0, 1, 0, 1, 3, 1, 10, 2, 3,
    5, 4, 4, 0, 1, 57, 726, 59, 78, 21, 630, 29, 1132, 228, 6, 3, 3, 1, 9, 0, 2, 37, 1, 0, 5, 0, 2,
    55, 7, 0, 16, 22, 9, 6, 1, 6, 1, 6, 1, 6, 1, 6, 1, 6, 1, 6, 1, 6, 80, 0, 469, 2, 25, 8, 7, 4, 2,
    4, 4, 85, 6, 2, 1, 89, 1, 3, 5, 42, 1, 93, 3, 3, 10, 31, 48, 15, 32, 9, 30, 7, 1, 14, 32, 9, 39,
    14, 320, 6591, 64, 22156, 67, 45, 2, 268, 3, 27, 20, 46, 16, 30, 2, 79, 39, 8, 2, 102, 2, 63, 5,
    1, 1, 0, 1, 4, 24, 15, 1, 2, 1, 3, 1, 22, 13, 5, 10, 51, 14, 49, 28, 9, 24, 5, 3, 0, 1, 1, 1,
    37, 10, 22, 25, 28, 7, 46, 28, 10, 6, 4, 1, 24, 1, 40, 23, 2, 1, 7, 4, 9, 6, 22, 3, 0, 3, 49, 1,
    0, 3, 1, 2, 4, 2, 0, 1, 0, 24, 2, 2, 10, 7, 2, 12, 5, 2, 5, 2, 5, 9, 6, 1, 6, 1, 42, 1, 13, 6,
    114, 13, 9, 6, 11171, 12, 22, 4, 48, 8452, 365, 2, 105, 38, 6, 12, 4, 5, 0, 1, 9, 1, 12, 1, 4,
    1, 0, 1, 1, 1, 1, 1, 107, 33, 362, 18, 63, 2, 53, 40, 11, 116, 4, 1, 134, 19, 9, 7, 25, 6, 25,
    11, 88, 3, 5, 2, 5, 2, 5, 2, 2, 35, 11, 1, 25, 1, 18, 1, 1, 1, 14, 2, 13, 34, 122, 12, 44, 12,
    56, 17, 1, 244, 28, 3, 48, 16, 26, 4, 35, 9, 29, 5, 37, 10, 29, 2, 35, 4, 7, 1, 4, 42, 157, 2,
    9, 6, 35, 4, 35, 4, 39, 8, 51, 12, 10, 1, 14, 1, 6, 1, 1, 1, 10, 1, 14, 1, 6, 1, 1, 67, 310, 9,
    21, 10, 7, 24, 5, 1, 41, 1, 8, 69, 5, 2, 0, 1, 43, 1, 1, 3, 0, 2, 22, 2, 30, 2, 37, 8, 8, 48,
    18, 1, 1, 5, 32, 4, 25, 70, 55, 4, 19, 2, 46, 15, 3, 1, 2, 1, 28, 10, 8, 23, 30, 1, 31, 32, 7,
    1, 27, 6, 4, 16, 53, 10, 21, 2, 26, 5, 25, 23, 6, 80, 72, 55, 50, 13, 50, 7, 41, 12, 9, 294, 30,
    1, 41, 6, 1, 78, 39, 8, 21, 11, 3, 27, 17, 46, 27, 20, 22, 12, 52, 26, 29, 1, 1, 2, 0, 13, 44,
    32, 24, 7, 9, 9, 35, 15, 9, 4, 0, 2, 0, 8, 34, 3, 0, 12, 47, 14, 3, 11, 10, 1, 0, 4, 19, 11, 17,
    1, 24, 84, 6, 1, 0, 1, 3, 1, 14, 1, 9, 7, 46, 17, 9, 11, 7, 2, 1, 2, 21, 1, 6, 1, 1, 1, 4, 3, 0,
    18, 0, 12, 4, 158, 52, 18, 3, 5, 9, 5, 2, 30, 47, 20, 1, 1, 0, 8, 9, 166, 46, 41, 3, 36, 47, 20,
    0, 11, 9, 38, 42, 13, 0, 7, 9, 54, 26, 21, 11, 4, 6, 185, 43, 116, 82, 12, 7, 2, 0, 2, 7, 1, 1,
    1, 23, 15, 0, 1, 0, 14, 9, 70, 7, 2, 38, 16, 0, 1, 0, 28, 0, 10, 39, 7, 0, 21, 0, 11, 45, 19, 0,
    18, 72, 263, 8, 1, 36, 17, 0, 15, 28, 5, 29, 112, 6, 1, 1, 1, 37, 21, 0, 9, 9, 6, 5, 1, 1, 1,
    31, 14, 0, 7, 9, 310, 18, 189, 0, 15, 20, 43, 921, 102, 110, 17, 195, 2636, 96, 15, 1070, 4049,
    582, 8633, 568, 7, 30, 1, 9, 6, 78, 1, 9, 6, 29, 18, 47, 16, 3, 12, 9, 1, 6, 1, 20, 5, 18, 688,
    86, 105, 74, 5, 0, 66, 12, 64, 1, 1, 0, 28, 6135, 8, 1237, 42, 8, 8935, 3, 1, 6, 1, 1, 1, 290,
    45, 2, 17, 3, 8, 395, 2308, 106, 5, 12, 3, 8, 7, 9, 5702, 19, 108, 24, 135, 84, 1, 70, 1, 1, 2,
    0, 2, 1, 2, 3, 1, 11, 1, 0, 1, 6, 1, 64, 1, 3, 2, 7, 1, 6, 1, 27, 1, 3, 1, 4, 1, 0, 3, 6, 1,
    339, 2, 24, 1, 24, 1, 30, 1, 24, 1, 30, 1, 24, 1, 30, 1, 24, 1, 30, 1, 24, 1, 7, 2, 49, 1792,
    30, 481, 44, 10, 6, 2, 9, 4, 0, 321, 29, 18, 43, 4, 9, 1254, 6, 1, 3, 1, 1, 1, 14, 1, 196, 2, 8,
    48, 67, 7, 0, 4, 9, 791, 58, 1, 2, 1, 3, 76, 44, 1, 14, 194, 3, 1, 26, 1, 1, 1, 0, 2, 0, 1, 9,
    1, 3, 1, 0, 1, 0, 6, 0, 4, 0, 1, 0, 1, 0, 1, 2, 1, 1, 1, 0, 2, 0, 1, 0, 1, 0, 1, 0, 1, 0, 1, 1,
    1, 0, 2, 3, 1, 6, 1, 3, 1, 3, 1, 0, 1, 9, 1, 16, 5, 2, 1, 4, 1, 16, 580, 12, 2787, 9, 1030,
    42719, 32, 4152, 7, 221, 2, 5761, 14, 7472, 3103, 541, 1506, 4938]

/-- A letter, a digit or another numeral of any script. Combining marks are none of these. -/
def isAlphanumeric (c : Char) : Bool :=
  if c.toNat < 128 then c.isAlphanum else inRanges alphanumericRanges c.toNat

/-- A character that identifiers and numbers are made of. -/
def isWordChar (c : Char) : Bool :=
  isAlphanumeric c || c == '_'

end Pseudocode
