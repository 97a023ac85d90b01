import Pseudocode.Text.Range

namespace Pseudocode

/-- Letters that belong to a script with upper and lower case. -/
def casedRanges : List (Nat × Nat) :=
  rangesFrom 0 [65, 25, 6, 25, 47, 0, 10, 0, 4, 0, 5, 22, 1, 30, 1, 194, 1, 3, 4, 207, 1, 26, 192,
    3, 2, 1, 3, 2, 1, 0, 6, 0, 1, 2, 1, 0, 1, 19, 1, 82, 1, 138, 8, 165, 1, 37, 9, 40, 2839, 37, 1,
    0, 5, 0, 2, 42, 2, 2, 672, 85, 2, 5, 2178, 8, 7, 42, 2, 2, 64, 43, 63, 12, 1, 33, 101, 277, 2,
    5, 2, 37, 2, 5, 2, 7, 1, 0, 1, 0, 1, 0, 1, 30, 2, 52, 1, 6, 1, 0, 3, 2, 1, 6, 3, 3, 2, 5, 4, 12,
    5, 2, 1, 6, 261, 0, 4, 0, 2, 9, 1, 0, 3, 4, 6, 0, 1, 0, 1, 0, 1, 3, 1, 5, 4, 0, 2, 3, 5, 4, 4,
    0, 17, 31, 3, 1, 817, 51, 1814, 123, 2, 102, 6, 3, 3, 1, 12, 37, 1, 0, 5, 0, 30994, 45, 18, 27,
    134, 77, 1, 22, 3, 3, 1, 58, 5, 1, 1, 0, 1, 4, 27, 1, 3, 0, 821, 42, 5, 8, 7, 79, 20288, 6, 12,
    4, 1033, 25, 6, 25, 1189, 79, 96, 35, 4, 35, 116, 10, 1, 14, 1, 6, 1, 1, 1, 10, 1, 14, 1, 6, 1,
    1, 1731, 50, 13, 50, 2989, 63, 21856, 63, 25984, 84, 1, 70, 1, 1, 2, 0, 2, 1, 2, 3, 1, 11, 1, 0,
    1, 6, 1, 64, 1, 3, 2, 7, 1, 6, 1, 27, 1, 3, 1, 4, 1, 0, 3, 6, 1, 339, 2, 24, 1, 24, 1, 30, 1,
    24, 1, 30, 1, 24, 1, 30, 1, 24, 1, 30, 1, 24, 1, 7, 1844, 9, 1, 19, 2529, 67, 2028, 25, 6, 25,
    6, 25]

/-- Marks and signs that the context of a letter looks through. -/
def caseIgnorableRanges : List (Nat × Nat) :=
  rangesFrom 0 [39, 0, 6, 0, 11, 0, 35, 0, 1, 0, 71, 0, 4, 0, 1, 0, 4, 0, 2, 1, 503, 191, 4, 1, 4,
    0, 9, 1, 1, 0, 251, 6, 207, 0, 5, 0, 49, 44, 1, 0, 1, 1, 1, 1, 1, 0, 44, 0, 11, 5, 10, 10, 1, 0,
    35, 0, 10, 20, 16, 0, 101, 7, 1, 9, 1, 3, 33, 0, 1, 0, 30, 26, 91, 10, 58, 10, 4, 0, 2, 0, 24,
    23, 43, 2, 44, 0, 7, 1, 6, 7, 41, 57, 55, 0, 1, 0, 4, 7, 4, 0, 3, 6, 10, 1, 13, 0, 15, 0, 58, 0,
    4, 3, 8, 0, 20, 1, 26, 0, 2, 1, 57, 0, 4, 1, 4, 1, 2, 2, 3, 0, 30, 1, 3, 0, 11, 1, 57, 0, 4, 4,
    1, 1, 4, 0, 20, 1, 22, 5, 1, 0, 58, 0, 2, 0, 1, 3, 8, 0, 7, 1, 11, 1, 30, 0, 61, 0, 12, 0, 50,
    0, 3, 0, 55, 0, 1, 2, 5, 2, 1, 3, 7, 1, 11, 1, 29, 0, 58, 0, 2, 0, 6, 0, 5, 1, 20, 1, 28, 1, 57,
    1, 4, 3, 8, 0, 20, 1, 29, 0, 72, 0, 7, 2, 1, 0, 90, 0, 2, 6, 11, 8, 98, 0, 2, 8, 9, 0, 1, 5, 74,
    1, 27, 0, 1, 0, 1, 0, 55, 13, 1, 4, 1, 1, 5, 10, 1, 35, 9, 0, 102, 3, 1, 5, 1, 1, 2, 1, 25, 1,
    4, 2, 16, 3, 13, 0, 2, 1, 6, 0, 15, 0, 94, 0, 608, 2, 946, 2, 29, 1, 30, 1, 30, 1, 64, 1, 1, 6,
    8, 0, 2, 10, 3, 0, 5, 0, 45, 4, 51, 0, 65, 1, 34, 0, 118, 2, 4, 1, 9, 0, 6, 2, 219, 1, 2, 0, 58,
    0, 1, 6, 1, 0, 1, 0, 2, 7, 6, 9, 2, 0, 39, 0, 8, 30, 49, 3, 48, 0, 1, 4, 1, 0, 5, 0, 40, 8, 12,
    1, 32, 3, 2, 1, 1, 2, 56, 0, 1, 1, 3, 0, 1, 2, 58, 7, 2, 1, 64, 5, 82, 2, 1, 12, 1, 6, 4, 0, 6,
    0, 3, 1, 50, 62, 13, 0, 34, 100, 445, 0, 1, 2, 11, 2, 13, 2, 13, 2, 13, 1, 12, 4, 8, 1, 10, 0,
    2, 0, 2, 4, 49, 4, 1, 9, 1, 0, 13, 0, 16, 12, 51, 32, 2955, 1, 113, 2, 125, 0, 15, 0, 96, 31,
    47, 0, 469, 0, 36, 3, 3, 4, 5, 0, 93, 5, 93, 2, 28438, 0, 1250, 5, 270, 0, 98, 3, 1, 9, 1, 0,
    28, 3, 80, 1, 14, 33, 78, 0, 23, 2, 103, 2, 3, 1, 8, 0, 3, 0, 4, 0, 25, 1, 5, 0, 151, 1, 26, 17,
    13, 0, 38, 7, 25, 10, 46, 2, 48, 0, 2, 3, 2, 1, 17, 0, 21, 1, 66, 5, 2, 1, 2, 1, 12, 0, 8, 0,
    35, 0, 11, 0, 51, 0, 1, 2, 2, 1, 5, 1, 1, 0, 27, 0, 14, 1, 5, 1, 1, 0, 100, 4, 9, 2, 121, 0, 2,
    0, 4, 0, 20272, 0, 147, 16, 573, 15, 3, 0, 12, 15, 34, 0, 2, 0, 169, 0, 7, 0, 6, 0, 11, 0, 35,
    0, 1, 0, 47, 0, 45, 1, 67, 0, 21, 2, 513, 0, 226, 0, 149, 4, 1029, 5, 1, 41, 1, 8, 582, 2, 1, 1,
    5, 3, 40, 2, 4, 0, 165, 1, 573, 3, 387, 1, 153, 10, 49, 3, 123, 0, 54, 14, 41, 0, 2, 1, 10, 2,
    49, 3, 2, 1, 2, 0, 4, 0, 10, 0, 50, 2, 36, 4, 1, 7, 62, 0, 12, 1, 52, 8, 10, 3, 2, 0, 95, 2, 2,
    0, 1, 1, 6, 0, 160, 0, 3, 7, 21, 1, 57, 1, 3, 0, 37, 6, 3, 4, 195, 7, 2, 2, 1, 0, 23, 0, 84, 5,
    1, 0, 4, 1, 1, 1, 238, 3, 6, 1, 1, 1, 27, 1, 85, 7, 2, 0, 1, 1, 106, 0, 1, 0, 2, 5, 1, 0, 101,
    2, 2, 3, 1, 4, 259, 8, 1, 1, 256, 1, 1, 0, 4, 0, 144, 3, 2, 1, 4, 0, 32, 9, 40, 5, 2, 3, 8, 0,
    9, 5, 2, 2, 46, 12, 1, 1, 406, 6, 1, 5, 1, 0, 82, 21, 2, 6, 1, 1, 1, 1, 122, 5, 3, 0, 1, 1, 1,
    6, 1, 0, 72, 1, 3, 0, 1, 0, 347, 1, 5435, 8, 14007, 4, 59, 6, 9, 3, 1035, 0, 63, 16, 64, 1, 1,
    1, 16395, 3, 1, 6, 1, 1, 3230, 1, 1, 3, 4700, 45, 2, 22, 544, 2, 9, 15, 2, 6, 30, 3, 148, 2,
    1979, 54, 4, 49, 8, 0, 14, 0, 22, 4, 1, 14, 1360, 6, 1, 16, 2, 6, 1, 1, 1, 4, 261, 13, 368, 0,
    61, 3, 1504, 6, 109, 7, 2735, 4, 789505, 0, 30, 95, 128, 239]

def isCased (c : Char) : Bool :=
  inRanges casedRanges c.toNat

def isCaseIgnorable (c : Char) : Bool :=
  inRanges caseIgnorableRanges c.toNat

end Pseudocode
