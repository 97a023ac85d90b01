import Pseudocode.Text.Range

namespace Pseudocode

/-- Control, format, private and unassigned characters past the ASCII letters, and every space
but the plain one. -/
def unprintableRanges : List (Nat × Nat) :=
  rangesFrom 0 [127, 33, 12, 0, 714, 1, 6, 3, 7, 0, 1, 0, 20, 0, 397, 0, 38, 1, 50, 1, 3, 0, 55, 7,
    27, 3, 6, 16, 22, 0, 192, 0, 48, 1, 59, 1, 101, 13, 59, 1, 49, 1, 15, 0, 28, 1, 1, 0, 11, 4, 31,
    8, 74, 0, 161, 0, 8, 1, 2, 1, 22, 0, 7, 0, 1, 2, 4, 1, 9, 1, 2, 1, 4, 7, 1, 3, 2, 0, 5, 1, 25,
    1, 3, 0, 6, 3, 2, 1, 22, 0, 7, 0, 2, 0, 2, 0, 2, 1, 1, 0, 5, 3, 2, 1, 3, 2, 1, 6, 4, 0, 1, 6,
    17, 9, 3, 0, 9, 0, 3, 0, 22, 0, 7, 0, 2, 0, 5, 1, 10, 0, 3, 0, 3, 1, 1, 14, 4, 1, 12, 6, 7, 0,
    3, 0, 8, 1, 2, 1, 22, 0, 7, 0, 2, 0, 5, 1, 9, 1, 2, 1, 3, 6, 3, 3, 2, 0, 5, 1, 18, 9, 2, 0, 6,
    2, 3, 0, 4, 2, 2, 0, 1, 0, 2, 2, 2, 2, 3, 2, 12, 3, 5, 2, 3, 0, 4, 1, 1, 5, 1, 13, 21, 4, 13, 0,
    3, 0, 23, 0, 16, 1, 9, 0, 3, 0, 4, 6, 2, 0, 3, 1, 1, 1, 4, 1, 10, 6, 22, 0, 3, 0, 23, 0, 10, 0,
    5, 1, 9, 0, 3, 0, 4, 6, 2, 5, 2, 0, 4, 1, 10, 0, 2, 12, 13, 0, 3, 0, 51, 0, 3, 0, 6, 3, 16, 1,
    26, 0, 3, 0, 18, 2, 24, 0, 9, 0, 1, 1, 7, 2, 1, 3, 6, 0, 1, 0, 8, 5, 10, 1, 3, 11, 58, 3, 29,
    36, 2, 0, 1, 0, 5, 0, 24, 0, 1, 0, 23, 1, 5, 0, 1, 0, 6, 1, 10, 1, 4, 31, 72, 0, 36, 3, 39, 0,
    36, 0, 15, 0, 13, 36, 198, 0, 1, 4, 1, 1, 377, 0, 4, 1, 7, 0, 1, 0, 4, 1, 41, 0, 4, 1, 33, 0, 4,
    1, 7, 0, 1, 0, 4, 1, 15, 0, 57, 0, 4, 1, 67, 1, 32, 2, 26, 5, 86, 1, 6, 1, 640, 0, 28, 2, 89, 6,
    22, 8, 24, 8, 20, 11, 13, 0, 3, 0, 2, 11, 94, 1, 10, 5, 10, 5, 14, 0, 11, 5, 89, 6, 43, 4, 70,
    9, 31, 0, 12, 3, 12, 3, 1, 2, 42, 1, 5, 10, 44, 3, 26, 5, 11, 2, 62, 1, 65, 0, 29, 1, 11, 5, 10,
    5, 14, 1, 31, 48, 77, 2, 47, 0, 116, 7, 60, 2, 15, 2, 60, 6, 43, 1, 11, 7, 43, 4, 534, 1, 6, 1,
    38, 1, 6, 1, 8, 0, 1, 0, 1, 0, 1, 0, 31, 1, 53, 0, 15, 0, 14, 1, 6, 0, 19, 1, 3, 0, 9, 16, 24,
    7, 47, 16, 2, 1, 27, 0, 13, 2, 33, 14, 33, 14, 140, 3, 663, 24, 11, 20, 1812, 1, 32, 0, 349, 4,
    45, 0, 1, 4, 1, 1, 56, 6, 2, 13, 24, 8, 7, 0, 7, 0, 7, 0, 7, 0, 7, 0, 7, 0, 7, 0, 7, 0, 126, 33,
    26, 0, 89, 11, 214, 25, 12, 4, 63, 0, 86, 1, 103, 4, 43, 0, 94, 0, 84, 11, 47, 0, 29293, 2, 55,
    8, 348, 19, 184, 7, 203, 4, 2, 0, 1, 0, 5, 23, 59, 2, 10, 5, 56, 7, 70, 7, 12, 5, 116, 10, 30,
    2, 78, 0, 11, 3, 33, 0, 55, 8, 14, 1, 10, 1, 103, 23, 28, 9, 6, 1, 6, 1, 6, 8, 7, 0, 7, 0, 60,
    3, 126, 1, 10, 5, 11172, 11, 23, 3, 49, 3, 2048, 6399, 366, 1, 106, 37, 7, 11, 5, 4, 26, 0, 5,
    0, 1, 0, 2, 0, 2, 0, 125, 15, 445, 1, 54, 6, 1, 31, 42, 5, 51, 0, 19, 0, 4, 3, 5, 0, 135, 3,
    190, 2, 6, 1, 6, 1, 6, 1, 3, 2, 7, 0, 7, 12, 2, 1, 12, 0, 26, 0, 19, 0, 2, 0, 15, 1, 14, 33,
    123, 4, 3, 3, 45, 2, 88, 0, 13, 2, 1, 46, 46, 129, 29, 2, 49, 14, 28, 3, 36, 8, 30, 4, 43, 4,
    30, 0, 37, 3, 14, 41, 158, 1, 10, 5, 36, 3, 36, 3, 40, 7, 52, 10, 12, 0, 15, 0, 7, 0, 2, 0, 11,
    0, 15, 0, 7, 0, 2, 66, 311, 8, 22, 9, 8, 23, 6, 0, 42, 0, 9, 68, 6, 1, 1, 0, 44, 0, 2, 2, 1, 1,
    23, 0, 72, 7, 9, 47, 19, 0, 2, 4, 33, 2, 27, 4, 1, 63, 56, 3, 20, 1, 50, 0, 2, 4, 8, 0, 3, 0,
    29, 1, 3, 3, 10, 6, 9, 6, 64, 31, 39, 3, 12, 8, 54, 2, 29, 1, 27, 4, 26, 6, 4, 11, 7, 79, 73,
    54, 51, 12, 51, 6, 46, 7, 10, 293, 31, 0, 42, 0, 3, 1, 2, 77, 40, 7, 42, 21, 26, 37, 28, 19, 23,
    8, 78, 3, 36, 8, 62, 0, 5, 12, 25, 6, 10, 5, 53, 0, 18, 7, 39, 8, 96, 0, 20, 10, 18, 0, 44, 64,
    7, 0, 1, 0, 4, 0, 15, 0, 11, 5, 59, 4, 10, 5, 4, 0, 8, 1, 2, 1, 22, 0, 7, 0, 2, 0, 5, 0, 10, 1,
    2, 1, 3, 1, 1, 5, 1, 4, 7, 1, 7, 2, 5, 138, 92, 0, 5, 29, 72, 7, 10, 165, 54, 1, 38, 33, 69, 10,
    10, 5, 13, 18, 58, 5, 10, 53, 27, 1, 15, 3, 23, 184, 60, 99, 83, 11, 8, 1, 1, 1, 8, 0, 2, 0, 30,
    0, 2, 1, 12, 8, 10, 69, 8, 1, 46, 1, 11, 26, 72, 7, 83, 12, 73, 262, 9, 0, 45, 0, 14, 9, 29, 2,
    32, 1, 22, 0, 14, 72, 7, 0, 2, 0, 44, 2, 1, 0, 2, 0, 9, 7, 10, 5, 6, 0, 2, 0, 37, 0, 2, 0, 6, 6,
    10, 309, 25, 182, 1, 14, 50, 12, 923, 101, 111, 0, 5, 10, 196, 2635, 99, 12, 1071, 4048, 583,
    8632, 569, 6, 31, 0, 10, 3, 81, 0, 10, 5, 30, 1, 6, 9, 70, 9, 10, 0, 7, 0, 21, 4, 19, 687, 91,
    100, 75, 3, 57, 6, 17, 63, 5, 10, 2, 13, 6136, 7, 1238, 41, 9, 8934, 4, 0, 7, 0, 2, 0, 291, 44,
    3, 16, 4, 7, 396, 2307, 107, 4, 13, 2, 9, 6, 10, 1, 4, 4703, 46, 1, 23, 8, 116, 59, 246, 9, 39,
    1, 74, 7, 112, 20, 70, 153, 20, 11, 87, 8, 25, 134, 85, 0, 71, 0, 2, 1, 1, 1, 2, 1, 4, 0, 12, 0,
    1, 0, 7, 0, 65, 0, 4, 1, 8, 0, 7, 0, 28, 0, 4, 0, 5, 0, 1, 2, 7, 0, 340, 1, 292, 1, 702, 14, 5,
    0, 15, 1103, 31, 224, 7, 0, 17, 1, 7, 0, 2, 0, 5, 212, 45, 2, 14, 1, 10, 3, 2, 319, 31, 16, 58,
    4, 1, 1247, 7, 0, 4, 0, 2, 0, 15, 0, 197, 1, 16, 40, 76, 3, 10, 3, 2, 784, 68, 75, 61, 193, 4,
    0, 27, 0, 2, 0, 1, 1, 1, 0, 10, 0, 4, 0, 1, 0, 1, 5, 1, 3, 1, 0, 1, 0, 1, 0, 3, 0, 2, 0, 1, 1,
    1, 0, 1, 0, 1, 0, 1, 0, 1, 0, 2, 0, 1, 1, 4, 0, 7, 0, 4, 0, 4, 0, 1, 0, 10, 0, 17, 4, 3, 0, 5,
    0, 17, 51, 2, 269, 44, 3, 100, 11, 15, 1, 15, 0, 15, 0, 37, 9, 174, 55, 29, 12, 44, 3, 9, 6, 2,
    13, 6, 153, 984, 4, 16, 2, 13, 2, 116, 11, 89, 6, 12, 3, 1, 14, 12, 3, 56, 7, 10, 5, 40, 7, 30,
    1, 2, 77, 340, 11, 14, 1, 5, 2, 5, 2, 7, 8, 29, 2, 11, 4, 6, 9, 10, 5, 8, 7, 7, 8, 147, 0, 55,
    36, 10, 1029, 42720, 31, 4153, 6, 222, 1, 5762, 13, 7473, 3102, 542, 1505, 4939, 716212, 240,
    196111]

/-- A character that can be shown as it is. -/
def isPrintable (c : Char) : Bool :=
  32 ≤ c.toNat && !inRanges unprintableRanges c.toNat

end Pseudocode
