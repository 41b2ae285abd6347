import Dockerfile.Text.Character

/-!
# Upper and lower case

Full case mapping (Unicode 14): one character may become several, and a capital sigma becomes the
final sigma at the end of a word. `toUpper` and `toLower` map whole texts; `isUpperWord` tells
whether a text is written in capitals.

A mapping table lists runs `(first, count, step, offset)`: `count` code points `first, first + step,
…` are moved by `offset`.
-/

namespace Dockerfile.Text

/-- Runs of code points that move by a common offset. -/
abbrev Shifts := List (Nat × Nat × Nat × Int)

/-- Where the run that holds `c` moves it. -/
def Shifts.move? (s : Shifts) (c : Char) : Option Char :=
  (s.find? fun (first, count, step, _) =>
    first ≤ c.toNat && c.toNat < first + count * step && (c.toNat - first) % step == 0).map
  fun (_, _, _, offset) => Char.ofNat ((c.toNat : Int) + offset).toNat

/-- The runs that move back what `s` moves. -/
def Shifts.inverse (s : Shifts) : Shifts :=
  s.map fun (first, count, step, offset) => (((first : Int) + offset).toNat, count, step, -offset)

/-- Runs of letters in pairs, each small letter right behind its capital: the first capital and the
number of pairs. -/
def letterPairs : List (Nat × Nat) :=
  [(0x100, 24), (0x132, 3), (0x139, 8), (0x14A, 23), (0x179, 3), (0x182, 2), (0x187, 1), (0x18B, 1),
   (0x191, 1), (0x198, 1), (0x1A0, 3), (0x1A7, 1), (0x1AC, 1), (0x1AF, 1), (0x1B3, 2), (0x1B8, 1),
   (0x1BC, 1), (0x1C5, 1), (0x1C8, 1), (0x1CB, 9), (0x1DE, 9), (0x1F2, 2), (0x1F8, 20), (0x222, 9),
   (0x23B, 1), (0x241, 1), (0x246, 5), (0x370, 2), (0x376, 1), (0x3D8, 12), (0x3F7, 1), (0x3FA, 1),
   (0x460, 17), (0x48A, 27), (0x4C1, 7), (0x4D0, 48), (0x1E00, 75), (0x1EA0, 48), (0x2183, 1),
   (0x2C60, 1), (0x2C67, 3), (0x2C72, 1), (0x2C75, 1), (0x2C80, 50), (0x2CEB, 2), (0x2CF2, 1),
   (0xA640, 23), (0xA680, 14), (0xA722, 7), (0xA732, 31), (0xA779, 2), (0xA77E, 5), (0xA78B, 1),
   (0xA790, 2), (0xA796, 10), (0xA7B4, 8), (0xA7C7, 2), (0xA7D0, 1), (0xA7D6, 2), (0xA7F5, 1)]

/-- Runs of other capitals that move together: the first one, how many, and how far. -/
def letterBlocks : List (Nat × Nat × Int) :=
  [(0xC0, 23, 32), (0xD8, 7, 32), (0x178, 1, -121), (0x181, 1, 210), (0x186, 1, 206),
   (0x189, 2, 205), (0x18E, 1, 79), (0x18F, 1, 202), (0x190, 1, 203), (0x193, 1, 205),
   (0x194, 1, 207), (0x196, 1, 211), (0x197, 1, 209), (0x19C, 1, 211), (0x19D, 1, 213),
   (0x19F, 1, 214), (0x1A6, 1, 218), (0x1A9, 1, 218), (0x1AE, 1, 218), (0x1B1, 2, 217),
   (0x1B7, 1, 219), (0x1C4, 1, 2), (0x1C7, 1, 2), (0x1CA, 1, 2), (0x1F1, 1, 2), (0x1F6, 1, -97),
   (0x1F7, 1, -56), (0x220, 1, -130), (0x23A, 1, 10795), (0x23D, 1, -163), (0x23E, 1, 10792),
   (0x243, 1, -195), (0x244, 1, 69), (0x245, 1, 71), (0x37F, 1, 116), (0x386, 1, 38),
   (0x388, 3, 37), (0x38C, 1, 64), (0x38E, 2, 63), (0x391, 17, 32), (0x3A3, 9, 32), (0x3CF, 1, 8),
   (0x3F4, 1, -60), (0x3F9, 1, -7), (0x3FD, 3, -130), (0x400, 16, 80), (0x410, 32, 32),
   (0x4C0, 1, 15), (0x531, 38, 48), (0x10A0, 38, 7264), (0x10C7, 1, 7264), (0x10CD, 1, 7264),
   (0x13A0, 80, 38864), (0x13F0, 6, 8), (0x1C90, 43, -3008), (0x1CBD, 3, -3008), (0x1E9E, 1, -7615),
   (0x1F08, 8, -8), (0x1F18, 6, -8), (0x1F28, 8, -8), (0x1F38, 8, -8), (0x1F48, 6, -8),
   (0x1F59, 1, -8), (0x1F5B, 1, -8), (0x1F5D, 1, -8), (0x1F5F, 1, -8), (0x1F68, 8, -8),
   (0x1F88, 8, -8), (0x1F98, 8, -8), (0x1FA8, 8, -8), (0x1FB8, 2, -8), (0x1FBA, 2, -74),
   (0x1FBC, 1, -9), (0x1FC8, 4, -86), (0x1FCC, 1, -9), (0x1FD8, 2, -8), (0x1FDA, 2, -100),
   (0x1FE8, 2, -8), (0x1FEA, 2, -112), (0x1FEC, 1, -7), (0x1FF8, 2, -128), (0x1FFA, 2, -126),
   (0x1FFC, 1, -9), (0x2126, 1, -7517), (0x212A, 1, -8383), (0x212B, 1, -8262), (0x2132, 1, 28),
   (0x2160, 16, 16), (0x24B6, 26, 26), (0x2C00, 48, 48), (0x2C62, 1, -10743), (0x2C63, 1, -3814),
   (0x2C64, 1, -10727), (0x2C6D, 1, -10780), (0x2C6E, 1, -10749), (0x2C6F, 1, -10783),
   (0x2C70, 1, -10782), (0x2C7E, 2, -10815), (0xA77D, 1, -35332), (0xA78D, 1, -42280),
   (0xA7AA, 1, -42308), (0xA7AB, 1, -42319), (0xA7AC, 1, -42315), (0xA7AD, 1, -42305),
   (0xA7AE, 1, -42308), (0xA7B0, 1, -42258), (0xA7B1, 1, -42282), (0xA7B2, 1, -42261),
   (0xA7B3, 1, 928), (0xA7C4, 1, -48), (0xA7C5, 1, -42307), (0xA7C6, 1, -35384), (0xFF21, 26, 32),
   (0x10400, 40, 40), (0x104B0, 36, 40), (0x10570, 11, 39), (0x1057C, 15, 39), (0x1058C, 7, 39),
   (0x10594, 2, 39), (0x10C80, 51, 64), (0x118A0, 32, 32), (0x16E40, 32, 32), (0x1E900, 34, 34)]

/-- Single characters and their small forms. -/
def toSmall : Shifts :=
  letterBlocks.map (fun (first, count, offset) => (first, count, 1, offset)) ++
    letterPairs.map fun (first, count) => (first, count, 2, (1 : Int))

/-- Characters that are not the small form of their capital, and how far it is. -/
def strays : List (Nat × Int) :=
  [(0xB5, 743), (0x131, -232), (0x17F, -300), (0x1C5, -1), (0x1C8, -1), (0x1CB, -1), (0x1F2, -1),
   (0x345, 84), (0x3C2, -31), (0x3D0, -62), (0x3D1, -57), (0x3D5, -47), (0x3D6, -54), (0x3F0, -86),
   (0x3F1, -80), (0x3F5, -96), (0x1C80, -6254), (0x1C81, -6253), (0x1C82, -6244), (0x1C83, -6242),
   (0x1C84, -6242), (0x1C85, -6243), (0x1C86, -6236), (0x1C87, -6181), (0x1C88, 35266),
   (0x1E9B, -59), (0x1FBE, -7205)]

/-- Single characters and their capitals, where the strays come first. -/
def toCapital : Shifts :=
  strays.map (fun (c, offset) => (c, 1, 1, offset)) ++ toSmall.inverse

/-- Greek letters with an iota below, in three blocks of eight small and eight capital ones, whose
capital form has the iota beside. -/
def iotaCapitals : List (Nat × List Nat) :=
  [(0x1F80, 0x1F08), (0x1F90, 0x1F28), (0x1FA0, 0x1F68)].flatMap fun (first, capital) =>
    (List.range 16).map fun i => (first + i, [capital + i % 8, 0x399])

/-- Characters whose capital form has several characters. -/
def toCapitals : List (Nat × List Nat) :=
  [(0xDF, [0x53, 0x53]), (0x149, [0x2BC, 0x4E]), (0x1F0, [0x4A, 0x30C]),
   (0x390, [0x399, 0x308, 0x301]), (0x3B0, [0x3A5, 0x308, 0x301]), (0x587, [0x535, 0x552]),
   (0x1E96, [0x48, 0x331]), (0x1E97, [0x54, 0x308]), (0x1E98, [0x57, 0x30A]),
   (0x1E99, [0x59, 0x30A]), (0x1E9A, [0x41, 0x2BE]), (0x1F50, [0x3A5, 0x313]),
   (0x1F52, [0x3A5, 0x313, 0x300]), (0x1F54, [0x3A5, 0x313, 0x301]),
   (0x1F56, [0x3A5, 0x313, 0x342]), (0x1FB2, [0x1FBA, 0x399]), (0x1FB3, [0x391, 0x399]),
   (0x1FB4, [0x386, 0x399]), (0x1FB6, [0x391, 0x342]), (0x1FB7, [0x391, 0x342, 0x399]),
   (0x1FBC, [0x391, 0x399]), (0x1FC2, [0x1FCA, 0x399]), (0x1FC3, [0x397, 0x399]),
   (0x1FC4, [0x389, 0x399]), (0x1FC6, [0x397, 0x342]), (0x1FC7, [0x397, 0x342, 0x399]),
   (0x1FCC, [0x397, 0x399]), (0x1FD2, [0x399, 0x308, 0x300]), (0x1FD3, [0x399, 0x308, 0x301]),
   (0x1FD6, [0x399, 0x342]), (0x1FD7, [0x399, 0x308, 0x342]), (0x1FE2, [0x3A5, 0x308, 0x300]),
   (0x1FE3, [0x3A5, 0x308, 0x301]), (0x1FE4, [0x3A1, 0x313]), (0x1FE6, [0x3A5, 0x342]),
   (0x1FE7, [0x3A5, 0x308, 0x342]), (0x1FF2, [0x1FFA, 0x399]), (0x1FF3, [0x3A9, 0x399]),
   (0x1FF4, [0x38F, 0x399]), (0x1FF6, [0x3A9, 0x342]), (0x1FF7, [0x3A9, 0x342, 0x399]),
   (0x1FFC, [0x3A9, 0x399]), (0xFB00, [0x46, 0x46]), (0xFB01, [0x46, 0x49]), (0xFB02, [0x46, 0x4C]),
   (0xFB03, [0x46, 0x46, 0x49]), (0xFB04, [0x46, 0x46, 0x4C]), (0xFB05, [0x53, 0x54]),
   (0xFB06, [0x53, 0x54]), (0xFB13, [0x544, 0x546]), (0xFB14, [0x544, 0x535]),
   (0xFB15, [0x544, 0x53B]), (0xFB16, [0x54E, 0x546]), (0xFB17, [0x544, 0x53D])] ++ iotaCapitals

/-- Digraphs whose first part is a capital and whose second part is small. -/
def titles : Ranges :=
  [(0x1C5, 0x1C5), (0x1C8, 0x1C8), (0x1CB, 0x1CB), (0x1F2, 0x1F2), (0x1F88, 0x1F8F),
   (0x1F98, 0x1F9F), (0x1FA8, 0x1FAF), (0x1FBC, 0x1FBC), (0x1FCC, 0x1FCC), (0x1FFC, 0x1FFC)]

/-- Capitals beyond ASCII that `toSmall` does not move. -/
def otherCapitals : Stretches :=
  [304, 1, 673, 3, 7469, 1, 4, 1, 3, 3, 2, 3, 2, 1, 3, 5, 6, 1, 3, 1, 3, 2, 2, 2, 1, 1, 10, 2, 5,
   1, 111290, 26, 26, 26, 26, 26, 26, 1, 1, 2, 2, 1, 2, 2, 2, 4, 1, 8, 26, 26, 26, 2, 1, 4, 2, 8,
   1, 7, 27, 2, 1, 4, 1, 5, 1, 1, 3, 7, 27, 26, 26, 26, 26, 26, 26, 26, 26, 26, 26, 26, 30, 25, 33,
   25, 33, 25, 33, 25, 33, 25, 33, 1, 6501, 26, 6, 26, 6, 26]

/-- Small characters beyond ASCII that `toCapital` does not move. -/
def otherSmalls : Stretches :=
  [170, 1, 15, 1, 125, 1, 16, 1, 67, 1, 13, 1, 14, 2, 14, 1, 3, 1, 49, 1, 48, 1, 18, 6, 27, 1, 2,
   1, 1, 1, 2, 3, 2, 1, 1, 1, 2, 1, 5, 2, 1, 1, 2, 2, 1, 7, 1, 2, 1, 1, 2, 3, 6, 5, 1, 1, 1, 8, 2,
   26, 7, 2, 30, 5, 149, 1, 21, 1, 31, 1, 75, 1, 355, 1, 38, 2, 6007, 121, 1, 3, 1, 16, 1, 49, 214,
   5, 1, 2, 1, 1, 176, 1, 1, 1, 1, 1, 1, 1, 91, 1, 1, 1, 1, 2, 10, 1, 1, 1, 1, 2, 10, 2, 2, 2, 10,
   3, 1, 2, 10, 1, 1, 1, 1, 2, 121, 1, 13, 1, 16, 13, 109, 1, 3, 2, 3, 1, 27, 1, 4, 1, 4, 1, 2, 2,
   8, 4, 2855, 1, 2, 1, 2, 7, 102, 1, 31159, 2, 146, 2, 62, 9, 21, 1, 6, 1, 25, 1, 35, 1, 1, 1, 34,
   3, 821, 35, 1, 7, 1, 13, 20375, 7, 12, 5, 3176, 1, 2, 3, 1, 42, 1, 9, 52319, 26, 26, 7, 1, 18,
   26, 26, 26, 4, 1, 1, 1, 7, 1, 11, 26, 26, 26, 26, 26, 26, 26, 26, 26, 26, 26, 26, 26, 26, 26,
   26, 26, 28, 28, 25, 1, 6, 26, 25, 1, 6, 26, 25, 1, 6, 26, 25, 1, 6, 26, 25, 1, 6, 1, 1, 1844,
   10, 1, 20]

/-- Characters that the rule for the final sigma looks through. -/
def ignorables : Stretches :=
  [39, 1, 6, 1, 11, 1, 35, 1, 1, 1, 71, 1, 4, 1, 1, 1, 4, 1, 2, 2, 503, 192, 4, 2, 4, 1, 9, 2, 1,
   1, 251, 7, 207, 1, 5, 1, 49, 45, 1, 1, 1, 2, 1, 2, 1, 1, 44, 1, 11, 6, 10, 11, 1, 1, 35, 1, 10,
   21, 16, 1, 101, 8, 1, 10, 1, 4, 33, 1, 1, 1, 30, 27, 91, 11, 58, 11, 4, 1, 2, 1, 24, 24, 43, 3,
   44, 1, 7, 2, 6, 8, 41, 58, 55, 1, 1, 1, 4, 8, 4, 1, 3, 7, 10, 2, 13, 1, 15, 1, 58, 1, 4, 4, 8,
   1, 20, 2, 26, 1, 2, 2, 57, 1, 4, 2, 4, 2, 2, 3, 3, 1, 30, 2, 3, 1, 11, 2, 57, 1, 4, 5, 1, 2, 4,
   1, 20, 2, 22, 6, 1, 1, 58, 1, 2, 1, 1, 4, 8, 1, 7, 2, 11, 2, 30, 1, 61, 1, 12, 1, 50, 1, 3, 1,
   55, 1, 1, 3, 5, 3, 1, 4, 7, 2, 11, 2, 29, 1, 58, 1, 2, 1, 6, 1, 5, 2, 20, 2, 28, 2, 57, 2, 4, 4,
   8, 1, 20, 2, 29, 1, 72, 1, 7, 3, 1, 1, 90, 1, 2, 7, 11, 9, 98, 1, 2, 9, 9, 1, 1, 6, 74, 2, 27,
   1, 1, 1, 1, 1, 55, 14, 1, 5, 1, 2, 5, 11, 1, 36, 9, 1, 102, 4, 1, 6, 1, 2, 2, 2, 25, 2, 4, 3,
   16, 4, 13, 1, 2, 2, 6, 1, 15, 1, 94, 1, 608, 3, 946, 3, 29, 2, 30, 2, 30, 2, 64, 2, 1, 7, 8, 1,
   2, 11, 3, 1, 5, 1, 45, 5, 51, 1, 65, 2, 34, 1, 118, 3, 4, 2, 9, 1, 6, 3, 219, 2, 2, 1, 58, 1, 1,
   7, 1, 1, 1, 1, 2, 8, 6, 10, 2, 1, 39, 1, 8, 31, 49, 4, 48, 1, 1, 5, 1, 1, 5, 1, 40, 9, 12, 2,
   32, 4, 2, 2, 1, 3, 56, 1, 1, 2, 3, 1, 1, 3, 58, 8, 2, 2, 64, 6, 82, 3, 1, 13, 1, 7, 4, 1, 6, 1,
   3, 2, 50, 63, 13, 1, 34, 101, 445, 1, 1, 3, 11, 3, 13, 3, 13, 3, 13, 2, 12, 5, 8, 2, 10, 1, 2,
   1, 2, 5, 49, 5, 1, 10, 1, 1, 13, 1, 16, 13, 51, 33, 2955, 2, 113, 3, 125, 1, 15, 1, 96, 32, 47,
   1, 469, 1, 36, 4, 3, 5, 5, 1, 93, 6, 93, 3, 28438, 1, 1250, 6, 270, 1, 98, 4, 1, 10, 1, 1, 28,
   4, 80, 2, 14, 34, 78, 1, 23, 3, 103, 3, 3, 2, 8, 1, 3, 1, 4, 1, 25, 2, 5, 1, 151, 2, 26, 18, 13,
   1, 38, 8, 25, 11, 46, 3, 48, 1, 2, 4, 2, 2, 17, 1, 21, 2, 66, 6, 2, 2, 2, 2, 12, 1, 8, 1, 35, 1,
   11, 1, 51, 1, 1, 3, 2, 2, 5, 2, 1, 1, 27, 1, 14, 2, 5, 2, 1, 1, 100, 5, 9, 3, 121, 1, 2, 1, 4,
   1, 20272, 1, 147, 17, 573, 16, 3, 1, 12, 16, 34, 1, 2, 1, 169, 1, 7, 1, 6, 1, 11, 1, 35, 1, 1,
   1, 47, 1, 45, 2, 67, 1, 21, 3, 513, 1, 226, 1, 149, 5, 1029, 6, 1, 42, 1, 9, 582, 3, 1, 2, 5, 4,
   40, 3, 4, 1, 165, 2, 573, 4, 387, 2, 153, 11, 49, 4, 123, 1, 54, 15, 41, 1, 2, 2, 10, 3, 49, 4,
   2, 2, 2, 1, 4, 1, 10, 1, 50, 3, 36, 5, 1, 8, 62, 1, 12, 2, 52, 9, 10, 4, 2, 1, 95, 3, 2, 1, 1,
   2, 6, 1, 160, 1, 3, 8, 21, 2, 57, 2, 3, 1, 37, 7, 3, 5, 195, 8, 2, 3, 1, 1, 23, 1, 84, 6, 1, 1,
   4, 2, 1, 2, 238, 4, 6, 2, 1, 2, 27, 2, 85, 8, 2, 1, 1, 2, 106, 1, 1, 1, 2, 6, 1, 1, 101, 3, 2,
   4, 1, 5, 259, 9, 1, 2, 256, 2, 1, 1, 4, 1, 144, 4, 2, 2, 4, 1, 32, 10, 40, 6, 2, 4, 8, 1, 9, 6,
   2, 3, 46, 13, 1, 2, 406, 7, 1, 6, 1, 1, 82, 22, 2, 7, 1, 2, 1, 2, 122, 6, 3, 1, 1, 2, 1, 7, 1,
   1, 72, 2, 3, 1, 1, 1, 347, 2, 5435, 9, 14007, 5, 59, 7, 9, 4, 1035, 1, 63, 17, 64, 2, 1, 2,
   16395, 4, 1, 7, 1, 2, 3230, 2, 1, 4, 4700, 46, 2, 23, 544, 3, 9, 16, 2, 7, 30, 4, 148, 3, 1979,
   55, 4, 50, 8, 1, 14, 1, 22, 5, 1, 15, 1360, 7, 1, 17, 2, 7, 1, 2, 1, 5, 261, 14, 368, 1, 61, 4,
   1504, 7, 109, 8, 2735, 5, 789505, 1, 30, 96, 128, 240]

/-- Is `c` a capital? -/
def isCapital (c : Char) : Bool :=
  if c.toNat < 128 then c.isUpper
  else (toSmall.move? c).isSome && !titles.has c || otherCapitals.has c

/-- Does `c` count as small, or as a digraph that is capital in its first part only? -/
def isSmallOrTitle (c : Char) : Bool :=
  if c.toNat < 128 then c.isLower
  else (toCapital.move? c).isSome || titles.has c || otherSmalls.has c

/-- A text is in capitals when it has a capital and nothing small. -/
def isUpperWord (s : List Char) : Bool := s.any isCapital && !s.any isSmallOrTitle

/-- The capital form of one character. -/
def upperChar (c : Char) : List Char :=
  if c.toNat < 128 then [c.toUpper]
  else match toCapitals.find? fun e => e.1 == c.toNat with
    | some e => e.2.map Char.ofNat
    | none => [(toCapital.move? c).getD c]

/-- The text in capitals. -/
def upperChars (s : List Char) : List Char := s.flatMap upperChar

/-- Does `c` have case? -/
def isCased (c : Char) : Bool := isCapital c || isSmallOrTitle c

/-- A capital sigma is final when, looking through ignorable characters, a character with case
stands before it and none stands after it. -/
def isFinalSigma (before after : List Char) : Bool :=
  let skip := fun s : List Char => s.dropWhile ignorables.has
  (skip before).head?.any isCased && !(skip after).head?.any isCased

/-- The small form of one character, which for a capital sigma depends on its surroundings:
`before` is the text before it, nearest character first. -/
def lowerChar (before : List Char) (c : Char) (after : List Char) : List Char :=
  if c.toNat < 128 then [c.toLower]
  else if c.toNat = 0x3A3 then [Char.ofNat (if isFinalSigma before after then 0x3C2 else 0x3C3)]
  else if c.toNat = 0x130 then ['i', Char.ofNat 0x307]
  else [(toSmall.move? c).getD c]

/-- Small forms of a text whose earlier part, nearest character first, is `before`. -/
def lowerAfter (before : List Char) : List Char → List Char
  | [] => []
  | c :: rest => lowerChar before c rest ++ lowerAfter (c :: before) rest

/-- The text in small letters. -/
def lowerChars (s : List Char) : List Char := lowerAfter [] s

/-- The text in capitals. -/
def toUpper (s : String) : String := String.ofList (upperChars s.toList)

/-- The text in small letters. -/
def toLower (s : String) : String := String.ofList (lowerChars s.toList)

end Dockerfile.Text
