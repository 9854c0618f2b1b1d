import SimpleBinary.Text.CodeRanges

/-!
# Letters with case

Which characters past ASCII are capitals, small letters or title letters, and how the cases belong
to each other. The cases of most letters come in runs of equal distance. Some letters have a
capital or a small letter that belongs to another letter first, such as the final sigma, and some
take several characters in the other case. Capitals and small letters of mathematics and of
phonetics have no other case.
-/

namespace SimpleBinary

namespace Case

/-- Letters whose cases lie at one distance: the first of each case, how many there are, and how
far one is from the next. -/
structure Run where
  upper : Nat
  lower : Nat
  count : Nat
  stride : Nat

/-- Capitals and small letters that belong to each other. -/
def pairs : List Run := [
  ⟨0xC0, 0xE0, 23, 1⟩, ⟨0xD8, 0xF8, 7, 1⟩, ⟨0x100, 0x101, 24, 2⟩, ⟨0x132, 0x133, 3, 2⟩,
  ⟨0x139, 0x13A, 8, 2⟩, ⟨0x14A, 0x14B, 23, 2⟩, ⟨0x178, 0xFF, 1, 1⟩, ⟨0x179, 0x17A, 3, 2⟩,
  ⟨0x181, 0x253, 1, 1⟩, ⟨0x182, 0x183, 2, 2⟩, ⟨0x186, 0x254, 1, 1⟩, ⟨0x187, 0x188, 1, 1⟩,
  ⟨0x189, 0x256, 2, 1⟩, ⟨0x18B, 0x18C, 1, 1⟩, ⟨0x18E, 0x1DD, 1, 1⟩, ⟨0x18F, 0x259, 1, 1⟩,
  ⟨0x190, 0x25B, 1, 1⟩, ⟨0x191, 0x192, 1, 1⟩, ⟨0x193, 0x260, 1, 1⟩, ⟨0x194, 0x263, 1, 1⟩,
  ⟨0x196, 0x269, 1, 1⟩, ⟨0x197, 0x268, 1, 1⟩, ⟨0x198, 0x199, 1, 1⟩, ⟨0x19C, 0x26F, 1, 1⟩,
  ⟨0x19D, 0x272, 1, 1⟩, ⟨0x19F, 0x275, 1, 1⟩, ⟨0x1A0, 0x1A1, 3, 2⟩, ⟨0x1A6, 0x280, 1, 1⟩,
  ⟨0x1A7, 0x1A8, 1, 1⟩, ⟨0x1A9, 0x283, 1, 1⟩, ⟨0x1AC, 0x1AD, 1, 1⟩, ⟨0x1AE, 0x288, 1, 1⟩,
  ⟨0x1AF, 0x1B0, 1, 1⟩, ⟨0x1B1, 0x28A, 2, 1⟩, ⟨0x1B3, 0x1B4, 2, 2⟩, ⟨0x1B7, 0x292, 1, 1⟩,
  ⟨0x1B8, 0x1B9, 1, 1⟩, ⟨0x1BC, 0x1BD, 1, 1⟩, ⟨0x1C4, 0x1C6, 1, 1⟩, ⟨0x1C7, 0x1C9, 1, 1⟩,
  ⟨0x1CA, 0x1CC, 1, 1⟩, ⟨0x1CD, 0x1CE, 8, 2⟩, ⟨0x1DE, 0x1DF, 9, 2⟩, ⟨0x1F1, 0x1F3, 1, 1⟩,
  ⟨0x1F4, 0x1F5, 1, 1⟩, ⟨0x1F6, 0x195, 1, 1⟩, ⟨0x1F7, 0x1BF, 1, 1⟩, ⟨0x1F8, 0x1F9, 20, 2⟩,
  ⟨0x220, 0x19E, 1, 1⟩, ⟨0x222, 0x223, 9, 2⟩, ⟨0x23A, 0x2C65, 1, 1⟩, ⟨0x23B, 0x23C, 1, 1⟩,
  ⟨0x23D, 0x19A, 1, 1⟩, ⟨0x23E, 0x2C66, 1, 1⟩, ⟨0x241, 0x242, 1, 1⟩, ⟨0x243, 0x180, 1, 1⟩,
  ⟨0x244, 0x289, 1, 1⟩, ⟨0x245, 0x28C, 1, 1⟩, ⟨0x246, 0x247, 5, 2⟩, ⟨0x370, 0x371, 2, 2⟩,
  ⟨0x376, 0x377, 1, 1⟩, ⟨0x37F, 0x3F3, 1, 1⟩, ⟨0x386, 0x3AC, 1, 1⟩, ⟨0x388, 0x3AD, 3, 1⟩,
  ⟨0x38C, 0x3CC, 1, 1⟩, ⟨0x38E, 0x3CD, 2, 1⟩, ⟨0x391, 0x3B1, 17, 1⟩, ⟨0x3A3, 0x3C3, 9, 1⟩,
  ⟨0x3CF, 0x3D7, 1, 1⟩, ⟨0x3D8, 0x3D9, 12, 2⟩, ⟨0x3F7, 0x3F8, 1, 1⟩, ⟨0x3F9, 0x3F2, 1, 1⟩,
  ⟨0x3FA, 0x3FB, 1, 1⟩, ⟨0x3FD, 0x37B, 3, 1⟩, ⟨0x400, 0x450, 16, 1⟩, ⟨0x410, 0x430, 32, 1⟩,
  ⟨0x460, 0x461, 17, 2⟩, ⟨0x48A, 0x48B, 27, 2⟩, ⟨0x4C0, 0x4CF, 1, 1⟩, ⟨0x4C1, 0x4C2, 7, 2⟩,
  ⟨0x4D0, 0x4D1, 48, 2⟩, ⟨0x531, 0x561, 38, 1⟩, ⟨0x10A0, 0x2D00, 38, 1⟩, ⟨0x10C7, 0x2D27, 1, 1⟩,
  ⟨0x10CD, 0x2D2D, 1, 1⟩, ⟨0x13A0, 0xAB70, 80, 1⟩, ⟨0x13F0, 0x13F8, 6, 1⟩, ⟨0x1C89, 0x1C8A, 1, 1⟩,
  ⟨0x1C90, 0x10D0, 43, 1⟩, ⟨0x1CBD, 0x10FD, 3, 1⟩, ⟨0x1E00, 0x1E01, 75, 2⟩, ⟨0x1EA0, 0x1EA1, 48, 2⟩,
  ⟨0x1F08, 0x1F00, 8, 1⟩, ⟨0x1F18, 0x1F10, 6, 1⟩, ⟨0x1F28, 0x1F20, 8, 1⟩, ⟨0x1F38, 0x1F30, 8, 1⟩,
  ⟨0x1F48, 0x1F40, 6, 1⟩, ⟨0x1F59, 0x1F51, 4, 2⟩, ⟨0x1F68, 0x1F60, 8, 1⟩, ⟨0x1FB8, 0x1FB0, 2, 1⟩,
  ⟨0x1FBA, 0x1F70, 2, 1⟩, ⟨0x1FC8, 0x1F72, 4, 1⟩, ⟨0x1FD8, 0x1FD0, 2, 1⟩, ⟨0x1FDA, 0x1F76, 2, 1⟩,
  ⟨0x1FE8, 0x1FE0, 2, 1⟩, ⟨0x1FEA, 0x1F7A, 2, 1⟩, ⟨0x1FEC, 0x1FE5, 1, 1⟩, ⟨0x1FF8, 0x1F78, 2, 1⟩,
  ⟨0x1FFA, 0x1F7C, 2, 1⟩, ⟨0x2132, 0x214E, 1, 1⟩, ⟨0x2160, 0x2170, 16, 1⟩, ⟨0x2183, 0x2184, 1, 1⟩,
  ⟨0x24B6, 0x24D0, 26, 1⟩, ⟨0x2C00, 0x2C30, 48, 1⟩, ⟨0x2C60, 0x2C61, 1, 1⟩, ⟨0x2C62, 0x26B, 1, 1⟩,
  ⟨0x2C63, 0x1D7D, 1, 1⟩, ⟨0x2C64, 0x27D, 1, 1⟩, ⟨0x2C67, 0x2C68, 3, 2⟩, ⟨0x2C6D, 0x251, 1, 1⟩,
  ⟨0x2C6E, 0x271, 1, 1⟩, ⟨0x2C6F, 0x250, 1, 1⟩, ⟨0x2C70, 0x252, 1, 1⟩, ⟨0x2C72, 0x2C73, 1, 1⟩,
  ⟨0x2C75, 0x2C76, 1, 1⟩, ⟨0x2C7E, 0x23F, 2, 1⟩, ⟨0x2C80, 0x2C81, 50, 2⟩, ⟨0x2CEB, 0x2CEC, 2, 2⟩,
  ⟨0x2CF2, 0x2CF3, 1, 1⟩, ⟨0xA640, 0xA641, 23, 2⟩, ⟨0xA680, 0xA681, 14, 2⟩, ⟨0xA722, 0xA723, 7, 2⟩,
  ⟨0xA732, 0xA733, 31, 2⟩, ⟨0xA779, 0xA77A, 2, 2⟩, ⟨0xA77D, 0x1D79, 1, 1⟩, ⟨0xA77E, 0xA77F, 5, 2⟩,
  ⟨0xA78B, 0xA78C, 1, 1⟩, ⟨0xA78D, 0x265, 1, 1⟩, ⟨0xA790, 0xA791, 2, 2⟩, ⟨0xA796, 0xA797, 10, 2⟩,
  ⟨0xA7AA, 0x266, 1, 1⟩, ⟨0xA7AB, 0x25C, 1, 1⟩, ⟨0xA7AC, 0x261, 1, 1⟩, ⟨0xA7AD, 0x26C, 1, 1⟩,
  ⟨0xA7AE, 0x26A, 1, 1⟩, ⟨0xA7B0, 0x29E, 1, 1⟩, ⟨0xA7B1, 0x287, 1, 1⟩, ⟨0xA7B2, 0x29D, 1, 1⟩,
  ⟨0xA7B3, 0xAB53, 1, 1⟩, ⟨0xA7B4, 0xA7B5, 8, 2⟩, ⟨0xA7C4, 0xA794, 1, 1⟩, ⟨0xA7C5, 0x282, 1, 1⟩,
  ⟨0xA7C6, 0x1D8E, 1, 1⟩, ⟨0xA7C7, 0xA7C8, 2, 2⟩, ⟨0xA7CB, 0x264, 1, 1⟩, ⟨0xA7CC, 0xA7CD, 8, 2⟩,
  ⟨0xA7DC, 0x19B, 1, 1⟩, ⟨0xA7F5, 0xA7F6, 1, 1⟩, ⟨0xFF21, 0xFF41, 26, 1⟩, ⟨0x10400, 0x10428, 40, 1⟩,
  ⟨0x104B0, 0x104D8, 36, 1⟩, ⟨0x10570, 0x10597, 19, 2⟩, ⟨0x10571, 0x10598, 5, 2⟩,
  ⟨0x1057D, 0x105A4, 7, 2⟩, ⟨0x1058D, 0x105B4, 3, 2⟩, ⟨0x10595, 0x105BC, 1, 1⟩,
  ⟨0x10C80, 0x10CC0, 51, 1⟩, ⟨0x10D50, 0x10D70, 22, 1⟩, ⟨0x118A0, 0x118C0, 32, 1⟩,
  ⟨0x16E40, 0x16E60, 32, 1⟩, ⟨0x16EA0, 0x16EBB, 25, 1⟩, ⟨0x1E900, 0x1E922, 34, 1⟩]

/-- Letters whose small letter has another capital. -/
def loweredOnly : List Run := [
  ⟨0x1C5, 0x1C6, 1, 1⟩, ⟨0x1C8, 0x1C9, 1, 1⟩, ⟨0x1CB, 0x1CC, 1, 1⟩, ⟨0x1F2, 0x1F3, 1, 1⟩,
  ⟨0x3F4, 0x3B8, 1, 1⟩, ⟨0x1E9E, 0xDF, 1, 1⟩, ⟨0x1F88, 0x1F80, 8, 1⟩, ⟨0x1F98, 0x1F90, 8, 1⟩,
  ⟨0x1FA8, 0x1FA0, 8, 1⟩, ⟨0x1FBC, 0x1FB3, 1, 1⟩, ⟨0x1FCC, 0x1FC3, 1, 1⟩, ⟨0x1FFC, 0x1FF3, 1, 1⟩,
  ⟨0x2126, 0x3C9, 1, 1⟩, ⟨0x212A, 0x6B, 1, 1⟩, ⟨0x212B, 0xE5, 1, 1⟩]

/-- Letters whose capital has another small letter. -/
def raisedOnly : List Run := [
  ⟨0x49, 0x131, 1, 1⟩, ⟨0x53, 0x17F, 1, 1⟩, ⟨0x1C4, 0x1C5, 1, 1⟩, ⟨0x1C7, 0x1C8, 1, 1⟩,
  ⟨0x1CA, 0x1CB, 1, 1⟩, ⟨0x1F1, 0x1F2, 1, 1⟩, ⟨0x392, 0x3D0, 1, 1⟩, ⟨0x395, 0x3F5, 1, 1⟩,
  ⟨0x398, 0x3D1, 1, 1⟩, ⟨0x399, 0x345, 1, 1⟩, ⟨0x399, 0x1FBE, 1, 1⟩, ⟨0x39A, 0x3F0, 1, 1⟩,
  ⟨0x39C, 0xB5, 1, 1⟩, ⟨0x3A0, 0x3D6, 1, 1⟩, ⟨0x3A1, 0x3F1, 1, 1⟩, ⟨0x3A3, 0x3C2, 1, 1⟩,
  ⟨0x3A6, 0x3D5, 1, 1⟩, ⟨0x412, 0x1C80, 1, 1⟩, ⟨0x414, 0x1C81, 1, 1⟩, ⟨0x41E, 0x1C82, 1, 1⟩,
  ⟨0x421, 0x1C83, 2, 1⟩, ⟨0x422, 0x1C85, 1, 1⟩, ⟨0x42A, 0x1C86, 1, 1⟩, ⟨0x462, 0x1C87, 1, 1⟩,
  ⟨0x1E60, 0x1E9B, 1, 1⟩, ⟨0xA64A, 0x1C88, 1, 1⟩]

/-- The capitals that take several characters. -/
def expansions : List (Nat × List Nat) := [
  (0xDF, [0x53, 0x53]), (0x149, [0x2BC, 0x4E]), (0x1F0, [0x4A, 0x30C]),
  (0x390, [0x399, 0x308, 0x301]), (0x3B0, [0x3A5, 0x308, 0x301]), (0x587, [0x535, 0x552]),
  (0x1E96, [0x48, 0x331]), (0x1E97, [0x54, 0x308]), (0x1E98, [0x57, 0x30A]),
  (0x1E99, [0x59, 0x30A]), (0x1E9A, [0x41, 0x2BE]), (0x1F50, [0x3A5, 0x313]),
  (0x1F52, [0x3A5, 0x313, 0x300]), (0x1F54, [0x3A5, 0x313, 0x301]), (0x1F56, [0x3A5, 0x313, 0x342]),
  (0x1F80, [0x1F08, 0x399]), (0x1F81, [0x1F09, 0x399]), (0x1F82, [0x1F0A, 0x399]),
  (0x1F83, [0x1F0B, 0x399]), (0x1F84, [0x1F0C, 0x399]), (0x1F85, [0x1F0D, 0x399]),
  (0x1F86, [0x1F0E, 0x399]), (0x1F87, [0x1F0F, 0x399]), (0x1F88, [0x1F08, 0x399]),
  (0x1F89, [0x1F09, 0x399]), (0x1F8A, [0x1F0A, 0x399]), (0x1F8B, [0x1F0B, 0x399]),
  (0x1F8C, [0x1F0C, 0x399]), (0x1F8D, [0x1F0D, 0x399]), (0x1F8E, [0x1F0E, 0x399]),
  (0x1F8F, [0x1F0F, 0x399]), (0x1F90, [0x1F28, 0x399]), (0x1F91, [0x1F29, 0x399]),
  (0x1F92, [0x1F2A, 0x399]), (0x1F93, [0x1F2B, 0x399]), (0x1F94, [0x1F2C, 0x399]),
  (0x1F95, [0x1F2D, 0x399]), (0x1F96, [0x1F2E, 0x399]), (0x1F97, [0x1F2F, 0x399]),
  (0x1F98, [0x1F28, 0x399]), (0x1F99, [0x1F29, 0x399]), (0x1F9A, [0x1F2A, 0x399]),
  (0x1F9B, [0x1F2B, 0x399]), (0x1F9C, [0x1F2C, 0x399]), (0x1F9D, [0x1F2D, 0x399]),
  (0x1F9E, [0x1F2E, 0x399]), (0x1F9F, [0x1F2F, 0x399]), (0x1FA0, [0x1F68, 0x399]),
  (0x1FA1, [0x1F69, 0x399]), (0x1FA2, [0x1F6A, 0x399]), (0x1FA3, [0x1F6B, 0x399]),
  (0x1FA4, [0x1F6C, 0x399]), (0x1FA5, [0x1F6D, 0x399]), (0x1FA6, [0x1F6E, 0x399]),
  (0x1FA7, [0x1F6F, 0x399]), (0x1FA8, [0x1F68, 0x399]), (0x1FA9, [0x1F69, 0x399]),
  (0x1FAA, [0x1F6A, 0x399]), (0x1FAB, [0x1F6B, 0x399]), (0x1FAC, [0x1F6C, 0x399]),
  (0x1FAD, [0x1F6D, 0x399]), (0x1FAE, [0x1F6E, 0x399]), (0x1FAF, [0x1F6F, 0x399]),
  (0x1FB2, [0x1FBA, 0x399]), (0x1FB3, [0x391, 0x399]), (0x1FB4, [0x386, 0x399]),
  (0x1FB6, [0x391, 0x342]), (0x1FB7, [0x391, 0x342, 0x399]), (0x1FBC, [0x391, 0x399]),
  (0x1FC2, [0x1FCA, 0x399]), (0x1FC3, [0x397, 0x399]), (0x1FC4, [0x389, 0x399]),
  (0x1FC6, [0x397, 0x342]), (0x1FC7, [0x397, 0x342, 0x399]), (0x1FCC, [0x397, 0x399]),
  (0x1FD2, [0x399, 0x308, 0x300]), (0x1FD3, [0x399, 0x308, 0x301]), (0x1FD6, [0x399, 0x342]),
  (0x1FD7, [0x399, 0x308, 0x342]), (0x1FE2, [0x3A5, 0x308, 0x300]), (0x1FE3, [0x3A5, 0x308, 0x301]),
  (0x1FE4, [0x3A1, 0x313]), (0x1FE6, [0x3A5, 0x342]), (0x1FE7, [0x3A5, 0x308, 0x342]),
  (0x1FF2, [0x1FFA, 0x399]), (0x1FF3, [0x3A9, 0x399]), (0x1FF4, [0x38F, 0x399]),
  (0x1FF6, [0x3A9, 0x342]), (0x1FF7, [0x3A9, 0x342, 0x399]), (0x1FFC, [0x3A9, 0x399]),
  (0xFB00, [0x46, 0x46]), (0xFB01, [0x46, 0x49]), (0xFB02, [0x46, 0x4C]),
  (0xFB03, [0x46, 0x46, 0x49]), (0xFB04, [0x46, 0x46, 0x4C]), (0xFB05, [0x53, 0x54]),
  (0xFB06, [0x53, 0x54]), (0xFB13, [0x544, 0x546]), (0xFB14, [0x544, 0x535]),
  (0xFB15, [0x544, 0x53B]), (0xFB16, [0x54E, 0x546]), (0xFB17, [0x544, 0x53D])]

/-- The capital I with a point above, whose small letter is an i and that point. -/
def pointedI : Nat := 0x130

/-- Bounds of the letters that are a capital followed by a small letter or by a mark. -/
def titleBounds : List Nat := [
  0x1C5, 0x1C6, 0x1C8, 0x1C9, 0x1CB, 0x1CC, 0x1F2, 0x1F3, 0x1F88, 0x1F90, 0x1F98, 0x1FA0, 0x1FA8,
  0x1FB0, 0x1FBC, 0x1FBD, 0x1FCC, 0x1FCD, 0x1FFC, 0x1FFD]

/-- Bounds of the capitals that have no small letter. -/
def loneCapitalBounds : List Nat := [
  0x3D2, 0x3D5, 0x2102, 0x2103, 0x2107, 0x2108, 0x210B, 0x210E, 0x2110, 0x2113, 0x2115, 0x2116,
  0x2119, 0x211E, 0x2124, 0x2125, 0x2128, 0x2129, 0x212C, 0x212E, 0x2130, 0x2132, 0x2133, 0x2134,
  0x213E, 0x2140, 0x2145, 0x2146, 0x1D400, 0x1D41A, 0x1D434, 0x1D44E, 0x1D468, 0x1D482, 0x1D49C,
  0x1D49D, 0x1D49E, 0x1D4A0, 0x1D4A2, 0x1D4A3, 0x1D4A5, 0x1D4A7, 0x1D4A9, 0x1D4AD, 0x1D4AE, 0x1D4B6,
  0x1D4D0, 0x1D4EA, 0x1D504, 0x1D506, 0x1D507, 0x1D50B, 0x1D50D, 0x1D515, 0x1D516, 0x1D51D, 0x1D538,
  0x1D53A, 0x1D53B, 0x1D53F, 0x1D540, 0x1D545, 0x1D546, 0x1D547, 0x1D54A, 0x1D551, 0x1D56C, 0x1D586,
  0x1D5A0, 0x1D5BA, 0x1D5D4, 0x1D5EE, 0x1D608, 0x1D622, 0x1D63C, 0x1D656, 0x1D670, 0x1D68A, 0x1D6A8,
  0x1D6C1, 0x1D6E2, 0x1D6FB, 0x1D71C, 0x1D735, 0x1D756, 0x1D76F, 0x1D790, 0x1D7A9, 0x1D7CA, 0x1D7CB,
  0x1F130, 0x1F14A, 0x1F150, 0x1F16A, 0x1F170, 0x1F18A]

/-- Bounds of the small letters that have no capital. -/
def loneSmallBounds : List Nat := [
  0xAA, 0xAB, 0xBA, 0xBB, 0x138, 0x139, 0x18D, 0x18E, 0x1AA, 0x1AC, 0x1BA, 0x1BB, 0x1BE, 0x1BF,
  0x221, 0x222, 0x234, 0x23A, 0x255, 0x256, 0x258, 0x259, 0x25A, 0x25B, 0x25D, 0x260, 0x262, 0x263,
  0x267, 0x268, 0x26D, 0x26F, 0x270, 0x271, 0x273, 0x275, 0x276, 0x27D, 0x27E, 0x280, 0x281, 0x282,
  0x284, 0x287, 0x28D, 0x292, 0x293, 0x294, 0x296, 0x29D, 0x29F, 0x2B9, 0x2C0, 0x2C2, 0x2E0, 0x2E5,
  0x37A, 0x37B, 0x3FC, 0x3FD, 0x560, 0x561, 0x588, 0x589, 0x10FC, 0x10FD, 0x1D00, 0x1D79, 0x1D7A,
  0x1D7D, 0x1D7E, 0x1D8E, 0x1D8F, 0x1DC0, 0x1E9C, 0x1E9E, 0x1E9F, 0x1EA0, 0x2071, 0x2072, 0x207F,
  0x2080, 0x2090, 0x209D, 0x210A, 0x210B, 0x210E, 0x2110, 0x2113, 0x2114, 0x212F, 0x2130, 0x2134,
  0x2135, 0x2139, 0x213A, 0x213C, 0x213E, 0x2146, 0x214A, 0x2C71, 0x2C72, 0x2C74, 0x2C75, 0x2C77,
  0x2C7E, 0x2CE4, 0x2CE5, 0xA69C, 0xA69E, 0xA730, 0xA732, 0xA770, 0xA779, 0xA78E, 0xA78F, 0xA795,
  0xA796, 0xA7AF, 0xA7B0, 0xA7F1, 0xA7F5, 0xA7F8, 0xA7FB, 0xAB30, 0xAB53, 0xAB54, 0xAB5B, 0xAB5C,
  0xAB6A, 0x10780, 0x10781, 0x10783, 0x10786, 0x10787, 0x107B1, 0x107B2, 0x107BB, 0x1D41A, 0x1D434,
  0x1D44E, 0x1D455, 0x1D456, 0x1D468, 0x1D482, 0x1D49C, 0x1D4B6, 0x1D4BA, 0x1D4BB, 0x1D4BC, 0x1D4BD,
  0x1D4C4, 0x1D4C5, 0x1D4D0, 0x1D4EA, 0x1D504, 0x1D51E, 0x1D538, 0x1D552, 0x1D56C, 0x1D586, 0x1D5A0,
  0x1D5BA, 0x1D5D4, 0x1D5EE, 0x1D608, 0x1D622, 0x1D63C, 0x1D656, 0x1D670, 0x1D68A, 0x1D6A6, 0x1D6C2,
  0x1D6DB, 0x1D6DC, 0x1D6E2, 0x1D6FC, 0x1D715, 0x1D716, 0x1D71C, 0x1D736, 0x1D74F, 0x1D750, 0x1D756,
  0x1D770, 0x1D789, 0x1D78A, 0x1D790, 0x1D7AA, 0x1D7C3, 0x1D7C4, 0x1D7CA, 0x1D7CB, 0x1D7CC, 0x1DF00,
  0x1DF0A, 0x1DF0B, 0x1DF1F, 0x1DF25, 0x1DF2B, 0x1E030, 0x1E06E]

/-- The place of `n` among the letters that start at `first`. -/
def Run.place? (r : Run) (first n : Nat) : Option Nat :=
  if first ≤ n ∧ n < first + r.count * r.stride ∧ (n - first) % r.stride = 0 then some (n - first)
  else none

/-- The small letter of a letter in a run. -/
def lower? (n : Nat) : Option Nat :=
  (pairs ++ loweredOnly).findSome? fun r => (r.place? r.upper n).map (r.lower + ·)

/-- The capital of a letter in a run. -/
def upper? (n : Nat) : Option Nat :=
  (pairs ++ raisedOnly).findSome? fun r => (r.place? r.lower n).map (r.upper + ·)

/-- Whether a letter is both capital and small. -/
def isTitle (n : Nat) : Bool := inRanges titleBounds n

def isCapital (n : Nat) : Bool :=
  (((lower? n).isSome || n == pointedI) && !isTitle n) || inRanges loneCapitalBounds n

def isSmall (n : Nat) : Bool :=
  (((upper? n).isSome || (expansions.lookup n).isSome) && !isTitle n) || inRanges loneSmallBounds n

end Case

end SimpleBinary
