/-!
# Tables of letter case

Data of the Unicode standard, version 17: the mappings between lower and upper case, and the two
classes of characters that decide how a capital sigma at the end of a word is lowered.
-/

namespace CommandScript.Text

/-- The `count` characters from `first` on are mapped in order to those from `image` on. -/
structure CaseRun where
  first : Nat
  image : Nat
  count : Nat

/-- Runs of upper case characters and their lower case, where each is the case of the other. -/
def caseRuns : List CaseRun :=
  [⟨0x41, 0x61, 26⟩, ⟨0xC0, 0xE0, 23⟩, ⟨0xD8, 0xF8, 7⟩, ⟨0x189, 0x256, 2⟩, ⟨0x1B1, 0x28A, 2⟩,
    ⟨0x388, 0x3AD, 3⟩, ⟨0x38E, 0x3CD, 2⟩, ⟨0x391, 0x3B1, 17⟩, ⟨0x3A3, 0x3C3, 9⟩, ⟨0x3FD, 0x37B, 3⟩,
    ⟨0x400, 0x450, 16⟩, ⟨0x410, 0x430, 32⟩, ⟨0x531, 0x561, 38⟩, ⟨0x10A0, 0x2D00, 38⟩,
    ⟨0x13A0, 0xAB70, 80⟩, ⟨0x13F0, 0x13F8, 6⟩, ⟨0x1C90, 0x10D0, 43⟩, ⟨0x1CBD, 0x10FD, 3⟩,
    ⟨0x1F08, 0x1F00, 8⟩, ⟨0x1F18, 0x1F10, 6⟩, ⟨0x1F28, 0x1F20, 8⟩, ⟨0x1F38, 0x1F30, 8⟩,
    ⟨0x1F48, 0x1F40, 6⟩, ⟨0x1F68, 0x1F60, 8⟩, ⟨0x1FB8, 0x1FB0, 2⟩, ⟨0x1FBA, 0x1F70, 2⟩,
    ⟨0x1FC8, 0x1F72, 4⟩, ⟨0x1FD8, 0x1FD0, 2⟩, ⟨0x1FDA, 0x1F76, 2⟩, ⟨0x1FE8, 0x1FE0, 2⟩,
    ⟨0x1FEA, 0x1F7A, 2⟩, ⟨0x1FF8, 0x1F78, 2⟩, ⟨0x1FFA, 0x1F7C, 2⟩, ⟨0x2160, 0x2170, 16⟩,
    ⟨0x24B6, 0x24D0, 26⟩, ⟨0x2C00, 0x2C30, 48⟩, ⟨0x2C7E, 0x23F, 2⟩, ⟨0xFF21, 0xFF41, 26⟩,
    ⟨0x10400, 0x10428, 40⟩, ⟨0x104B0, 0x104D8, 36⟩, ⟨0x10570, 0x10597, 11⟩, ⟨0x1057C, 0x105A3, 15⟩,
    ⟨0x1058C, 0x105B3, 7⟩, ⟨0x10594, 0x105BB, 2⟩, ⟨0x10C80, 0x10CC0, 51⟩, ⟨0x10D50, 0x10D70, 22⟩,
    ⟨0x118A0, 0x118C0, 32⟩, ⟨0x16E40, 0x16E60, 32⟩, ⟨0x16EA0, 0x16EBB, 25⟩, ⟨0x1E900, 0x1E922, 34⟩]

/-- Upper case characters and their lower case, where each is the case of the other. -/
def casePairs : List (Nat × Nat) :=
  [(0x178, 0xFF), (0x181, 0x253), (0x186, 0x254), (0x18E, 0x1DD), (0x18F, 0x259), (0x190, 0x25B),
    (0x193, 0x260), (0x194, 0x263), (0x196, 0x269), (0x197, 0x268), (0x19C, 0x26F), (0x19D, 0x272),
    (0x19F, 0x275), (0x1A6, 0x280), (0x1A9, 0x283), (0x1AE, 0x288), (0x1B7, 0x292), (0x1C4, 0x1C6),
    (0x1C7, 0x1C9), (0x1CA, 0x1CC), (0x1F1, 0x1F3), (0x1F6, 0x195), (0x1F7, 0x1BF), (0x220, 0x19E),
    (0x23A, 0x2C65), (0x23D, 0x19A), (0x23E, 0x2C66), (0x243, 0x180), (0x244, 0x289),
    (0x245, 0x28C), (0x37F, 0x3F3), (0x386, 0x3AC), (0x38C, 0x3CC), (0x3CF, 0x3D7), (0x3F9, 0x3F2),
    (0x4C0, 0x4CF), (0x10C7, 0x2D27), (0x10CD, 0x2D2D), (0x1F59, 0x1F51), (0x1F5B, 0x1F53),
    (0x1F5D, 0x1F55), (0x1F5F, 0x1F57), (0x1FEC, 0x1FE5), (0x2132, 0x214E), (0x2C62, 0x26B),
    (0x2C63, 0x1D7D), (0x2C64, 0x27D), (0x2C6D, 0x251), (0x2C6E, 0x271), (0x2C6F, 0x250),
    (0x2C70, 0x252), (0xA77D, 0x1D79), (0xA78D, 0x265), (0xA7AA, 0x266), (0xA7AB, 0x25C),
    (0xA7AC, 0x261), (0xA7AD, 0x26C), (0xA7AE, 0x26A), (0xA7B0, 0x29E), (0xA7B1, 0x287),
    (0xA7B2, 0x29D), (0xA7B3, 0xAB53), (0xA7C4, 0xA794), (0xA7C5, 0x282), (0xA7C6, 0x1D8E),
    (0xA7CB, 0x264), (0xA7DC, 0x19B)]

/-- Where upper and lower case take turns, and how many pairs there are. -/
def caseTurns : List (Nat × Nat) :=
  [(0x100, 24), (0x132, 3), (0x139, 8), (0x14A, 23), (0x179, 3), (0x182, 2), (0x187, 1), (0x18B, 1),
    (0x191, 1), (0x198, 1), (0x1A0, 3), (0x1A7, 1), (0x1AC, 1), (0x1AF, 1), (0x1B3, 2), (0x1B8, 1),
    (0x1BC, 1), (0x1CD, 8), (0x1DE, 9), (0x1F4, 1), (0x1F8, 20), (0x222, 9), (0x23B, 1), (0x241, 1),
    (0x246, 5), (0x370, 2), (0x376, 1), (0x3D8, 12), (0x3F7, 1), (0x3FA, 1), (0x460, 17),
    (0x48A, 27), (0x4C1, 7), (0x4D0, 48), (0x1C89, 1), (0x1E00, 75), (0x1EA0, 48), (0x2183, 1),
    (0x2C60, 1), (0x2C67, 3), (0x2C72, 1), (0x2C75, 1), (0x2C80, 50), (0x2CEB, 2), (0x2CF2, 1),
    (0xA640, 23), (0xA680, 14), (0xA722, 7), (0xA732, 31), (0xA779, 2), (0xA77E, 5), (0xA78B, 1),
    (0xA790, 2), (0xA796, 10), (0xA7B4, 8), (0xA7C7, 2), (0xA7CC, 8), (0xA7F5, 1)]

/-- Characters whose upper case is one character with another lower case. -/
def upperPairs : List (Nat × Nat) :=
  [(0xB5, 0x39C), (0x131, 0x49), (0x17F, 0x53), (0x1C5, 0x1C4), (0x1C8, 0x1C7), (0x1CB, 0x1CA),
    (0x1F2, 0x1F1), (0x345, 0x399), (0x3C2, 0x3A3), (0x3D0, 0x392), (0x3D1, 0x398), (0x3D5, 0x3A6),
    (0x3D6, 0x3A0), (0x3F0, 0x39A), (0x3F1, 0x3A1), (0x3F5, 0x395), (0x1C80, 0x412),
    (0x1C81, 0x414), (0x1C82, 0x41E), (0x1C83, 0x421), (0x1C84, 0x422), (0x1C85, 0x422),
    (0x1C86, 0x42A), (0x1C87, 0x462), (0x1C88, 0xA64A), (0x1E9B, 0x1E60), (0x1FBE, 0x399)]

/-- Characters whose lower case is one character with another upper case. -/
def lowerRuns : List CaseRun :=
  [⟨0x1C5, 0x1C6, 1⟩, ⟨0x1C8, 0x1C9, 1⟩, ⟨0x1CB, 0x1CC, 1⟩, ⟨0x1F2, 0x1F3, 1⟩, ⟨0x3F4, 0x3B8, 1⟩,
    ⟨0x1E9E, 0xDF, 1⟩, ⟨0x1F88, 0x1F80, 8⟩, ⟨0x1F98, 0x1F90, 8⟩, ⟨0x1FA8, 0x1FA0, 8⟩,
    ⟨0x1FBC, 0x1FB3, 1⟩, ⟨0x1FCC, 0x1FC3, 1⟩, ⟨0x1FFC, 0x1FF3, 1⟩, ⟨0x2126, 0x3C9, 1⟩,
    ⟨0x212A, 0x6B, 1⟩, ⟨0x212B, 0xE5, 1⟩]

/-- Characters whose upper case is the image and a capital iota. -/
def iotaRuns : List CaseRun :=
  [⟨0x1F80, 0x1F08, 8⟩, ⟨0x1F88, 0x1F08, 8⟩, ⟨0x1F90, 0x1F28, 8⟩, ⟨0x1F98, 0x1F28, 8⟩,
    ⟨0x1FA0, 0x1F68, 8⟩, ⟨0x1FA8, 0x1F68, 8⟩]

/-- Characters whose upper case is several characters. -/
def upperExpansions : List (Nat × List Nat) :=
  [(0xDF, [0x53, 0x53]), (0x149, [0x2BC, 0x4E]), (0x1F0, [0x4A, 0x30C]),
    (0x390, [0x399, 0x308, 0x301]), (0x3B0, [0x3A5, 0x308, 0x301]), (0x587, [0x535, 0x552]),
    (0x1E96, [0x48, 0x331]), (0x1E97, [0x54, 0x308]), (0x1E98, [0x57, 0x30A]),
    (0x1E99, [0x59, 0x30A]), (0x1E9A, [0x41, 0x2BE]), (0x1F50, [0x3A5, 0x313]),
    (0x1F52, [0x3A5, 0x313, 0x300]), (0x1F54, [0x3A5, 0x313, 0x301]),
    (0x1F56, [0x3A5, 0x313, 0x342]), (0x1FB2, [0x1FBA, 0x399]), (0x1FB3, [0x391, 0x399]),
    (0x1FB4, [0x386, 0x399]), (0x1FB6, [0x391, 0x342]), (0x1FB7, [0x391, 0x342, 0x399]),
    (0x1FBC, [0x391, 0x399]), (0x1FC2, [0x1FCA, 0x399]), (0x1FC3, [0x397, 0x399]),
    (0x1FC4, [0x389, 0x399]), (0x1FC6, [0x397, 0x342]), (0x1FC7, [0x397, 0x342, 0x399]),
    (0x1FCC, [0x397, 0x399]), (0x1FD2, [0x399, 0x308, 0x300]), (0x1FD3, [0x399, 0x308, 0x301]),
    (0x1FD6, [0x399, 0x342]), (0x1FD7, [0x399, 0x308, 0x342]), (0x1FE2, [0x3A5, 0x308, 0x300]),
    (0x1FE3, [0x3A5, 0x308, 0x301]), (0x1FE4, [0x3A1, 0x313]), (0x1FE6, [0x3A5, 0x342]),
    (0x1FE7, [0x3A5, 0x308, 0x342]), (0x1FF2, [0x1FFA, 0x399]), (0x1FF3, [0x3A9, 0x399]),
    (0x1FF4, [0x38F, 0x399]), (0x1FF6, [0x3A9, 0x342]), (0x1FF7, [0x3A9, 0x342, 0x399]),
    (0x1FFC, [0x3A9, 0x399]), (0xFB00, [0x46, 0x46]), (0xFB01, [0x46, 0x49]),
    (0xFB02, [0x46, 0x4C]), (0xFB03, [0x46, 0x46, 0x49]), (0xFB04, [0x46, 0x46, 0x4C]),
    (0xFB05, [0x53, 0x54]), (0xFB06, [0x53, 0x54]), (0xFB13, [0x544, 0x546]),
    (0xFB14, [0x544, 0x535]), (0xFB15, [0x544, 0x53B]), (0xFB16, [0x54E, 0x546]),
    (0xFB17, [0x544, 0x53D])]

/-- Characters whose lower case is several characters. -/
def lowerExpansions : List (Nat × List Nat) :=
  [(0x130, [0x69, 0x307])]

/-- Characters that have case and count when a word is looked at: those of the runs, each with its
length, and single ones. -/
def cased : List (Nat × Nat) × List Nat :=
  ([(0x41, 26), (0x61, 26), (0xC0, 23), (0xD8, 31), (0xF8, 195), (0x1BC, 4), (0x1C4, 208),
    (0x296, 35), (0x2C0, 2), (0x2E0, 5), (0x370, 4), (0x376, 2), (0x37A, 4), (0x388, 3),
    (0x38E, 20), (0x3A3, 83), (0x3F7, 139), (0x48A, 166), (0x531, 38), (0x560, 41), (0x10A0, 38),
    (0x10D0, 43), (0x10FC, 4), (0x13A0, 86), (0x13F8, 6), (0x1C80, 11), (0x1C90, 43), (0x1CBD, 3),
    (0x1D00, 192), (0x1E00, 278), (0x1F18, 6), (0x1F20, 38), (0x1F48, 6), (0x1F50, 8), (0x1F5F, 31),
    (0x1F80, 53), (0x1FB6, 7), (0x1FC2, 3), (0x1FC6, 7), (0x1FD0, 4), (0x1FD6, 6), (0x1FE0, 13),
    (0x1FF2, 3), (0x1FF6, 7), (0x2090, 13), (0x210A, 10), (0x2119, 5), (0x212A, 4), (0x212F, 6),
    (0x213C, 4), (0x2145, 5), (0x2160, 32), (0x2183, 2), (0x24B6, 52), (0x2C00, 229), (0x2CEB, 4),
    (0x2CF2, 2), (0x2D00, 38), (0xA640, 46), (0xA680, 30), (0xA722, 102), (0xA78B, 4), (0xA790, 77),
    (0xA7F1, 6), (0xA7F8, 3), (0xAB30, 43), (0xAB5C, 14), (0xAB70, 80), (0xFB00, 7), (0xFB13, 5),
    (0xFF21, 26), (0xFF41, 26), (0x10400, 80), (0x104B0, 36), (0x104D8, 36), (0x10570, 11),
    (0x1057C, 15), (0x1058C, 7), (0x10594, 2), (0x10597, 11), (0x105A3, 15), (0x105B3, 7),
    (0x105BB, 2), (0x10783, 3), (0x10787, 42), (0x107B2, 9), (0x10C80, 51), (0x10CC0, 51),
    (0x10D50, 22), (0x10D70, 22), (0x118A0, 64), (0x16E40, 64), (0x16EA0, 25), (0x16EBB, 25),
    (0x1D400, 85), (0x1D456, 71), (0x1D49E, 2), (0x1D4A5, 2), (0x1D4A9, 4), (0x1D4AE, 12),
    (0x1D4BD, 7), (0x1D4C5, 65), (0x1D507, 4), (0x1D50D, 8), (0x1D516, 7), (0x1D51E, 28),
    (0x1D53B, 4), (0x1D540, 5), (0x1D54A, 7), (0x1D552, 340), (0x1D6A8, 25), (0x1D6C2, 25),
    (0x1D6DC, 31), (0x1D6FC, 25), (0x1D716, 31), (0x1D736, 25), (0x1D750, 31), (0x1D770, 25),
    (0x1D78A, 31), (0x1D7AA, 25), (0x1D7C4, 8), (0x1DF00, 10), (0x1DF0B, 20), (0x1DF25, 6),
    (0x1E030, 62), (0x1E900, 68), (0x1F130, 26), (0x1F150, 26), (0x1F170, 26)],
    [0xAA, 0xB5, 0xBA, 0x345, 0x37F, 0x386, 0x38C, 0x10C7, 0x10CD, 0x1F59, 0x1F5B, 0x1F5D, 0x1FBE,
    0x2071, 0x207F, 0x2102, 0x2107, 0x2115, 0x2124, 0x2126, 0x2128, 0x2139, 0x214E, 0x2D27, 0x2D2D,
    0x10780, 0x1D4A2, 0x1D4BB, 0x1D546])

/-- Characters that are passed over when a word is looked at. -/
def ignorable : List (Nat × Nat) × List Nat :=
  ([(0xB7, 2), (0x2B0, 192), (0x374, 2), (0x384, 2), (0x483, 7), (0x591, 45), (0x5C1, 2),
    (0x5C4, 2), (0x600, 6), (0x610, 11), (0x64B, 21), (0x6D6, 8), (0x6DF, 10), (0x6EA, 4),
    (0x730, 27),
    (0x7A6, 11), (0x7EB, 11), (0x816, 24), (0x859, 3), (0x890, 2), (0x897, 9), (0x8C9, 58),
    (0x941, 8), (0x951, 7), (0x962, 2), (0x9C1, 4), (0x9E2, 2), (0xA01, 2), (0xA41, 2), (0xA47, 2),
    (0xA4B, 3), (0xA70, 2), (0xA81, 2), (0xAC1, 5), (0xAC7, 2), (0xAE2, 2), (0xAFA, 6), (0xB41, 4),
    (0xB55, 2), (0xB62, 2), (0xC3E, 3), (0xC46, 3), (0xC4A, 4), (0xC55, 2), (0xC62, 2), (0xCCC, 2),
    (0xCE2, 2), (0xD00, 2), (0xD3B, 2), (0xD41, 4), (0xD62, 2), (0xDD2, 3), (0xE34, 7), (0xE46, 9),
    (0xEB4, 9), (0xEC8, 7), (0xF18, 2), (0xF71, 14), (0xF80, 5), (0xF86, 2), (0xF8D, 11),
    (0xF99, 36), (0x102D, 4), (0x1032, 6), (0x1039, 2), (0x103D, 2), (0x1058, 2), (0x105E, 3),
    (0x1071, 4), (0x1085, 2), (0x135D, 3), (0x1712, 3), (0x1732, 2), (0x1752, 2), (0x1772, 2),
    (0x17B4, 2), (0x17B7, 7), (0x17C9, 11), (0x180B, 5), (0x1885, 2), (0x1920, 3), (0x1927, 2),
    (0x1939, 3), (0x1A17, 2), (0x1A58, 7), (0x1A65, 8), (0x1A73, 10), (0x1AB0, 46), (0x1AE0, 12),
    (0x1B00, 4), (0x1B36, 5), (0x1B6B, 9), (0x1B80, 2), (0x1BA2, 4), (0x1BA8, 2), (0x1BAB, 3),
    (0x1BE8, 2), (0x1BEF, 3), (0x1C2C, 8), (0x1C36, 2), (0x1C78, 6), (0x1CD0, 3), (0x1CD4, 13),
    (0x1CE2, 7), (0x1CF8, 2), (0x1D2C, 63), (0x1D9B, 101), (0x1FBF, 3), (0x1FCD, 3), (0x1FDD, 3),
    (0x1FED, 3), (0x1FFD, 2), (0x200B, 5), (0x2018, 2), (0x202A, 5), (0x2060, 5), (0x2066, 10),
    (0x2090, 13), (0x20D0, 33), (0x2C7C, 2), (0x2CEF, 3), (0x2DE0, 32), (0x302A, 4), (0x3031, 5),
    (0x3099, 6), (0x30FC, 3), (0xA4F8, 6), (0xA66F, 4), (0xA674, 10), (0xA69C, 4), (0xA6F0, 2),
    (0xA700, 34), (0xA788, 3), (0xA7F1, 4), (0xA7F8, 2), (0xA825, 2), (0xA8C4, 2), (0xA8E0, 18),
    (0xA926, 8), (0xA947, 11), (0xA980, 3), (0xA9B6, 4), (0xA9BC, 2), (0xA9E5, 2), (0xAA29, 6),
    (0xAA31, 2), (0xAA35, 2), (0xAAB2, 3), (0xAAB7, 2), (0xAABE, 2), (0xAAEC, 2), (0xAAF3, 2),
    (0xAB5B, 5), (0xAB69, 3), (0xFBB2, 17), (0xFE00, 16), (0xFE20, 16), (0xFF9E, 2), (0xFFF9, 3),
    (0x10376, 5), (0x10780, 6), (0x10787, 42), (0x107B2, 9), (0x10A01, 3), (0x10A05, 2),
    (0x10A0C, 4), (0x10A38, 3), (0x10AE5, 2), (0x10D24, 4), (0x10D69, 5), (0x10EAB, 2),
    (0x10EFA, 6), (0x10F46, 11), (0x10F82, 4), (0x11038, 15), (0x11073, 2), (0x1107F, 3),
    (0x110B3, 4), (0x110B9, 2), (0x11100, 3), (0x11127, 5), (0x1112D, 8), (0x11180, 2),
    (0x111B6, 9), (0x111C9, 4), (0x1122F, 3), (0x11236, 2), (0x112E3, 8), (0x11300, 2),
    (0x1133B, 2), (0x11366, 7), (0x11370, 5), (0x113BB, 6), (0x113E1, 2), (0x11438, 8),
    (0x11442, 3), (0x114B3, 6), (0x114BF, 2), (0x114C2, 2), (0x115B2, 4), (0x115BC, 2),
    (0x115BF, 2), (0x115DC, 2), (0x11633, 8), (0x1163F, 2), (0x116B0, 6), (0x11722, 4),
    (0x11727, 5), (0x1182F, 9), (0x11839, 2), (0x1193B, 2), (0x119D4, 4), (0x119DA, 2),
    (0x11A01, 10), (0x11A33, 6), (0x11A3B, 4), (0x11A51, 6), (0x11A59, 3), (0x11A8A, 13),
    (0x11A98, 2), (0x11B62, 3), (0x11C30, 7), (0x11C38, 6), (0x11C92, 22), (0x11CAA, 7),
    (0x11CB2, 2), (0x11CB5, 2), (0x11D31, 6), (0x11D3C, 2), (0x11D3F, 7), (0x11D90, 2),
    (0x11EF3, 2), (0x11F00, 2), (0x11F36, 5), (0x13430, 17), (0x13447, 15), (0x1611E, 12),
    (0x1612D, 3), (0x16AF0, 5), (0x16B30, 7), (0x16B40, 4), (0x16D40, 3), (0x16D6B, 2),
    (0x16F8F, 17), (0x16FE0, 2), (0x16FE3, 2), (0x16FF2, 2), (0x1AFF0, 4), (0x1AFF5, 7),
    (0x1AFFD, 2), (0x1BC9D, 2), (0x1BCA0, 4), (0x1CF00, 46), (0x1CF30, 23), (0x1D167, 3),
    (0x1D173, 16), (0x1D185, 7), (0x1D1AA, 4), (0x1D242, 3), (0x1DA00, 55), (0x1DA3B, 50),
    (0x1DA9B, 5), (0x1DAA1, 15), (0x1E000, 7), (0x1E008, 17), (0x1E01B, 7), (0x1E023, 2),
    (0x1E026, 5), (0x1E030, 62), (0x1E130, 14), (0x1E2EC, 4), (0x1E4EB, 5), (0x1E5EE, 2),
    (0x1E6EE, 2), (0x1E8D0, 7), (0x1E944, 8), (0x1F3FB, 5), (0xE0020, 96), (0xE0100, 240)],
    [0x27, 0x2E, 0x3A, 0x5E, 0x60, 0xA8, 0xAD, 0xAF, 0xB4, 0x37A, 0x387, 0x559, 0x55F, 0x5BF, 0x5C7,
    0x5F4, 0x61C, 0x640, 0x670, 0x70F, 0x711, 0x7FA, 0x7FD, 0x888, 0x93A, 0x93C, 0x94D, 0x971,
    0x981, 0x9BC, 0x9CD, 0x9FE, 0xA3C, 0xA51, 0xA75, 0xABC, 0xACD, 0xB01, 0xB3C, 0xB3F, 0xB4D,
    0xB82, 0xBC0, 0xBCD, 0xC00, 0xC04, 0xC3C, 0xC81, 0xCBC, 0xCBF, 0xCC6, 0xD4D, 0xD81, 0xDCA,
    0xDD6, 0xE31, 0xEB1, 0xEC6, 0xF35, 0xF37, 0xF39, 0xFC6, 0x1082, 0x108D, 0x109D, 0x10FC, 0x17C6,
    0x17D7, 0x17DD, 0x1843, 0x18A9, 0x1932, 0x1A1B, 0x1A56, 0x1A60, 0x1A62, 0x1A7F, 0x1AA7, 0x1B34,
    0x1B3C, 0x1B42, 0x1BE6, 0x1BED, 0x1CED, 0x1CF4, 0x1D78, 0x1FBD, 0x2024, 0x2027, 0x2071, 0x207F,
    0x2D6F, 0x2D7F, 0x2E2F, 0x3005, 0x303B, 0xA015, 0xA60C, 0xA67F, 0xA770, 0xA802, 0xA806, 0xA80B,
    0xA82C, 0xA8FF, 0xA9B3, 0xA9CF, 0xAA43, 0xAA4C, 0xAA70, 0xAA7C, 0xAAB0, 0xAAC1, 0xAADD, 0xAAF6,
    0xABE5, 0xABE8, 0xABED, 0xFB1E, 0xFE13, 0xFE52, 0xFE55, 0xFEFF, 0xFF07, 0xFF0E, 0xFF1A, 0xFF3E,
    0xFF40, 0xFF70, 0xFFE3, 0x101FD, 0x102E0, 0x10A3F, 0x10D4E, 0x10D6F, 0x10EC5, 0x11001, 0x11070,
    0x110BD, 0x110C2, 0x110CD, 0x11173, 0x111CF, 0x11234, 0x1123E, 0x11241, 0x112DF, 0x11340,
    0x113CE, 0x113D0, 0x113D2, 0x11446, 0x1145E, 0x114BA, 0x1163D, 0x116AB, 0x116AD, 0x116B7,
    0x1171D, 0x1171F, 0x1193E, 0x11943, 0x119E0, 0x11A47, 0x11B60, 0x11B66, 0x11C3F, 0x11D3A,
    0x11D47, 0x11D95, 0x11D97, 0x11DD9, 0x11F40, 0x11F42, 0x11F5A, 0x16F4F, 0x1DA75, 0x1DA84,
    0x1E08F, 0x1E2AE, 0x1E6E3, 0x1E6E6, 0x1E6F5, 0x1E6FF, 0xE0001])

end CommandScript.Text
