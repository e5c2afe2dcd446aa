import Stencil.Text.CodeRange

/-!
# Letters and decimal digits

The characters of the general categories "letter" and "decimal number", on which identifiers and
function names are built.
-/

namespace Stencil
namespace Text

/-- The letters. -/
def letters : CodeRange :=
  [(0x41, 26), (0x61, 26), (0xaa, 1), (0xb5, 1), (0xba, 1), (0xc0, 23), (0xd8, 31), (0xf8, 458),
   (0x2c6, 12), (0x2e0, 5), (0x2ec, 1), (0x2ee, 1), (0x370, 5), (0x376, 2), (0x37a, 4), (0x37f, 1),
   (0x386, 1), (0x388, 3), (0x38c, 1), (0x38e, 20), (0x3a3, 83), (0x3f7, 139), (0x48a, 166),
   (0x531, 38), (0x559, 1), (0x560, 41), (0x5d0, 27), (0x5ef, 4), (0x620, 43), (0x66e, 2),
   (0x671, 99), (0x6d5, 1), (0x6e5, 2), (0x6ee, 2), (0x6fa, 3), (0x6ff, 1), (0x710, 1), (0x712, 30),
   (0x74d, 89), (0x7b1, 1), (0x7ca, 33), (0x7f4, 2), (0x7fa, 1), (0x800, 22), (0x81a, 1),
   (0x824, 1), (0x828, 1), (0x840, 25), (0x860, 11), (0x870, 24), (0x889, 6), (0x8a0, 42),
   (0x904, 54), (0x93d, 1), (0x950, 1), (0x958, 10), (0x971, 16), (0x985, 8), (0x98f, 2),
   (0x993, 22), (0x9aa, 7), (0x9b2, 1), (0x9b6, 4), (0x9bd, 1), (0x9ce, 1), (0x9dc, 2), (0x9df, 3),
   (0x9f0, 2), (0x9fc, 1), (0xa05, 6), (0xa0f, 2), (0xa13, 22), (0xa2a, 7), (0xa32, 2), (0xa35, 2),
   (0xa38, 2), (0xa59, 4), (0xa5e, 1), (0xa72, 3), (0xa85, 9), (0xa8f, 3), (0xa93, 22), (0xaaa, 7),
   (0xab2, 2), (0xab5, 5), (0xabd, 1), (0xad0, 1), (0xae0, 2), (0xaf9, 1), (0xb05, 8), (0xb0f, 2),
   (0xb13, 22), (0xb2a, 7), (0xb32, 2), (0xb35, 5), (0xb3d, 1), (0xb5c, 2), (0xb5f, 3), (0xb71, 1),
   (0xb83, 1), (0xb85, 6), (0xb8e, 3), (0xb92, 4), (0xb99, 2), (0xb9c, 1), (0xb9e, 2), (0xba3, 2),
   (0xba8, 3), (0xbae, 12), (0xbd0, 1), (0xc05, 8), (0xc0e, 3), (0xc12, 23), (0xc2a, 16),
   (0xc3d, 1), (0xc58, 3), (0xc5d, 1), (0xc60, 2), (0xc80, 1), (0xc85, 8), (0xc8e, 3), (0xc92, 23),
   (0xcaa, 10), (0xcb5, 5), (0xcbd, 1), (0xcdd, 2), (0xce0, 2), (0xcf1, 2), (0xd04, 9), (0xd0e, 3),
   (0xd12, 41), (0xd3d, 1), (0xd4e, 1), (0xd54, 3), (0xd5f, 3), (0xd7a, 6), (0xd85, 18),
   (0xd9a, 24), (0xdb3, 9), (0xdbd, 1), (0xdc0, 7), (0xe01, 48), (0xe32, 2), (0xe40, 7), (0xe81, 2),
   (0xe84, 1), (0xe86, 5), (0xe8c, 24), (0xea5, 1), (0xea7, 10), (0xeb2, 2), (0xebd, 1), (0xec0, 5),
   (0xec6, 1), (0xedc, 4), (0xf00, 1), (0xf40, 8), (0xf49, 36), (0xf88, 5), (0x1000, 43),
   (0x103f, 1), (0x1050, 6), (0x105a, 4), (0x1061, 1), (0x1065, 2), (0x106e, 3), (0x1075, 13),
   (0x108e, 1), (0x10a0, 38), (0x10c7, 1), (0x10cd, 1), (0x10d0, 43), (0x10fc, 333), (0x124a, 4),
   (0x1250, 7), (0x1258, 1), (0x125a, 4), (0x1260, 41), (0x128a, 4), (0x1290, 33), (0x12b2, 4),
   (0x12b8, 7), (0x12c0, 1), (0x12c2, 4), (0x12c8, 15), (0x12d8, 57), (0x1312, 4), (0x1318, 67),
   (0x1380, 16), (0x13a0, 86), (0x13f8, 6), (0x1401, 620), (0x166f, 17), (0x1681, 26), (0x16a0, 75),
   (0x16f1, 8), (0x1700, 18), (0x171f, 19), (0x1740, 18), (0x1760, 13), (0x176e, 3), (0x1780, 52),
   (0x17d7, 1), (0x17dc, 1), (0x1820, 89), (0x1880, 5), (0x1887, 34), (0x18aa, 1), (0x18b0, 70),
   (0x1900, 31), (0x1950, 30), (0x1970, 5), (0x1980, 44), (0x19b0, 26), (0x1a00, 23), (0x1a20, 53),
   (0x1aa7, 1), (0x1b05, 47), (0x1b45, 8), (0x1b83, 30), (0x1bae, 2), (0x1bba, 44), (0x1c00, 36),
   (0x1c4d, 3), (0x1c5a, 36), (0x1c80, 9), (0x1c90, 43), (0x1cbd, 3), (0x1ce9, 4), (0x1cee, 6),
   (0x1cf5, 2), (0x1cfa, 1), (0x1d00, 192), (0x1e00, 278), (0x1f18, 6), (0x1f20, 38), (0x1f48, 6),
   (0x1f50, 8), (0x1f59, 1), (0x1f5b, 1), (0x1f5d, 1), (0x1f5f, 31), (0x1f80, 53), (0x1fb6, 7),
   (0x1fbe, 1), (0x1fc2, 3), (0x1fc6, 7), (0x1fd0, 4), (0x1fd6, 6), (0x1fe0, 13), (0x1ff2, 3),
   (0x1ff6, 7), (0x2071, 1), (0x207f, 1), (0x2090, 13), (0x2102, 1), (0x2107, 1), (0x210a, 10),
   (0x2115, 1), (0x2119, 5), (0x2124, 1), (0x2126, 1), (0x2128, 1), (0x212a, 4), (0x212f, 11),
   (0x213c, 4), (0x2145, 5), (0x214e, 1), (0x2183, 2), (0x2c00, 229), (0x2ceb, 4), (0x2cf2, 2),
   (0x2d00, 38), (0x2d27, 1), (0x2d2d, 1), (0x2d30, 56), (0x2d6f, 1), (0x2d80, 23), (0x2da0, 7),
   (0x2da8, 7), (0x2db0, 7), (0x2db8, 7), (0x2dc0, 7), (0x2dc8, 7), (0x2dd0, 7), (0x2dd8, 7),
   (0x2e2f, 1), (0x3005, 2), (0x3031, 5), (0x303b, 2), (0x3041, 86), (0x309d, 3), (0x30a1, 90),
   (0x30fc, 4), (0x3105, 43), (0x3131, 94), (0x31a0, 32), (0x31f0, 16), (0x3400, 6592),
   (0x4e00, 22157), (0xa4d0, 46), (0xa500, 269), (0xa610, 16), (0xa62a, 2), (0xa640, 47),
   (0xa67f, 31), (0xa6a0, 70), (0xa717, 9), (0xa722, 103), (0xa78b, 64), (0xa7d0, 2), (0xa7d3, 1),
   (0xa7d5, 5), (0xa7f2, 16), (0xa803, 3), (0xa807, 4), (0xa80c, 23), (0xa840, 52), (0xa882, 50),
   (0xa8f2, 6), (0xa8fb, 1), (0xa8fd, 2), (0xa90a, 28), (0xa930, 23), (0xa960, 29), (0xa984, 47),
   (0xa9cf, 1), (0xa9e0, 5), (0xa9e6, 10), (0xa9fa, 5), (0xaa00, 41), (0xaa40, 3), (0xaa44, 8),
   (0xaa60, 23), (0xaa7a, 1), (0xaa7e, 50), (0xaab1, 1), (0xaab5, 2), (0xaab9, 5), (0xaac0, 1),
   (0xaac2, 1), (0xaadb, 3), (0xaae0, 11), (0xaaf2, 3), (0xab01, 6), (0xab09, 6), (0xab11, 6),
   (0xab20, 7), (0xab28, 7), (0xab30, 43), (0xab5c, 14), (0xab70, 115), (0xac00, 11172),
   (0xd7b0, 23), (0xd7cb, 49), (0xf900, 366), (0xfa70, 106), (0xfb00, 7), (0xfb13, 5), (0xfb1d, 1),
   (0xfb1f, 10), (0xfb2a, 13), (0xfb38, 5), (0xfb3e, 1), (0xfb40, 2), (0xfb43, 2), (0xfb46, 108),
   (0xfbd3, 363), (0xfd50, 64), (0xfd92, 54), (0xfdf0, 12), (0xfe70, 5), (0xfe76, 135),
   (0xff21, 26), (0xff41, 26), (0xff66, 89), (0xffc2, 6), (0xffca, 6), (0xffd2, 6), (0xffda, 3),
   (0x10000, 12), (0x1000d, 26), (0x10028, 19), (0x1003c, 2), (0x1003f, 15), (0x10050, 14),
   (0x10080, 123), (0x10280, 29), (0x102a0, 49), (0x10300, 32), (0x1032d, 20), (0x10342, 8),
   (0x10350, 38), (0x10380, 30), (0x103a0, 36), (0x103c8, 8), (0x10400, 158), (0x104b0, 36),
   (0x104d8, 36), (0x10500, 40), (0x10530, 52), (0x10570, 11), (0x1057c, 15), (0x1058c, 7),
   (0x10594, 2), (0x10597, 11), (0x105a3, 15), (0x105b3, 7), (0x105bb, 2), (0x10600, 311),
   (0x10740, 22), (0x10760, 8), (0x10780, 6), (0x10787, 42), (0x107b2, 9), (0x10800, 6),
   (0x10808, 1), (0x1080a, 44), (0x10837, 2), (0x1083c, 1), (0x1083f, 23), (0x10860, 23),
   (0x10880, 31), (0x108e0, 19), (0x108f4, 2), (0x10900, 22), (0x10920, 26), (0x10980, 56),
   (0x109be, 2), (0x10a00, 1), (0x10a10, 4), (0x10a15, 3), (0x10a19, 29), (0x10a60, 29),
   (0x10a80, 29), (0x10ac0, 8), (0x10ac9, 28), (0x10b00, 54), (0x10b40, 22), (0x10b60, 19),
   (0x10b80, 18), (0x10c00, 73), (0x10c80, 51), (0x10cc0, 51), (0x10d00, 36), (0x10e80, 42),
   (0x10eb0, 2), (0x10f00, 29), (0x10f27, 1), (0x10f30, 22), (0x10f70, 18), (0x10fb0, 21),
   (0x10fe0, 23), (0x11003, 53), (0x11071, 2), (0x11075, 1), (0x11083, 45), (0x110d0, 25),
   (0x11103, 36), (0x11144, 1), (0x11147, 1), (0x11150, 35), (0x11176, 1), (0x11183, 48),
   (0x111c1, 4), (0x111da, 1), (0x111dc, 1), (0x11200, 18), (0x11213, 25), (0x1123f, 2),
   (0x11280, 7), (0x11288, 1), (0x1128a, 4), (0x1128f, 15), (0x1129f, 10), (0x112b0, 47),
   (0x11305, 8), (0x1130f, 2), (0x11313, 22), (0x1132a, 7), (0x11332, 2), (0x11335, 5),
   (0x1133d, 1), (0x11350, 1), (0x1135d, 5), (0x11400, 53), (0x11447, 4), (0x1145f, 3),
   (0x11480, 48), (0x114c4, 2), (0x114c7, 1), (0x11580, 47), (0x115d8, 4), (0x11600, 48),
   (0x11644, 1), (0x11680, 43), (0x116b8, 1), (0x11700, 27), (0x11740, 7), (0x11800, 44),
   (0x118a0, 64), (0x118ff, 8), (0x11909, 1), (0x1190c, 8), (0x11915, 2), (0x11918, 24),
   (0x1193f, 1), (0x11941, 1), (0x119a0, 8), (0x119aa, 39), (0x119e1, 1), (0x119e3, 1),
   (0x11a00, 1), (0x11a0b, 40), (0x11a3a, 1), (0x11a50, 1), (0x11a5c, 46), (0x11a9d, 1),
   (0x11ab0, 73), (0x11c00, 9), (0x11c0a, 37), (0x11c40, 1), (0x11c72, 30), (0x11d00, 7),
   (0x11d08, 2), (0x11d0b, 38), (0x11d46, 1), (0x11d60, 6), (0x11d67, 2), (0x11d6a, 32),
   (0x11d98, 1), (0x11ee0, 19), (0x11f02, 1), (0x11f04, 13), (0x11f12, 34), (0x11fb0, 1),
   (0x12000, 922), (0x12480, 196), (0x12f90, 97), (0x13000, 1072), (0x13441, 6), (0x14400, 583),
   (0x16800, 569), (0x16a40, 31), (0x16a70, 79), (0x16ad0, 30), (0x16b00, 48), (0x16b40, 4),
   (0x16b63, 21), (0x16b7d, 19), (0x16e40, 64), (0x16f00, 75), (0x16f50, 1), (0x16f93, 13),
   (0x16fe0, 2), (0x16fe3, 1), (0x17000, 6136), (0x18800, 1238), (0x18d00, 9), (0x1aff0, 4),
   (0x1aff5, 7), (0x1affd, 2), (0x1b000, 291), (0x1b132, 1), (0x1b150, 3), (0x1b155, 1),
   (0x1b164, 4), (0x1b170, 396), (0x1bc00, 107), (0x1bc70, 13), (0x1bc80, 9), (0x1bc90, 10),
   (0x1d400, 85), (0x1d456, 71), (0x1d49e, 2), (0x1d4a2, 1), (0x1d4a5, 2), (0x1d4a9, 4),
   (0x1d4ae, 12), (0x1d4bb, 1), (0x1d4bd, 7), (0x1d4c5, 65), (0x1d507, 4), (0x1d50d, 8),
   (0x1d516, 7), (0x1d51e, 28), (0x1d53b, 4), (0x1d540, 5), (0x1d546, 1), (0x1d54a, 7),
   (0x1d552, 340), (0x1d6a8, 25), (0x1d6c2, 25), (0x1d6dc, 31), (0x1d6fc, 25), (0x1d716, 31),
   (0x1d736, 25), (0x1d750, 31), (0x1d770, 25), (0x1d78a, 31), (0x1d7aa, 25), (0x1d7c4, 8),
   (0x1df00, 31), (0x1df25, 6), (0x1e030, 62), (0x1e100, 45), (0x1e137, 7), (0x1e14e, 1),
   (0x1e290, 30), (0x1e2c0, 44), (0x1e4d0, 28), (0x1e7e0, 7), (0x1e7e8, 4), (0x1e7ed, 2),
   (0x1e7f0, 15), (0x1e800, 197), (0x1e900, 68), (0x1e94b, 1), (0x1ee00, 4), (0x1ee05, 27),
   (0x1ee21, 2), (0x1ee24, 1), (0x1ee27, 1), (0x1ee29, 10), (0x1ee34, 4), (0x1ee39, 1),
   (0x1ee3b, 1), (0x1ee42, 1), (0x1ee47, 1), (0x1ee49, 1), (0x1ee4b, 1), (0x1ee4d, 3), (0x1ee51, 2),
   (0x1ee54, 1), (0x1ee57, 1), (0x1ee59, 1), (0x1ee5b, 1), (0x1ee5d, 1), (0x1ee5f, 1), (0x1ee61, 2),
   (0x1ee64, 1), (0x1ee67, 4), (0x1ee6c, 7), (0x1ee74, 4), (0x1ee79, 4), (0x1ee7e, 1),
   (0x1ee80, 10), (0x1ee8b, 17), (0x1eea1, 3), (0x1eea5, 5), (0x1eeab, 17), (0x20000, 42720),
   (0x2a700, 4154), (0x2b740, 222), (0x2b820, 5762), (0x2ceb0, 7473), (0x2f800, 542),
   (0x30000, 4939), (0x31350, 4192)]

/-- The decimal digits of all scripts, ten in a row from each zero on. -/
def digits : CodeRange :=
  [0x30, 0x660, 0x6f0, 0x7c0, 0x966, 0x9e6, 0xa66, 0xae6, 0xb66, 0xbe6, 0xc66, 0xce6, 0xd66, 0xde6,
   0xe50, 0xed0, 0xf20, 0x1040, 0x1090, 0x17e0, 0x1810, 0x1946, 0x19d0, 0x1a80, 0x1a90, 0x1b50,
   0x1bb0, 0x1c40, 0x1c50, 0xa620, 0xa8d0, 0xa900, 0xa9d0, 0xa9f0, 0xaa50, 0xabf0, 0xff10, 0x104a0,
   0x10d30, 0x11066, 0x110f0, 0x11136, 0x111d0, 0x112f0, 0x11450, 0x114d0, 0x11650, 0x116c0,
   0x11730, 0x118e0, 0x11950, 0x11c50, 0x11d50, 0x11da0, 0x11f50, 0x16a60, 0x16ac0, 0x16b50,
   0x1d7ce, 0x1d7d8, 0x1d7e2, 0x1d7ec, 0x1d7f6, 0x1e140, 0x1e2f0, 0x1e4f0, 0x1e950,
   0x1fbf0].map fun n => (n, 10)

/-- Whether a character is a letter. -/
def isLetter (c : Char) : Bool := letters.member c

/-- Whether a character is a decimal digit of some script. -/
def isDigit (c : Char) : Bool := digits.member c

end Text
end Stencil
