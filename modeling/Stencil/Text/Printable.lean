import Stencil.Text.CodeRange

/-!
# Printable characters

The characters that a quoted text shows as themselves: letters, marks, numbers, punctuation and
symbols, and the blank.  Every other character is written as an escape.
-/

namespace Stencil
namespace Text

/-- Letters, marks, numbers, punctuation and symbols. -/
def graphic : CodeRange :=
  [(0x21, 94), (0xa1, 12), (0xae, 714), (0x37a, 6), (0x384, 7), (0x38c, 1), (0x38e, 20),
   (0x3a3, 397), (0x531, 38), (0x559, 50), (0x58d, 3), (0x591, 55), (0x5d0, 27), (0x5ef, 6),
   (0x606, 22), (0x61d, 192), (0x6de, 48), (0x710, 59), (0x74d, 101), (0x7c0, 59), (0x7fd, 49),
   (0x830, 15), (0x840, 28), (0x85e, 1), (0x860, 11), (0x870, 31), (0x898, 74), (0x8e3, 161),
   (0x985, 8), (0x98f, 2), (0x993, 22), (0x9aa, 7), (0x9b2, 1), (0x9b6, 4), (0x9bc, 9), (0x9c7, 2),
   (0x9cb, 4), (0x9d7, 1), (0x9dc, 2), (0x9df, 5), (0x9e6, 25), (0xa01, 3), (0xa05, 6), (0xa0f, 2),
   (0xa13, 22), (0xa2a, 7), (0xa32, 2), (0xa35, 2), (0xa38, 2), (0xa3c, 1), (0xa3e, 5), (0xa47, 2),
   (0xa4b, 3), (0xa51, 1), (0xa59, 4), (0xa5e, 1), (0xa66, 17), (0xa81, 3), (0xa85, 9), (0xa8f, 3),
   (0xa93, 22), (0xaaa, 7), (0xab2, 2), (0xab5, 5), (0xabc, 10), (0xac7, 3), (0xacb, 3), (0xad0, 1),
   (0xae0, 4), (0xae6, 12), (0xaf9, 7), (0xb01, 3), (0xb05, 8), (0xb0f, 2), (0xb13, 22), (0xb2a, 7),
   (0xb32, 2), (0xb35, 5), (0xb3c, 9), (0xb47, 2), (0xb4b, 3), (0xb55, 3), (0xb5c, 2), (0xb5f, 5),
   (0xb66, 18), (0xb82, 2), (0xb85, 6), (0xb8e, 3), (0xb92, 4), (0xb99, 2), (0xb9c, 1), (0xb9e, 2),
   (0xba3, 2), (0xba8, 3), (0xbae, 12), (0xbbe, 5), (0xbc6, 3), (0xbca, 4), (0xbd0, 1), (0xbd7, 1),
   (0xbe6, 21), (0xc00, 13), (0xc0e, 3), (0xc12, 23), (0xc2a, 16), (0xc3c, 9), (0xc46, 3),
   (0xc4a, 4), (0xc55, 2), (0xc58, 3), (0xc5d, 1), (0xc60, 4), (0xc66, 10), (0xc77, 22), (0xc8e, 3),
   (0xc92, 23), (0xcaa, 10), (0xcb5, 5), (0xcbc, 9), (0xcc6, 3), (0xcca, 4), (0xcd5, 2), (0xcdd, 2),
   (0xce0, 4), (0xce6, 10), (0xcf1, 3), (0xd00, 13), (0xd0e, 3), (0xd12, 51), (0xd46, 3),
   (0xd4a, 6), (0xd54, 16), (0xd66, 26), (0xd81, 3), (0xd85, 18), (0xd9a, 24), (0xdb3, 9),
   (0xdbd, 1), (0xdc0, 7), (0xdca, 1), (0xdcf, 6), (0xdd6, 1), (0xdd8, 8), (0xde6, 10), (0xdf2, 3),
   (0xe01, 58), (0xe3f, 29), (0xe81, 2), (0xe84, 1), (0xe86, 5), (0xe8c, 24), (0xea5, 1),
   (0xea7, 23), (0xec0, 5), (0xec6, 1), (0xec8, 7), (0xed0, 10), (0xedc, 4), (0xf00, 72),
   (0xf49, 36), (0xf71, 39), (0xf99, 36), (0xfbe, 15), (0xfce, 13), (0x1000, 198), (0x10c7, 1),
   (0x10cd, 1), (0x10d0, 377), (0x124a, 4), (0x1250, 7), (0x1258, 1), (0x125a, 4), (0x1260, 41),
   (0x128a, 4), (0x1290, 33), (0x12b2, 4), (0x12b8, 7), (0x12c0, 1), (0x12c2, 4), (0x12c8, 15),
   (0x12d8, 57), (0x1312, 4), (0x1318, 67), (0x135d, 32), (0x1380, 26), (0x13a0, 86), (0x13f8, 6),
   (0x1400, 640), (0x1681, 28), (0x16a0, 89), (0x1700, 22), (0x171f, 24), (0x1740, 20),
   (0x1760, 13), (0x176e, 3), (0x1772, 2), (0x1780, 94), (0x17e0, 10), (0x17f0, 10), (0x1800, 14),
   (0x180f, 11), (0x1820, 89), (0x1880, 43), (0x18b0, 70), (0x1900, 31), (0x1920, 12), (0x1930, 12),
   (0x1940, 1), (0x1944, 42), (0x1970, 5), (0x1980, 44), (0x19b0, 26), (0x19d0, 11), (0x19de, 62),
   (0x1a1e, 65), (0x1a60, 29), (0x1a7f, 11), (0x1a90, 10), (0x1aa0, 14), (0x1ab0, 31), (0x1b00, 77),
   (0x1b50, 47), (0x1b80, 116), (0x1bfc, 60), (0x1c3b, 15), (0x1c4d, 60), (0x1c90, 43),
   (0x1cbd, 11), (0x1cd0, 43), (0x1d00, 534), (0x1f18, 6), (0x1f20, 38), (0x1f48, 6), (0x1f50, 8),
   (0x1f59, 1), (0x1f5b, 1), (0x1f5d, 1), (0x1f5f, 31), (0x1f80, 53), (0x1fb6, 15), (0x1fc6, 14),
   (0x1fd6, 6), (0x1fdd, 19), (0x1ff2, 3), (0x1ff6, 9), (0x2010, 24), (0x2030, 47), (0x2070, 2),
   (0x2074, 27), (0x2090, 13), (0x20a0, 33), (0x20d0, 33), (0x2100, 140), (0x2190, 663),
   (0x2440, 11), (0x2460, 1812), (0x2b76, 32), (0x2b97, 349), (0x2cf9, 45), (0x2d27, 1),
   (0x2d2d, 1), (0x2d30, 56), (0x2d6f, 2), (0x2d7f, 24), (0x2da0, 7), (0x2da8, 7), (0x2db0, 7),
   (0x2db8, 7), (0x2dc0, 7), (0x2dc8, 7), (0x2dd0, 7), (0x2dd8, 7), (0x2de0, 126), (0x2e80, 26),
   (0x2e9b, 89), (0x2f00, 214), (0x2ff0, 12), (0x3001, 63), (0x3041, 86), (0x3099, 103),
   (0x3105, 43), (0x3131, 94), (0x3190, 84), (0x31f0, 47), (0x3220, 29293), (0xa490, 55),
   (0xa4d0, 348), (0xa640, 184), (0xa700, 203), (0xa7d0, 2), (0xa7d3, 1), (0xa7d5, 5), (0xa7f2, 59),
   (0xa830, 10), (0xa840, 56), (0xa880, 70), (0xa8ce, 12), (0xa8e0, 116), (0xa95f, 30),
   (0xa980, 78), (0xa9cf, 11), (0xa9de, 33), (0xaa00, 55), (0xaa40, 14), (0xaa50, 10),
   (0xaa5c, 103), (0xaadb, 28), (0xab01, 6), (0xab09, 6), (0xab11, 6), (0xab20, 7), (0xab28, 7),
   (0xab30, 60), (0xab70, 126), (0xabf0, 10), (0xac00, 11172), (0xd7b0, 23), (0xd7cb, 49),
   (0xf900, 366), (0xfa70, 106), (0xfb00, 7), (0xfb13, 5), (0xfb1d, 26), (0xfb38, 5), (0xfb3e, 1),
   (0xfb40, 2), (0xfb43, 2), (0xfb46, 125), (0xfbd3, 445), (0xfd92, 54), (0xfdcf, 1), (0xfdf0, 42),
   (0xfe20, 51), (0xfe54, 19), (0xfe68, 4), (0xfe70, 5), (0xfe76, 135), (0xff01, 190), (0xffc2, 6),
   (0xffca, 6), (0xffd2, 6), (0xffda, 3), (0xffe0, 7), (0xffe8, 7), (0xfffc, 2), (0x10000, 12),
   (0x1000d, 26), (0x10028, 19), (0x1003c, 2), (0x1003f, 15), (0x10050, 14), (0x10080, 123),
   (0x10100, 3), (0x10107, 45), (0x10137, 88), (0x10190, 13), (0x101a0, 1), (0x101d0, 46),
   (0x10280, 29), (0x102a0, 49), (0x102e0, 28), (0x10300, 36), (0x1032d, 30), (0x10350, 43),
   (0x10380, 30), (0x1039f, 37), (0x103c8, 14), (0x10400, 158), (0x104a0, 10), (0x104b0, 36),
   (0x104d8, 36), (0x10500, 40), (0x10530, 52), (0x1056f, 12), (0x1057c, 15), (0x1058c, 7),
   (0x10594, 2), (0x10597, 11), (0x105a3, 15), (0x105b3, 7), (0x105bb, 2), (0x10600, 311),
   (0x10740, 22), (0x10760, 8), (0x10780, 6), (0x10787, 42), (0x107b2, 9), (0x10800, 6),
   (0x10808, 1), (0x1080a, 44), (0x10837, 2), (0x1083c, 1), (0x1083f, 23), (0x10857, 72),
   (0x108a7, 9), (0x108e0, 19), (0x108f4, 2), (0x108fb, 33), (0x1091f, 27), (0x1093f, 1),
   (0x10980, 56), (0x109bc, 20), (0x109d2, 50), (0x10a05, 2), (0x10a0c, 8), (0x10a15, 3),
   (0x10a19, 29), (0x10a38, 3), (0x10a3f, 10), (0x10a50, 9), (0x10a60, 64), (0x10ac0, 39),
   (0x10aeb, 12), (0x10b00, 54), (0x10b39, 29), (0x10b58, 27), (0x10b78, 26), (0x10b99, 4),
   (0x10ba9, 7), (0x10c00, 73), (0x10c80, 51), (0x10cc0, 51), (0x10cfa, 46), (0x10d30, 10),
   (0x10e60, 31), (0x10e80, 42), (0x10eab, 3), (0x10eb0, 2), (0x10efd, 43), (0x10f30, 42),
   (0x10f70, 26), (0x10fb0, 28), (0x10fe0, 23), (0x11000, 78), (0x11052, 36), (0x1107f, 62),
   (0x110be, 5), (0x110d0, 25), (0x110f0, 10), (0x11100, 53), (0x11136, 18), (0x11150, 39),
   (0x11180, 96), (0x111e1, 20), (0x11200, 18), (0x11213, 47), (0x11280, 7), (0x11288, 1),
   (0x1128a, 4), (0x1128f, 15), (0x1129f, 11), (0x112b0, 59), (0x112f0, 10), (0x11300, 4),
   (0x11305, 8), (0x1130f, 2), (0x11313, 22), (0x1132a, 7), (0x11332, 2), (0x11335, 5),
   (0x1133b, 10), (0x11347, 2), (0x1134b, 3), (0x11350, 1), (0x11357, 1), (0x1135d, 7),
   (0x11366, 7), (0x11370, 5), (0x11400, 92), (0x1145d, 5), (0x11480, 72), (0x114d0, 10),
   (0x11580, 54), (0x115b8, 38), (0x11600, 69), (0x11650, 10), (0x11660, 13), (0x11680, 58),
   (0x116c0, 10), (0x11700, 27), (0x1171d, 15), (0x11730, 23), (0x11800, 60), (0x118a0, 83),
   (0x118ff, 8), (0x11909, 1), (0x1190c, 8), (0x11915, 2), (0x11918, 30), (0x11937, 2),
   (0x1193b, 12), (0x11950, 10), (0x119a0, 8), (0x119aa, 46), (0x119da, 11), (0x11a00, 72),
   (0x11a50, 83), (0x11ab0, 73), (0x11b00, 10), (0x11c00, 9), (0x11c0a, 45), (0x11c38, 14),
   (0x11c50, 29), (0x11c70, 32), (0x11c92, 22), (0x11ca9, 14), (0x11d00, 7), (0x11d08, 2),
   (0x11d0b, 44), (0x11d3a, 1), (0x11d3c, 2), (0x11d3f, 9), (0x11d50, 10), (0x11d60, 6),
   (0x11d67, 2), (0x11d6a, 37), (0x11d90, 2), (0x11d93, 6), (0x11da0, 10), (0x11ee0, 25),
   (0x11f00, 17), (0x11f12, 41), (0x11f3e, 28), (0x11fb0, 1), (0x11fc0, 50), (0x11fff, 923),
   (0x12400, 111), (0x12470, 5), (0x12480, 196), (0x12f90, 99), (0x13000, 1072), (0x13440, 22),
   (0x14400, 583), (0x16800, 569), (0x16a40, 31), (0x16a60, 10), (0x16a6e, 81), (0x16ac0, 10),
   (0x16ad0, 30), (0x16af0, 6), (0x16b00, 70), (0x16b50, 10), (0x16b5b, 7), (0x16b63, 21),
   (0x16b7d, 19), (0x16e40, 91), (0x16f00, 75), (0x16f4f, 57), (0x16f8f, 17), (0x16fe0, 5),
   (0x16ff0, 2), (0x17000, 6136), (0x18800, 1238), (0x18d00, 9), (0x1aff0, 4), (0x1aff5, 7),
   (0x1affd, 2), (0x1b000, 291), (0x1b132, 1), (0x1b150, 3), (0x1b155, 1), (0x1b164, 4),
   (0x1b170, 396), (0x1bc00, 107), (0x1bc70, 13), (0x1bc80, 9), (0x1bc90, 10), (0x1bc9c, 4),
   (0x1cf00, 46), (0x1cf30, 23), (0x1cf50, 116), (0x1d000, 246), (0x1d100, 39), (0x1d129, 74),
   (0x1d17b, 112), (0x1d200, 70), (0x1d2c0, 20), (0x1d2e0, 20), (0x1d300, 87), (0x1d360, 25),
   (0x1d400, 85), (0x1d456, 71), (0x1d49e, 2), (0x1d4a2, 1), (0x1d4a5, 2), (0x1d4a9, 4),
   (0x1d4ae, 12), (0x1d4bb, 1), (0x1d4bd, 7), (0x1d4c5, 65), (0x1d507, 4), (0x1d50d, 8),
   (0x1d516, 7), (0x1d51e, 28), (0x1d53b, 4), (0x1d540, 5), (0x1d546, 1), (0x1d54a, 7),
   (0x1d552, 340), (0x1d6a8, 292), (0x1d7ce, 702), (0x1da9b, 5), (0x1daa1, 15), (0x1df00, 31),
   (0x1df25, 6), (0x1e000, 7), (0x1e008, 17), (0x1e01b, 7), (0x1e023, 2), (0x1e026, 5),
   (0x1e030, 62), (0x1e08f, 1), (0x1e100, 45), (0x1e130, 14), (0x1e140, 10), (0x1e14e, 2),
   (0x1e290, 31), (0x1e2c0, 58), (0x1e2ff, 1), (0x1e4d0, 42), (0x1e7e0, 7), (0x1e7e8, 4),
   (0x1e7ed, 2), (0x1e7f0, 15), (0x1e800, 197), (0x1e8c7, 16), (0x1e900, 76), (0x1e950, 10),
   (0x1e95e, 2), (0x1ec71, 68), (0x1ed01, 61), (0x1ee00, 4), (0x1ee05, 27), (0x1ee21, 2),
   (0x1ee24, 1), (0x1ee27, 1), (0x1ee29, 10), (0x1ee34, 4), (0x1ee39, 1), (0x1ee3b, 1),
   (0x1ee42, 1), (0x1ee47, 1), (0x1ee49, 1), (0x1ee4b, 1), (0x1ee4d, 3), (0x1ee51, 2), (0x1ee54, 1),
   (0x1ee57, 1), (0x1ee59, 1), (0x1ee5b, 1), (0x1ee5d, 1), (0x1ee5f, 1), (0x1ee61, 2), (0x1ee64, 1),
   (0x1ee67, 4), (0x1ee6c, 7), (0x1ee74, 4), (0x1ee79, 4), (0x1ee7e, 1), (0x1ee80, 10),
   (0x1ee8b, 17), (0x1eea1, 3), (0x1eea5, 5), (0x1eeab, 17), (0x1eef0, 2), (0x1f000, 44),
   (0x1f030, 100), (0x1f0a0, 15), (0x1f0b1, 15), (0x1f0c1, 15), (0x1f0d1, 37), (0x1f100, 174),
   (0x1f1e6, 29), (0x1f210, 44), (0x1f240, 9), (0x1f250, 2), (0x1f260, 6), (0x1f300, 984),
   (0x1f6dc, 17), (0x1f6f0, 13), (0x1f700, 119), (0x1f77b, 95), (0x1f7e0, 12), (0x1f7f0, 1),
   (0x1f800, 12), (0x1f810, 56), (0x1f850, 10), (0x1f860, 40), (0x1f890, 30), (0x1f8b0, 2),
   (0x1f900, 340), (0x1fa60, 14), (0x1fa70, 13), (0x1fa80, 9), (0x1fa90, 46), (0x1fabf, 7),
   (0x1face, 14), (0x1fae0, 9), (0x1faf0, 9), (0x1fb00, 147), (0x1fb94, 55), (0x1fbf0, 10),
   (0x20000, 42720), (0x2a700, 4154), (0x2b740, 222), (0x2b820, 5762), (0x2ceb0, 7473),
   (0x2f800, 542), (0x30000, 4939), (0x31350, 4192), (0xe0100, 240)]

/-- Whether a quoted text shows the character as itself. -/
def isPrintable (c : Char) : Bool := c == ' ' || graphic.member c

end Text
end Stencil
