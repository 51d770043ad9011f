/-!
# Characters of ASCII by name

The bytes that the formats of this library give a meaning to. They are
abbreviations, so a proof sees the byte, and they may stand in patterns.
-/

namespace DeclTags

namespace Ascii

/-- The end of a line. -/
@[match_pattern] abbrev lineFeed : UInt8 := 0x0A

/-- What may stand before the end of a line. -/
@[match_pattern] abbrev carriageReturn : UInt8 := 0x0D

/-- A double quote. -/
@[match_pattern] abbrev quote : UInt8 := 0x22

/-- A star. -/
@[match_pattern] abbrev star : UInt8 := 0x2A

/-- A plus sign. -/
@[match_pattern] abbrev plus : UInt8 := 0x2B

/-- A comma. -/
@[match_pattern] abbrev comma : UInt8 := 0x2C

/-- A dash, which is also the minus sign. -/
@[match_pattern] abbrev dash : UInt8 := 0x2D

/-- A dot. -/
@[match_pattern] abbrev dot : UInt8 := 0x2E

/-- A slash. -/
@[match_pattern] abbrev slash : UInt8 := 0x2F

/-- The digit zero. -/
@[match_pattern] abbrev zero : UInt8 := 0x30

/-- A colon. -/
@[match_pattern] abbrev colon : UInt8 := 0x3A

/-- A semicolon. -/
@[match_pattern] abbrev semicolon : UInt8 := 0x3B

/-- An opening bracket. -/
@[match_pattern] abbrev openBracket : UInt8 := 0x5B

/-- A backslash. -/
@[match_pattern] abbrev backslash : UInt8 := 0x5C

/-- A closing bracket. -/
@[match_pattern] abbrev closeBracket : UInt8 := 0x5D

/-- An opening brace. -/
@[match_pattern] abbrev openBrace : UInt8 := 0x7B

/-- A closing brace. -/
@[match_pattern] abbrev closeBrace : UInt8 := 0x7D

end Ascii

end DeclTags
