import TreeGlob.Unicode.Alphabetic
import TreeGlob.Unicode.Numeric
import TreeGlob.Unicode.WhiteSpace
import TreeGlob.Unicode.Lowercase
import TreeGlob.Unicode.Uppercase
import TreeGlob.Unicode.ToLower
import TreeGlob.Unicode.ToUpper

/-!
The properties and case images of characters that bracket expressions and case-insensitive matching
ask for. Each is the Unicode property of its name, for every character, not only for ASCII.
-/
namespace TreeGlob.Unicode

def isAlphabetic (c : Char) : Bool := inTable alphabeticRuns c

/-- The character is a number of some kind: a digit, a letter number such as a Roman numeral, or
another numeral such as a fraction. -/
def isNumeric (c : Char) : Bool := inTable numericRuns c

def isAlphanumeric (c : Char) : Bool := isAlphabetic c || isNumeric c

def isWhiteSpace (c : Char) : Bool := inTable whiteSpaceRuns c

def isLowercase (c : Char) : Bool := inTable lowercaseRuns c

def isUppercase (c : Char) : Bool := inTable uppercaseRuns c

/-- The character is a control code: the general category Cc, which is fixed for all time. -/
def isControl (c : Char) : Bool := c.toNat ≤ 0x1F || (0x7F ≤ c.toNat && c.toNat ≤ 0x9F)

/-- The lower case image of a character; usually one character, for `İ` two. -/
def toLower (c : Char) : List Char := image lowerExpansions lowerShifts c

/-- The upper case image of a character; usually one character, for `ß` and ligatures several. -/
def toUpper (c : Char) : List Char := image upperExpansions upperShifts c

end TreeGlob.Unicode
